import Tinyweb.WorkerPool

/-!
# What becomes of an accepted socket

The slots of the queue hold the sockets that were put in and not taken out, in this order, and each socket that was
taken out is with one worker or has been served (`History`).  As long as the server runs, every accepted socket gets
into the queue.
-/

namespace Tinyweb.Pool

open Clib Transitions

variable {α : Type} {c c' : Context α} {pre post ws ws' : List (Worker α)} {w w' : Worker α} {so : α}

structure History (c : Context α) (ws : List (Worker α)) : Prop where
  queue : ∃ l, c.queue.Holds l ∧ c.queued = c.taken ++ l
  taken : c.taken.Perm (c.served ++ ws.filterMap Worker.client)
  accepted : c.stopFlag = 0 → c.accepted = c.queued ++ c.master.hand

/-- A step in which no socket changes hands. -/
theorem History.keep (h : History c ws) (hqueue : c'.queue = c.queue) (hqueued : c'.queued = c.queued)
    (htaken : c'.taken = c.taken) (hserved : c'.served = c.served)
    (hclients : ws'.filterMap Worker.client = ws.filterMap Worker.client)
    (haccepted : c'.stopFlag = 0 → c.stopFlag = 0 ∧ c'.accepted = c.accepted ∧ c'.master.hand = c.master.hand) :
    History c' ws' where
  queue := by
    rw [hqueue, hqueued, htaken]
    exact h.queue
  taken := by
    rw [htaken, hserved, hclients]
    exact h.taken
  accepted hstop := by
    obtain ⟨hstop, haccepted, hhand⟩ := haccepted hstop
    rw [haccepted, hqueued, hhand]
    exact h.accepted hstop

theorem clients_split : ((pre ++ w :: post).filterMap Worker.client).Perm
    (w.client.toList ++ (pre ++ post).filterMap Worker.client) := by
  rw [List.filterMap_append, List.filterMap_cons, List.filterMap_append]
  cases w.client with
  | none => exact List.Perm.refl _
  | some so => exact List.perm_middle

theorem clients_replace (hclient : w'.client = w.client) :
    (pre ++ w' :: post).filterMap Worker.client = (pre ++ w :: post).filterMap Worker.client := by
  rw [List.filterMap_append, List.filterMap_cons, List.filterMap_append, List.filterMap_cons, hclient]

/-- The worker has taken the oldest socket of the queue. -/
theorem History.takeStep (h : History c (pre ++ w :: post)) (hclient : w.client = none) {queue : Ring α 20} {m : Bool}
    (htake : c.queue.take = some (so, queue)) :
    History { c with queue := queue, mutex := m, master := c.master.signalEmpty, taken := c.taken ++ [so] }
      (pre ++ ⟨.check, some so⟩ :: post) where
  queue := by
    obtain ⟨l, hholds, hqueued⟩ := h.queue
    cases l with
    | nil =>
      have hsize := Ring.size_take htake
      rw [hholds.size_eq, List.length_nil] at hsize
      omega
    | cons x l =>
      obtain ⟨r, hr, hrest⟩ := hholds.take
      rw [htake] at hr
      cases hr
      exact ⟨l, hrest, by rw [hqueued, List.append_assoc]; rfl⟩
  taken := by
    have hothers : c.taken.Perm (c.served ++ (pre ++ post).filterMap Worker.client) := by
      refine h.taken.trans (List.Perm.append_left _ ?_)
      simpa only [hclient, Option.toList_none, List.nil_append] using clients_split (w := w)
    refine (hothers.append_right [so]).trans ?_
    rw [List.append_assoc]
    refine List.Perm.append_left _ ?_
    exact List.perm_append_comm.trans (clients_split (w := ⟨.check, some so⟩)).symm
  accepted := by
    simp only [MasterPc.hand_signalEmpty]
    exact h.accepted

/-- The worker has closed the connection. -/
theorem History.serveStep (h : History c (pre ++ w :: post)) :
    History { c with served := c.served ++ w.client.toList } (pre ++ ⟨.lock, none⟩ :: post) where
  queue := h.queue
  taken := by
    refine (h.taken.trans (clients_split.append_left _)).trans ?_
    rw [← List.append_assoc]
    exact (clients_split (w := ⟨.lock, none⟩)).symm.append_left _
  accepted := h.accepted

theorem History.workerStep (hinv : Inv c (pre ++ w :: post)) (h : History c (pre ++ w :: post))
    (hstep : w.step c = some (c', w')) : History c' (pre ++ w' :: post) := by
  have hok := hinv.worker w mem_self
  unfold Worker.step at hstep
  cases hpc : w.pc with
  | lock | woken =>
    simp only [hpc] at hstep
    split at hstep
    next => cases hstep
    next =>
      cases hstep
      exact h.keep rfl rfl rfl rfl (clients_replace rfl) fun hstop => ⟨hstop, rfl, rfl⟩
  | test | sleep | check =>
    simp only [hpc] at hstep
    cases hstep
    exact h.keep rfl rfl rfl rfl (clients_replace rfl) fun hstop => ⟨hstop, rfl, rfl⟩
  | waiting | done =>
    simp only [hpc] at hstep
    cases hstep
  | take =>
    simp only [hpc, Worker.Ok] at hstep hok
    split at hstep
    next so queue htake =>
      cases hstep
      exact h.takeStep hok.1 htake
    next =>
      cases hstep
      exact h.keep rfl rfl rfl rfl (clients_replace rfl) fun hstop => ⟨hstop, rfl, c.master.hand_signalEmpty⟩
  | serve =>
    simp only [hpc] at hstep
    cases hstep
    exact h.serveStep
  | exit =>
    simp only [hpc] at hstep
    split at hstep
    next => cases hstep
    next =>
      cases hstep
      exact h.keep rfl rfl rfl rfl (clients_replace rfl) fun hstop => ⟨hstop, rfl, c.master.hand_signalCond⟩

/-- A signal or a broadcast changes no client. -/
theorem clients_signalFull {wake : Option Nat} (h : signalFull ws wake = some ws') :
    ws'.filterMap Worker.client = ws.filterMap Worker.client := by
  rcases signalFull_cases h with ⟨-, rfl⟩ | ⟨pre, w, post, rfl, -, rfl⟩
  · rfl
  · exact clients_replace rfl

theorem clients_wake : (ws.map Worker.wake).filterMap Worker.client = ws.filterMap Worker.client := by
  rw [List.filterMap_map, show Worker.client ∘ Worker.wake = Worker.client from funext Worker.client_wake]

theorem History.putStep (hinv : Inv c ws) (h : History c ws) (hm : c.master = .put so) {wake : Option Nat}
    (hws : signalFull ws wake = some ws') :
    History { c with
      queue := c.queue.put so, mutex := false, master := .poll
      queued := if c.queue.isFull then c.queued else c.queued ++ [so] } ws' := by
  have hmaster := hinv.master
  rw [hm] at hmaster
  obtain ⟨l, hholds, hqueued⟩ := h.queue
  have hsize := c.queue.size_le
  constructor
  · show ∃ l, (c.queue.put so).Holds l ∧ (if c.queue.isFull then c.queued else c.queued ++ [so]) = c.taken ++ l
    split
    next hfull =>
      rw [Ring.put_of_size (c.queue.isFull_iff_size.1 hfull)]
      exact ⟨l, hholds, hqueued⟩
    next hfull =>
      rw [Ring.isFull_iff_size, hholds.size_eq] at hfull
      rw [hholds.size_eq] at hsize
      exact ⟨l ++ [so], hholds.put (by omega) so, by rw [hqueued, List.append_assoc]⟩
  · rw [clients_signalFull hws]
    exact h.taken
  · intro hstop
    have hroom : c.queue.size < 20 := hmaster.2.resolve_right (fun hne => hne hstop)
    have hfull : ¬ c.queue.isFull = true := by
      rw [Ring.isFull_iff_size]
      omega
    have haccepted := h.accepted hstop
    rw [hm] at haccepted
    show c.accepted = (if c.queue.isFull then c.queued else c.queued ++ [so]) ++ []
    rw [if_neg hfull, List.append_nil]
    exact haccepted

theorem History.masterStep {s s' : State α} (h : History s.ctx s.workers) (hstep : s.masterStep = some s') :
    History s'.ctx s'.workers := by
  unfold State.masterStep at hstep
  cases hm : s.ctx.master with
  | poll | lock so | woken so =>
    simp only [hm] at hstep
    split at hstep
    next => cases hstep
    next =>
      cases hstep
      exact h.keep rfl rfl rfl rfl rfl fun hstop => ⟨hstop, rfl, by rw [hm]; rfl⟩
  | joinLock =>
    simp only [hm] at hstep
    split at hstep
    next => cases hstep
    next =>
      cases hstep
      exact h.keep rfl rfl rfl rfl rfl fun hstop => ⟨hstop, rfl, by rw [hm]; split <;> rfl⟩
  | test so =>
    simp only [hm] at hstep
    cases hstep
    exact h.keep rfl rfl rfl rfl rfl fun hstop => ⟨hstop, rfl, by rw [hm]; split <;> rfl⟩
  | sleep so =>
    simp only [hm] at hstep
    cases hstep
    exact h.keep rfl rfl rfl rfl rfl fun hstop => ⟨hstop, rfl, by rw [hm]; rfl⟩
  | waiting so | put so | joinWaiting | done =>
    simp only [hm] at hstep
    cases hstep
  | broadcast =>
    simp only [hm] at hstep
    cases hstep
    exact h.keep rfl rfl rfl rfl clients_wake fun hstop => ⟨hstop, rfl, by rw [hm]; rfl⟩
  | finish =>
    simp only [hm] at hstep
    cases hstep
    exact h.keep rfl rfl rfl rfl rfl fun hstop => absurd hstop (Nat.succ_ne_zero _)

theorem History.step {s s' : State α} {a : Action α} (hstep : Pool.step s a = some s') (hinv : Inv s.ctx s.workers)
    (h : History s.ctx s.workers) : History s'.ctx s'.workers := by
  cases a with
  | accept so =>
    simp only [Pool.step] at hstep
    split at hstep
    next hm =>
      split at hstep
      next hstop =>
        cases hstep
        refine ⟨h.queue, h.taken, fun _ => ?_⟩
        have haccepted := h.accepted hstop
        rw [hm] at haccepted
        show s.ctx.accepted ++ [so] = s.ctx.queued ++ [so]
        rw [haccepted]
        simp [MasterPc.hand]
      next => cases hstep
    next => cases hstep
  | master => exact h.masterStep hstep
  | put wake =>
    simp only [Pool.step] at hstep
    split at hstep
    next so hm =>
      obtain ⟨ws, hws, rfl⟩ := Option.map_eq_some_iff.1 hstep
      exact h.putStep hinv hm hws
    next => cases hstep
  | worker k =>
    obtain ⟨w, hget, hstep⟩ := Option.bind_eq_some_iff.1 hstep
    obtain ⟨⟨c', w'⟩, hnext, hstep⟩ := Option.bind_eq_some_iff.1 hstep
    cases hstep
    obtain ⟨pre, post, hws, hset, -⟩ := exists_split hget
    rw [hws] at h hinv
    show History c' (s.workers.set k w')
    rw [hset]
    exact h.workerStep hinv hnext
  | wakeWorker k =>
    obtain ⟨w, hget, hstep⟩ := Option.bind_eq_some_iff.1 hstep
    split at hstep
    next =>
      cases hstep
      obtain ⟨pre, post, hws, hset, -⟩ := exists_split hget
      refine h.keep rfl rfl rfl rfl ?_ fun hstop => ⟨hstop, rfl, rfl⟩
      rw [hset, hws]
      exact clients_replace rfl
    next => cases hstep
  | wakeMaster =>
    simp only [Pool.step] at hstep
    split at hstep
    next so hm =>
      cases hstep
      exact h.keep rfl rfl rfl rfl rfl fun hstop => ⟨hstop, rfl, by rw [hm]; rfl⟩
    next hm =>
      cases hstep
      exact h.keep rfl rfl rfl rfl rfl fun hstop => ⟨hstop, rfl, by rw [hm]; rfl⟩
    next => cases hstep
  | stop =>
    simp only [Pool.step] at hstep
    split at hstep
    next =>
      cases hstep
      exact h.keep rfl rfl rfl rfl rfl fun hstop => absurd hstop (Nat.succ_ne_zero _)
    next => cases hstep
  | free =>
    simp only [Pool.step] at hstep
    split at hstep
    next =>
      cases hstep
      exact h.keep rfl rfl rfl rfl rfl fun hstop => ⟨hstop, rfl, rfl⟩
    next => cases hstep

theorem history_start (slots : List α) (h : slots.length = 20) (n : Nat) :
    History (start slots h n).ctx (start slots h n).workers where
  queue := ⟨[], Ring.holds_empty slots h, rfl⟩
  taken := by
    have hnone : (start slots h n).workers.filterMap Worker.client = [] := by
      rw [List.filterMap_eq_nil_iff]
      intro w hw
      rw [List.eq_of_mem_replicate hw]
    rw [hnone]
    exact List.Perm.refl _
  accepted _ := rfl

variable {slots : List α} {h : slots.length = 20} {n : Nat} {as : List (Action α)} {s : State α}

theorem history_of_run (hrun : run step (start slots h n) as = some s) : History s.ctx s.workers := by
  have hboth := run_invariant (I := fun s => Inv s.ctx s.workers ∧ History s.ctx s.workers)
    (fun hstep _ hs => ⟨hs.1.step hstep, hs.2.step hstep hs.1⟩) hrun (guarded_true _ _)
    ⟨inv_start slots h n, history_start slots h n⟩
  exact hboth.2

/-- Whatever the threads did so far: the queue holds what was put in and not taken out, in order, so that sockets are
taken in the order in which they were accepted; each socket that was taken is in one worker or was served once; a worker
never serves without a socket; and while the server runs no accepted socket is dropped. -/
theorem sockets_accounted_for (hrun : run step (start slots h n) as = some s) :
    (∃ l, s.ctx.queue.Holds l ∧ s.ctx.queued = s.ctx.taken ++ l) ∧
      s.ctx.taken.Perm (s.ctx.served ++ s.workers.filterMap Worker.client) ∧
      (∀ w ∈ s.workers, w.pc = .serve → w.client ≠ none) ∧
      (s.ctx.stopFlag = 0 → s.ctx.accepted = s.ctx.queued ++ s.ctx.master.hand) := by
  have hhistory := history_of_run hrun
  refine ⟨hhistory.queue, hhistory.taken, ?_, hhistory.accepted⟩
  intro w hw hpc
  have hok := (inv_of_run hrun).worker w hw
  simpa only [Worker.Ok, hpc] using hok

theorem sockets_accounted_for_two_accepted :
    ∃ s : State Nat, s.ctx.accepted = [7, 9] ∧ s.ctx.taken.Perm (s.ctx.served ++ s.workers.filterMap Worker.client) ∧
      s.ctx.accepted = s.ctx.queued ++ s.ctx.master.hand :=
  have hall := sockets_accounted_for (show run step (start (List.replicate 20 0) List.length_replicate 1)
    [.worker 0, .accept 7, .worker 0, .worker 0, .master, .master, .put (some 0), .worker 0, .worker 0, .accept 9,
      .worker 0, .worker 1, .worker 0] = some _ from rfl)
  ⟨_, rfl, hall.2.1, hall.2.2.2 rfl⟩

end Tinyweb.Pool
