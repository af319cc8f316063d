import Mathlib.Algebra.Order.Ring.Nat
import Tinyweb.ServedSockets

/-!
# Waiting threads are woken up

`State.work` bounds how many steps the threads can take before something comes from outside: it becomes smaller with
every step of a thread.  So the threads come to rest, and what is left is to see in which states no thread can go on
(`stuck_cases`).  While the server runs, these are the states in which every accepted socket has been served
(`served_when_stuck`).
-/

namespace Tinyweb.Pool

open Clib Transitions

variable {α : Type} {c c' : Context α} {pre post ws ws' : List (Worker α)} {w w' : Worker α} {so : α} {s s' : State α}

/-! ### States in which no thread can go on -/

theorem Worker.step_none (h : w.step c = none) :
    w.pc = .waiting ∨ w.pc = .done ∨ (w.inside = false ∧ c.mutex = true) := by
  unfold Worker.step at h
  cases hpc : w.pc with
  | lock | woken | exit =>
    simp only [hpc] at h
    split at h
    next hmutex => exact Or.inr (Or.inr ⟨by simp only [Worker.inside, hpc], hmutex⟩)
    next => cases h
  | take =>
    simp only [hpc] at h
    split at h <;> cases h
  | waiting => exact Or.inl rfl
  | done => exact Or.inr (Or.inl rfl)
  | test | sleep | check | serve =>
    simp only [hpc] at h
    cases h

theorem exists_signalFull (ws : List (Worker α)) : ∃ wake ws', signalFull ws wake = some ws' := by
  by_cases hwait : ∃ w ∈ ws, w.pc = .waiting
  · obtain ⟨w, hw, hpc⟩ := hwait
    obtain ⟨k, hk⟩ := List.mem_iff_getElem?.1 hw
    refine ⟨some k, ws.set k { w with pc := .woken }, ?_⟩
    simp only [signalFull, hk, bind, Option.bind, hpc, if_true]
  · refine ⟨none, ws, ?_⟩
    simpa [signalFull] using hwait

theorem stuck_cases (h : Inv s.ctx s.workers) (hstuck : ∀ a : Action α, a.isThread = true → step s a = none) :
    (∀ w ∈ s.workers, w.pc = .waiting ∨ w.pc = .done) ∧
      ((s.ctx.master = .poll ∧ s.ctx.stopFlag = 0) ∨ (∃ so, s.ctx.master = .waiting so) ∨
        s.ctx.master = .joinWaiting ∨ s.ctx.master = .done) := by
  have hworker (w : Worker α) (hw : w ∈ s.workers) : w.step s.ctx = none := by
    obtain ⟨k, hk⟩ := List.mem_iff_getElem?.1 hw
    have hnone := hstuck (.worker k) rfl
    cases hnext : w.step s.ctx with
    | none => rfl
    | some next =>
      simp only [step, hk, bind, Option.bind, hnext] at hnone
      cases hnone
  have hmaster := hstuck .master rfl
  -- a thread that owns the mutex can go on
  have hzero : s.workers.countP Worker.inside = 0 := by
    rw [List.countP_eq_zero]
    intro w hw hinside
    rcases Worker.step_none (hworker w hw) with hpc | hpc | ⟨hout, -⟩
    · simp [Worker.inside, hpc] at hinside
    · simp [Worker.inside, hpc] at hinside
    · rw [hout] at hinside
      cases hinside
  have hout : s.ctx.master.inside = false := by
    cases hm : s.ctx.master with
    | test so | sleep so =>
      simp only [step, State.masterStep, hm] at hmaster
      cases hmaster
    | put so =>
      obtain ⟨wake, ws', hws⟩ := exists_signalFull s.workers
      have hnone := hstuck (.put wake) rfl
      simp only [step, hm, hws] at hnone
      cases hnone
    | _ => rfl
  have hmutex : s.ctx.mutex = false := by
    have := h.mutex
    rw [hzero, hout] at this
    rw [← Bool.toNat_eq_zero]
    exact this.symm
  refine ⟨?_, ?_⟩
  · intro w hw
    rcases Worker.step_none (hworker w hw) with hpc | hpc | ⟨-, htaken⟩
    · exact Or.inl hpc
    · exact Or.inr hpc
    · rw [hmutex] at htaken
      cases htaken
  · cases hm : s.ctx.master with
    | poll =>
      simp only [step, State.masterStep, hm] at hmaster
      split at hmaster
      next hstop => exact Or.inl ⟨rfl, hstop⟩
      next => cases hmaster
    | waiting so => exact Or.inr (Or.inl ⟨so, rfl⟩)
    | joinWaiting => exact Or.inr (Or.inr (Or.inl rfl))
    | done => exact Or.inr (Or.inr (Or.inr rfl))
    | test so | sleep so | put so =>
      rw [hm] at hout
      cases hout
    | lock so | woken so | joinLock | broadcast | finish =>
      simp [step, State.masterStep, hm, hmutex] at hmaster

/-- The sockets in the queue are waited for, unless all workers have gone. -/
theorem queue_empty_of_stuck (h : Inv s.ctx s.workers)
    (hrest : ∀ w ∈ s.workers, w.pc = .waiting ∨ w.pc = .done) (hwait : ∃ w ∈ s.workers, w.pc = .waiting) :
    s.ctx.queue.size = 0 := by
  have hzero : s.workers.countP Worker.coming = 0 := by
    rw [List.countP_eq_zero]
    intro w hw
    rcases hrest w hw with hpc | hpc <;> simp [Worker.coming, hpc]
  have := h.coming hwait
  omega

/-! ### The work of the threads -/

/-- The steps a worker can still take, while the server runs and after the stop flag has been set. -/
def Worker.work (running : Bool) (w : Worker α) : Nat :=
  match running, w.pc with
  | true, .waiting | true, .exit | _, .done => 0
  | true, .sleep | true, .take => 1
  | true, .test => 2
  | true, .woken | true, .lock => 3
  | true, .serve => 4
  | true, .check => 5
  | false, .exit => 3
  | false, .check => 4
  | false, .take => 5
  | false, .test => 6
  | false, .lock | false, .woken => 7
  | false, .waiting | false, .serve => 8
  | false, .sleep => 9

def MasterPc.work (running : Bool) (m : MasterPc α) : Nat :=
  match running, m with
  | true, .waiting _ => 11
  | true, .sleep _ | true, .put _ => 12
  | true, .test _ => 13
  | true, .lock _ | true, .woken _ => 14
  | true, _ | false, .done => 0
  | false, .finish => 1
  | false, .joinWaiting => 2
  | false, .joinLock => 3
  | false, .broadcast => 4
  | false, .poll => 5
  | false, .put _ => 6
  | false, .test _ => 7
  | false, .lock _ | false, .woken _ => 8
  | false, .waiting _ => 9
  | false, .sleep _ => 10

def Context.running (c : Context α) : Bool := c.stopFlag == 0

/-- While the server runs, a socket in the queue is work as well. -/
def Context.work (c : Context α) : Nat :=
  c.master.work c.running + c.running.toNat * (8 * c.queue.size)

def State.work (s : State α) : Nat := s.ctx.work + (s.workers.map (Worker.work s.ctx.running)).sum

theorem MasterPc.work_signalEmpty (running : Bool) (m : MasterPc α) :
    m.signalEmpty.work running ≤ m.work running + running.toNat * 3 := by
  cases running <;> cases m <;> simp [MasterPc.signalEmpty, MasterPc.work]

theorem MasterPc.work_signalCond (running : Bool) (m : MasterPc α) :
    m.signalCond.work running ≤ m.work running + 1 := by
  cases running <;> cases m <;> simp [MasterPc.signalCond, MasterPc.work]

theorem work_workerStep (h : Inv c (pre ++ w :: post)) (hstep : w.step c = some (c', w')) :
    c'.running = c.running ∧ c'.work + w'.work c.running < c.work + w.work c.running := by
  have hok := h.worker w mem_self
  unfold Worker.step at hstep
  cases hpc : w.pc with
  | lock | woken =>
    simp only [hpc] at hstep
    split at hstep
    next => cases hstep
    next =>
      cases hstep
      refine ⟨rfl, Nat.add_lt_add_left ?_ c.work⟩
      cases c.running <;> simp [Worker.work, hpc]
  | test =>
    simp only [hpc] at hstep
    cases hstep
    refine ⟨rfl, Nat.add_lt_add_left ?_ c.work⟩
    cases hrun : c.running with
    | true => split <;> simp [Worker.work, hpc]
    | false =>
      -- a worker does not go to sleep any more
      rw [Context.running] at hrun
      simp [Worker.work, hpc, hrun]
  | sleep =>
    simp only [hpc] at hstep
    cases hstep
    refine ⟨rfl, Nat.add_lt_add_left ?_ c.work⟩
    cases c.running <;> simp [Worker.work, hpc]
  | waiting | done =>
    simp only [hpc] at hstep
    cases hstep
  | take =>
    have hsignal := c.master.work_signalEmpty c.running
    simp only [hpc, Worker.Ok] at hstep hok
    split at hstep
    next so queue htake =>
      have hsize := Ring.size_take htake
      cases hstep
      refine ⟨rfl, ?_⟩
      show c.master.signalEmpty.work c.running + c.running.toNat * (8 * queue.size) + _ <
        c.master.work c.running + c.running.toNat * (8 * c.queue.size) + _
      cases hrun : c.running <;> simp only [hrun, Worker.work, hpc, Bool.toNat_true, Bool.toNat_false] at hsignal ⊢ <;>
        omega
    next htake =>
      have hsize := Ring.size_of_take_none htake
      have hstop : c.running = false := by
        rw [Context.running, beq_eq_false_iff_ne]
        omega
      cases hstep
      refine ⟨rfl, ?_⟩
      show c.master.signalEmpty.work c.running + c.running.toNat * (8 * c.queue.size) + _ <
        c.master.work c.running + c.running.toNat * (8 * c.queue.size) + _
      simp only [hstop, Worker.work, hpc, Bool.toNat_false] at hsignal ⊢
      omega
  | check =>
    simp only [hpc] at hstep
    cases hstep
    refine ⟨rfl, Nat.add_lt_add_left ?_ c.work⟩
    cases hrun : c.running with
    | true =>
      rw [Context.running, beq_iff_eq] at hrun
      simp [Worker.work, hpc, hrun]
    | false =>
      rw [Context.running, beq_eq_false_iff_ne] at hrun
      simp [Worker.work, hpc, hrun]
  | serve =>
    simp only [hpc] at hstep
    cases hstep
    refine ⟨rfl, Nat.add_lt_add_left ?_ c.work⟩
    cases c.running <;> simp [Worker.work, hpc]
  | exit =>
    have hsignal := c.master.work_signalCond c.running
    have hstop : c.running = false := by
      simp only [hpc, Worker.Ok] at hok
      rw [Context.running, beq_eq_false_iff_ne]
      exact hok
    simp only [hpc] at hstep
    split at hstep
    next => cases hstep
    next =>
      cases hstep
      refine ⟨rfl, ?_⟩
      show c.master.signalCond.work c.running + c.running.toNat * (8 * c.queue.size) + _ <
        c.master.work c.running + c.running.toNat * (8 * c.queue.size) + _
      simp only [hstop, Worker.work, hpc] at hsignal ⊢
      omega

theorem sum_work_split (running : Bool) : ((pre ++ w :: post).map (Worker.work running)).sum =
    w.work running + ((pre ++ post).map (Worker.work running)).sum := by
  simp only [List.map_append, List.map_cons, List.sum_append, List.sum_cons]
  omega

theorem sum_work_signalFull {wake : Option Nat} (running : Bool) (h : signalFull ws wake = some ws') :
    (ws'.map (Worker.work running)).sum ≤ (ws.map (Worker.work running)).sum + running.toNat * 3 := by
  rcases signalFull_cases h with ⟨-, rfl⟩ | ⟨pre, w, post, rfl, hpc, rfl⟩
  · omega
  · rw [sum_work_split, sum_work_split]
    cases running <;> simp only [Worker.work, hpc, Bool.toNat_true, Bool.toNat_false] <;> omega

/-- The broadcast comes after the stop flag. -/
theorem sum_work_broadcast (ws : List (Worker α)) :
    ((ws.map Worker.wake).map (Worker.work false)).sum ≤ (ws.map (Worker.work false)).sum := by
  induction ws with
  | nil => exact Nat.le_refl _
  | cons w ws ih =>
    have hw : w.wake.work false ≤ w.work false := by
      unfold Worker.wake
      split
      next hpc => simp [Worker.work, hpc]
      next => exact Nat.le_refl _
    simp only [List.map_cons, List.sum_cons]
    omega

theorem work_masterStep (h : Inv s.ctx s.workers) (hstep : s.masterStep = some s') :
    s'.ctx.running = s.ctx.running ∧ s'.work < s.work := by
  have hmaster := h.master
  unfold State.masterStep at hstep
  have hmove {c : Context α} {ws : List (Worker α)} (hqueue : c.queue = s.ctx.queue) (hrun : c.running = s.ctx.running)
      (hless : c.master.work s.ctx.running < s.ctx.master.work s.ctx.running)
      (hsum : (ws.map (Worker.work s.ctx.running)).sum ≤ (s.workers.map (Worker.work s.ctx.running)).sum) :
      c.running = s.ctx.running ∧ State.work ⟨c, ws⟩ < s.work := by
    refine ⟨hrun, ?_⟩
    simp only [State.work, Context.work, hrun, hqueue]
    omega
  cases hm : s.ctx.master with
  | poll =>
    simp only [hm] at hstep
    split at hstep
    next => cases hstep
    next hstop =>
      cases hstep
      refine hmove rfl rfl ?_ (Nat.le_refl _)
      rw [hm, Context.running, beq_eq_false_iff_ne.2 hstop]
      exact Nat.lt_succ_self _
  | lock so | woken so =>
    simp only [hm] at hstep
    split at hstep
    next => cases hstep
    next =>
      cases hstep
      refine hmove rfl rfl ?_ (Nat.le_refl _)
      rw [hm]
      cases s.ctx.running <;> exact Nat.lt_succ_self _
  | test so =>
    simp only [hm] at hstep
    cases hstep
    refine hmove rfl rfl ?_ (Nat.le_refl _)
    rw [hm]
    cases hrun : s.ctx.running with
    | true => split <;> exact Nat.lt_succ_self _
    | false =>
      rw [Context.running] at hrun
      rw [hrun]
      exact Nat.lt_succ_self _
  | sleep so =>
    simp only [hm] at hstep
    cases hstep
    refine hmove rfl rfl ?_ (Nat.le_refl _)
    rw [hm]
    cases s.ctx.running <;> exact Nat.lt_succ_self _
  | waiting so | put so | joinWaiting | done =>
    simp only [hm] at hstep
    cases hstep
  | broadcast =>
    simp only [hm, MasterPc.Ok] at hstep hmaster
    cases hstep
    have hstop : s.ctx.running = false := by
      rw [Context.running, hmaster]
      rfl
    refine hmove rfl rfl ?_ ?_
    · rw [hm, hstop]
      exact Nat.lt_succ_self _
    · rw [hstop]
      exact sum_work_broadcast s.workers
  | joinLock =>
    simp only [hm, MasterPc.Ok] at hstep hmaster
    split at hstep
    next => cases hstep
    next =>
      cases hstep
      refine hmove rfl rfl ?_ (Nat.le_refl _)
      rw [hm, Context.running, hmaster]
      split
      next => exact Nat.lt_succ_self _
      next => exact Nat.lt_succ_of_lt (Nat.lt_succ_self _)
  | finish =>
    simp only [hm, MasterPc.Ok] at hstep hmaster
    cases hstep
    refine hmove rfl ?_ ?_ (Nat.le_refl _)
    · rw [Context.running, Context.running, hmaster.1]
      rfl
    · rw [hm, Context.running, hmaster.1]
      exact Nat.lt_succ_self _

/-- Every step of a thread is one of finitely many. -/
theorem work_step {a : Action α} (h : Inv s.ctx s.workers) (ha : a.isThread = true) (hstep : step s a = some s') :
    s'.ctx.running = s.ctx.running ∧ s'.work < s.work := by
  cases a with
  | master => exact work_masterStep h hstep
  | put wake =>
    have hmaster := h.master
    simp only [step] at hstep
    split at hstep
    next so hm =>
      obtain ⟨ws, hws, rfl⟩ := Option.map_eq_some_iff.1 hstep
      have hsum := sum_work_signalFull s.ctx.running hws
      rw [hm] at hmaster
      refine ⟨rfl, ?_⟩
      show MasterPc.work s.ctx.running (.poll : MasterPc α) + s.ctx.running.toNat * (8 * (s.ctx.queue.put so).size) +
        (ws.map (Worker.work s.ctx.running)).sum < s.ctx.master.work s.ctx.running +
          s.ctx.running.toNat * (8 * s.ctx.queue.size) + (s.workers.map (Worker.work s.ctx.running)).sum
      cases hrun : s.ctx.running with
      | true =>
        rw [Context.running, beq_iff_eq] at hrun
        have hroom : s.ctx.queue.size < 20 := hmaster.2.resolve_right fun hne => hne hrun
        simp only [hm, hrun, Context.running, MasterPc.work, Ring.size_put hroom, Bool.toNat_true,
          beq_self_eq_true] at hsum ⊢
        omega
      | false =>
        simp only [hm, hrun, MasterPc.work, Bool.toNat_false] at hsum ⊢
        omega
    next => cases hstep
  | worker k =>
    obtain ⟨w, hget, hstep⟩ := Option.bind_eq_some_iff.1 hstep
    obtain ⟨⟨c', w'⟩, hnext, hstep⟩ := Option.bind_eq_some_iff.1 hstep
    cases hstep
    obtain ⟨pre, post, hws, hset, -⟩ := exists_split hget
    rw [hws] at h
    obtain ⟨hrun, hless⟩ := work_workerStep h hnext
    refine ⟨hrun, ?_⟩
    show c'.work + ((s.workers.set k w').map (Worker.work c'.running)).sum <
      s.ctx.work + (s.workers.map (Worker.work s.ctx.running)).sum
    rw [hset, hws, hrun, sum_work_split, sum_work_split]
    omega
  | _ => cases ha

/-! ### The running server -/

variable {slots : List α} {h : slots.length = 20} {n : Nat} {as : List (Action α)}

def Action.IsThread (_ : State α) (a : Action α) : Prop := a.isThread = true

theorem guarded_threads {as : List (Action α)} (has : ∀ a ∈ as, a.isThread = true) :
    ∀ s : State α, Guarded step Action.IsThread s as := by
  induction as with
  | nil => exact fun _ => trivial
  | cons a as ih =>
    rw [List.forall_mem_cons] at has
    exact fun s => ⟨has.1, fun s' _ => ih has.2 s'⟩

theorem length_le_work (hinv : Inv s.ctx s.workers) (has : ∀ a ∈ as, a.isThread = true) {t : State α}
    (hrun : run step s as = some t) : as.length ≤ s.work := by
  have hlength := run_length_le (I := fun s => Inv s.ctx s.workers) State.work
    (fun hstep ha hs => ⟨hs.step hstep, (work_step hs ha hstep).2⟩) hrun (guarded_threads has s) hinv
  omega

theorem stopFlag_of_run (hinv : Inv s.ctx s.workers) (has : ∀ a ∈ as, a.isThread = true) {t : State α}
    (hrun : run step s as = some t) : t.ctx.running = s.ctx.running := by
  have hboth := run_invariant (I := fun t => Inv t.ctx t.workers ∧ t.ctx.running = s.ctx.running)
    (fun hstep ha hs => ⟨hs.1.step hstep, (work_step hs.1 ha hstep).1.trans hs.2⟩) hrun (guarded_threads has s)
    ⟨hinv, rfl⟩
  exact hboth.2

theorem served_when_stuck (hinv : Inv s.ctx s.workers) (hhistory : History s.ctx s.workers) (hstop : s.ctx.stopFlag = 0)
    (hstuck : ∀ a : Action α, a.isThread = true → step s a = none) :
    s.ctx.master = .poll ∧ (∀ w ∈ s.workers, w.pc = .waiting) ∧ s.ctx.served.Perm s.ctx.accepted := by
  obtain ⟨hrest, hmaster⟩ := stuck_cases hinv hstuck
  have hwait (w : Worker α) (hw : w ∈ s.workers) : w.pc = .waiting := by
    refine (hrest w hw).resolve_right fun hpc => ?_
    have hok := hinv.worker w hw
    simp only [Worker.Ok, hpc] at hok
    exact hok hstop
  obtain ⟨w, hw⟩ := List.exists_mem_of_ne_nil _ hinv.nonempty
  have hempty := queue_empty_of_stuck hinv hrest ⟨w, hw, hwait w hw⟩
  have hpoll : s.ctx.master = .poll := by
    have hok := hinv.master
    rcases hmaster with ⟨hm, -⟩ | ⟨so, hm⟩ | hm | hm
    · exact hm
    · rw [hm] at hok
      have := hok.2
      omega
    · rw [hm] at hok
      have := hok.1
      omega
    · rw [hm] at hok
      have := hok.1
      omega
  refine ⟨hpoll, hwait, ?_⟩
  have hclients : s.workers.filterMap Worker.client = [] := by
    rw [List.filterMap_eq_nil_iff]
    intro w hw
    have hok := hinv.worker w hw
    simpa only [Worker.Ok, hwait w hw] using hok
  obtain ⟨l, hholds, hqueued⟩ := hhistory.queue
  rw [hholds.size_eq, List.length_eq_zero_iff] at hempty
  have haccepted := hhistory.accepted hstop
  have htaken := hhistory.taken
  rw [hclients, List.append_nil] at htaken
  rw [haccepted, hqueued, hempty, hpoll]
  simpa [MasterPc.hand] using htaken.symm

/-- No wake-up is lost while the server runs: from every reachable state and in every order, the threads come to rest
after boundedly many steps if nothing comes from outside; then the master is back at `poll`, the workers wait for work
and every accepted socket has been served, once. -/
theorem every_accepted_socket_served (hrun : run step (start slots h n) as = some s) (hstop : s.ctx.stopFlag = 0) :
    ∃ bound, ∀ bs t, (∀ b ∈ bs, b.isThread = true) → run step s bs = some t →
      bs.length ≤ bound ∧ ((∀ a : Action α, a.isThread = true → step t a = none) →
        t.ctx.master = .poll ∧ (∀ w ∈ t.workers, w.pc = .waiting) ∧ t.ctx.served.Perm t.ctx.accepted) := by
  have hinv := inv_of_run hrun
  refine ⟨s.work, fun bs t hbs hnext => ⟨length_le_work hinv hbs hnext, ?_⟩⟩
  have hrunning := stopFlag_of_run hinv hbs hnext
  have hwhole : run step (start slots h n) (as ++ bs) = some t := by
    rw [run_append, hrun]
    exact hnext
  exact served_when_stuck (inv_of_run hwhole) (history_of_run hwhole)
    (beq_iff_eq.1 (hrunning.trans (beq_iff_eq.2 hstop)))

theorem every_accepted_socket_served_two_accepted :
    ∃ s : State Nat, s.ctx.accepted = [7, 9] ∧ ∃ bound, ∀ bs t, (∀ b ∈ bs, b.isThread = true) → run step s bs = some t →
      bs.length ≤ bound ∧ ((∀ a : Action Nat, a.isThread = true → step t a = none) →
        t.ctx.master = .poll ∧ (∀ w ∈ t.workers, w.pc = .waiting) ∧ t.ctx.served.Perm t.ctx.accepted) :=
  ⟨_, rfl, every_accepted_socket_served (show run step (start (List.replicate 20 0) List.length_replicate 1)
    [.worker 0, .accept 7, .worker 0, .worker 0, .master, .master, .put (some 0), .accept 9] = some _ from rfl) rfl⟩

end Tinyweb.Pool
