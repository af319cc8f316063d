import Tinyweb.PoolProgress

/-!
# Stopping the server

After `mg_stop` has set the stop flag, the threads come to rest again (`shutdown_at_rest`).  Then they have all ended,
and `mg_stop` returns, unless the shutdown hangs (`Hung`): the code has two races.  The master wakes the workers without
the mutex, so a worker that has already decided to sleep but does not wait yet is never woken; and workers that read the
stop flag after they have left the queue no longer wake a master that sleeps because the queue was full.

A state that hangs is never left (`hung_never_finishes`).  Runs in which the broadcast comes while no worker is about to
sleep, and no worker gives up while the master sleeps (`Orderly`), do not get there (`orderly_not_hung`).
-/

namespace Tinyweb.Pool

open Clib Transitions

variable {α : Type} {c c' : Context α} {pre post ws ws' : List (Worker α)} {w w' : Worker α} {so : α} {s s' t : State α}

/-- The master waits for the workers, or has waited. -/
def MasterPc.joining : MasterPc α → Bool
  | .joinLock | .joinWaiting | .finish | .done => true
  | _ => false

/-- The master sleeps in `produce_socket`, or is about to. -/
def MasterPc.asleep : MasterPc α → Bool
  | .sleep _ | .waiting _ => true
  | _ => false

def Worker.asleep (w : Worker α) : Prop := w.pc = .sleep ∨ w.pc = .waiting

def Worker.ended (w : Worker α) : Prop := w.pc = .exit ∨ w.pc = .done

/-- Nobody is left to wake a thread that sleeps. -/
def Hung (s : State α) : Prop :=
  (s.ctx.master.joining = true ∧ ∃ w ∈ s.workers, w.asleep) ∨ (s.ctx.master.asleep = true ∧ ∀ w ∈ s.workers, w.ended)

theorem rest_after_stop (hinv : Inv s.ctx s.workers) (hstop : s.ctx.stopFlag ≠ 0)
    (hstuck : ∀ a : Action α, a.isThread = true → step s a = none) :
    (s.ctx.stopFlag = 2 ∧ ∀ w ∈ s.workers, w.pc = .done) ∨ Hung s := by
  obtain ⟨hrest, hmaster⟩ := stuck_cases hinv hstuck
  have hok := hinv.master
  have hthreads := hinv.threads
  rcases hmaster with ⟨-, hrunning⟩ | ⟨so, hm⟩ | hm | hm
  · exact absurd hrunning hstop
  · -- a full queue, so no worker waits
    rw [hm] at hok
    refine Or.inr (Or.inr ⟨by rw [hm]; rfl, fun w hw => Or.inr ((hrest w hw).resolve_left fun hpc => ?_)⟩)
    have hempty := queue_empty_of_stuck hinv hrest ⟨w, hw, hpc⟩
    have := hok.2
    omega
  · rw [hm] at hok
    have hpos : 0 < s.workers.countP Worker.live := by
      have := hok.2
      omega
    obtain ⟨w, hw, hlive⟩ := List.countP_pos_iff.1 hpos
    refine Or.inr (Or.inl ⟨by rw [hm]; rfl, w, hw, Or.inr ((hrest w hw).resolve_right fun hpc => ?_)⟩)
    simp [Worker.live, hpc] at hlive
  · rw [hm] at hok
    refine Or.inl ⟨hok.1, fun w hw => (hrest w hw).resolve_left fun hpc => ?_⟩
    have hzero : s.workers.countP Worker.live = 0 := by
      have := hok.2
      omega
    exact List.countP_eq_zero.1 hzero w hw (by simp only [Worker.live, hpc])

variable {slots : List α} {h : slots.length = 20} {n : Nat} {as : List (Action α)}

/-- After `mg_stop`, in every order, the threads come to rest after boundedly many steps; then all of them have ended
and the stop flag has the value that `mg_stop` waits for, or the shutdown hangs. -/
theorem shutdown_at_rest (hrun : run step (start slots h n) as = some s) (hstop : s.ctx.stopFlag ≠ 0) :
    ∃ bound, ∀ bs t, (∀ b ∈ bs, b.isThread = true) → run step s bs = some t →
      bs.length ≤ bound ∧ ((∀ a : Action α, a.isThread = true → step t a = none) →
        (t.ctx.stopFlag = 2 ∧ ∀ w ∈ t.workers, w.pc = .done) ∨ Hung t) := by
  have hinv := inv_of_run hrun
  refine ⟨s.work, fun bs t hbs hnext => ⟨length_le_work hinv hbs hnext, ?_⟩⟩
  have hrunning := stopFlag_of_run hinv hbs hnext
  have hwhole : run step (start slots h n) (as ++ bs) = some t := by
    rw [run_append, hrun]
    exact hnext
  refine rest_after_stop (inv_of_run hwhole) fun hzero => hstop ?_
  exact beq_iff_eq.1 (hrunning.symm.trans (beq_iff_eq.2 hzero))

theorem shutdown_at_rest_one_worker :
    ∃ s : State Nat, s.ctx.stopFlag = 1 ∧ ∃ bound, ∀ bs t, (∀ b ∈ bs, b.isThread = true) → run step s bs = some t →
      bs.length ≤ bound ∧ ((∀ a : Action Nat, a.isThread = true → step t a = none) →
        (t.ctx.stopFlag = 2 ∧ ∀ w ∈ t.workers, w.pc = .done) ∨ Hung t) :=
  ⟨_, rfl, shutdown_at_rest (show run step (start (List.replicate 20 0) List.length_replicate 0)
    [.worker 0, .accept 7, .worker 0, .stop] = some _ from rfl) Nat.one_ne_zero⟩

/-! ### States that hang -/

theorem MasterPc.joining_signalEmpty (m : MasterPc α) : m.signalEmpty.joining = m.joining := by
  cases m <;> rfl

theorem MasterPc.joining_signalCond (m : MasterPc α) : m.signalCond.joining = m.joining := by
  cases m <;> rfl

theorem MasterPc.asleep_signalCond (m : MasterPc α) : m.signalCond.asleep = m.asleep := by
  cases m <;> rfl

theorem MasterPc.Ok.stop_of_joining {m : MasterPc α} {size stop : Nat} {threads : Int} (h : m.Ok size stop threads)
    (hm : m.joining = true) : stop ≠ 0 := by
  cases m with
  | joinLock =>
    have : stop = 1 := h
    omega
  | joinWaiting | finish | done =>
    have := h.1
    omega
  | _ => cases hm

/-- What a step of one worker does to the master, and how the worker gets to sleep or ends. -/
theorem Worker.step_sleep (hstep : w.step c = some (c', w')) :
    c'.master.joining = c.master.joining ∧ (w.asleep → w'.asleep) ∧
      (w'.asleep → w.asleep ∨ c.stopFlag = 0) ∧ (w'.ended → w.ended ∨ (w.pc = .check ∧ c.stopFlag ≠ 0)) ∧
      (w.ended → w'.ended ∧ c'.master.asleep = c.master.asleep) ∧
      (c'.master.asleep = true → c.master.asleep = true) := by
  unfold Worker.step at hstep
  cases hpc : w.pc with
  | lock | woken =>
    simp only [hpc] at hstep
    split at hstep
    next => cases hstep
    next =>
      cases hstep
      simp [Worker.asleep, Worker.ended, hpc]
  | test =>
    simp only [hpc] at hstep
    cases hstep
    split
    next hidle =>
      simp only [Bool.and_eq_true, beq_iff_eq] at hidle
      simp [Worker.asleep, Worker.ended, hpc, hidle.2]
    next => simp [Worker.asleep, Worker.ended, hpc]
  | sleep | serve =>
    simp only [hpc] at hstep
    cases hstep
    simp [Worker.asleep, Worker.ended, hpc]
  | waiting | done =>
    simp only [hpc] at hstep
    cases hstep
  | take =>
    have hsleep : c.master.signalEmpty.asleep = true → c.master.asleep = true := by
      cases c.master <;> simp [MasterPc.signalEmpty, MasterPc.asleep]
    simp only [hpc] at hstep
    split at hstep <;>
    · cases hstep
      simpa [Worker.asleep, Worker.ended, hpc, MasterPc.joining_signalEmpty] using hsleep
  | check =>
    simp only [hpc] at hstep
    cases hstep
    split <;> simp_all [Worker.asleep, Worker.ended]
  | exit =>
    simp only [hpc] at hstep
    split at hstep
    next => cases hstep
    next =>
      cases hstep
      simp [Worker.asleep, Worker.ended, hpc, MasterPc.joining_signalCond, MasterPc.asleep_signalCond]

theorem Hung.step {a : Action α} (hhung : Hung s) (ha : a.isThread = true) (hstep : Pool.step s a = some s') :
    Hung s' := by
  cases a with
  | master =>
    simp only [Pool.step, State.masterStep] at hstep
    rcases hhung with ⟨hjoin, hworker⟩ | ⟨hsleep, hworker⟩
    · cases hm : s.ctx.master with
      | joinLock =>
        simp only [hm] at hstep
        split at hstep
        next => cases hstep
        next =>
          cases hstep
          exact Or.inl ⟨by split <;> rfl, hworker⟩
      | finish =>
        simp only [hm] at hstep
        cases hstep
        exact Or.inl ⟨rfl, hworker⟩
      | joinWaiting | done =>
        simp only [hm] at hstep
        cases hstep
      | _ =>
        rw [hm] at hjoin
        cases hjoin
    · cases hm : s.ctx.master with
      | sleep so =>
        simp only [hm] at hstep
        cases hstep
        exact Or.inr ⟨rfl, hworker⟩
      | waiting so =>
        simp only [hm] at hstep
        cases hstep
      | _ =>
        rw [hm] at hsleep
        cases hsleep
  | put wake =>
    simp only [Pool.step] at hstep
    split at hstep
    next so hm =>
      rw [Hung, hm] at hhung
      rcases hhung with ⟨hjoin, -⟩ | ⟨hsleep, -⟩
      · cases hjoin
      · cases hsleep
    next => cases hstep
  | worker k =>
    obtain ⟨w, hget, hstep⟩ := Option.bind_eq_some_iff.1 hstep
    obtain ⟨⟨c', w'⟩, hnext, hstep⟩ := Option.bind_eq_some_iff.1 hstep
    cases hstep
    obtain ⟨pre, post, hws, hset, -⟩ := exists_split hget
    obtain ⟨hjoining, hasleep, -, -, hended, -⟩ := Worker.step_sleep hnext
    show (c'.master.joining = true ∧ ∃ v ∈ s.workers.set k w', v.asleep) ∨
      (c'.master.asleep = true ∧ ∀ v ∈ s.workers.set k w', v.ended)
    rw [hset, hjoining]
    rw [Hung, hws] at hhung
    rcases hhung with ⟨hjoin, hworker⟩ | ⟨hsleep, hworker⟩
    · exact Or.inl ⟨hjoin, exists_mem_split.2 ((exists_mem_split.1 hworker).imp hasleep id)⟩
    · obtain ⟨hw, hothers⟩ := forall_mem_split.1 hworker
      obtain ⟨hw', hmaster⟩ := hended hw
      exact Or.inr ⟨hmaster.trans hsleep, forall_mem_split.2 ⟨hw', hothers⟩⟩
  | _ => cases ha

theorem Hung.stopFlag_ne (hhung : Hung s) (hinv : Inv s.ctx s.workers) : s.ctx.stopFlag ≠ 2 := by
  intro hstop
  have hok := hinv.master
  have hthreads := hinv.threads
  cases hm : s.ctx.master with
  | done =>
    rcases hhung with ⟨-, w, hw, hsleep⟩ | ⟨hsleep, -⟩
    · have hlive : 0 < s.workers.countP Worker.live :=
        List.countP_pos_iff.2 ⟨w, hw, by rcases hsleep with hpc | hpc <;> simp only [Worker.live, hpc]⟩
      rw [hm] at hok
      have := hok.2
      omega
    · rw [hm] at hsleep
      cases hsleep
  | _ =>
    simp only [hm, MasterPc.Ok, hstop] at hok
    omega

/-- A shutdown that hangs does so for ever: whatever the threads do, the stop flag never gets the value for which
`mg_stop` waits. -/
theorem hung_never_finishes (hrun : run step (start slots h n) as = some s) (hhung : Hung s) (bs : List (Action α))
    (hbs : ∀ b ∈ bs, b.isThread = true) (hnext : run step s bs = some t) : Hung t ∧ t.ctx.stopFlag ≠ 2 := by
  have hboth := run_invariant (I := fun t => Inv t.ctx t.workers ∧ Hung t)
    (fun hstep ha hs => ⟨hs.1.step hstep, hs.2.step ha hstep⟩) hnext (guarded_threads hbs s) ⟨inv_of_run hrun, hhung⟩
  exact ⟨hboth.2, hboth.2.stopFlag_ne hboth.1⟩

theorem hung_never_finishes_one_worker :
    ∃ s t : State Nat, Hung s ∧ run step s [.worker 0, .master] = some t ∧ t.ctx.stopFlag ≠ 2 :=
  -- the worker is about to sleep when the master wakes the workers
  have hhung : Hung _ := Or.inl ⟨rfl, _, List.mem_cons_self, Or.inl rfl⟩
  ⟨_, _, hhung, rfl, (hung_never_finishes (show run step (start (List.replicate 20 0) List.length_replicate 0)
    [.worker 0, .worker 0, .stop, .master, .master] = some _ from rfl) hhung [.worker 0, .master] (by decide) rfl).2⟩

/-! ### Runs without the races -/

/-- The broadcast finds no worker that is about to sleep, and no worker gives up while the master sleeps. -/
def Orderly (s : State α) : Action α → Prop
  | .master => s.ctx.master = .broadcast → ∀ w ∈ s.workers, w.pc ≠ .sleep
  | .worker k => ∀ w ∈ s.workers[k]?, w.pc = .check → s.ctx.stopFlag ≠ 0 → s.ctx.master.asleep = false
  | _ => True

instance [DecidableEq α] (s : State α) : (a : Action α) → Decidable (Orderly s a)
  | .master => inferInstanceAs (Decidable (s.ctx.master = .broadcast → ∀ w ∈ s.workers, w.pc ≠ .sleep))
  | .worker k => inferInstanceAs
      (Decidable (∀ w ∈ s.workers[k]?, w.pc = .check → s.ctx.stopFlag ≠ 0 → s.ctx.master.asleep = false))
  | .accept _ | .put _ | .wakeWorker _ | .wakeMaster | .stop | .free => isTrue trivial

structure Calm (s : State α) : Prop where
  joining : s.ctx.master.joining = true → ∀ w ∈ s.workers, ¬ w.asleep
  asleep : s.ctx.master.asleep = true → ∀ w ∈ s.workers, ¬ w.ended

theorem Calm.of_awake (hjoin : s.ctx.master.joining = false) (hsleep : s.ctx.master.asleep = false) : Calm s where
  joining hj := absurd (hjoin.symm.trans hj) Bool.false_ne_true
  asleep hs := absurd (hsleep.symm.trans hs) Bool.false_ne_true

theorem Calm.masterStep (hinv : Inv s.ctx s.workers) (h : Calm s) (hok : Orderly s .master)
    (hstep : s.masterStep = some s') : Calm s' := by
  unfold State.masterStep at hstep
  cases hm : s.ctx.master with
  | poll | lock so | woken so =>
    simp only [hm] at hstep
    split at hstep
    next => cases hstep
    next =>
      cases hstep
      exact Calm.of_awake rfl rfl
  | test so =>
    simp only [hm] at hstep
    cases hstep
    split
    next hfull =>
      simp only [Bool.and_eq_true, beq_iff_eq] at hfull
      refine ⟨fun hjoin => absurd hjoin Bool.false_ne_true, fun _ w hw hended => ?_⟩
      have hworker := hinv.worker w hw
      rcases hended with hpc | hpc <;> simp only [Worker.Ok, hpc] at hworker <;> exact hworker hfull.1
    next => exact Calm.of_awake rfl rfl
  | sleep so =>
    simp only [hm] at hstep
    cases hstep
    exact ⟨fun hjoin => absurd hjoin Bool.false_ne_true, fun _ => h.asleep (by rw [hm]; rfl)⟩
  | waiting so | put so | joinWaiting | done =>
    simp only [hm] at hstep
    cases hstep
  | broadcast =>
    simp only [hm] at hstep
    cases hstep
    refine ⟨fun _ v hv hsleep => ?_, fun hsleep => absurd hsleep Bool.false_ne_true⟩
    obtain ⟨w, hw, rfl⟩ := List.mem_map.1 hv
    rcases hsleep with hpc | hpc
    · unfold Worker.wake at hpc
      split at hpc
      next => cases hpc
      next => exact hok hm w hw hpc
    · exact w.pc_wake_ne hpc
  | joinLock =>
    have hjoin := h.joining (by rw [hm]; rfl)
    simp only [hm] at hstep
    split at hstep
    next => cases hstep
    next =>
      cases hstep
      exact ⟨fun _ => hjoin, fun hsleep => by split at hsleep <;> cases hsleep⟩
  | finish =>
    have hjoin := h.joining (by rw [hm]; rfl)
    simp only [hm] at hstep
    cases hstep
    exact ⟨fun _ => hjoin, fun hsleep => absurd hsleep Bool.false_ne_true⟩

theorem Calm.step {a : Action α} (hstep : Pool.step s a = some s') (hok : Orderly s a) (hinv : Inv s.ctx s.workers)
    (h : Calm s) : Calm s' := by
  cases a with
  | accept so =>
    simp only [Pool.step] at hstep
    split at hstep
    next =>
      split at hstep
      next =>
        cases hstep
        exact Calm.of_awake rfl rfl
      next => cases hstep
    next => cases hstep
  | master => exact h.masterStep hinv hok hstep
  | put wake =>
    simp only [Pool.step] at hstep
    split at hstep
    next =>
      obtain ⟨ws, hws, rfl⟩ := Option.map_eq_some_iff.1 hstep
      exact Calm.of_awake rfl rfl
    next => cases hstep
  | worker k =>
    obtain ⟨w, hget, hstep⟩ := Option.bind_eq_some_iff.1 hstep
    obtain ⟨⟨c', w'⟩, hnext, hstep⟩ := Option.bind_eq_some_iff.1 hstep
    cases hstep
    obtain ⟨pre, post, hws, hset, -⟩ := exists_split hget
    obtain ⟨hjoining, -, hasleep, hended, -, hmaster⟩ := Worker.step_sleep hnext
    have hjoin := h.joining
    have hsleep := h.asleep
    rw [hws, forall_mem_split] at hjoin hsleep
    constructor
    · show c'.master.joining = true → ∀ v ∈ s.workers.set k w', ¬ v.asleep
      rw [hset, forall_mem_split, hjoining]
      intro hj
      refine ⟨fun hw' => ?_, (hjoin hj).2⟩
      rcases hasleep hw' with hw | hstop
      · exact (hjoin hj).1 hw
      · exact hinv.master.stop_of_joining hj hstop
    · show c'.master.asleep = true → ∀ v ∈ s.workers.set k w', ¬ v.ended
      rw [hset, forall_mem_split]
      intro hs
      refine ⟨fun hw' => ?_, (hsleep (hmaster hs)).2⟩
      rcases hended hw' with hw | ⟨hpc, hstop⟩
      · exact (hsleep (hmaster hs)).1 hw
      · have hawake := hok w hget hpc hstop
        rw [hmaster hs] at hawake
        cases hawake
  | wakeWorker k =>
    obtain ⟨w, hget, hstep⟩ := Option.bind_eq_some_iff.1 hstep
    split at hstep
    next =>
      cases hstep
      obtain ⟨pre, post, hws, hset, -⟩ := exists_split hget
      have hjoin := h.joining
      have hsleep := h.asleep
      rw [hws, forall_mem_split] at hjoin hsleep
      constructor
      · rw [hset]
        exact fun hj => forall_mem_split.2 ⟨by simp [Worker.asleep], (hjoin hj).2⟩
      · rw [hset]
        exact fun hs => forall_mem_split.2 ⟨by simp [Worker.ended], (hsleep hs).2⟩
    next => cases hstep
  | wakeMaster =>
    simp only [Pool.step] at hstep
    split at hstep
    next =>
      cases hstep
      exact Calm.of_awake rfl rfl
    next hm =>
      cases hstep
      exact ⟨fun _ => h.joining (by rw [hm]; rfl), fun hsleep => absurd hsleep Bool.false_ne_true⟩
    next => cases hstep
  | stop | free =>
    simp only [Pool.step] at hstep
    split at hstep
    next =>
      cases hstep
      exact ⟨h.joining, h.asleep⟩
    next => cases hstep

theorem calm_start (slots : List α) (h : slots.length = 20) (n : Nat) : Calm (start slots h n) :=
  Calm.of_awake rfl rfl

/-- Without the two races, no run gets into a state that hangs; so `mg_stop` returns once the threads are at rest. -/
theorem orderly_not_hung (hrun : run step (start slots h n) as = some s)
    (hguard : Guarded step Orderly (start slots h n) as) : ¬ Hung s := by
  have hboth := run_invariant (I := fun s => Inv s.ctx s.workers ∧ Calm s)
    (fun hstep hok hs => ⟨hs.1.step hstep, hs.2.step hstep hok hs.1⟩) hrun hguard
    ⟨inv_start slots h n, calm_start slots h n⟩
  obtain ⟨w, hw⟩ := List.exists_mem_of_ne_nil _ hboth.1.nonempty
  rintro (⟨hjoin, v, hv, hsleep⟩ | ⟨hsleep, hended⟩)
  · exact hboth.2.joining hjoin v hv hsleep
  · exact hboth.2.asleep hsleep w hw (hended w hw)

theorem orderly_not_hung_one_worker :
    ∃ s : State Nat, s.ctx.stopFlag = 2 ∧ ¬ Hung s :=
  ⟨_, rfl, orderly_not_hung (show run step (start (List.replicate 20 0) List.length_replicate 0)
    [.worker 0, .worker 0, .worker 0, .stop, .master, .master, .worker 0, .worker 0, .worker 0, .worker 0, .worker 0,
      .master, .master] = some _ from rfl) (by decide)⟩

end Tinyweb.Pool
