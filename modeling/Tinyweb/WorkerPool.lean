import Mathlib.Data.List.Perm.Basic
import Mathlib.Tactic.Common
import Tinyweb.Lib.RingBuffer
import Tinyweb.Lib.Transitions

/-!
# The master thread, the worker threads and the queue of accepted sockets

`produce_socket` puts an accepted socket into a queue of 20 slots, `consume_socket` takes it out again in one of the
worker threads; a mutex guards the queue and two condition variables say that it is not full (`sq_empty`) and not empty
(`sq_full`).  `mg_stop` sets the stop flag without the mutex; the master thread then wakes the workers, waits until all
of them have gone, and gives the context back to `mg_stop`, which frees it.

A state says where each thread is in its code.  One action is one step of one thread, a new connection, a spurious
wake-up, or one of the two steps of `mg_stop`; a run is any list of actions.  `Inv` holds in every reachable state: the
mutex has at most one owner, nobody goes to sleep when there is something to do, and the master outlives the workers.
`History` says what has become of the sockets.
-/

namespace Tinyweb.Pool

open Clib Transitions

/-- Where a worker is in `worker_thread`. -/
inductive WorkerPc where
  /-- Before `consume_socket` takes the mutex. -/
  | lock
  /-- With the mutex, before the condition of the loop in `consume_socket`. -/
  | test
  /-- With the mutex, the condition was true, before `pthread_cond_wait`. -/
  | sleep
  | waiting
  /-- Signalled; `pthread_cond_wait` has to take the mutex again. -/
  | woken
  /-- With the mutex, out of the loop. -/
  | take
  /-- Without the mutex, before the stop flag is read for the result. -/
  | check
  | serve
  /-- Out of the loop of `worker_thread`. -/
  | exit
  | done
  deriving DecidableEq

/-- A worker with `conn->client`; there is no socket in it before the first one and after `close_connection`. -/
structure Worker (α : Type) where
  pc : WorkerPc
  client : Option α
  deriving DecidableEq

/-- Where the master is in `master_thread`, with the socket it has accepted while it is in `produce_socket`. -/
inductive MasterPc (α : Type) where
  | poll
  | lock (so : α)
  | test (so : α)
  | sleep (so : α)
  | waiting (so : α)
  | woken (so : α)
  | put (so : α)
  | broadcast
  /-- Before the mutex is taken to look at the number of threads, for the first time or after a wake-up. -/
  | joinLock
  | joinWaiting
  /-- All threads have exited. -/
  | finish
  | done
  deriving DecidableEq

/-- The `mg_context` with the mutex and the place of the master; the last four fields are a record of what has happened
to the sockets. -/
structure Context (α : Type) where
  queue : Ring α 20
  stopFlag : Nat
  numThreads : Int
  mutex : Bool
  master : MasterPc α
  freed : Bool
  accepted : List α
  queued : List α
  taken : List α
  served : List α
  deriving DecidableEq

structure State (α : Type) where
  ctx : Context α
  workers : List (Worker α)
  deriving DecidableEq

inductive Action (α : Type) where
  | accept (so : α)
  | master
  /-- The end of `produce_socket`; its signal wakes the worker with this number, or there is none to wake. -/
  | put (wake : Option Nat)
  | worker (k : Nat)
  | wakeWorker (k : Nat)
  | wakeMaster
  | stop
  | free
  deriving DecidableEq

variable {α : Type}

/-- `pthread_cond_signal(&ctx->sq_empty)` -/
def MasterPc.signalEmpty : MasterPc α → MasterPc α
  | .waiting so => .woken so
  | m => m

/-- `pthread_cond_signal(&ctx->cond)` -/
def MasterPc.signalCond : MasterPc α → MasterPc α
  | .joinWaiting => .joinLock
  | m => m

/-- `pthread_cond_signal(&ctx->sq_full)` -/
def signalFull (workers : List (Worker α)) : Option Nat → Option (List (Worker α))
  | none => if workers.any (·.pc == .waiting) then none else some workers
  | some k => do
    let w ← workers[k]?
    if w.pc = .waiting then some (workers.set k { w with pc := .woken }) else none

/-- `pthread_cond_broadcast(&ctx->sq_full)`, for one worker. -/
def Worker.wake (w : Worker α) : Worker α := if w.pc = .waiting then { w with pc := .woken } else w

def Worker.step (c : Context α) (w : Worker α) : Option (Context α × Worker α) :=
  match w.pc with
  | .lock | .woken => if c.mutex then none else some ({ c with mutex := true }, { w with pc := .test })
  | .test => some (c, { w with pc := if c.queue.isEmpty && c.stopFlag == 0 then .sleep else .take })
  | .sleep => some ({ c with mutex := false }, { w with pc := .waiting })
  | .waiting => none
  | .take =>
    match c.queue.take with
    | some (so, queue) =>
      some ({ c with
        queue := queue, mutex := false, master := c.master.signalEmpty, taken := c.taken ++ [so] }, ⟨.check, some so⟩)
    | none => some ({ c with mutex := false, master := c.master.signalEmpty }, { w with pc := .check })
  | .check => some (c, { w with pc := if c.stopFlag = 0 then .serve else .exit })
  | .serve => some ({ c with served := c.served ++ w.client.toList }, ⟨.lock, none⟩)
  | .exit =>
    if c.mutex then none
    else some ({ c with numThreads := c.numThreads - 1, master := c.master.signalCond }, { w with pc := .done })
  | .done => none

/-- The steps of the master between `poll` calls and after its loop, without the end of `produce_socket`. -/
def State.masterStep (s : State α) : Option (State α) :=
  match s.ctx.master with
  | .poll => if s.ctx.stopFlag = 0 then none else some { s with ctx := { s.ctx with master := .broadcast } }
  | .lock so | .woken so =>
    if s.ctx.mutex then none else some { s with ctx := { s.ctx with mutex := true, master := .test so } }
  | .test so =>
    some { s with ctx := { s.ctx with
      master := if s.ctx.stopFlag == 0 && s.ctx.queue.isFull then .sleep so else .put so } }
  | .sleep so => some { s with ctx := { s.ctx with mutex := false, master := .waiting so } }
  | .waiting _ | .put _ | .joinWaiting | .done => none
  | .broadcast => some ⟨{ s.ctx with master := .joinLock }, s.workers.map Worker.wake⟩
  | .joinLock =>
    if s.ctx.mutex then none
    else some { s with ctx := { s.ctx with master := if s.ctx.numThreads > 0 then .joinWaiting else .finish } }
  | .finish => some { s with ctx := { s.ctx with stopFlag := 2, master := .done } }

def step (s : State α) : Action α → Option (State α)
  | .accept so =>
    match s.ctx.master with
    | .poll =>
      if s.ctx.stopFlag = 0 then
        some { s with ctx := { s.ctx with master := .lock so, accepted := s.ctx.accepted ++ [so] } }
      else none
    | _ => none
  | .master => s.masterStep
  | .put wake =>
    match s.ctx.master with
    | .put so => (signalFull s.workers wake).map fun workers =>
      ⟨{ s.ctx with
        queue := s.ctx.queue.put so, mutex := false, master := .poll
        queued := if s.ctx.queue.isFull then s.ctx.queued else s.ctx.queued ++ [so] }, workers⟩
    | _ => none
  | .worker k => do
    let w ← s.workers[k]?
    let (c, w) ← w.step s.ctx
    return ⟨c, s.workers.set k w⟩
  | .wakeWorker k => do
    let w ← s.workers[k]?
    if w.pc = .waiting then some { s with workers := s.workers.set k { w with pc := .woken } } else none
  | .wakeMaster =>
    match s.ctx.master with
    | .waiting so => some { s with ctx := { s.ctx with master := .woken so } }
    | .joinWaiting => some { s with ctx := { s.ctx with master := .joinLock } }
    | _ => none
  | .stop => if s.ctx.stopFlag = 0 then some { s with ctx := { s.ctx with stopFlag := 1 } } else none
  | .free =>
    if s.ctx.stopFlag = 2 ∧ s.ctx.freed = false then some { s with ctx := { s.ctx with freed := true } } else none

/-- The state in which `mg_start` leaves the context, with `n + 1` worker threads. -/
def start (slots : List α) (h : slots.length = 20) (n : Nat) : State α where
  ctx := ⟨Ring.empty slots h, 0, n + 1, false, .poll, false, [], [], [], []⟩
  workers := List.replicate (n + 1) ⟨.lock, none⟩

/-- A step of the threads, as opposed to what comes from outside. -/
def Action.isThread : Action α → Bool
  | .master | .put _ | .worker _ => true
  | _ => false

/-! ### The invariant -/

/-- The thread owns the mutex. -/
def Worker.inside (w : Worker α) : Bool :=
  match w.pc with
  | .test | .sleep | .take => true
  | _ => false

/-- The worker is going to look at the queue, or has found it not empty. -/
def Worker.coming (w : Worker α) : Bool :=
  match w.pc with
  | .woken | .test | .take => true
  | _ => false

def Worker.live (w : Worker α) : Bool :=
  match w.pc with
  | .done => false
  | _ => true

def MasterPc.inside : MasterPc α → Bool
  | .test _ | .sleep _ | .put _ => true
  | _ => false

/-- The accepted socket that is not in the queue yet. -/
def MasterPc.hand : MasterPc α → List α
  | .lock so | .test so | .sleep so | .waiting so | .woken so | .put so => [so]
  | _ => []

/-- What a worker may rely on at its place, about the number of sockets in the queue and the stop flag. -/
def Worker.Ok (size stop : Nat) (w : Worker α) : Prop :=
  match w.pc with
  | .lock | .test | .waiting | .woken => w.client = none
  | .sleep => w.client = none ∧ size = 0
  | .take => w.client = none ∧ (0 < size ∨ stop ≠ 0)
  | .check => w.client ≠ none ∨ stop ≠ 0
  | .serve => w.client ≠ none
  | .exit | .done => stop ≠ 0

/-- What the master may rely on at its place. -/
def MasterPc.Ok (size stop : Nat) (threads : Int) : MasterPc α → Prop
  | .poll | .lock _ | .test _ | .woken _ => stop < 2
  | .sleep _ | .waiting _ => stop < 2 ∧ size = 20
  | .put _ => stop < 2 ∧ (size < 20 ∨ stop ≠ 0)
  | .broadcast | .joinLock => stop = 1
  | .joinWaiting => stop = 1 ∧ 0 < threads
  | .finish => stop = 1 ∧ threads = 0
  | .done => stop = 2 ∧ threads = 0

structure Inv (c : Context α) (ws : List (Worker α)) : Prop where
  mutex : ws.countP Worker.inside + c.master.inside.toNat = c.mutex.toNat
  worker : ∀ w ∈ ws, w.Ok c.queue.size c.stopFlag
  master : c.master.Ok c.queue.size c.stopFlag c.numThreads
  coming : (∃ w ∈ ws, w.pc = .waiting) → c.queue.size ≤ ws.countP Worker.coming
  threads : c.numThreads = ws.countP Worker.live
  freed : c.freed = true → c.stopFlag = 2
  nonempty : ws ≠ []

variable {c c' : Context α} {pre post ws : List (Worker α)} {w w' : Worker α} {size size' stop stop' : Nat} {so : α}

theorem Worker.Ok.of_stop (h : w.Ok size stop) (hstop : stop ≠ 0 → stop' ≠ 0) : w.Ok size stop' := by
  cases hpc : w.pc <;> simp only [Worker.Ok, hpc] at h ⊢ <;> grind

/-- Without the mutex, a worker relies on nothing about the queue. -/
theorem Worker.Ok.of_not_inside (h : w.Ok size stop) (hw : w.inside = false) : w.Ok size' stop := by
  cases hpc : w.pc <;> simp only [Worker.Ok, Worker.inside, hpc, Bool.true_eq_false] at h hw ⊢ <;> exact h

/-- While a worker owns the mutex, no other thread does. -/
theorem Inv.alone (h : Inv c (pre ++ w :: post)) (hw : w.inside = true) :
    (∀ v ∈ pre ++ post, v.inside = false) ∧ c.master.inside = false ∧ c.mutex = true := by
  have hmutex := h.mutex
  have := Bool.toNat_le c.mutex
  rw [countP_split, hw, Bool.toNat_true] at hmutex
  refine ⟨?_, ?_, ?_⟩
  · intro v hv
    have hzero : (pre ++ post).countP Worker.inside = 0 := by omega
    simpa using List.countP_eq_zero.1 hzero v hv
  · rw [← Bool.toNat_eq_zero]
    omega
  · rw [← Bool.toNat_eq_one]
    omega

/-- A step of a worker that changes only its place and the mutex. -/
theorem Inv.moveWorker (h : Inv c (pre ++ w :: post)) {m : Bool}
    (hmutex : w'.inside.toNat + c.mutex.toNat = w.inside.toNat + m.toNat)
    (hok : w'.Ok c.queue.size c.stopFlag) (hlive : w'.live = w.live)
    (hcoming : c.queue.size = 0 ∨ w'.pc ≠ .waiting ∧ w.coming.toNat ≤ w'.coming.toNat) :
    Inv { c with mutex := m } (pre ++ w' :: post) where
  mutex := by
    have := h.mutex
    rw [countP_split] at *
    show _ + c.master.inside.toNat = m.toNat
    omega
  worker := forall_mem_split.2 ⟨hok, (forall_mem_split.1 h.worker).2⟩
  master := h.master
  coming := by
    have := h.coming
    rw [exists_mem_split, countP_split] at *
    intro hwait
    show c.queue.size ≤ _
    rcases hcoming with hempty | ⟨hnot, hle⟩
    · omega
    · have := this (hwait.imp (fun hw => absurd hw hnot) id)
      omega
  threads := by
    have := h.threads
    rw [countP_split] at *
    rw [hlive]
    exact this
  freed := h.freed
  nonempty := by simp

/-- A step of the master that changes only its place and the mutex. -/
theorem Inv.moveMaster (h : Inv c ws) {m : Bool} {p : MasterPc α}
    (hmutex : p.inside.toNat + c.mutex.toNat = c.master.inside.toNat + m.toNat)
    (hok : p.Ok c.queue.size c.stopFlag c.numThreads) :
    Inv { c with mutex := m, master := p } ws where
  mutex := by
    have := h.mutex
    show _ + p.inside.toNat = m.toNat
    omega
  worker := h.worker
  master := hok
  coming := h.coming
  threads := h.threads
  freed := h.freed
  nonempty := h.nonempty

@[simp]
theorem MasterPc.inside_signalEmpty (m : MasterPc α) : m.signalEmpty.inside = m.inside := by
  cases m <;> rfl

@[simp]
theorem MasterPc.inside_signalCond (m : MasterPc α) : m.signalCond.inside = m.inside := by
  cases m <;> rfl

@[simp]
theorem MasterPc.hand_signalEmpty (m : MasterPc α) : m.signalEmpty.hand = m.hand := by
  cases m <;> rfl

@[simp]
theorem MasterPc.hand_signalCond (m : MasterPc α) : m.signalCond.hand = m.hand := by
  cases m <;> rfl

/-- A master that sleeps in `produce_socket` is woken before it can see that the queue is no longer full. -/
theorem MasterPc.Ok.signalEmpty {m : MasterPc α} {threads : Int} (h : m.Ok size stop threads)
    (hm : m.inside = false) : m.signalEmpty.Ok size' stop threads := by
  cases m with
  | test so | sleep so | put so => cases hm
  | waiting so => exact h.1
  | _ => exact h

/-- The end of `consume_socket`. -/
theorem Inv.takeStep (h : Inv c (pre ++ w :: post)) (hw : w.pc = .take) {queue : Ring α 20} {taken : List α}
    (hsize : queue.size = c.queue.size - 1) {client : Option α} (hclient : client ≠ none ∨ c.stopFlag ≠ 0) :
    Inv { c with queue := queue, mutex := false, master := c.master.signalEmpty, taken := taken }
      (pre ++ ⟨.check, client⟩ :: post) := by
  have hinside : w.inside = true := by simp only [Worker.inside, hw]
  obtain ⟨hothers, hmaster, -⟩ := h.alone hinside
  constructor
  · have hzero : (pre ++ post).countP Worker.inside = 0 := by
      rw [List.countP_eq_zero]
      intro v hv
      simp [hothers v hv]
    rw [countP_split, hzero, MasterPc.inside_signalEmpty, hmaster]
    rfl
  · refine forall_mem_split.2 ⟨hclient, ?_⟩
    intro v hv
    exact (h.worker v (mem_of_mem_others hv)).of_not_inside (hothers v hv)
  · exact h.master.signalEmpty hmaster
  · have hcoming := h.coming
    have hone : w.coming = true := by simp only [Worker.coming, hw]
    rw [exists_mem_split, countP_split] at *
    intro hwait
    have hle := hcoming (Or.inr (hwait.resolve_left WorkerPc.noConfusion))
    rw [hone, Bool.toNat_true] at hle
    show queue.size ≤ _
    omega
  · have hthreads := h.threads
    have hone : w.live = true := by simp only [Worker.live, hw]
    rw [countP_split, hone] at hthreads
    rw [countP_split]
    exact hthreads
  · exact h.freed
  · simp

theorem Inv.exitStep (h : Inv c (pre ++ w :: post)) (hw : w.pc = .exit) :
    Inv { c with numThreads := c.numThreads - 1, master := c.master.signalCond }
      (pre ++ { w with pc := .done } :: post) := by
  have hok := h.worker w mem_self
  have hlive : w.live = true := by simp only [Worker.live, hw]
  have hinside : w.inside = false := by simp only [Worker.inside, hw]
  have hcount := h.threads
  rw [countP_split, hlive] at hcount
  constructor
  · have hmutex := h.mutex
    rw [countP_split, hinside] at hmutex
    rw [countP_split, MasterPc.inside_signalCond]
    exact hmutex
  · refine forall_mem_split.2 ⟨?_, (forall_mem_split.1 h.worker).2⟩
    simpa only [Worker.Ok, hw] using hok
  · have hmaster := h.master
    cases hm : c.master with
    | joinWaiting =>
      rw [hm] at hmaster
      exact hmaster.1
    | finish | done =>
      -- this worker still counts
      rw [hm] at hmaster
      have := hmaster.2
      rw [Bool.toNat_true] at hcount
      omega
    | _ =>
      rw [hm] at hmaster
      exact hmaster
  · have hcoming := h.coming
    have hnot : w.coming = false := by simp only [Worker.coming, hw]
    rw [exists_mem_split, countP_split] at *
    intro hwait
    have hle := hcoming (Or.inr (hwait.resolve_left WorkerPc.noConfusion))
    rw [hnot] at hle
    exact hle
  · rw [countP_split]
    rw [Bool.toNat_true] at hcount
    show c.numThreads - 1 = ((List.countP Worker.live (pre ++ post) + 0 : Nat) : Int)
    omega
  · exact h.freed
  · simp

theorem Inv.workerStep (h : Inv c (pre ++ w :: post)) (hstep : w.step c = some (c', w')) :
    Inv c' (pre ++ w' :: post) := by
  have hok := h.worker w mem_self
  have hmutex (hw : w.inside = true) : c.mutex = true := (h.alone hw).2.2
  unfold Worker.step at hstep
  cases hpc : w.pc with
  | lock | woken =>
    simp only [hpc, Worker.Ok] at hstep hok
    split at hstep
    next => cases hstep
    next hfree =>
      cases hstep
      refine h.moveWorker ?_ hok ?_ (Or.inr ⟨WorkerPc.noConfusion, ?_⟩) <;>
        simp [Worker.inside, Worker.live, Worker.coming, hpc, hfree]
  | test =>
    simp only [hpc, Worker.Ok] at hstep hok
    cases hstep
    split
    next hidle =>
      simp only [Bool.and_eq_true, Ring.isEmpty_iff_size] at hidle
      refine h.moveWorker ?_ ⟨hok, hidle.1⟩ ?_ (Or.inl hidle.1) <;>
        simp [Worker.inside, Worker.live, hpc]
    next hidle =>
      have hbusy : 0 < c.queue.size ∨ c.stopFlag ≠ 0 := by
        simp only [Bool.and_eq_true, Ring.isEmpty_iff_size, beq_iff_eq] at hidle
        omega
      refine h.moveWorker ?_ ⟨hok, hbusy⟩ ?_ (Or.inr ⟨WorkerPc.noConfusion, ?_⟩) <;>
        simp [Worker.inside, Worker.live, Worker.coming, hpc]
  | sleep =>
    simp only [hpc, Worker.Ok] at hstep hok
    cases hstep
    refine h.moveWorker ?_ hok.1 ?_ (Or.inl hok.2) <;>
      simp [Worker.inside, Worker.live, hpc, hmutex]
  | waiting | done =>
    simp only [hpc] at hstep
    cases hstep
  | take =>
    simp only [hpc, Worker.Ok] at hstep hok
    split at hstep
    next so queue htake =>
      cases hstep
      refine h.takeStep hpc ?_ (Or.inl (by simp))
      have := Ring.size_take htake
      omega
    next htake =>
      have hsize := Ring.size_of_take_none htake
      cases hstep
      exact h.takeStep hpc (by omega) (Or.inr (by omega))
  | check =>
    simp only [hpc, Worker.Ok] at hstep hok
    cases hstep
    split
    next hstop =>
      refine h.moveWorker ?_ (hok.resolve_right (by omega)) ?_ (Or.inr ⟨WorkerPc.noConfusion, ?_⟩) <;>
        simp [Worker.inside, Worker.live, Worker.coming, hpc]
    next hstop =>
      refine h.moveWorker ?_ hstop ?_ (Or.inr ⟨WorkerPc.noConfusion, ?_⟩) <;>
        simp [Worker.inside, Worker.live, Worker.coming, hpc]
  | serve =>
    simp only [hpc] at hstep
    cases hstep
    have hmove : Inv { c with mutex := c.mutex } (pre ++ ⟨.lock, none⟩ :: post) := by
      refine h.moveWorker ?_ rfl ?_ (Or.inr ⟨WorkerPc.noConfusion, ?_⟩) <;>
        simp [Worker.inside, Worker.live, Worker.coming, hpc]
    exact ⟨hmove.mutex, hmove.worker, hmove.master, hmove.coming, hmove.threads, hmove.freed, hmove.nonempty⟩
  | exit =>
    simp only [hpc] at hstep
    split at hstep
    next => cases hstep
    next =>
      cases hstep
      exact h.exitStep hpc

theorem signalFull_cases {wake : Option Nat} {ws' : List (Worker α)} (h : signalFull ws wake = some ws') :
    ((∀ w ∈ ws, w.pc ≠ .waiting) ∧ ws' = ws) ∨
      ∃ pre w post, ws = pre ++ w :: post ∧ w.pc = .waiting ∧ ws' = pre ++ { w with pc := .woken } :: post := by
  cases wake with
  | none =>
    simp only [signalFull, List.any_eq_true, beq_iff_eq] at h
    split at h
    next => cases h
    next hnone =>
      cases h
      exact Or.inl ⟨fun w hw hpc => hnone ⟨w, hw, hpc⟩, rfl⟩
  | some k =>
    obtain ⟨w, hget, h⟩ := Option.bind_eq_some_iff.1 h
    obtain ⟨pre, post, rfl, hset, -⟩ := exists_split hget
    split at h
    next hpc =>
      cases h
      exact Or.inr ⟨pre, w, post, rfl, hpc, hset _⟩
    next => cases h

theorem Inv.masterAlone (h : Inv c ws) (hm : c.master.inside = true) :
    (∀ v ∈ ws, v.inside = false) ∧ c.mutex = true := by
  have hmutex := h.mutex
  have := Bool.toNat_le c.mutex
  rw [hm, Bool.toNat_true] at hmutex
  refine ⟨?_, ?_⟩
  · intro v hv
    have hzero : ws.countP Worker.inside = 0 := by omega
    simpa using List.countP_eq_zero.1 hzero v hv
  · rw [← Bool.toNat_eq_one]
    omega

/-- A worker that is signalled goes on to look at the queue. -/
theorem Inv.wakeWorker (h : Inv c (pre ++ w :: post)) (hw : w.pc = .waiting) :
    Inv c (pre ++ { w with pc := .woken } :: post) := by
  have hok := h.worker w mem_self
  simp only [Worker.Ok, hw] at hok
  have hmove : Inv { c with mutex := c.mutex } (pre ++ { w with pc := .woken } :: post) := by
    refine h.moveWorker ?_ hok ?_ (Or.inr ⟨WorkerPc.noConfusion, ?_⟩) <;>
      simp [Worker.inside, Worker.live, Worker.coming, hw]
  exact hmove

theorem Inv.putStep (h : Inv c ws) (hm : c.master = .put so) {wake : Option Nat} {ws' queued}
    (hws : signalFull ws wake = some ws') :
    Inv { c with queue := c.queue.put so, mutex := false, master := .poll, queued := queued } ws' := by
  have hmaster := h.master
  have hinside : c.master.inside = true := by rw [hm]; rfl
  have hsize : (c.queue.put so).size ≤ c.queue.size + 1 := by
    rcases Nat.lt_or_ge c.queue.size 20 with hlt | hge
    · exact Nat.le_of_eq (Ring.size_put hlt so)
    · rw [Ring.put_of_size (Nat.le_antisymm c.queue.size_le hge)]
      omega
  -- the signal is given first, while the mutex is still taken
  have hwoken : Inv c ws' ∧ ((∃ w ∈ ws', w.pc = .waiting) → c.queue.size + 1 ≤ ws'.countP Worker.coming) := by
    rcases signalFull_cases hws with ⟨hnone, rfl⟩ | ⟨pre, w, post, rfl, hpc, rfl⟩
    · exact ⟨h, fun ⟨w, hw, hpc⟩ => absurd hpc (hnone w hw)⟩
    · have hle := h.coming ⟨w, mem_self, hpc⟩
      refine ⟨h.wakeWorker hpc, fun _ => ?_⟩
      rw [countP_split] at hle ⊢
      simp only [Worker.coming, hpc, Bool.toNat_false, Bool.toNat_true] at hle ⊢
      omega
  obtain ⟨hwoken, hcoming⟩ := hwoken
  obtain ⟨hothers, -⟩ := hwoken.masterAlone hinside
  constructor
  · have hzero : ws'.countP Worker.inside = 0 := by
      rw [List.countP_eq_zero]
      intro v hv
      simp [hothers v hv]
    rw [hzero]
    rfl
  · intro v hv
    exact (hwoken.worker v hv).of_not_inside (hothers v hv)
  · rw [hm] at hmaster
    exact hmaster.1
  · intro hwait
    have := hcoming hwait
    show (c.queue.put so).size ≤ _
    omega
  · exact hwoken.threads
  · exact h.freed
  · exact hwoken.nonempty

theorem Worker.inside_wake (w : Worker α) : w.wake.inside = w.inside := by
  unfold Worker.wake
  split
  next hpc => simp only [Worker.inside, hpc]
  next => rfl

theorem Worker.live_wake (w : Worker α) : w.wake.live = w.live := by
  unfold Worker.wake
  split
  next hpc => simp only [Worker.live, hpc]
  next => rfl

theorem Worker.client_wake (w : Worker α) : w.wake.client = w.client := by
  unfold Worker.wake
  split <;> rfl

theorem Worker.pc_wake_ne (w : Worker α) : w.wake.pc ≠ .waiting := by
  unfold Worker.wake
  split
  next => exact WorkerPc.noConfusion
  next hpc => exact hpc

theorem Worker.Ok.wake (h : w.Ok size stop) : w.wake.Ok size stop := by
  unfold Worker.wake
  split
  next hpc =>
    simp only [Worker.Ok, hpc] at h
    exact h
  next => exact h

theorem Inv.broadcastStep (h : Inv c ws) (hm : c.master = .broadcast) :
    Inv { c with master := .joinLock } (ws.map Worker.wake) := by
  have hmaster := h.master
  rw [hm] at hmaster
  constructor
  · have hmutex := h.mutex
    rw [hm] at hmutex
    rw [List.countP_map, show Worker.inside ∘ Worker.wake = Worker.inside from funext Worker.inside_wake]
    exact hmutex
  · intro v hv
    obtain ⟨w, hw, rfl⟩ := List.mem_map.1 hv
    exact (h.worker w hw).wake
  · exact hmaster
  · rintro ⟨v, hv, hpc⟩
    obtain ⟨w, hw, rfl⟩ := List.mem_map.1 hv
    exact absurd hpc w.pc_wake_ne
  · rw [List.countP_map, show Worker.live ∘ Worker.wake = Worker.live from funext Worker.live_wake]
    exact h.threads
  · exact h.freed
  · simpa using h.nonempty

theorem Inv.masterStep {s s' : State α} (h : Inv s.ctx s.workers) (hstep : s.masterStep = some s') :
    Inv s'.ctx s'.workers := by
  have hmaster := h.master
  have halone (hm : s.ctx.master.inside = true) : s.ctx.mutex = true := (h.masterAlone hm).2
  unfold State.masterStep at hstep
  cases hm : s.ctx.master with
  | poll =>
    simp only [hm, MasterPc.Ok] at hstep hmaster
    split at hstep
    next => cases hstep
    next hstop =>
      cases hstep
      refine h.moveMaster ?_ ?_
      · rw [hm]
        rfl
      · show s.ctx.stopFlag = 1
        omega
  | lock so | woken so =>
    simp only [hm, MasterPc.Ok] at hstep hmaster
    split at hstep
    next => cases hstep
    next hfree =>
      cases hstep
      refine h.moveMaster ?_ hmaster
      simp [hm, MasterPc.inside, hfree]
  | test so =>
    simp only [hm, MasterPc.Ok] at hstep hmaster
    cases hstep
    split
    next hfull =>
      simp only [Bool.and_eq_true, beq_iff_eq, Ring.isFull_iff_size] at hfull
      refine h.moveMaster ?_ ⟨hmaster, hfull.2⟩
      simp [hm, MasterPc.inside]
    next hfull =>
      simp only [Bool.and_eq_true, beq_iff_eq, Ring.isFull_iff_size] at hfull
      have := s.ctx.queue.size_le
      refine h.moveMaster ?_ ⟨hmaster, by omega⟩
      simp [hm, MasterPc.inside]
  | sleep so =>
    simp only [hm, MasterPc.Ok] at hstep hmaster
    cases hstep
    refine h.moveMaster ?_ hmaster
    rw [halone (by rw [hm]; rfl), hm]
    rfl
  | waiting so | put so | joinWaiting | done =>
    simp only [hm] at hstep
    cases hstep
  | broadcast =>
    simp only [hm] at hstep
    cases hstep
    exact h.broadcastStep hm
  | joinLock =>
    simp only [hm, MasterPc.Ok] at hstep hmaster
    split at hstep
    next => cases hstep
    next =>
      cases hstep
      have := h.threads
      split
      next hpos =>
        refine h.moveMaster ?_ ⟨hmaster, hpos⟩
        rw [hm]
        rfl
      next =>
        refine h.moveMaster ?_ ⟨hmaster, by omega⟩
        rw [hm]
        rfl
  | finish =>
    simp only [hm, MasterPc.Ok] at hstep hmaster
    cases hstep
    constructor
    · simpa [hm, MasterPc.inside] using h.mutex
    · intro w hw
      exact (h.worker w hw).of_stop fun _ => Nat.succ_ne_zero _
    · exact ⟨rfl, hmaster.2⟩
    · exact h.coming
    · exact h.threads
    · exact fun _ => rfl
    · exact h.nonempty

theorem Inv.stopStep (h : Inv c ws) (hstop : c.stopFlag = 0) : Inv { c with stopFlag := 1 } ws where
  mutex := h.mutex
  worker w hw := (h.worker w hw).of_stop fun _ => Nat.succ_ne_zero _
  master := by
    have hmaster := h.master
    show c.master.Ok c.queue.size 1 c.numThreads
    cases hm : c.master <;> simp only [hm, MasterPc.Ok, hstop] at hmaster ⊢ <;> omega
  coming := h.coming
  threads := h.threads
  freed hfreed := by
    have := h.freed hfreed
    omega
  nonempty := h.nonempty

theorem Inv.step {s s' : State α} {a : Action α} (hstep : Pool.step s a = some s') (h : Inv s.ctx s.workers) :
    Inv s'.ctx s'.workers := by
  cases a with
  | accept so =>
    simp only [Pool.step] at hstep
    split at hstep
    next hm =>
      split at hstep
      next hstop =>
        cases hstep
        have hmove : Inv { s.ctx with mutex := s.ctx.mutex, master := .lock so } s.workers := by
          refine h.moveMaster ?_ ?_
          · rw [hm]
            rfl
          · show s.ctx.stopFlag < 2
            omega
        exact ⟨hmove.mutex, hmove.worker, hmove.master, hmove.coming, hmove.threads, hmove.freed, hmove.nonempty⟩
      next => cases hstep
    next => cases hstep
  | master => exact h.masterStep hstep
  | put wake =>
    simp only [Pool.step] at hstep
    split at hstep
    next so hm =>
      obtain ⟨ws, hws, rfl⟩ := Option.map_eq_some_iff.1 hstep
      exact h.putStep hm hws
    next => cases hstep
  | worker k =>
    obtain ⟨w, hget, hstep⟩ := Option.bind_eq_some_iff.1 hstep
    obtain ⟨⟨c', w'⟩, hnext, hstep⟩ := Option.bind_eq_some_iff.1 hstep
    cases hstep
    obtain ⟨pre, post, hws, hset, -⟩ := exists_split hget
    rw [hws] at h
    show Inv c' (s.workers.set k w')
    rw [hset]
    exact h.workerStep hnext
  | wakeWorker k =>
    obtain ⟨w, hget, hstep⟩ := Option.bind_eq_some_iff.1 hstep
    split at hstep
    next hpc =>
      cases hstep
      obtain ⟨pre, post, hws, hset, -⟩ := exists_split hget
      rw [hws] at h
      show Inv s.ctx (s.workers.set k _)
      rw [hset]
      exact h.wakeWorker hpc
    next => cases hstep
  | wakeMaster =>
    have hmaster := h.master
    simp only [Pool.step] at hstep
    split at hstep
    next so hm =>
      cases hstep
      rw [hm] at hmaster
      exact h.moveMaster (by rw [hm]; rfl) hmaster.1
    next hm =>
      cases hstep
      rw [hm] at hmaster
      exact h.moveMaster (by rw [hm]; rfl) hmaster.1
    next => cases hstep
  | stop =>
    simp only [Pool.step] at hstep
    split at hstep
    next hstop =>
      cases hstep
      exact h.stopStep hstop
    next => cases hstep
  | free =>
    simp only [Pool.step] at hstep
    split at hstep
    next hstop =>
      cases hstep
      exact ⟨h.mutex, h.worker, h.master, h.coming, h.threads, fun _ => hstop.1, h.nonempty⟩
    next => cases hstep

theorem inv_start (slots : List α) (h : slots.length = 20) (n : Nat) :
    Inv (start slots h n).ctx (start slots h n).workers where
  mutex := by simp [start, List.countP_replicate, Worker.inside, MasterPc.inside]
  worker w hw := by
    rw [List.eq_of_mem_replicate hw]
    rfl
  master := Nat.zero_lt_two
  coming := by
    rintro ⟨w, hw, hpc⟩
    rw [List.eq_of_mem_replicate hw] at hpc
    cases hpc
  threads := by simp [start, List.countP_replicate, Worker.live]
  freed hfreed := by cases hfreed
  nonempty := by simp [start]

variable {slots : List α} {h : slots.length = 20} {n : Nat} {as : List (Action α)} {s t : State α}

theorem inv_of_run (hrun : run step (start slots h n) as = some s) : Inv s.ctx s.workers :=
  run_invariant (I := fun s => Inv s.ctx s.workers) (fun hstep _ => Inv.step hstep) hrun (guarded_true _ _)
    (inv_start slots h n)

/-- Once the master has set the stop flag for the last time, every thread is gone; `mg_stop` waits for that before it
frees the context. -/
theorem context_not_used_after_stop (hrun : run step (start slots h n) as = some s) :
    0 ≤ s.ctx.numThreads ∧ (s.ctx.freed = true → s.ctx.stopFlag = 2) ∧
      (s.ctx.stopFlag = 2 → ∀ a : Action α, a.isThread = true → step s a = none) := by
  have hinv := inv_of_run hrun
  have hthreads := hinv.threads
  refine ⟨by omega, hinv.freed, fun hstop a ha => ?_⟩
  have hmaster : s.ctx.master = .done := by
    have hmaster := hinv.master
    cases hm : s.ctx.master <;> simp only [hm, MasterPc.Ok, hstop] at hmaster <;> first | rfl | omega
  have hdone (w : Worker α) (hw : w ∈ s.workers) : w.pc = .done := by
    have hzero : s.workers.countP Worker.live = 0 := by
      have := hinv.master
      rw [hmaster] at this
      have := this.2
      omega
    have hlive := List.countP_eq_zero.1 hzero w hw
    cases hpc : w.pc <;> simp [Worker.live, hpc] at hlive ⊢
  cases a with
  | master => simp only [step, State.masterStep, hmaster]
  | put wake => simp only [step, hmaster]
  | worker k =>
    cases hget : s.workers[k]? with
    | none => simp only [step, hget, bind, Option.bind]
    | some w =>
      have hpc := hdone w (List.mem_of_getElem? hget)
      simp only [step, hget, bind, Option.bind, Worker.step, hpc]
  | _ => cases ha

theorem context_not_used_after_stop_one_worker :
    ∃ s : State Nat, s.ctx.freed = true ∧ ∀ a : Action Nat, a.isThread = true → step s a = none :=
  ⟨_, rfl, (context_not_used_after_stop (show run step (start (List.replicate 20 0) List.length_replicate 0)
    [.stop, .worker 0, .worker 0, .worker 0, .worker 0, .worker 0, .master, .master, .master, .master, .free] = some _
    from rfl)).2.2 rfl⟩

end Tinyweb.Pool
