import Mathlib.Logic.Basic

/-!
# Loops with a body that may fail

A `while` or `for` loop is a body `σ → Option (Step σ ρ)`: one iteration either goes on with a new state, leaves the
loop with a result, or fails (`none`, an access outside an array).  `loop body fuel s` runs at most `fuel` iterations,
and its `Outcome` says how the run has ended; `visited body fuel s` lists the states in which it begins an iteration.
-/

namespace Clib

/-- What one iteration of a loop does: go on, or leave the loop. -/
inductive Step (σ ρ : Type) where
  | next (s : σ)
  | exit (r : ρ)
  deriving DecidableEq, Repr

/-- What a run of a loop comes to: a result, an access outside an array, or still running when the fuel is used up. -/
inductive Outcome (ρ : Type) where
  | ret (r : ρ)
  | fault
  | running
  deriving DecidableEq, Repr

variable {σ ρ τ : Type} {body : σ → Option (Step σ ρ)}

def Outcome.map (f : ρ → τ) : Outcome ρ → Outcome τ
  | .ret r => .ret (f r)
  | .fault => .fault
  | .running => .running

instance : Monad Outcome where
  pure := .ret
  bind x f :=
    match x with
    | .ret r => f r
    | .fault => .fault
    | .running => .running

/-- The outcome of a step that only fails at an access outside an array. -/
def Outcome.ofOption : Option ρ → Outcome ρ
  | some r => .ret r
  | none => .fault

@[simp] theorem Outcome.ret_bind (r : ρ) (f : ρ → Outcome τ) : (Outcome.ret r >>= f) = f r := rfl

/-- At most `fuel` iterations of `body`. -/
def loop (body : σ → Option (Step σ ρ)) : Nat → σ → Outcome ρ
  | 0, _ => .running
  | fuel + 1, s =>
    match body s with
    | none => .fault
    | some (.next s') => loop body fuel s'
    | some (.exit r) => .ret r

theorem loop_next {fuel : Nat} {s s' : σ} (h : body s = some (.next s')) :
    loop body (fuel + 1) s = loop body fuel s' := by
  simp only [loop, h]

theorem loop_exit {fuel : Nat} {s : σ} {r : ρ} (h : body s = some (.exit r)) :
    loop body (fuel + 1) s = .ret r := by
  simp only [loop, h]

theorem loop_fault {fuel : Nat} {s : σ} (h : body s = none) : loop body (fuel + 1) s = .fault := by
  simp only [loop, h]

/-- A run that has ended is not changed by more fuel. -/
theorem loop_add {fuel : Nat} {s : σ} (h : loop body fuel s ≠ .running) (k : Nat) :
    loop body (fuel + k) s = loop body fuel s := by
  induction fuel generalizing s with
  | zero => exact absurd rfl h
  | succ fuel ih =>
    rw [Nat.add_right_comm]
    rw [loop] at h ⊢
    rw [loop]
    split
    · rfl
    · rename_i s' hbody
      rw [hbody] at h
      exact ih h
    · rfl

/-- The states in which the run begins an iteration, in order. -/
def visited (body : σ → Option (Step σ ρ)) : Nat → σ → List σ
  | 0, _ => []
  | fuel + 1, s =>
    s :: match body s with
      | some (.next s') => visited body fuel s'
      | _ => []

theorem visited_next {fuel : Nat} {s s' : σ} (h : body s = some (.next s')) :
    visited body (fuel + 1) s = s :: visited body fuel s' := by
  simp only [visited, h]

theorem visited_exit {fuel : Nat} {s : σ} {r : ρ} (h : body s = some (.exit r)) :
    visited body (fuel + 1) s = [s] := by
  simp only [visited, h]

/-- What holds at the start and is kept by every iteration that goes on holds in every state visited. -/
theorem visited_invariant {P : σ → Prop} (hstep : ∀ s s', P s → body s = some (.next s') → P s') {fuel : Nat} {s : σ}
    (hs : P s) : ∀ t ∈ visited body fuel s, P t := by
  induction fuel generalizing s with
  | zero => exact fun t ht => absurd ht List.not_mem_nil
  | succ fuel ih =>
    intro t ht
    rw [visited, List.mem_cons] at ht
    rcases ht with rfl | ht
    · exact hs
    · split at ht
      · rename_i s' hbody
        exact ih (hstep s s' hs hbody) t ht
      · exact absurd ht List.not_mem_nil

/-- Two bodies that agree in every state visited make the same run. -/
theorem loop_congr {body' : σ → Option (Step σ ρ)} {fuel : Nat} {s : σ}
    (h : ∀ t ∈ visited body fuel s, body t = body' t) : loop body fuel s = loop body' fuel s := by
  induction fuel generalizing s with
  | zero => rfl
  | succ fuel ih =>
    have hs : body s = body' s := h s (List.mem_cons_self ..)
    rw [loop, loop, ← hs]
    split
    · rfl
    · rename_i s' hbody
      apply ih
      intro t ht
      apply h
      rw [visited_next hbody]
      exact List.mem_cons_of_mem _ ht
    · rfl

end Clib
