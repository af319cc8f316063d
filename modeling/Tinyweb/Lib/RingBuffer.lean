import Mathlib.Data.List.Basic
import Mathlib.Tactic.Common

/-!
# Ring buffers with two counters

A queue in an array of `n` slots: `head` counts what was put in, `tail` what was taken out, and an entry stands at its
count modulo `n`.  The counters are taken back by `n` whenever `tail` has passed `n`, so they stay small.  `Holds l`
says that the queue holds the entries of `l`, the oldest first; `put` adds one at the end and `take` removes the first.
-/

namespace Clib

/-- The counters never cross, never are more than `n` apart, and stay below `2 * n`. -/
structure Ring (α : Type) (n : Nat) where
  slots : List α
  head : Nat
  tail : Nat
  length_slots : slots.length = n
  tail_le_head : tail ≤ head
  head_le : head ≤ tail + n
  tail_le : tail ≤ n
  deriving DecidableEq

namespace Ring

variable {α : Type} {n : Nat}

/-- An empty queue in an array of arbitrary content. -/
def empty (slots : List α) (h : slots.length = n) : Ring α n :=
  ⟨slots, 0, 0, h, Nat.le_refl 0, Nat.zero_le _, Nat.zero_le n⟩

def size (r : Ring α n) : Nat := r.head - r.tail

def isFull (r : Ring α n) : Bool := r.head - r.tail ≥ n

def isEmpty (r : Ring α n) : Bool := r.head == r.tail

/-- `if (head - tail < n) { slots[head % n] = x; head++; }` -/
def put (r : Ring α n) (x : α) : Ring α n :=
  if h : r.head - r.tail < n then
    { slots := r.slots.set (r.head % n) x
      head := r.head + 1
      tail := r.tail
      length_slots := by rw [List.length_set, r.length_slots]
      tail_le_head := Nat.le_succ_of_le r.tail_le_head
      head_le := by omega
      tail_le := r.tail_le }
  else r

/-- `while (tail > n) { tail -= n; head -= n; }`, at most `fuel` times. -/
def wrap (n : Nat) : Nat → Nat × Nat → Nat × Nat
  | 0, c => c
  | fuel + 1, (head, tail) => if tail > n then wrap n fuel (head - n, tail - n) else (head, tail)

theorem wrap_of_le {head tail : Nat} (h : tail ≤ n) : ∀ fuel, wrap n fuel (head, tail) = (head, tail)
  | 0 => rfl
  | _ + 1 => if_neg (Nat.not_lt.2 h)

theorem wrap_succ (head fuel : Nat) (hn : 0 < n) : wrap n (fuel + 1) (head, n + 1) = (head - n, 1) := by
  rw [wrap, if_pos (Nat.lt_succ_self n), Nat.add_sub_cancel_left]
  exact wrap_of_le hn fuel

/-- After one entry has been taken, the counters are as before or both have been taken back by `n`. -/
theorem wrap_cases (r : Ring α n) (h : r.tail < r.head) :
    (r.tail + 1 ≤ n ∧ wrap n (r.tail + 1) (r.head, r.tail + 1) = (r.head, r.tail + 1)) ∨
      (r.tail = n ∧ wrap n (r.tail + 1) (r.head, r.tail + 1) = (r.head - n, 1)) := by
  have htail := r.tail_le
  have hhead := r.head_le
  rcases Nat.lt_or_ge r.tail n with hlt | hge
  · exact Or.inl ⟨hlt, wrap_of_le hlt _⟩
  · have heq : r.tail = n := by omega
    right
    rw [heq]
    exact ⟨rfl, wrap_succ r.head n (by omega)⟩

/-- `if (head > tail) { x = slots[tail % n]; tail++; ... }`, with the counters taken back. -/
def take (r : Ring α n) : Option (α × Ring α n) :=
  if h : r.tail < r.head then
    some (r.slots.get ⟨r.tail % n, by rw [r.length_slots]; exact Nat.mod_lt _ (by have := r.head_le; omega)⟩,
      { slots := r.slots
        head := (wrap n (r.tail + 1) (r.head, r.tail + 1)).1
        tail := (wrap n (r.tail + 1) (r.head, r.tail + 1)).2
        length_slots := r.length_slots
        tail_le_head := by
          have := r.head_le
          rcases r.wrap_cases h with ⟨_, hwrap⟩ | ⟨_, hwrap⟩ <;> rw [hwrap] <;> dsimp only <;> omega
        head_le := by
          have := r.head_le
          rcases r.wrap_cases h with ⟨_, hwrap⟩ | ⟨_, hwrap⟩ <;> rw [hwrap] <;> dsimp only <;> omega
        tail_le := by
          have := r.head_le
          rcases r.wrap_cases h with ⟨_, hwrap⟩ | ⟨_, hwrap⟩ <;> rw [hwrap] <;> dsimp only <;> omega })
  else none

theorem size_le (r : Ring α n) : r.size ≤ n := by
  have := r.head_le
  unfold size
  omega

theorem isFull_iff_size (r : Ring α n) : r.isFull = true ↔ r.size = n := by
  have := r.size_le
  unfold size at *
  simp only [isFull, decide_eq_true_eq, ge_iff_le]
  omega

theorem isEmpty_iff_size (r : Ring α n) : r.isEmpty = true ↔ r.size = 0 := by
  have := r.tail_le_head
  unfold size
  rw [isEmpty, beq_iff_eq]
  omega

theorem size_put {r : Ring α n} (h : r.size < n) (x : α) : (r.put x).size = r.size + 1 := by
  have := r.tail_le_head
  have hlt : r.head - r.tail < n := h
  rw [put, dif_pos hlt]
  show r.head + 1 - r.tail = r.head - r.tail + 1
  omega

theorem put_of_size {r : Ring α n} (h : r.size = n) (x : α) : r.put x = r :=
  dif_neg (by unfold size at h; omega)

theorem size_of_take_none {r : Ring α n} (h : r.take = none) : r.size = 0 := by
  unfold take at h
  split at h
  next => cases h
  next hlt =>
    unfold size
    omega

theorem size_take {r r' : Ring α n} {x : α} (h : r.take = some (x, r')) : r'.size + 1 = r.size := by
  have := r.head_le
  unfold take at h
  split at h
  next hlt =>
    injection h with h
    rw [← (Prod.mk.inj h).2]
    show (wrap n _ _).1 - (wrap n _ _).2 + 1 = r.head - r.tail
    rcases r.wrap_cases hlt with ⟨_, hwrap⟩ | ⟨_, hwrap⟩ <;> rw [hwrap] <;> dsimp only <;> omega
  next => cases h

/-- The queue holds the entries of `l`, the oldest first. -/
def Holds (r : Ring α n) (l : List α) : Prop :=
  r.head = r.tail + l.length ∧ ∀ i x, l[i]? = some x → r.slots[(r.tail + i) % n]? = some x

theorem holds_empty (slots : List α) (h : slots.length = n) : (empty slots h).Holds [] :=
  ⟨rfl, fun i x hx => by simp at hx⟩

private theorem mod_ne_of_lt {a b : Nat} (hab : a < b) (hn : b < a + n) : a % n ≠ b % n := by
  intro heq
  have hdvd : (b - a) % n = 0 := Nat.sub_mod_eq_zero_of_mod_eq heq.symm
  rw [Nat.mod_eq_of_lt (by omega)] at hdvd
  omega

namespace Holds

variable {r : Ring α n} {l : List α} {x : α}

theorem size_eq (h : r.Holds l) : r.size = l.length := by
  have := h.1
  unfold size
  omega

theorem put (h : r.Holds l) (hroom : l.length < n) (x : α) : (r.put x).Holds (l ++ [x]) := by
  obtain ⟨hhead, hslots⟩ := h
  have hlt : r.head - r.tail < n := by omega
  have hmod : r.head % n < r.slots.length := by
    rw [r.length_slots]
    exact Nat.mod_lt _ (by omega)
  rw [Ring.put, dif_pos hlt]
  refine ⟨?_, ?_⟩
  · show r.head + 1 = r.tail + (l ++ [x]).length
    rw [List.length_append, List.length_singleton]
    omega
  · intro i y hy
    show (r.slots.set (r.head % n) x)[(r.tail + i) % n]? = some y
    rcases Nat.lt_or_ge i l.length with hi | hi
    · rw [List.getElem?_append_left hi] at hy
      rw [List.getElem?_set_ne (mod_ne_of_lt (by omega) (by omega)).symm]
      exact hslots i y hy
    · have hi' : i = l.length := by
        have := (List.getElem?_eq_some_iff.1 hy).1
        rw [List.length_append, List.length_singleton] at this
        omega
      subst hi'
      rw [List.getElem?_append_right (Nat.le_refl _), Nat.sub_self] at hy
      cases hy
      rw [← hhead, List.getElem?_set_self hmod]

theorem take (h : r.Holds (x :: l)) : ∃ r' : Ring α n, r.take = some (x, r') ∧ r'.Holds l := by
  obtain ⟨hhead, hslots⟩ := h
  rw [List.length_cons] at hhead
  have hlt : r.tail < r.head := by omega
  have hfirst : r.slots[r.tail % n]? = some x := hslots 0 x rfl
  rw [Ring.take, dif_pos hlt]
  refine ⟨_, congrArg some (Prod.ext ?_ rfl), ?_, ?_⟩
  · rw [List.getElem?_eq_some_iff] at hfirst
    exact hfirst.2
  · show (wrap n _ _).1 = (wrap n _ _).2 + l.length
    have := r.head_le
    rcases r.wrap_cases hlt with ⟨_, hwrap⟩ | ⟨_, hwrap⟩ <;> rw [hwrap] <;> dsimp only <;> omega
  · intro i y hy
    show r.slots[((wrap n _ _).2 + i) % n]? = some y
    have hnext := hslots (i + 1) y hy
    rcases r.wrap_cases hlt with ⟨_, hwrap⟩ | ⟨htail, hwrap⟩
    · rw [hwrap, Nat.add_right_comm]
      exact hnext
    · rw [hwrap]
      rw [htail, Nat.add_mod_left] at hnext
      rw [Nat.add_comm 1 i]
      exact hnext

end Holds

end Ring

end Clib
