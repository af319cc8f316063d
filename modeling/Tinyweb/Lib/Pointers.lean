import Mathlib.Data.List.Basic
import Mathlib.Tactic.Common
import Tinyweb.Lib.Loop

/-!
# Arrays of pointers that end with a null pointer

`T *a[n]` is a `Ptrs α n`: `n` slots, each of them null or a pointer to some `α`.  Loads and stores return `none`
exactly when they would leave the array.  `a.Holds l` says that the array holds pointers to the entries of `l` and then
a null pointer; the slots behind it may hold anything.  Two more entries are added by three stores (`Holds.push_two`),
and the loop `for (i = 0; a[i] != NULL; i++)` meets every entry once (`Holds.walk`).
-/

namespace Clib

/-- An array of `n` pointers. -/
structure Ptrs (α : Type) (n : Nat) where
  slots : List (Option α)
  length_slots : slots.length = n
  deriving DecidableEq

namespace Ptrs

variable {α : Type} {n : Nat}

/-- `a[i]` -/
def load (a : Ptrs α n) (i : Nat) : Option (Option α) := a.slots[i]?

/-- `a[i] = x` -/
def store (a : Ptrs α n) (i : Nat) (x : Option α) : Option (Ptrs α n) :=
  if i < n then some ⟨a.slots.set i x, by rw [List.length_set, a.length_slots]⟩ else none

def Holds (a : Ptrs α n) (l : List α) : Prop := ∃ junk, a.slots = l.map some ++ none :: junk

private theorem store_of_slots {a : Ptrs α n} {pre post : List (Option α)} {c : Option α} (x : Option α)
    (h : a.slots = pre ++ c :: post) :
    ∃ a' : Ptrs α n, a.store pre.length x = some a' ∧ a'.slots = pre ++ x :: post := by
  have hlen : pre.length < n := by
    rw [← a.length_slots, h, List.length_append, List.length_cons]
    omega
  refine ⟨⟨a.slots.set pre.length x, by rw [List.length_set, a.length_slots]⟩, ?_, ?_⟩
  · rw [store, if_pos hlen]
  · show a.slots.set pre.length x = _
    rw [h]
    simp

theorem holds_nil_iff {a : Ptrs α n} : a.Holds [] ↔ a.load 0 = some none := by
  constructor
  · rintro ⟨junk, hslots⟩
    rw [load, hslots]
    rfl
  · intro h
    unfold load at h
    cases hs : a.slots with
    | nil =>
      rw [hs] at h
      cases h
    | cons c junk =>
      rw [hs] at h
      exact ⟨junk, by rw [hs, Option.some.inj h]; rfl⟩

/-- `a[0] = NULL` makes the array empty, whatever it has held. -/
theorem store_zero (a : Ptrs α n) (h : 0 < n) : ∃ a' : Ptrs α n, a.store 0 none = some a' ∧ a'.Holds [] := by
  obtain ⟨c, junk, hs⟩ : ∃ c junk, a.slots = c :: junk := by
    apply List.exists_cons_of_length_pos
    rw [a.length_slots]
    exact h
  obtain ⟨a', hstore, hslots⟩ := @store_of_slots α n a [] junk c none hs
  exact ⟨a', hstore, junk, hslots⟩

namespace Holds

variable {a : Ptrs α n} {l : List α}

theorem load_of_lt (h : a.Holds l) {i : Nat} (hi : i < l.length) : a.load i = some (some l[i]) := by
  obtain ⟨junk, hslots⟩ := h
  have hmap : i < (l.map some).length := by
    rw [List.length_map]
    exact hi
  rw [load, hslots, List.getElem?_append_left hmap, List.getElem?_map, List.getElem?_eq_getElem hi]
  rfl

theorem load_length (h : a.Holds l) : a.load l.length = some none := by
  obtain ⟨junk, hslots⟩ := h
  have hmap : (l.map some).length = l.length := List.length_map ..
  rw [load, hslots, ← hmap, List.getElem?_append_right (Nat.le_refl _), Nat.sub_self, List.getElem?_cons_zero]

theorem length_lt (h : a.Holds l) : l.length < n := by
  obtain ⟨junk, hslots⟩ := h
  have hlen := a.length_slots
  rw [hslots, List.length_append, List.length_map, List.length_cons] at hlen
  omega

/-- Three stores at the end of the entries: two entries and a new end. -/
theorem push_two (h : a.Holds l) (hlen : l.length + 2 < n) (x y : α) :
    ∃ a₁ a₂ a₃ : Ptrs α n, a.store l.length (some x) = some a₁ ∧ a₁.store (l.length + 1) (some y) = some a₂ ∧
      a₂.store (l.length + 2) none = some a₃ ∧ a₃.Holds (l ++ [x, y]) := by
  obtain ⟨junk, hslots⟩ := h
  have hmap : (l.map some).length = l.length := List.length_map ..
  have hcount := a.length_slots
  rw [hslots, List.length_append, hmap, List.length_cons] at hcount
  -- two slots behind the null pointer are there, whatever they hold
  rcases junk with _ | ⟨c₁, _ | ⟨c₂, junk⟩⟩
  · rw [List.length_nil] at hcount
    omega
  · rw [List.length_singleton] at hcount
    omega
  · obtain ⟨a₁, h₁, hs₁⟩ := store_of_slots (some x) hslots
    have hs₁' : a₁.slots = (l.map some ++ [some x]) ++ c₁ :: c₂ :: junk := by
      rw [hs₁, List.append_assoc]
      rfl
    obtain ⟨a₂, h₂, hs₂⟩ := store_of_slots (some y) hs₁'
    have hs₂' : a₂.slots = (l.map some ++ [some x, some y]) ++ c₂ :: junk := by
      rw [hs₂, List.append_assoc, List.append_assoc]
      rfl
    obtain ⟨a₃, h₃, hs₃⟩ := store_of_slots none hs₂'
    rw [List.length_append, hmap] at h₂ h₃
    rw [hmap] at h₁
    refine ⟨a₁, a₂, a₃, h₁, h₂, h₃, junk, ?_⟩
    rw [hs₃, List.map_append]
    rfl

end Holds

/-! ### Walking to the null pointer -/

/-- One iteration of `for (i = 0; a[i] != NULL; i++)`. -/
def walkBody (a : Ptrs α n) (i : Nat) : Option (Step Nat Unit) := do
  match ← a.load i with
  | none => return .exit ()
  | some _ => return .next (i + 1)

private theorem walk_from {a : Ptrs α n} {l : List α} (h : a.Holds l) (k : Nat) :
    ∀ {i fuel : Nat}, i + k = l.length → k < fuel →
      loop a.walkBody fuel i = .ret () ∧ visited a.walkBody fuel i = List.range' i (k + 1) ∧
        (visited a.walkBody fuel i).filterMap (fun i => (a.load i).join) = l.drop i := by
  induction k with
  | zero =>
    intro i fuel hi hfuel
    obtain ⟨fuel, rfl⟩ : ∃ f, fuel = f + 1 := ⟨fuel - 1, by omega⟩
    obtain rfl : i = l.length := by omega
    have hexit : a.walkBody l.length = some (.exit ()) := by
      rw [walkBody, h.load_length]
      rfl
    refine ⟨loop_exit hexit, visited_exit hexit, ?_⟩
    rw [visited_exit hexit, List.filterMap_cons_none (by rw [h.load_length]; rfl), List.drop_length]
    rfl
  | succ k ih =>
    intro i fuel hi hfuel
    obtain ⟨fuel, rfl⟩ : ∃ f, fuel = f + 1 := ⟨fuel - 1, by omega⟩
    have hlt : i < l.length := by omega
    have hnext : a.walkBody i = some (.next (i + 1)) := by
      rw [walkBody, h.load_of_lt hlt]
      rfl
    obtain ⟨hloop, hvisited, hentries⟩ := @ih (i + 1) fuel (by omega) (by omega)
    refine ⟨?_, ?_, ?_⟩
    · rw [loop_next hnext, hloop]
    · rw [visited_next hnext, hvisited]
      rfl
    · rw [visited_next hnext, List.filterMap_cons_some (by rw [h.load_of_lt hlt]; rfl), hentries,
        List.getElem_cons_drop hlt]

/-- The walk ends; it looks at each of the entries and at the null pointer once, in order, and so meets the entries the
array holds. -/
theorem Holds.walk {a : Ptrs α n} {l : List α} (h : a.Holds l) {fuel : Nat} (hfuel : l.length < fuel) :
    loop a.walkBody fuel 0 = .ret () ∧ visited a.walkBody fuel 0 = List.range (l.length + 1) ∧
      (visited a.walkBody fuel 0).filterMap (fun i => (a.load i).join) = l := by
  rw [List.range_eq_range']
  exact walk_from h l.length (Nat.zero_add _) hfuel

end Ptrs

end Clib
