import Mathlib.Data.List.Basic
import Mathlib.Data.List.TakeDrop
import Mathlib.Data.List.TakeWhile
import Mathlib.Tactic.Common

/-!
# Arrays of bytes

A C array `char a[n]` is a `Mem n`: a list of bytes together with the proof that it has `n` entries.  Loads, stores
and block copies return `none` exactly when they would leave the array.  `overlay m w` is `m` with the bytes `w`
written over its beginning; a store at the end of `w` extends the overlay by one byte (`store_overlay`), and a longer
overlay hides a shorter one (`overlay_overlay`).  `scan` is the loop `while (stay(*p)) p++`, `cstr` reads the
NUL-terminated text at an index.
-/

namespace Clib

/-- An array of `n` bytes. -/
structure Mem (n : Nat) where
  cells : List UInt8
  length_cells : cells.length = n
  deriving DecidableEq, Repr

namespace Mem

variable {n : Nat}

@[ext] theorem ext {a b : Mem n} (h : a.cells = b.cells) : a = b := by
  cases a; cases b; cases h; rfl

def fill (n : Nat) (b : UInt8) : Mem n := ⟨List.replicate n b, List.length_replicate⟩

/-- `a[i]` -/
def load (m : Mem n) (i : Nat) : Option UInt8 := m.cells[i]?

/-- `a[i] = b` -/
def store (m : Mem n) (i : Nat) (b : UInt8) : Option (Mem n) :=
  if i < n then some ⟨m.cells.set i b, by rw [List.length_set, m.length_cells]⟩ else none

/-- The `count` bytes at `a + off`, for a copy out of the array. -/
def read (m : Mem n) (off count : Nat) : Option (List UInt8) :=
  if off + count ≤ n then some ((m.cells.drop off).take count) else none

/-- `m` with the bytes `w` over its beginning, cut at the end of the array. -/
def overlay (m : Mem n) (w : List UInt8) : Mem n :=
  ⟨(w ++ m.cells.drop w.length).take n, by
    have := m.length_cells
    simp only [List.length_take, List.length_append, List.length_drop]
    omega⟩

/-- A copy of `w` to the beginning of the array. -/
def write (m : Mem n) (w : List UInt8) : Option (Mem n) :=
  if w.length ≤ n then some (m.overlay w) else none

theorem cells_overlay (m : Mem n) {w : List UInt8} (h : w.length ≤ n) :
    (m.overlay w).cells = w ++ m.cells.drop w.length := by
  have := m.length_cells
  apply List.take_of_length_le
  rw [List.length_append, List.length_drop]
  omega

@[simp] theorem overlay_nil (m : Mem n) : m.overlay [] = m := by
  ext1
  rw [cells_overlay m (w := []) (Nat.zero_le n)]
  rfl

theorem getElem?_overlay (m : Mem n) {w : List UInt8} (h : w.length ≤ n) (x : Nat) :
    (m.overlay w).cells[x]? = if x < w.length then w[x]? else m.cells[x]? := by
  rw [cells_overlay m h]
  split
  · rename_i hx
    exact List.getElem?_append_left hx
  · rename_i hx
    rw [List.getElem?_append_right (Nat.not_lt.1 hx), List.getElem?_drop, Nat.add_sub_cancel' (Nat.not_lt.1 hx)]

theorem overlay_overlay (m : Mem n) {w w' : List UInt8} (hw : w.length ≤ w'.length) (hn : w'.length ≤ n) :
    (m.overlay w).overlay w' = m.overlay w' := by
  ext1
  rw [cells_overlay _ hn, cells_overlay _ hn, cells_overlay m (Nat.le_trans hw hn), List.drop_append,
    List.drop_of_length_le hw, List.nil_append, List.drop_drop, Nat.add_sub_cancel' hw]

/-- A store right after the bytes of an overlay adds one byte to it. -/
theorem store_overlay (m : Mem n) (w : List UInt8) (b : UInt8) :
    (m.overlay w).store w.length b = if w.length < n then some (m.overlay (w ++ [b])) else none := by
  unfold store
  split
  · rename_i h
    congr 1
    ext1
    have hd : w.length < m.cells.length := by rw [m.length_cells]; exact h
    have hw : (w ++ [b]).length ≤ n := by simp only [List.length_append, List.length_singleton]; omega
    show (m.overlay w).cells.set w.length b = _
    rw [cells_overlay m hw, cells_overlay m (Nat.le_of_lt h), List.drop_eq_getElem_cons hd,
      List.set_append_right _ _ (Nat.le_refl _), Nat.sub_self, List.set_cons_zero]
    simp
  · rfl

/-! ### Walking through an array -/

/-- The loop `while (stay(*p)) p++`, started at index `p` with the bytes `l` from there on. -/
def scanFrom (stay : UInt8 → Bool) : List UInt8 → Nat → Option Nat
  | [], _ => none
  | c :: l, p => if stay c then scanFrom stay l (p + 1) else some p

/-- `while (stay(*p)) p++` -/
def scan (m : Mem n) (stay : UInt8 → Bool) (p : Nat) : Option Nat := scanFrom stay (m.cells.drop p) p

/-- The bytes of the list up to its first NUL, if there is one. -/
def cstrFrom : List UInt8 → Option (List UInt8)
  | [] => none
  | c :: l => if c = 0 then some [] else (cstrFrom l).map (c :: ·)

/-- The NUL-terminated text at index `p`. -/
def cstr (m : Mem n) (p : Nat) : Option (List UInt8) := cstrFrom (m.cells.drop p)

theorem scanFrom_append {stay : UInt8 → Bool} {w l : List UInt8} {c : UInt8} (p : Nat)
    (hw : ∀ x ∈ w, stay x = true) (hc : stay c = false) :
    scanFrom stay (w ++ c :: l) p = some (p + w.length) := by
  induction w generalizing p with
  | nil => simp [scanFrom, hc]
  | cons x w ih =>
    have hx : stay x = true := hw x (by simp)
    have ih' := ih (p + 1) (fun y hy => hw y (by simp [hy]))
    simp only [List.cons_append, scanFrom, hx, ↓reduceIte, ih', List.length_cons, Option.some.injEq]
    omega

theorem scan_of_cells {m : Mem n} {stay : UInt8 → Bool} {pre w post : List UInt8} {c : UInt8}
    (hm : m.cells = pre ++ (w ++ c :: post)) (hw : ∀ x ∈ w, stay x = true) (hc : stay c = false) :
    m.scan stay pre.length = some (pre ++ w).length := by
  rw [scan, hm, List.drop_left, List.length_append]
  exact scanFrom_append _ hw hc

/-- A scan over a terminated text that stops at the terminator at the latest. -/
theorem scan_text {m : Mem n} {stay stay' : UInt8 → Bool} {pre s junk : List UInt8}
    (hm : m.cells = pre ++ (s ++ 0 :: junk)) (hs : ∀ c ∈ s, stay c = stay' c) (h0 : stay 0 = false) :
    m.scan stay pre.length = some (pre ++ s.takeWhile stay').length := by
  have hsplit := List.takeWhile_append_dropWhile (p := stay') (l := s)
  have htake : ∀ x ∈ s.takeWhile stay', stay x = true := by
    intro x hx
    rw [hs x (List.takeWhile_subset _ hx)]
    exact List.mem_takeWhile_imp hx
  cases hd : s.dropWhile stay' with
  | nil =>
    rw [hd, List.append_nil] at hsplit
    rw [hsplit] at htake ⊢
    exact scan_of_cells hm htake h0
  | cons c l =>
    rw [hd] at hsplit
    have hc : stay c = false := by
      have hmem : c ∈ s := by
        rw [← hsplit]
        simp
      have hhead := List.head?_dropWhile_not stay' s
      rw [hd] at hhead
      rw [hs c hmem]
      simpa using hhead
    have hm' : m.cells = pre ++ (s.takeWhile stay' ++ c :: (l ++ 0 :: junk)) := by
      rw [hm]
      nth_rewrite 1 [← hsplit]
      simp
    exact scan_of_cells hm' htake hc

theorem load_of_cells {m : Mem n} {pre post : List UInt8} {c : UInt8} (hm : m.cells = pre ++ c :: post) :
    m.load pre.length = some c := by
  rw [load, hm]
  simp

theorem load_text {m : Mem n} {pre s junk : List UInt8} (hm : m.cells = pre ++ (s ++ 0 :: junk)) :
    m.load pre.length = some (s.headD 0) := by
  cases s with
  | nil => exact load_of_cells hm
  | cons c s => exact load_of_cells hm

theorem store_of_cells {m : Mem n} {pre post : List UInt8} {c : UInt8} (b : UInt8)
    (hm : m.cells = pre ++ c :: post) :
    ∃ m' : Mem n, m.store pre.length b = some m' ∧ m'.cells = pre ++ b :: post := by
  have hlen : pre.length < n := by
    rw [← m.length_cells, hm, List.length_append, List.length_cons]
    omega
  refine ⟨⟨m.cells.set pre.length b, by rw [List.length_set, m.length_cells]⟩, ?_, ?_⟩
  · rw [store, if_pos hlen]
  · show m.cells.set pre.length b = _
    rw [hm]
    simp

theorem cstrFrom_append {w l : List UInt8} (hw : 0 ∉ w) : cstrFrom (w ++ 0 :: l) = some w := by
  induction w with
  | nil => simp [cstrFrom]
  | cons x w ih =>
    simp only [List.mem_cons, not_or] at hw
    simp [cstrFrom, Ne.symm hw.1, ih hw.2]

theorem nul_not_mem_of_cstr {m : Mem n} {p : Nat} {w : List UInt8} (h : m.cstr p = some w) : 0 ∉ w := by
  unfold cstr at h
  generalize m.cells.drop p = l at h
  induction l generalizing w with
  | nil => cases h
  | cons c l ih =>
    rw [cstrFrom] at h
    split at h
    · cases h
      exact List.not_mem_nil
    · rename_i hc
      obtain ⟨w', hw', rfl⟩ := Option.map_eq_some_iff.1 h
      simp only [List.mem_cons, not_or]
      exact ⟨Ne.symm hc, ih hw'⟩

theorem cstr_of_cells {m : Mem n} {pre w post : List UInt8} (hm : m.cells = pre ++ (w ++ 0 :: post))
    (hw : 0 ∉ w) : m.cstr pre.length = some w := by
  rw [cstr, hm, List.drop_left, cstrFrom_append hw]

end Mem

end Clib
