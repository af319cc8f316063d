import Tinyweb.Lib.FormEncoding
import Tinyweb.GetField

/-!
# The segments of a query

A query is a list of segments between `&`.  `parseSegment` says what a segment means: leading `=` signs are dropped, the
text before the next `=` is the name and the text after it, if there is one, the value, both decoded.  The pair buffer
holds name, NUL and value (`Segment.cells`).

`lookup` is `decode_query` on the level of segments.  It keeps the two things the loop carries from one segment to the
next: the index `j`, which is set by `=` only, and the buffer.
-/

namespace Tinyweb

open Clib

/-- A decoded segment: its name, and its value if there is an `=` after the name. -/
structure Segment where
  name : List UInt8
  value : Option (List UInt8)
  deriving DecidableEq, Repr

def parseSegment (w : List UInt8) : Segment :=
  let t := w.dropWhile (· == EQUALS)
  let raw := t.takeWhile (· != EQUALS)
  match t.drop raw.length with
  | [] => ⟨unescape raw, none⟩
  | _ :: v => ⟨unescape raw, some (unescape v)⟩

namespace Segment

/-- What the pair buffer holds at the end of the segment. -/
def cells (seg : Segment) : List UInt8 :=
  match seg.value with
  | none => seg.name
  | some v => seg.name ++ NUL :: v

/-- The index `j` after the segment. -/
def mark (seg : Segment) (j : Nat) : Nat :=
  match seg.value with
  | none => j
  | some _ => seg.name.length + 1

/-- The comparison of the name with the key: the key is a prefix of the name. -/
def Matches (seg : Segment) (key : CStr) : Prop := seg.name ≠ [] ∧ key.bytes <+: seg.name

instance (seg : Segment) (key : CStr) : Decidable (seg.Matches key) := inferInstanceAs (Decidable (_ ∧ _))

end Segment

variable {n : Nat}

/-- The end of `decode_query` for the segment `seg`, with the index `j` left by the segments before, the buffer `buf`
with the segment and its terminator, and the index `i` of the end of the segment. -/
def deliverSegment (seg : Segment) (i j : Nat) (buf : Mem n) : Outcome QueryResult :=
  match seg.value with
  | some v => .ret (.found v.length v i)
  | none =>
    if seg.name.length < j then .fault
    else
      match buf.read seg.name.length (seg.name.length - j) with
      | none => .fault
      | some pval => .ret (.found ((seg.name.length : Int) - j) pval i)

/-- `decode_query` on the segments `ws`, the first of which starts at index `i`. -/
def lookup (key : CStr) : List (List UInt8) → Nat → Nat → Mem n → Outcome QueryResult
  | [], _, _, _ => .ret .missing
  | w :: ws, i, j, buf =>
    let seg := parseSegment w
    if n ≤ seg.cells.length then .fault
    else
      let buf := buf.overlay (seg.cells ++ [0])
      if seg.Matches key then deliverSegment seg (i + w.length) j buf
      else lookup key ws (i + w.length + 1) (seg.mark j) buf

/-! ### The two forms of a segment -/

private theorem dropWhile_equals (d : Nat) {t : List UInt8} (ht : ∀ c t', t = c :: t' → c ≠ EQUALS) :
    (List.replicate d EQUALS ++ t).dropWhile (· == EQUALS) = t := by
  induction d with
  | zero =>
    cases t with
    | nil => rfl
    | cons c t => simp [ht c t rfl]
  | succ d ih => simpa [List.replicate_succ] using ih

theorem parseSegment_name (d : Nat) {raw : List UInt8} (hraw : EQUALS ∉ raw) :
    parseSegment (List.replicate d EQUALS ++ raw) = ⟨unescape raw, none⟩ := by
  have hhead : ∀ c t', raw = c :: t' → c ≠ EQUALS := by
    rintro c t' rfl rfl
    exact hraw (List.mem_cons_self ..)
  simp only [parseSegment, dropWhile_equals d hhead, (span_ne_self hraw).1, List.drop_length]

theorem parseSegment_pair (d : Nat) {raw v : List UInt8} (hne : raw ≠ []) (hraw : EQUALS ∉ raw) :
    parseSegment (List.replicate d EQUALS ++ (raw ++ EQUALS :: v)) = ⟨unescape raw, some (unescape v)⟩ := by
  have hhead : ∀ c t', raw ++ EQUALS :: v = c :: t' → c ≠ EQUALS := by
    intro c t' h
    obtain ⟨c', raw', rfl⟩ := List.exists_cons_of_ne_nil hne
    rw [List.cons_append, List.cons.injEq] at h
    rintro rfl
    exact hraw (h.1 ▸ List.mem_cons_self ..)
  simp only [parseSegment, dropWhile_equals d hhead, (span_ne hraw v).1, List.drop_left]

theorem segment_cases (w : List UInt8) :
    (∃ d raw, w = List.replicate d EQUALS ++ raw ∧ EQUALS ∉ raw) ∨
      ∃ d raw v, w = List.replicate d EQUALS ++ (raw ++ EQUALS :: v) ∧ raw ≠ [] ∧ EQUALS ∉ raw := by
  induction w with
  | nil => exact Or.inl ⟨0, [], rfl, List.not_mem_nil⟩
  | cons c w ih =>
    by_cases hc : c = EQUALS
    · subst hc
      rcases ih with ⟨d, raw, rfl, hraw⟩ | ⟨d, raw, v, rfl, hne, hraw⟩
      · exact Or.inl ⟨d + 1, raw, rfl, hraw⟩
      · exact Or.inr ⟨d + 1, raw, v, rfl, hne, hraw⟩
    · by_cases hw : EQUALS ∈ w
      · right
        obtain ⟨raw, v, rfl, hraw⟩ := List.eq_append_cons_of_mem hw
        refine ⟨0, c :: raw, v, rfl, List.cons_ne_nil _ _, ?_⟩
        simp only [List.mem_cons, not_or]
        exact ⟨Ne.symm hc, hraw⟩
      · left
        refine ⟨0, c :: w, rfl, ?_⟩
        simp only [List.mem_cons, not_or]
        exact ⟨Ne.symm hc, hw⟩

theorem parseSegment_value_of_name {w : List UInt8} (h : (parseSegment w).name = []) :
    (parseSegment w).value = none := by
  rcases segment_cases w with ⟨d, raw, rfl, hraw⟩ | ⟨d, raw, v, rfl, hne, hraw⟩
  · rw [parseSegment_name d hraw]
  · rw [parseSegment_pair d hne hraw] at h
    exact absurd h (unescape_ne_nil hne)

end Tinyweb
