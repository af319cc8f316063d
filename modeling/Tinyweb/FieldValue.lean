import Tinyweb.FieldLookup

/-!
# The value that is delivered

For the segment it selects, `decode_query` should deliver the decoded text behind the `=` that ended the name, and
nothing if there is no such `=`.  With an `=` it does.  Without one it delivers `k - j` bytes from behind the name's
terminator, where `j` still is the index left by the last segment with `=`; their number is zero only if that segment
has left exactly the length of the name (`deliversValue_iff`).

The segment it selects is the first one whose name begins with the key.  So the lookup delivers the value of the first
segment whose name is the key only if these two segments are the same and the value is delivered (`selectsByName_iff`).
-/

namespace Tinyweb

open Clib

variable {n : Nat}

def Segment.text (seg : Segment) : List UInt8 := seg.value.getD []

/-- The purpose of the delivery: return 0, with the number of bytes of the value of `seg` and these bytes. -/
def DeliversValue (seg : Segment) (res : Outcome QueryResult) : Prop :=
  ∃ i, res = .ret (.found seg.text.length seg.text i)

private theorem deliversValue_of_some {seg : Segment} {v : List UInt8} (h : seg.value = some v) (i j : Nat)
    (buf : Mem n) : DeliversValue seg (deliverSegment seg i j buf) := by
  refine ⟨i, ?_⟩
  have htext : seg.text = v := by
    rw [Segment.text, h]
    rfl
  rw [htext, deliverSegment_of_some h]

private theorem deliversValue_of_none {seg : Segment} (h : seg.value = none) (hfits : seg.Fits n) (i j : Nat)
    (buf : Mem n) : DeliversValue seg (deliverSegment seg i j buf) ↔ j = seg.name.length := by
  have htext : seg.text = [] := by
    rw [Segment.text, h]
    rfl
  have hlen : seg.name.length < n := by
    have hcells : seg.cells = seg.name := by
      rw [Segment.cells, h]
    rwa [Segment.Fits, hcells] at hfits
  rw [DeliversValue, htext]
  constructor
  · rintro ⟨i', hret⟩
    by_cases hdel : Deliverable n seg j
    · rcases hdel with hne | ⟨hj, hn⟩
      · exact absurd h hne
      · rw [deliverSegment_of_none h hj hn, Outcome.ret.injEq, QueryResult.found.injEq] at hret
        have hsize := hret.1
        rw [List.length_nil] at hsize
        omega
    · rw [deliverSegment_of_not_deliverable hdel] at hret
      cases hret
  · rintro rfl
    refine ⟨i, ?_⟩
    rw [deliverSegment_of_none h (Nat.le_refl _) (by omega), Nat.sub_self, List.take_zero, Int.sub_self]
    rfl

private theorem deliversValue_deliverSegment_iff {seg : Segment} (hfits : seg.Fits n) (i j : Nat) (buf : Mem n) :
    DeliversValue seg (deliverSegment seg i j buf) ↔ seg.value ≠ none ∨ j = seg.name.length := by
  cases hv : seg.value with
  | some v => exact ⟨fun _ => Or.inl nofun, fun _ => deliversValue_of_some hv _ _ _⟩
  | none =>
    rw [deliversValue_of_none hv hfits]
    exact ⟨Or.inr, fun h => h.resolve_left fun hne => hne rfl⟩

/-- What is delivered for the selected segment is its value if and only if it has an `=` behind its name, or the index
`j` left by the segments before it is the length of its name. -/
theorem deliversValue_iff {q : List UInt8} (hq : NUL ∉ q) (hfits : ∀ w ∈ q.splitOn AMP, (parseSegment w).Fits n)
    {key : CStr} {pre post : List (List UInt8)} {w : List UInt8} (hsplit : q.splitOn AMP = pre ++ w :: post)
    (hpass : ∀ x ∈ pre, ¬ (parseSegment x).Matches key) (hmatch : (parseSegment w).Matches key) (junk : List UInt8)
    (buf : Mem n) :
    DeliversValue (parseSegment w) (decodeQuery (q ++ NUL :: junk) key buf) ↔
      (parseSegment w).value ≠ none ∨ markAfter pre 0 = (parseSegment w).name.length := by
  rw [hsplit] at hfits
  have hw : (parseSegment w).Fits n := hfits w (List.mem_append_right _ (List.mem_cons_self ..))
  rw [decodeQuery_eq_lookup hq, hsplit, lookup_found post (fits_first hfits) hpass hmatch]
  exact deliversValue_deliverSegment_iff hw _ _ _

/-- In `a=1&b=+` the field `b` is worth one space. -/
theorem deliversValue_iff_plus :
    DeliversValue (parseSegment (ascii ['b', '=', '+']))
      (decodeQuery (ascii ['a', '=', '1', '&', 'b', '=', '+'] ++ [NUL]) keyB (Mem.fill 256 0)) := by
  have hsplit : (ascii ['a', '=', '1', '&', 'b', '=', '+']).splitOn AMP =
      [ascii ['a', '=', '1']] ++ ascii ['b', '=', '+'] :: [] := by decide
  exact (deliversValue_iff (by decide) (by decide) hsplit (by decide) (by decide) [] (Mem.fill 256 0)).2
    (Or.inl (by decide))

/-- In the query `b` the field has no value, but one byte is delivered for it. -/
theorem not_deliversValue_b :
    (ascii ['b']).splitOn AMP = [ascii ['b']] ∧ (parseSegment (ascii ['b'])).Matches keyB ∧
      (parseSegment (ascii ['b'])).Fits 256 ∧
      decodeQuery (ascii ['b'] ++ [NUL]) keyB (Mem.fill 256 0) = .ret (.found 1 [NUL] 1) ∧
      ¬ DeliversValue (parseSegment (ascii ['b'])) (decodeQuery (ascii ['b'] ++ [NUL]) keyB (Mem.fill 256 0)) := by
  have hres : decodeQuery (ascii ['b'] ++ [NUL]) keyB (Mem.fill 256 0) = .ret (.found 1 [NUL] 1) := by
    rw [decodeQuery_eq_lookup (by decide)]
    decide
  refine ⟨by decide, by decide, by decide, hres, ?_⟩
  rintro ⟨i, hi⟩
  rw [hres, Outcome.ret.injEq, QueryResult.found.injEq] at hi
  exact absurd hi.2.1 (by decide)

/-! ### Selection by name -/

/-- The purpose of the lookup: it delivers the value of the first segment with the name `key`, or reports that there is
no such segment.  The segment itself is identified by the index of its end. -/
def SelectsByName (key : CStr) (q : List UInt8) (res : Outcome QueryResult) : Prop :=
  (∃ pre w post, q.splitOn AMP = pre ++ w :: post ∧ (parseSegment w).name = key.bytes ∧
      (∀ x ∈ pre, (parseSegment x).name ≠ key.bytes) ∧
      res = .ret (.found (parseSegment w).text.length (parseSegment w).text ([AMP].intercalate (pre ++ [w])).length)) ∨
    (res = .ret .missing ∧ ∀ w ∈ q.splitOn AMP, (parseSegment w).name ≠ key.bytes)

private theorem length_intercalate (ws : List (List UInt8)) (w : List UInt8) :
    ([AMP].intercalate (ws ++ [w])).length = width ws + w.length := by
  induction ws with
  | nil => simp [width]
  | cons x ws ih =>
    obtain ⟨y, ys, hy⟩ := List.exists_cons_of_ne_nil (List.append_ne_nil_of_right_ne_nil ws (List.cons_ne_nil w []))
    rw [List.cons_append, hy, List.intercalate_cons_cons, ← hy, List.length_append, ih]
    simp only [List.length_append, List.length_singleton, width, List.map_cons, List.sum_cons]
    omega

private theorem eq_of_width_eq {pre pre' post post' : List (List UInt8)} {w w' : List UInt8}
    (h : pre ++ w :: post = pre' ++ w' :: post') (hwidth : width pre + w.length = width pre' + w'.length) :
    pre = pre' ∧ w = w' := by
  induction pre generalizing pre' with
  | nil =>
    cases pre' with
    | nil =>
      rw [List.nil_append, List.nil_append, List.cons.injEq] at h
      exact ⟨rfl, h.1⟩
    | cons x pre' =>
      rw [List.nil_append, List.cons_append, List.cons.injEq] at h
      simp only [width, List.map_nil, List.sum_nil, List.map_cons, List.sum_cons, h.1] at hwidth
      omega
  | cons x pre ih =>
    cases pre' with
    | nil =>
      rw [List.nil_append, List.cons_append, List.cons.injEq] at h
      simp only [width, List.map_nil, List.sum_nil, List.map_cons, List.sum_cons, h.1] at hwidth
      omega
    | cons x' pre' =>
      rw [List.cons_append, List.cons_append, List.cons.injEq] at h
      obtain ⟨rfl, h⟩ := h
      simp only [width, List.map_cons, List.sum_cons] at hwidth
      obtain ⟨rfl, rfl⟩ := ih h (by simp only [width]; omega)
      exact ⟨rfl, rfl⟩

private theorem matches_of_name_eq {key : CStr} (hkey : key.bytes ≠ []) {seg : Segment} (h : seg.name = key.bytes) :
    seg.Matches key := by
  refine ⟨h ▸ hkey, ?_⟩
  rw [h]

private theorem deliverSegment_cases (seg : Segment) (i j : Nat) (buf : Mem n) :
    deliverSegment seg i j buf = .fault ∨ ∃ psize pval, deliverSegment seg i j buf = .ret (.found psize pval i) := by
  by_cases hdel : Deliverable n seg j
  · exact Or.inr (deliverSegment_of_deliverable hdel i buf)
  · exact Or.inl (deliverSegment_of_not_deliverable hdel i buf)

private theorem index_of_deliverSegment {seg : Segment} {i i' j : Nat} {buf : Mem n} {psize : Int} {pval : List UInt8}
    (h : deliverSegment seg i j buf = .ret (.found psize pval i')) : i' = i := by
  rcases deliverSegment_cases seg i j buf with hfault | ⟨size, val, hret⟩
  · rw [hfault] at h
    cases h
  · rw [hret, Outcome.ret.injEq, QueryResult.found.injEq] at h
    exact h.2.2.symm

/-- On queries whose segments fit into the pair buffer, the lookup selects by the name if and only if the first segment
whose name begins with the key has exactly that name, and it has an `=` behind the name or the index `j` left by the
segments before it is the length of the name. -/
theorem selectsByName_iff {q : List UInt8} (hq : NUL ∉ q) (hfits : ∀ w ∈ q.splitOn AMP, (parseSegment w).Fits 256)
    {key : CStr} (hkey : key.bytes ≠ []) (junk : List UInt8) (buf : Mem 256) :
    SelectsByName key q (decodeQuery (q ++ NUL :: junk) key buf) ↔
      ∀ pre w post, q.splitOn AMP = pre ++ w :: post → (∀ x ∈ pre, ¬ (parseSegment x).Matches key) →
        (parseSegment w).Matches key →
        (parseSegment w).name = key.bytes ∧
          ((parseSegment w).value ≠ none ∨ markAfter pre 0 = (parseSegment w).name.length) := by
  rw [decodeQuery_eq_lookup hq]
  constructor
  · intro hsel pre w post hsplit hpass hmatch
    rw [hsplit] at hfits
    have hw : (parseSegment w).Fits 256 := hfits w (List.mem_append_right _ (List.mem_cons_self ..))
    have hfound := lookup_found post (fits_first hfits) hpass hmatch buf
    rw [← hsplit] at hfound
    rcases hsel with ⟨pre', w', post', hsplit', hname, -, hres⟩ | ⟨hres, -⟩
    · rw [hfound, length_intercalate] at hres
      -- the end of the segment says which one it is
      obtain ⟨rfl, rfl⟩ := eq_of_width_eq (hsplit.symm.trans hsplit') (index_of_deliverSegment hres).symm
      exact ⟨hname, (deliversValue_deliverSegment_iff hw _ _ _).1 ⟨_, hres⟩⟩
    · rw [hfound] at hres
      rcases deliverSegment_cases (parseSegment w) (width pre + w.length) (markAfter pre 0) (bufAfter (pre ++ [w]) buf)
        with hfault | ⟨size, val, hret⟩
      · rw [hfault] at hres
        cases hres
      · rw [hret] at hres
        cases hres
  · intro hcond
    rcases exists_first_match key (q.splitOn AMP) with hpass | ⟨pre, w, post, hsplit, hpass, hmatch⟩
    · right
      exact ⟨lookup_missing hfits hpass buf, fun w hw hname => hpass w hw (matches_of_name_eq hkey hname)⟩
    · left
      obtain ⟨hname, hvalue⟩ := hcond pre w post hsplit hpass hmatch
      rw [hsplit] at hfits ⊢
      have hw : (parseSegment w).Fits 256 := hfits w (List.mem_append_right _ (List.mem_cons_self ..))
      have hfound := lookup_found post (fits_first hfits) hpass hmatch buf
      obtain ⟨i, hret⟩ := (deliversValue_deliverSegment_iff hw (width pre + w.length) (markAfter pre 0)
        (bufAfter (pre ++ [w]) buf)).2 hvalue
      refine ⟨pre, w, post, rfl, hname, fun x hx hx' => hpass x hx (matches_of_name_eq hkey hx'), ?_⟩
      rw [hfound, hret, length_intercalate, index_of_deliverSegment hret]

/-- In `b=1&bc=2` the first segment whose name begins with `b` is the field `b`. -/
theorem selectsByName_iff_two :
    SelectsByName keyB (ascii ['b', '=', '1', '&', 'b', 'c', '=', '2'])
      (decodeQuery (ascii ['b', '=', '1', '&', 'b', 'c', '=', '2'] ++ [NUL]) keyB (Mem.fill 256 0)) := by
  refine (selectsByName_iff (by decide) (by decide) (by decide) [] (Mem.fill 256 0)).2 ?_
  intro pre w post hsplit hpass hmatch
  have hws : (ascii ['b', '=', '1', '&', 'b', 'c', '=', '2']).splitOn AMP =
      [ascii ['b', '=', '1'], ascii ['b', 'c', '=', '2']] := by decide
  rw [hws] at hsplit
  cases pre with
  | nil =>
    obtain ⟨rfl, -⟩ := List.cons.inj hsplit
    decide
  | cons x pre =>
    obtain ⟨rfl, -⟩ := List.cons.inj hsplit
    exact absurd (by decide) (hpass _ (List.mem_cons_self ..))

/-- In `bc=1` there is no field `b`, but the value of `bc` is delivered for it. -/
theorem not_selectsByName_bc :
    decodeQuery (ascii ['b', 'c', '=', '1'] ++ [NUL]) keyB (Mem.fill 256 0) = .ret (.found 1 (ascii ['1']) 4) ∧
      ¬ SelectsByName keyB (ascii ['b', 'c', '=', '1'])
        (decodeQuery (ascii ['b', 'c', '=', '1'] ++ [NUL]) keyB (Mem.fill 256 0)) := by
  have hres : decodeQuery (ascii ['b', 'c', '=', '1'] ++ [NUL]) keyB (Mem.fill 256 0) =
      .ret (.found 1 (ascii ['1']) 4) := by
    rw [decodeQuery_eq_lookup (by decide)]
    decide
  refine ⟨hres, ?_⟩
  have hname : ∀ w ∈ (ascii ['b', 'c', '=', '1']).splitOn AMP, (parseSegment w).name ≠ keyB.bytes := by decide
  rintro (⟨pre, w, post, hsplit, hw, -⟩ | ⟨hmissing, -⟩)
  · exact hname w (by rw [hsplit]; simp) hw
  · rw [hres] at hmissing
    cases hmissing

end Tinyweb
