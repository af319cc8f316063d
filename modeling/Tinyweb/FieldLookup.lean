import Tinyweb.DecodeSegments

/-!
# Looking up a field

`decode_query` passes over the segments whose name does not begin with the key and delivers the first one whose name
does (`lookup_found`, `lookup_missing`).  So it undoes every form encoding as long as no earlier name begins with the
wanted one (`decodeQuery_encodesForm`).

A segment without `=` has no value.  What is delivered for it are the bytes behind its terminator, and their number
depends on the index `j` that the last segment with `=` has left, so that the copy may leave the buffer
(`Deliverable`).
-/

namespace Tinyweb

open Clib

variable {n : Nat}

def Segment.Fits (n : Nat) (seg : Segment) : Prop := seg.cells.length < n

instance (n : Nat) (seg : Segment) : Decidable (seg.Fits n) := inferInstanceAs (Decidable (_ < _))

def markAfter (ws : List (List UInt8)) (j : Nat) : Nat := ws.foldl (fun j w => (parseSegment w).mark j) j

/-- The pair buffer after the segments `ws`. -/
def bufAfter (ws : List (List UInt8)) (buf : Mem n) : Mem n :=
  ws.foldl (fun buf w => buf.overlay ((parseSegment w).cells ++ [0])) buf

/-- The number of characters of the segments `ws` with the separators behind them. -/
def width (ws : List (List UInt8)) : Nat := (ws.map fun w => w.length + 1).sum

theorem bufAfter_append (ws ws' : List (List UInt8)) (buf : Mem n) :
    bufAfter (ws ++ ws') buf = bufAfter ws' (bufAfter ws buf) := List.foldl_append

theorem lookup_append {key : CStr} {ws : List (List UInt8)} (rest : List (List UInt8))
    (hfits : ∀ w ∈ ws, (parseSegment w).Fits n) (hpass : ∀ w ∈ ws, ¬ (parseSegment w).Matches key) :
    ∀ (i j : Nat) (buf : Mem n),
      lookup key (ws ++ rest) i j buf = lookup key rest (i + width ws) (markAfter ws j) (bufAfter ws buf) := by
  induction ws with
  | nil => intro i j buf; rfl
  | cons w ws ih =>
    intro i j buf
    have hlen : (parseSegment w).cells.length < n := hfits w (List.mem_cons_self ..)
    have hrest := ih (fun x hx => hfits x (List.mem_cons_of_mem _ hx)) (fun x hx => hpass x (List.mem_cons_of_mem _ hx))
    have hwidth : i + width (w :: ws) = i + w.length + 1 + width ws := by
      simp only [width, List.map_cons, List.sum_cons]
      omega
    rw [List.cons_append, lookup]
    simp only [Nat.not_le.2 hlen, hpass w (List.mem_cons_self ..), ↓reduceIte]
    rw [hrest, hwidth]
    rfl

theorem lookup_missing {key : CStr} {ws : List (List UInt8)} (hfits : ∀ w ∈ ws, (parseSegment w).Fits n)
    (hpass : ∀ w ∈ ws, ¬ (parseSegment w).Matches key) (buf : Mem n) : lookup key ws 0 0 buf = .ret .missing := by
  have h := lookup_append [] hfits hpass 0 0 buf
  rwa [List.append_nil] at h

theorem lookup_found {key : CStr} {ws : List (List UInt8)} {w : List UInt8} (rest : List (List UInt8))
    (hfits : ∀ x ∈ ws ++ [w], (parseSegment x).Fits n) (hpass : ∀ x ∈ ws, ¬ (parseSegment x).Matches key)
    (hmatch : (parseSegment w).Matches key) (buf : Mem n) :
    lookup key (ws ++ w :: rest) 0 0 buf =
      deliverSegment (parseSegment w) (width ws + w.length) (markAfter ws 0) (bufAfter (ws ++ [w]) buf) := by
  obtain ⟨hws, hw⟩ := List.forall_mem_append.1 hfits
  have hlen : (parseSegment w).cells.length < n := hw w (List.mem_singleton_self w)
  rw [lookup_append _ hws hpass, lookup, if_neg (Nat.not_le.2 hlen), if_pos hmatch, Nat.zero_add, bufAfter_append]
  rfl

theorem fits_first {ws rest : List (List UInt8)} {w : List UInt8}
    (hfits : ∀ x ∈ ws ++ w :: rest, (parseSegment x).Fits n) : ∀ x ∈ ws ++ [w], (parseSegment x).Fits n := by
  obtain ⟨hws, hw⟩ := List.forall_mem_append.1 hfits
  exact List.forall_mem_append.2 ⟨hws, List.forall_mem_singleton.2 (List.forall_mem_cons.1 hw).1⟩

/-- Either no name begins with the key, or there is a first one. -/
theorem exists_first_match (key : CStr) (ws : List (List UInt8)) :
    (∀ w ∈ ws, ¬ (parseSegment w).Matches key) ∨
      ∃ pre w rest, ws = pre ++ w :: rest ∧ (∀ x ∈ pre, ¬ (parseSegment x).Matches key) ∧
        (parseSegment w).Matches key := by
  induction ws with
  | nil => exact Or.inl fun w hw => absurd hw List.not_mem_nil
  | cons w ws ih =>
    by_cases hw : (parseSegment w).Matches key
    · exact Or.inr ⟨[], w, ws, rfl, fun x hx => absurd hx List.not_mem_nil, hw⟩
    · rcases ih with hws | ⟨pre, u, rest, rfl, hpre, hu⟩
      · exact Or.inl (List.forall_mem_cons.2 ⟨hw, hws⟩)
      · exact Or.inr ⟨w :: pre, u, rest, rfl, List.forall_mem_cons.2 ⟨hw, hpre⟩, hu⟩

/-- What is delivered for the segment lies inside a pair buffer of `n` bytes, if the index `j` was left by the segments
before. -/
def Deliverable (n : Nat) (seg : Segment) (j : Nat) : Prop :=
  seg.value ≠ none ∨ (j ≤ seg.name.length ∧ 2 * seg.name.length ≤ n + j)

instance (n : Nat) (seg : Segment) (j : Nat) : Decidable (Deliverable n seg j) := inferInstanceAs (Decidable (_ ∨ _))

theorem deliverSegment_of_some {seg : Segment} {v : List UInt8} (h : seg.value = some v) (i j : Nat) (buf : Mem n) :
    deliverSegment seg i j buf = .ret (.found v.length v i) := by
  rw [deliverSegment, h]

theorem deliverSegment_of_none {seg : Segment} (h : seg.value = none) {j : Nat} (hj : j ≤ seg.name.length)
    (hn : 2 * seg.name.length ≤ n + j) (i : Nat) (buf : Mem n) :
    deliverSegment seg i j buf = .ret (.found ((seg.name.length : Int) - j)
      ((buf.cells.drop seg.name.length).take (seg.name.length - j)) i) := by
  have hread : seg.name.length + (seg.name.length - j) ≤ n := by omega
  rw [deliverSegment, h]
  simp only [Nat.not_lt.2 hj, ↓reduceIte, Mem.read, hread]

theorem deliverSegment_of_deliverable {seg : Segment} {j : Nat} (h : Deliverable n seg j) (i : Nat) (buf : Mem n) :
    ∃ psize pval, deliverSegment seg i j buf = .ret (.found psize pval i) := by
  cases hv : seg.value with
  | some v => exact ⟨_, _, deliverSegment_of_some hv i j buf⟩
  | none =>
    rcases h with h | ⟨hj, hn⟩
    · exact absurd hv h
    · exact ⟨_, _, deliverSegment_of_none hv hj hn i buf⟩

theorem deliverSegment_of_not_deliverable {seg : Segment} {j : Nat} (h : ¬ Deliverable n seg j) (i : Nat)
    (buf : Mem n) : deliverSegment seg i j buf = .fault := by
  simp only [Deliverable, not_or, not_not, not_and, Nat.not_le] at h
  obtain ⟨hv, hrange⟩ := h
  rw [deliverSegment, hv]
  by_cases hj : seg.name.length < j
  · simp only [hj, ↓reduceIte]
  · have hread : ¬ seg.name.length + (seg.name.length - j) ≤ n := by
      have := hrange (Nat.not_lt.1 hj)
      omega
    simp only [hj, ↓reduceIte, Mem.read, hread]

/-! ### Decoding undoes encoding -/

private theorem parseSegment_of_encodesPair {pair : List UInt8 × List UInt8} {w : List UInt8} (hne : pair.1 ≠ [])
    (h : EncodesPair pair w) : parseSegment w = ⟨pair.1, some pair.2⟩ := by
  obtain ⟨u, v, hu, hv, rfl⟩ := h
  have hequals : EQUALS ∉ u :=
    hu.not_mem (by decide) (by decide) (by decide) fun h => h.2 rfl
  have hparse := parseSegment_pair 0 (v := v) (hu.ne_nil hne) hequals
  rw [List.replicate_zero, List.nil_append] at hparse
  rw [hparse, hu.unescape_eq fun b hb => ⟨hb.1.2.2.1, hb.1.2.1⟩, hv.unescape_eq fun b hb => ⟨hb.2.2.1, hb.2.1⟩]

private theorem lookup_encodesPairs {pre post : List (List UInt8 × List UInt8)} {value : List UInt8} {key : CStr}
    (hpairs : ∀ pair ∈ pre ++ (key.bytes, value) :: post, pair.1 ≠ [] ∧ pair.1.length + 1 + pair.2.length ≤ 255)
    (hfirst : ∀ pair ∈ pre, ¬ key.bytes <+: pair.1) :
    ∀ {ws : List (List UInt8)} {i j : Nat} {buf : Mem 256},
      List.Forall₂ EncodesPair (pre ++ (key.bytes, value) :: post) ws →
      ∃ i', lookup key ws i j buf = .ret (.found value.length value i') := by
  have hparse : ∀ pair ∈ pre ++ (key.bytes, value) :: post, ∀ w, EncodesPair pair w →
      parseSegment w = ⟨pair.1, some pair.2⟩ ∧ ¬ 256 ≤ (parseSegment w).cells.length := by
    intro pair hpair w hw
    obtain ⟨hne, hlen⟩ := hpairs pair hpair
    have h := parseSegment_of_encodesPair hne hw
    refine ⟨h, ?_⟩
    rw [h]
    simp only [Segment.cells, List.length_append, List.length_cons]
    omega
  induction pre with
  | nil =>
    intro ws i j buf hws
    obtain ⟨w, ws, hw, -, rfl⟩ := List.forall₂_cons_left_iff.1 hws
    obtain ⟨h, hlen⟩ := hparse (key.bytes, value) (List.mem_cons_self ..) w hw
    have hmatch : (parseSegment w).Matches key := by
      rw [h]
      exact ⟨(hpairs _ (List.mem_cons_self ..)).1, List.prefix_refl _⟩
    refine ⟨i + w.length, ?_⟩
    rw [lookup, if_neg hlen, if_pos hmatch, h]
    rfl
  | cons pair pre ih =>
    intro ws i j buf hws
    obtain ⟨w, ws, hw, htail, rfl⟩ := List.forall₂_cons_left_iff.1 hws
    obtain ⟨h, hlen⟩ := hparse pair (List.mem_cons_self ..) w hw
    have hpass : ¬ (parseSegment w).Matches key := by
      rw [h]
      exact fun hm => hfirst pair (List.mem_cons_self ..) hm.2
    obtain ⟨i', hi'⟩ := ih (fun x hx => hpairs x (List.mem_cons_of_mem _ hx))
      (fun x hx => hfirst x (List.mem_cons_of_mem _ hx)) (fun x hx => hparse x (List.mem_cons_of_mem _ hx)) htail
    refine ⟨i', ?_⟩
    rw [lookup, if_neg hlen, if_neg hpass]
    exact hi'

/-- Every field of a form is found again in each of its encodings, unless an earlier name begins with its name. -/
theorem decodeQuery_encodesForm {pre post : List (List UInt8 × List UInt8)} {value : List UInt8} {key : CStr}
    {q : List UInt8} (hq : EncodesForm (pre ++ (key.bytes, value) :: post) q)
    (hpairs : ∀ pair ∈ pre ++ (key.bytes, value) :: post, pair.1 ≠ [] ∧ pair.1.length + 1 + pair.2.length ≤ 255)
    (hfirst : ∀ pair ∈ pre, ¬ key.bytes <+: pair.1) (junk : List UInt8) (buf : Mem 256) :
    ∃ i, decodeQuery (q ++ NUL :: junk) key buf = .ret (.found value.length value i) := by
  obtain ⟨hws, hnul⟩ := hq.splitOn (by simp)
  rw [decodeQuery_eq_lookup hnul]
  exact lookup_encodesPairs hpairs hfirst hws

def keyB : CStr := ⟨ascii ['b'], by decide⟩

/-- The form with the fields `a`, worth `=&`, and `b`, worth a NUL and a space. -/
private theorem encodesForm_two : EncodesForm ([(ascii ['a'], ascii ['=', '&'])] ++ (keyB.bytes, [NUL, SPACE]) :: [])
    (ascii ['a', '=', '=', '%', '2', '6', '&', '%', '6', '2', '=', '%', '0', '0', '+']) := by
  refine ⟨[ascii ['a', '=', '=', '%', '2', '6'], ascii ['%', '6', '2', '=', '%', '0', '0', '+']],
    List.Forall₂.cons ?_ (List.Forall₂.cons ?_ List.Forall₂.nil), by decide⟩
  · refine ⟨ascii ['a'], ascii ['=', '%', '2', '6'], ?_, ?_, rfl⟩
    · exact .cons (w := [97]) (.literal (by decide)) .nil
    · exact .cons (w := [61]) (.literal (by decide)) (.cons (w := [37, 50, 54]) (.escape (by decide) (by decide)) .nil)
  · refine ⟨ascii ['%', '6', '2'], ascii ['%', '0', '0', '+'], ?_, ?_, rfl⟩
    · exact .cons (w := [37, 54, 50]) (.escape (by decide) (by decide)) .nil
    · exact .cons (w := [37, 48, 48]) (.escape (by decide) (by decide)) (.cons (w := [43]) .plus .nil)

/-- The second field of the form `a==%26&%62=%00+`. -/
theorem decodeQuery_encodesForm_two :
    ∃ i, decodeQuery (ascii ['a', '=', '=', '%', '2', '6', '&', '%', '6', '2', '=', '%', '0', '0', '+'] ++ [NUL]) keyB
      (Mem.fill 256 0) = .ret (.found 2 [NUL, SPACE] i) :=
  decodeQuery_encodesForm encodesForm_two (by decide) (by decide) [] (Mem.fill 256 0)

end Tinyweb
