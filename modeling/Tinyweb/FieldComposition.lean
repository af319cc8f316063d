import Tinyweb.FieldLookup

/-!
# Lookups in joined queries

Looking up a key in `s&t` should be looking it up in `s` and, if it is not there, in `t` (`Compositional`).  It is,
except for a segment without `=` that is selected: the number of bytes delivered for it depends on the segments before
it in the whole query, and the bytes are what earlier segments, or the memory before the call, have left in the
buffer.  `compositional_iff` says for which queries this does not show.
-/

namespace Tinyweb

open Clib

variable {n : Nat}

/-- The return code, `*psize` and the bytes at `pval`. -/
def QueryResult.answer : QueryResult → Option (Int × List UInt8)
  | .found psize pval _ => some (psize, pval)
  | .missing => none

/-- The lookup of `key` in `s&t` is the lookup in `s` or else the lookup in `t`.  The three calls return, and each has a
pair buffer of its own, with any content. -/
def Compositional (key : CStr) (s t : List UInt8) : Prop :=
  ∀ buf₁ buf₂ buf₃ : Mem 256, ∃ res, (decodeQuery (s ++ [NUL]) key buf₁).map QueryResult.answer = .ret res ∧
    (res ≠ none →
      (decodeQuery (s ++ AMP :: t ++ [NUL]) key buf₂).map QueryResult.answer = .ret res) ∧
    (res = none → ∃ res', (decodeQuery (t ++ [NUL]) key buf₃).map QueryResult.answer = .ret res' ∧
      (decodeQuery (s ++ AMP :: t ++ [NUL]) key buf₂).map QueryResult.answer = .ret res')

/-! ### The content of the pair buffer -/

/-- The number of bytes of the pair buffer that the segments `ws` have written. -/
def written (ws : List (List UInt8)) : Nat :=
  ws.foldr (fun w h => max ((parseSegment w).cells.length + 1) h) 0

private theorem Segment.Fits.length_le {seg : Segment} (h : seg.Fits n) : (seg.cells ++ [0]).length ≤ n := by
  rw [List.length_append, List.length_singleton]
  exact h

private theorem bufAfter_untouched {ws : List (List UInt8)} (hfits : ∀ w ∈ ws, (parseSegment w).Fits n) {x : Nat}
    (hx : written ws ≤ x) (buf : Mem n) : (bufAfter ws buf).cells[x]? = buf.cells[x]? := by
  induction ws generalizing buf with
  | nil => rfl
  | cons w ws ih =>
    have hlen := (hfits w (List.mem_cons_self ..)).length_le
    have hmax : max ((parseSegment w).cells.length + 1) (written ws) ≤ x := hx
    have hrest := ih (fun y hy => hfits y (List.mem_cons_of_mem _ hy)) (by omega)
      (buf.overlay ((parseSegment w).cells ++ [0]))
    have hover : ¬ x < ((parseSegment w).cells ++ [0]).length := by
      rw [List.length_append, List.length_singleton]
      omega
    rw [Mem.getElem?_overlay _ hlen, if_neg hover] at hrest
    exact hrest

private theorem bufAfter_written {ws : List (List UInt8)} (hfits : ∀ w ∈ ws, (parseSegment w).Fits n) {x : Nat}
    (hx : x < written ws) (buf buf' : Mem n) : (bufAfter ws buf).cells[x]? = (bufAfter ws buf').cells[x]? := by
  induction ws generalizing buf buf' with
  | nil => exact absurd hx (Nat.not_lt_zero x)
  | cons w ws ih =>
    have hws : ∀ y ∈ ws, (parseSegment y).Fits n := fun y hy => hfits y (List.mem_cons_of_mem _ hy)
    have hlen := (hfits w (List.mem_cons_self ..)).length_le
    have hmax : x < max ((parseSegment w).cells.length + 1) (written ws) := hx
    by_cases hlater : x < written ws
    · exact ih hws hlater _ _
    · -- the last segment to write the byte is `w`
      have hunder : x < ((parseSegment w).cells ++ [0]).length := by
        rw [List.length_append, List.length_singleton]
        omega
      show (bufAfter ws (buf.overlay ((parseSegment w).cells ++ [0]))).cells[x]? =
        (bufAfter ws (buf'.overlay ((parseSegment w).cells ++ [0]))).cells[x]?
      rw [bufAfter_untouched hws (Nat.not_lt.1 hlater), bufAfter_untouched hws (Nat.not_lt.1 hlater),
        Mem.getElem?_overlay _ hlen, Mem.getElem?_overlay _ hlen, if_pos hunder, if_pos hunder]

private theorem written_le {ws : List (List UInt8)} (hfits : ∀ w ∈ ws, (parseSegment w).Fits n) : written ws ≤ n := by
  induction ws with
  | nil => exact Nat.zero_le n
  | cons w ws ih =>
    have hw : (parseSegment w).cells.length < n := hfits w (List.mem_cons_self ..)
    exact Nat.max_le.2 ⟨hw, ih fun x hx => hfits x (List.mem_cons_of_mem _ hx)⟩

private theorem length_lt_written (ws : List (List UInt8)) (w : List UInt8) :
    (parseSegment w).cells.length < written (ws ++ [w]) := by
  induction ws with
  | nil => exact Nat.lt_succ_self _
  | cons x ws ih => exact Nat.lt_of_lt_of_le ih (Nat.le_max_right _ _)

/-! ### Delivered bytes -/

/-- What is delivered for the segment `w` after the segments `ws` has been written by the same call, if the index `j`
was left by the segments before. -/
def Settled (ws : List (List UInt8)) (w : List UInt8) (j : Nat) : Prop :=
  (parseSegment w).value ≠ none ∨
    (j ≤ (parseSegment w).name.length ∧ 2 * (parseSegment w).name.length ≤ j + written (ws ++ [w]))

private theorem cells_of_none {seg : Segment} (h : seg.value = none) : seg.cells = seg.name := by
  rw [Segment.cells, h]

private theorem answer_of_none {seg : Segment} {i j : Nat} {buf : Mem n} {res : Option (Int × List UInt8)}
    (hv : seg.value = none) (h : (deliverSegment seg i j buf).map QueryResult.answer = .ret res) :
    Deliverable n seg j ∧
      res = some ((seg.name.length : Int) - j, (buf.cells.drop seg.name.length).take (seg.name.length - j)) := by
  by_cases hdel : Deliverable n seg j
  · refine ⟨hdel, ?_⟩
    rcases hdel with hne | ⟨hj, hn⟩
    · exact absurd hv hne
    · rw [deliverSegment_of_none hv hj hn] at h
      exact (Outcome.ret.inj h).symm
  · rw [deliverSegment_of_not_deliverable hdel] at h
    cases h

private theorem answer_ne_none {seg : Segment} {i j : Nat} {buf : Mem n} {res : Option (Int × List UInt8)}
    (h : (deliverSegment seg i j buf).map QueryResult.answer = .ret res) : res ≠ none := by
  cases hv : seg.value with
  | none =>
    rw [(answer_of_none hv h).2]
    exact Option.some_ne_none _
  | some v =>
    rw [deliverSegment_of_some hv] at h
    rw [← Outcome.ret.inj h]
    exact Option.some_ne_none _

/-- What is delivered for a settled segment does not depend on the content of the buffer before. -/
private theorem answer_of_settled {ws : List (List UInt8)} {w : List UInt8} {j : Nat}
    (hfits : ∀ x ∈ ws ++ [w], (parseSegment x).Fits n) (h : Settled ws w j) (i i' : Nat) (buf buf' : Mem n) :
    ∃ res, (deliverSegment (parseSegment w) i j (bufAfter (ws ++ [w]) buf)).map QueryResult.answer = .ret res ∧
      (deliverSegment (parseSegment w) i' j (bufAfter (ws ++ [w]) buf')).map QueryResult.answer = .ret res := by
  cases hv : (parseSegment w).value with
  | some v =>
    rw [deliverSegment_of_some hv, deliverSegment_of_some hv]
    exact ⟨_, rfl, rfl⟩
  | none =>
    rcases h with hne | ⟨hj, hw⟩
    · exact absurd hv hne
    · have hn := written_le hfits
      have hbytes : ((bufAfter (ws ++ [w]) buf).cells.drop (parseSegment w).name.length).take
          ((parseSegment w).name.length - j) =
          ((bufAfter (ws ++ [w]) buf').cells.drop (parseSegment w).name.length).take
          ((parseSegment w).name.length - j) := by
        apply List.ext_getElem?
        intro x
        rw [List.getElem?_take, List.getElem?_take]
        split
        · rw [List.getElem?_drop, List.getElem?_drop]
          exact bufAfter_written hfits (by omega) buf buf'
        · rfl
      rw [deliverSegment_of_none hv hj (by omega), deliverSegment_of_none hv hj (by omega), hbytes]
      exact ⟨_, rfl, rfl⟩

/-- If two different contents of the buffer before do not show, the segment is settled. -/
private theorem settled_of_answer {ws : List (List UInt8)} {w : List UInt8} {i i' j : Nat}
    (hfits : ∀ x ∈ ws ++ [w], (parseSegment x).Fits n) {res : Option (Int × List UInt8)}
    (h₀ : (deliverSegment (parseSegment w) i j (bufAfter (ws ++ [w]) (Mem.fill n 0))).map QueryResult.answer = .ret res)
    (h₁ : (deliverSegment (parseSegment w) i' j (bufAfter (ws ++ [w]) (Mem.fill n 1))).map QueryResult.answer =
      .ret res) : Settled ws w j := by
  by_cases hv : (parseSegment w).value = none
  · obtain ⟨hdel, hres₀⟩ := answer_of_none hv h₀
    obtain ⟨-, hres₁⟩ := answer_of_none hv h₁
    rcases hdel with hne | ⟨hj, hn⟩
    · exact absurd hv hne
    · refine Or.inr ⟨hj, ?_⟩
      by_contra hover
      -- the first byte that was not written is delivered
      have hlt := length_lt_written ws w
      rw [cells_of_none hv] at hlt
      have hbytes := (Prod.mk.inj (Option.some.inj (hres₀.symm.trans hres₁))).2
      have hx := congrArg (fun l => l[written (ws ++ [w]) - (parseSegment w).name.length]?) hbytes
      have hin : written (ws ++ [w]) - (parseSegment w).name.length < (parseSegment w).name.length - j := by omega
      have hat : (parseSegment w).name.length + (written (ws ++ [w]) - (parseSegment w).name.length) =
          written (ws ++ [w]) := by omega
      have hwn : written (ws ++ [w]) < n := by omega
      simp only [List.getElem?_take, hin, ↓reduceIte, List.getElem?_drop, hat,
        bufAfter_untouched hfits (Nat.le_refl _), Mem.fill, List.getElem?_replicate, hwn, Option.some.injEq] at hx
      cases hx
  · exact Or.inl hv

/-! ### Joined queries -/

private def Composes (key : CStr) (ss ts : List (List UInt8)) : Prop :=
  ∀ buf₁ buf₂ buf₃ : Mem 256, ∃ res, (lookup key ss 0 0 buf₁).map QueryResult.answer = .ret res ∧
    (res ≠ none → (lookup key (ss ++ ts) 0 0 buf₂).map QueryResult.answer = .ret res) ∧
    (res = none → ∃ res', (lookup key ts 0 0 buf₃).map QueryResult.answer = .ret res' ∧
      (lookup key (ss ++ ts) 0 0 buf₂).map QueryResult.answer = .ret res')

private theorem composes_of_split {s t : List UInt8} (hs : NUL ∉ s) (ht : NUL ∉ t) (key : CStr) :
    Compositional key s t ↔ Composes key (s.splitOn AMP) (t.splitOn AMP) := by
  have hst : NUL ∉ s ++ AMP :: t := by
    simp only [List.mem_append, List.mem_cons, not_or]
    exact ⟨hs, by decide, ht⟩
  have hrun : ∀ {q : List UInt8} (buf : Mem 256), NUL ∉ q → decodeQuery (q ++ [NUL]) key buf =
      lookup key (q.splitOn AMP) 0 0 buf := fun buf hq => decodeQuery_eq_lookup hq [] key buf
  simp only [Compositional, Composes, hrun _ hs, hrun _ ht, hrun _ hst, List.splitOn_append_cons_self]

private theorem Composes.settled_left {key : CStr} {ss ts pre post : List (List UInt8)} {w : List UInt8}
    (h : Composes key ss ts) (hfs : ∀ x ∈ ss, (parseSegment x).Fits 256) (hsplit : ss = pre ++ w :: post)
    (hpass : ∀ x ∈ pre, ¬ (parseSegment x).Matches key) (hmatch : (parseSegment w).Matches key) :
    Settled pre w (markAfter pre 0) := by
  subst hsplit
  have hfound := fun rest => lookup_found rest (fits_first hfs) hpass hmatch
  obtain ⟨res, h₀, hfst, -⟩ := h (Mem.fill 256 0) (Mem.fill 256 1) (Mem.fill 256 0)
  rw [hfound] at h₀
  have h₁ := hfst (answer_ne_none h₀)
  rw [List.append_assoc, List.cons_append, hfound] at h₁
  exact settled_of_answer (fits_first hfs) h₀ h₁

private theorem Composes.settled_right {key : CStr} {ss ts pre post : List (List UInt8)} {w : List UInt8}
    (h : Composes key ss ts) (hfs : ∀ x ∈ ss, (parseSegment x).Fits 256) (hft : ∀ x ∈ ts, (parseSegment x).Fits 256)
    (hss : ∀ x ∈ ss, ¬ (parseSegment x).Matches key) (hsplit : ts = pre ++ w :: post)
    (hpass : ∀ x ∈ pre, ¬ (parseSegment x).Matches key) (hmatch : (parseSegment w).Matches key) :
    Settled pre w (markAfter pre 0) ∧
      ((parseSegment w).value ≠ none ∨ markAfter (ss ++ pre) 0 = markAfter pre 0) := by
  subst hsplit
  have hmissing := lookup_missing hfs hss
  -- the call on `t` with two contents of its buffer, compared with the same call on `s&t`
  have hboth : ∀ b : UInt8, ∃ res, (lookup key (pre ++ w :: post) 0 0 (Mem.fill 256 b)).map QueryResult.answer =
      .ret res ∧ (lookup key (ss ++ (pre ++ w :: post)) 0 0 (Mem.fill 256 0)).map QueryResult.answer = .ret res := by
    intro b
    obtain ⟨res, h₀, -, hsnd⟩ := h (Mem.fill 256 0) (Mem.fill 256 0) (Mem.fill 256 b)
    rw [hmissing] at h₀
    exact hsnd (Outcome.ret.inj h₀).symm
  obtain ⟨res₀, ht₀, hst₀⟩ := hboth 0
  obtain ⟨res₁, ht₁, hst₁⟩ := hboth 1
  obtain rfl : res₀ = res₁ := Outcome.ret.inj (hst₀.symm.trans hst₁)
  rw [lookup_found post (fits_first hft) hpass hmatch] at ht₀ ht₁
  refine ⟨settled_of_answer (fits_first hft) ht₀ ht₁, ?_⟩
  by_cases hv : (parseSegment w).value = none
  · right
    have hfits : ∀ x ∈ ss ++ pre ++ [w], (parseSegment x).Fits 256 := by
      rw [List.append_assoc]
      exact List.forall_mem_append.2 ⟨hfs, fits_first hft⟩
    rw [← List.append_assoc, lookup_found post hfits (List.forall_mem_append.2 ⟨hss, hpass⟩) hmatch] at hst₀
    have hsize := (answer_of_none hv hst₀).2.symm.trans (answer_of_none hv ht₀).2
    have := (Prod.mk.inj (Option.some.inj hsize)).1
    omega
  · exact Or.inl hv

private theorem composes_of_settled {key : CStr} {ss ts : List (List UInt8)}
    (hfs : ∀ x ∈ ss, (parseSegment x).Fits 256) (hft : ∀ x ∈ ts, (parseSegment x).Fits 256)
    (hleft : ∀ pre w post, ss = pre ++ w :: post → (∀ x ∈ pre, ¬ (parseSegment x).Matches key) →
      (parseSegment w).Matches key → Settled pre w (markAfter pre 0))
    (hright : (∀ x ∈ ss, ¬ (parseSegment x).Matches key) → ∀ pre w post, ts = pre ++ w :: post →
      (∀ x ∈ pre, ¬ (parseSegment x).Matches key) → (parseSegment w).Matches key → Settled pre w (markAfter pre 0) ∧
        ((parseSegment w).value ≠ none ∨ markAfter (ss ++ pre) 0 = markAfter pre 0)) : Composes key ss ts := by
  intro buf₁ buf₂ buf₃
  rcases exists_first_match key ss with hss | ⟨pre, w, post, rfl, hpass, hmatch⟩
  · rw [lookup_missing hfs hss]
    refine ⟨none, rfl, fun h => absurd rfl h, fun _ => ?_⟩
    rcases exists_first_match key ts with hts | ⟨pre, w, post, rfl, hpass, hmatch⟩
    · rw [lookup_missing hft hts,
        lookup_missing (List.forall_mem_append.2 ⟨hfs, hft⟩) (List.forall_mem_append.2 ⟨hss, hts⟩)]
      exact ⟨none, rfl, rfl⟩
    · obtain ⟨hset, hmark⟩ := hright hss pre w post rfl hpass hmatch
      have hfits : ∀ x ∈ ss ++ pre ++ [w], (parseSegment x).Fits 256 := by
        rw [List.append_assoc]
        exact List.forall_mem_append.2 ⟨hfs, fits_first hft⟩
      rw [lookup_found post (fits_first hft) hpass hmatch, ← List.append_assoc,
        lookup_found post hfits (List.forall_mem_append.2 ⟨hss, hpass⟩) hmatch]
      rcases hmark with hv | hmark
      · obtain ⟨v, hv⟩ := Option.ne_none_iff_exists'.1 hv
        rw [deliverSegment_of_some hv, deliverSegment_of_some hv]
        exact ⟨_, rfl, rfl⟩
      · rw [hmark, List.append_assoc, bufAfter_append ss]
        exact answer_of_settled (fits_first hft) hset _ _ buf₃ (bufAfter ss buf₂)
  · have hset := hleft pre w post rfl hpass hmatch
    rw [List.append_assoc, List.cons_append, lookup_found post (fits_first hfs) hpass hmatch,
      lookup_found (post ++ ts) (fits_first hfs) hpass hmatch]
    obtain ⟨res, h₁, h₂⟩ := answer_of_settled (fits_first hfs) hset (width pre + w.length) (width pre + w.length)
      buf₁ buf₂
    exact ⟨res, h₁, fun _ => h₂, fun h => absurd h (answer_ne_none h₁)⟩

/-- On queries whose segments fit into the pair buffer, lookups compose if and only if the segment that is selected in
`s` is settled, and, when there is none, the one selected in `t` is settled and the segments of `s` do not change the
index `j` it is delivered with. -/
theorem compositional_iff {s t : List UInt8} (hs : NUL ∉ s) (ht : NUL ∉ t)
    (hfs : ∀ w ∈ s.splitOn AMP, (parseSegment w).Fits 256) (hft : ∀ w ∈ t.splitOn AMP, (parseSegment w).Fits 256)
    (key : CStr) :
    Compositional key s t ↔
      (∀ pre w post, s.splitOn AMP = pre ++ w :: post → (∀ x ∈ pre, ¬ (parseSegment x).Matches key) →
        (parseSegment w).Matches key → Settled pre w (markAfter pre 0)) ∧
      ((∀ x ∈ s.splitOn AMP, ¬ (parseSegment x).Matches key) →
        ∀ pre w post, t.splitOn AMP = pre ++ w :: post → (∀ x ∈ pre, ¬ (parseSegment x).Matches key) →
          (parseSegment w).Matches key → Settled pre w (markAfter pre 0) ∧
            ((parseSegment w).value ≠ none ∨ markAfter (s.splitOn AMP ++ pre) 0 = markAfter pre 0)) := by
  rw [composes_of_split hs ht]
  constructor
  · intro h
    refine ⟨fun pre w post => h.settled_left hfs, fun hss pre w post => h.settled_right hfs hft hss⟩
  · rintro ⟨hleft, hright⟩
    exact composes_of_settled hfs hft hleft hright

private theorem eq_of_singleton_split {x w : List UInt8} {pre post : List (List UInt8)} (h : [x] = pre ++ w :: post) :
    pre = [] ∧ w = x := by
  cases pre with
  | nil => exact ⟨rfl, (List.cons.inj h).1.symm⟩
  | cons y pre =>
    have h := (List.cons.inj h).2
    exact absurd h.symm (List.append_ne_nil_of_right_ne_nil _ (List.cons_ne_nil _ _))

theorem compositional_iff_two : Compositional keyB (ascii ['a', '=', '1']) (ascii ['b', '=', '2']) := by
  have hs : (ascii ['a', '=', '1']).splitOn AMP = [ascii ['a', '=', '1']] := by decide
  have ht : (ascii ['b', '=', '2']).splitOn AMP = [ascii ['b', '=', '2']] := by decide
  refine (compositional_iff (by decide) (by decide) (by decide) (by decide) keyB).2 ⟨?_, fun _ => ?_⟩
  · intro pre w post hsplit _ hmatch
    obtain ⟨rfl, rfl⟩ := eq_of_singleton_split (hs ▸ hsplit)
    exact absurd hmatch (by decide)
  · intro pre w post hsplit _ _
    obtain ⟨rfl, rfl⟩ := eq_of_singleton_split (ht ▸ hsplit)
    exact ⟨Or.inl (by decide), Or.inl (by decide)⟩

/-- The field `bb` alone has the size 2; behind `a=1` it has the size 0. -/
theorem not_compositional_bb :
    let key : CStr := ⟨ascii ['b', 'b'], by decide⟩
    decodeQuery (ascii ['b', 'b'] ++ [NUL]) key (Mem.fill 256 0) = .ret (.found 2 [0, 0] 2) ∧
      decodeQuery (ascii ['a', '=', '1'] ++ AMP :: ascii ['b', 'b'] ++ [NUL]) key (Mem.fill 256 0) =
        .ret (.found 0 [] 6) ∧
      ¬ Compositional key (ascii ['a', '=', '1']) (ascii ['b', 'b']) := by
  intro key
  have ht : decodeQuery (ascii ['b', 'b'] ++ [NUL]) key (Mem.fill 256 0) = .ret (.found 2 [0, 0] 2) := by
    rw [decodeQuery_eq_lookup (by decide)]
    decide
  have hst : decodeQuery (ascii ['a', '=', '1'] ++ AMP :: ascii ['b', 'b'] ++ [NUL]) key (Mem.fill 256 0) =
      .ret (.found 0 [] 6) := by
    rw [decodeQuery_eq_lookup (by decide)]
    decide
  have hs : decodeQuery (ascii ['a', '=', '1'] ++ [NUL]) key (Mem.fill 256 0) = .ret .missing := by
    rw [decodeQuery_eq_lookup (by decide)]
    decide
  refine ⟨ht, hst, ?_⟩
  intro hcomp
  obtain ⟨res, hres, -, hsnd⟩ := hcomp (Mem.fill 256 0) (Mem.fill 256 0) (Mem.fill 256 0)
  rw [hs] at hres
  obtain ⟨res', ht', hst'⟩ := hsnd (Outcome.ret.inj hres).symm
  rw [ht] at ht'
  rw [hst, ← ht'] at hst'
  exact absurd hst' (by decide)

end Tinyweb
