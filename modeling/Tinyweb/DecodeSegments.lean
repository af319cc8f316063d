import Tinyweb.DecodeText
import Tinyweb.Segments

/-!
# `decode_query` segment by segment

The loop runs from the beginning of a segment to its end (`loop_segment`), and there it delivers the value or goes on
with the next segment (`loop_end`).  Hence the loop over characters computes `lookup`, on every query and with every
access outside an array (`decodeQuery_eq_lookup`).
-/

namespace Tinyweb

open Clib

variable {n : Nat}

/-! ### A whole segment -/

private def segmentEnd (m : Mem n) (i j : Nat) (seg : Segment) : QueryState n :=
  .at m i (seg.mark j) seg.value.isSome (seg.value.map fun _ => seg.name.length + 1) seg.cells

private theorem loop_skip {query : List UInt8} {key : CStr} {m : Mem n} {j : Nat} (fuel d : Nat) :
    ∀ {pre post : List UInt8}, query = pre ++ (List.replicate d EQUALS ++ post) →
      loop (decodeBody query key) (fuel + d) (.at m pre.length j false none []) =
        loop (decodeBody query key) fuel (.at m (pre.length + d) j false none []) := by
  induction d with
  | zero => intros; rfl
  | succ d ih =>
    intro pre post hq
    have hbody : decodeBody query key (.at m pre.length j false none []) =
        some (.next (.at m (pre.length + 1) j false none [])) := by
      simp [decodeBody, QueryState.at, hq, List.replicate_succ]
    have h := @ih (pre ++ [EQUALS]) post (by simp [hq, List.replicate_succ])
    rw [List.length_append, List.length_singleton] at h
    rw [← Nat.add_assoc, loop_next hbody, h, Nat.add_assoc, Nat.add_comm 1 d]

private theorem loop_equals {query : List UInt8} {key : CStr} {m : Mem n} {i j fuel : Nat} {name : List UInt8}
    (hc : query[i]? = some EQUALS) (hne : name ≠ []) :
    loop (decodeBody query key) (fuel + 1) (.at m i j false none name) =
      if name.length < n then
        loop (decodeBody query key) fuel
          (.at m (i + 1) (name.length + 1) true (some (name.length + 1)) (name ++ [NUL]))
      else .fault := by
  have hpos : name.length > 0 := List.length_pos_iff.2 hne
  have hst : ((m.overlay name).store name.length NUL) = _ := Mem.store_overlay m name NUL
  by_cases hlen : name.length < n
  · rw [if_pos hlen]
    rw [if_pos hlen] at hst
    apply loop_next
    simp [decodeBody, QueryState.at, hc, hpos, hst]
  · rw [if_neg hlen]
    rw [if_neg hlen] at hst
    apply loop_fault
    simp [decodeBody, QueryState.at, hc, hpos, hst]

/-- The loop runs from the beginning of the segment `w`, at `i`, to its end, if the segment fits the buffer. -/
private def ReachesEnd (query : List UInt8) (key : CStr) (m : Mem n) (j fuel i : Nat) (w : List UInt8) : Prop :=
  ∃ fuel', fuel ≤ fuel' + w.length ∧
    loop (decodeBody query key) fuel (.at m i j false none []) =
      if (parseSegment w).cells.length ≤ n then
        loop (decodeBody query key) fuel' (segmentEnd m (i + w.length) j (parseSegment w))
      else .fault

private theorem reachesEnd_name {query : List UInt8} (key : CStr) (m : Mem n) (j : Nat) {fuel d : Nat}
    {pre raw post : List UInt8} {e : UInt8} (hq : query = pre ++ (List.replicate d EQUALS ++ raw ++ e :: post))
    (he : hexVal e = none) (hraw : EQUALS ∉ raw) (hdata : ∀ c ∈ raw, Data false c)
    (hfuel : (List.replicate d EQUALS ++ raw).length ≤ fuel) :
    ReachesEnd query key m j fuel pre.length (List.replicate d EQUALS ++ raw) := by
  have hpre : (pre ++ List.replicate d EQUALS).length = pre.length + d := by simp
  have hq' : query = pre ++ List.replicate d EQUALS ++ (raw ++ e :: post) := by simp [hq]
  rw [ReachesEnd]
  rw [List.length_append, List.length_replicate] at hfuel ⊢
  obtain ⟨fuel, rfl⟩ : ∃ f, fuel = f + d := ⟨fuel - d, by omega⟩
  have htext : Reaches query key m j false none fuel (pre ++ List.replicate d EQUALS).length [] _ (unescape raw) :=
    reaches_text he raw hq' hdata (by omega) (Nat.zero_le n)
  obtain ⟨fuel', hf, hloop⟩ := htext
  rw [hpre] at hf hloop
  refine ⟨fuel', by omega, ?_⟩
  rw [loop_skip fuel d (by rw [hq', List.append_assoc]), hloop, parseSegment_name d hraw, Nat.add_assoc]
  rfl

private theorem reachesEnd_pair {query : List UInt8} (key : CStr) (m : Mem n) (j : Nat) {fuel d : Nat}
    {pre raw v post : List UInt8} {e : UInt8}
    (hq : query = pre ++ (List.replicate d EQUALS ++ (raw ++ EQUALS :: v) ++ e :: post)) (he : hexVal e = none)
    (hne : raw ≠ []) (hraw : EQUALS ∉ raw) (hdata : ∀ c ∈ raw, Data false c) (hvalue : ∀ c ∈ v, Data true c)
    (hfuel : (List.replicate d EQUALS ++ (raw ++ EQUALS :: v)).length ≤ fuel) :
    ReachesEnd query key m j fuel pre.length (List.replicate d EQUALS ++ (raw ++ EQUALS :: v)) := by
  have hpre : (pre ++ List.replicate d EQUALS).length = pre.length + d := by simp
  have hq' : query = pre ++ List.replicate d EQUALS ++ (raw ++ EQUALS :: (v ++ e :: post)) := by simp [hq]
  have hcells : (parseSegment (List.replicate d EQUALS ++ (raw ++ EQUALS :: v))).cells =
      unescape raw ++ [NUL] ++ unescape v := by
    rw [parseSegment_pair d hne hraw]
    simp [Segment.cells]
  have hlength : (List.replicate d EQUALS ++ (raw ++ EQUALS :: v)).length = d + (raw.length + (v.length + 1)) := by
    rw [List.length_append, List.length_replicate, List.length_append, List.length_cons]
  rw [ReachesEnd]
  rw [hlength] at hfuel ⊢
  obtain ⟨fuel, rfl⟩ : ∃ f, fuel = f + d := ⟨fuel - d, by omega⟩
  have htext : Reaches query key m j false none fuel (pre ++ List.replicate d EQUALS).length [] _ (unescape raw) :=
    reaches_text (by decide) raw hq' hdata (by omega) (Nat.zero_le n)
  obtain ⟨fuel₁, hf₁, hloop₁⟩ := htext
  rw [hpre] at hf₁ hloop₁
  obtain ⟨fuel₁, rfl⟩ : ∃ f, fuel₁ = f + 1 := ⟨fuel₁ - 1, by omega⟩
  have hat : query[pre.length + d + raw.length]? = some EQUALS := by
    rw [hq', ← List.append_assoc, ← hpre, ← List.length_append, List.getElem?_append_right (Nat.le_refl _),
      Nat.sub_self]
    rfl
  rw [loop_skip fuel d (by rw [hq', List.append_assoc]), hloop₁, List.nil_append, hcells]
  by_cases hlen : (unescape raw).length < n
  · have hq'' : query = pre ++ List.replicate d EQUALS ++ raw ++ [EQUALS] ++ (v ++ e :: post) := by simp [hq]
    have hpre' : (pre ++ List.replicate d EQUALS ++ raw ++ [EQUALS]).length = pre.length + d + raw.length + 1 := by
      simp [Nat.add_assoc]
    have htext : Reaches query key m ((unescape raw).length + 1) true (some ((unescape raw).length + 1)) fuel₁
        (pre ++ List.replicate d EQUALS ++ raw ++ [EQUALS]).length (unescape raw ++ [NUL]) _ (unescape v) :=
      reaches_text he v hq'' hvalue (by omega) (by simp; omega)
    obtain ⟨fuel₂, hf₂, hloop₂⟩ := htext
    rw [hpre'] at hf₂ hloop₂
    have hend : pre.length + d + raw.length + 1 + v.length = pre.length + (d + (raw.length + (v.length + 1))) := by
      omega
    refine ⟨fuel₂, by omega, ?_⟩
    rw [if_pos (Nat.le_of_lt hlen), loop_equals hat (unescape_ne_nil hne), if_pos hlen, hloop₂, hend, segmentEnd,
      hcells, parseSegment_pair d hne hraw]
    rfl
  · -- the name alone fills the buffer
    have hover : ¬ (unescape raw ++ [NUL] ++ unescape v).length ≤ n := by
      simp only [List.length_append, List.length_singleton]
      omega
    refine ⟨fuel + d, by omega, ?_⟩
    rw [if_neg hover, loop_equals hat (unescape_ne_nil hne), if_neg hlen, ite_self]

private theorem loop_segment {query : List UInt8} (key : CStr) (m : Mem n) (j : Nat) {fuel : Nat}
    {pre w post : List UInt8} {e : UInt8} (hq : query = pre ++ (w ++ e :: post)) (he : e = AMP ∨ e = NUL)
    (hamp : AMP ∉ w)
    (hnul : NUL ∉ w) (hfuel : w.length ≤ fuel) : ReachesEnd query key m j fuel pre.length w := by
  have hhex : hexVal e = none := by rcases he with rfl | rfl <;> decide
  have hdata : ∀ c ∈ w, c ≠ NUL ∧ c ≠ AMP := by
    intro c hc
    constructor
    · rintro rfl; exact hnul hc
    · rintro rfl; exact hamp hc
  have hname : ∀ raw, EQUALS ∉ raw → raw ⊆ w → ∀ c ∈ raw, Data false c := by
    intro raw hraw hsub c hc
    refine ⟨(hdata c (hsub hc)).1, (hdata c (hsub hc)).2, fun _ => ?_⟩
    rintro rfl
    exact hraw hc
  rcases segment_cases w with ⟨d, raw, rfl, hraw⟩ | ⟨d, raw, v, rfl, hne, hraw⟩
  · exact reachesEnd_name key m j hq hhex hraw (hname raw hraw (by simp)) hfuel
  · have hvalue : ∀ c ∈ v, Data true c := fun c hc =>
      ⟨(hdata c (by simp [hc])).1, (hdata c (by simp [hc])).2, nofun⟩
    exact reachesEnd_pair key m j hq hhex hne hraw (hname raw hraw (by simp)) hvalue hfuel

/-! ### The end of a segment -/

private theorem prefix_append_nul {key a : List UInt8} (hkey : NUL ∉ key) (b : List UInt8) :
    key <+: a ++ NUL :: b ↔ key <+: a := by
  constructor
  · intro h
    apply List.prefix_of_prefix_length_le h (List.prefix_append ..)
    by_contra hlen
    -- otherwise the NUL behind `a` is a byte of the key
    obtain ⟨t, ht⟩ := h
    have hget : (key ++ t)[a.length]? = some NUL := by
      rw [ht, List.getElem?_append_right (Nat.le_refl _), Nat.sub_self]
      rfl
    rw [List.getElem?_append_left (by omega)] at hget
    exact hkey (List.mem_of_getElem? hget)
  · intro h
    exact h.trans (List.prefix_append ..)

private theorem strncmp_cells {seg : Segment} (key : CStr) (m : Mem n) (hlen : seg.cells.length < n) :
    strncmp (m.overlay (seg.cells ++ [0])).cells key.bytes key.bytes.length = 0 ↔ key.bytes <+: seg.name := by
  have hlen' : (seg.cells ++ [0]).length ≤ n := by
    rw [List.length_append, List.length_singleton]
    omega
  rw [strncmp_length_eq_zero_iff key.nul_free, Mem.cells_overlay m hlen']
  cases hv : seg.value with
  | none =>
    rw [show seg.cells = seg.name by rw [Segment.cells, hv], List.append_assoc]
    exact prefix_append_nul key.nul_free _
  | some v =>
    rw [show seg.cells = seg.name ++ NUL :: v by rw [Segment.cells, hv], List.append_assoc, List.append_assoc]
    exact prefix_append_nul key.nul_free _

/-- The segment at its end, with the terminator stored and the name found if there is one. -/
private theorem endSegment_eq {seg : Segment} {key : CStr} {m : Mem n} {i j : Nat} {done : Bool}
    (hlen : seg.cells.length < n) (hname : seg.name = [] → seg.value = none) :
    (segmentEnd m i j seg).endSegment key done =
      if seg.Matches key then
        QueryState.deliver ⟨i, seg.cells.length, seg.mark j, true,
          some (match seg.value with | none => seg.name.length | some _ => seg.name.length + 1),
          m.overlay (seg.cells ++ [0])⟩
      else if done then some (.exit .missing)
      else some (.next (.at (m.overlay (seg.cells ++ [0])) (i + 1) (seg.mark j) false none [])) := by
  have hst : (m.overlay seg.cells).store seg.cells.length 0 = some (m.overlay (seg.cells ++ [0])) := by
    rw [Mem.store_overlay, if_pos hlen]
  have hcmp := strncmp_cells key m hlen
  unfold QueryState.endSegment segmentEnd QueryState.at
  simp only [hst, Option.bind_eq_bind, Option.bind_some]
  obtain ⟨name, value⟩ := seg
  cases value with
  | some v =>
    have hne : name ≠ [] := fun h => by cases hname h
    by_cases hm : key.bytes <+: name
    · have hmatch : Segment.Matches ⟨name, some v⟩ key := ⟨hne, hm⟩
      simp [hcmp.2 hm, hmatch]
    · have hmatch : ¬ Segment.Matches ⟨name, some v⟩ key := fun h => hm h.2
      simp [mt hcmp.1 hm, hmatch]
  | none =>
    have hcmp' : strncmp (m.overlay (name ++ [0])).cells key.bytes key.bytes.length = 0 ↔ key.bytes <+: name := hcmp
    by_cases hne : name = []
    · subst hne
      have hmatch : ¬ Segment.Matches ⟨[], none⟩ key := fun h => h.1 rfl
      simp [Segment.cells, hmatch]
    · have hpos : 0 < name.length := List.length_pos_iff.2 hne
      by_cases hm : key.bytes <+: name
      · have hmatch : Segment.Matches ⟨name, none⟩ key := ⟨hne, hm⟩
        simp [hcmp'.2 hm, hmatch, Segment.cells, hpos]
      · have hmatch : ¬ Segment.Matches ⟨name, none⟩ key := fun h => hm h.2
        simp [mt hcmp'.1 hm, hmatch, Segment.cells, hpos]

private theorem deliver_eq {seg : Segment} {m : Mem n} {i j : Nat} {name : Bool} (hlen : seg.cells.length < n) :
    QueryState.deliver ⟨i, seg.cells.length, seg.mark j, name,
        some (match seg.value with | none => seg.name.length | some _ => seg.name.length + 1),
        m.overlay (seg.cells ++ [0])⟩ =
      match deliverSegment seg i j (m.overlay (seg.cells ++ [0])) with
      | .ret r => some (.exit r)
      | _ => none := by
  obtain ⟨nm, value⟩ := seg
  cases value with
  | none =>
    simp only [QueryState.deliver, deliverSegment, Segment.cells, Segment.mark, Option.bind_eq_bind, Option.bind_some]
    by_cases hj : nm.length < j
    · simp [hj]
    · simp only [hj, ↓reduceIte]
      cases (m.overlay (nm ++ [0])).read nm.length (nm.length - j) with
      | none => rfl
      | some pval => rfl
  | some v =>
    have hcells : Segment.cells ⟨nm, some v⟩ = nm ++ NUL :: v := rfl
    rw [hcells] at hlen
    have hk : (nm ++ NUL :: v).length = nm.length + 1 + v.length := by
      rw [List.length_append, List.length_cons]
      omega
    have hread : (m.overlay (nm ++ NUL :: v ++ [0])).read (nm.length + 1) v.length = some v := by
      have hlen' : (nm ++ NUL :: v ++ [0]).length ≤ n := by
        rw [List.length_append, List.length_singleton]
        omega
      have hsplit : nm ++ NUL :: v ++ [0] ++ m.cells.drop (nm ++ NUL :: v ++ [0]).length =
          (nm ++ [NUL]) ++ (v ++ ([0] ++ m.cells.drop (nm ++ NUL :: v ++ [0]).length)) := by
        simp only [List.append_assoc, List.cons_append, List.nil_append]
      have hpre : nm.length + 1 = (nm ++ [NUL]).length := by simp
      rw [Mem.read, if_pos (by omega), Mem.cells_overlay m hlen', hsplit, hpre, List.drop_left, List.take_left]
    have hle : ¬ nm.length + 1 + v.length < nm.length + 1 := by omega
    have hsub : nm.length + 1 + v.length - (nm.length + 1) = v.length := by omega
    have hint : ((nm.length + 1 + v.length : Nat) : Int) - (nm.length + 1 : Nat) = v.length := by omega
    simp only [QueryState.deliver, deliverSegment, hcells, hk, Segment.mark, Option.bind_eq_bind, Option.bind_some, hle,
      ↓reduceIte, hsub, hread, hint]
    rfl

private theorem deliverSegment_ne_running (seg : Segment) (i j : Nat) (buf : Mem n) :
    deliverSegment seg i j buf ≠ .running := by
  unfold deliverSegment
  split
  · exact nofun
  · split
    · exact nofun
    · split
      · exact nofun
      · exact nofun

private theorem loop_end {query : List UInt8} {key : CStr} {m : Mem n} {i j fuel : Nat} {seg : Segment} {e : UInt8}
    (hat : query[i]? = some e) (he : e = AMP ∨ e = NUL) (hname : seg.name = [] → seg.value = none) :
    loop (decodeBody query key) (fuel + 1) (segmentEnd m i j seg) =
      if n ≤ seg.cells.length then .fault
      else if seg.Matches key then deliverSegment seg i j (m.overlay (seg.cells ++ [0]))
      else if e = NUL then .ret .missing
      else loop (decodeBody query key) fuel
        (.at (m.overlay (seg.cells ++ [0])) (i + 1) (seg.mark j) false none []) := by
  have hbody : decodeBody query key (segmentEnd m i j seg) = (segmentEnd m i j seg).endSegment key (e = NUL) := by
    have hat' : query[(segmentEnd m i j seg).i]? = some e := hat
    have h1 : AMP ≠ EQUALS := by decide
    have h2 : AMP ≠ NUL := by decide
    have h3 : NUL ≠ EQUALS := by decide
    rcases he with rfl | rfl
    · simp [decodeBody, hat', h1, h2]
    · simp [decodeBody, hat', h3]
  by_cases hlen : seg.cells.length < n
  · rw [if_neg (by omega)]
    rw [endSegment_eq hlen hname] at hbody
    by_cases hm : seg.Matches key
    · rw [if_pos hm]
      rw [if_pos hm, deliver_eq hlen] at hbody
      cases hd : deliverSegment seg i j (m.overlay (seg.cells ++ [0])) with
      | ret r =>
        rw [hd] at hbody
        exact loop_exit hbody
      | fault =>
        rw [hd] at hbody
        exact loop_fault hbody
      | running => exact absurd hd (deliverSegment_ne_running _ _ _ _)
    · rw [if_neg hm]
      rw [if_neg hm] at hbody
      by_cases h0 : e = NUL
      · rw [if_pos h0]
        exact loop_exit (by simpa [h0] using hbody)
      · rw [if_neg h0]
        exact loop_next (by simpa [h0] using hbody)
  · rw [if_pos (by omega)]
    apply loop_fault
    rw [hbody]
    have hst : (m.overlay seg.cells).store seg.cells.length 0 = none := by
      rw [Mem.store_overlay, if_neg hlen]
    simp [QueryState.endSegment, segmentEnd, QueryState.at, hst]

/-! ### The whole query -/

/-- One segment, from its beginning to the beginning of the next one or to a result. -/
private theorem loop_segment_end {query : List UInt8} (key : CStr) (m : Mem n) (j : Nat) {fuel : Nat}
    {pre w post : List UInt8} {e : UInt8} (hq : query = pre ++ (w ++ e :: post)) (he : e = AMP ∨ e = NUL)
    (hamp : AMP ∉ w)
    (hnul : NUL ∉ w) (hfuel : w.length < fuel) :
    ∃ fuel', fuel ≤ fuel' + w.length + 1 ∧
      loop (decodeBody query key) fuel (.at m pre.length j false none []) =
        if n ≤ (parseSegment w).cells.length then .fault
        else if (parseSegment w).Matches key then
          deliverSegment (parseSegment w) (pre.length + w.length) j (m.overlay ((parseSegment w).cells ++ [0]))
        else if e = NUL then .ret .missing
        else
          loop (decodeBody query key) fuel' (.at (m.overlay ((parseSegment w).cells ++ [0])) (pre.length + w.length + 1)
            ((parseSegment w).mark j) false none []) := by
  obtain ⟨fuel', hf, hloop⟩ := loop_segment key m j hq he hamp hnul (Nat.le_of_lt hfuel)
  obtain ⟨fuel', rfl⟩ : ∃ f, fuel' = f + 1 := ⟨fuel' - 1, by omega⟩
  have hat : query[pre.length + w.length]? = some e := by
    rw [hq, ← List.append_assoc, List.getElem?_append_right (by simp)]
    simp
  refine ⟨fuel', by omega, ?_⟩
  rw [hloop, loop_end hat he parseSegment_value_of_name]
  by_cases hlen : (parseSegment w).cells.length ≤ n
  · rw [if_pos hlen]
  · rw [if_neg hlen, if_pos (by omega)]

private theorem loop_lookup {query : List UInt8} {key : CStr} {junk : List UInt8} (ws : List (List UInt8)) :
    ∀ {pre : List UInt8} {j fuel : Nat} {m : Mem n}, ws ≠ [] →
      query = pre ++ ([AMP].intercalate ws ++ NUL :: junk) → (∀ w ∈ ws, AMP ∉ w ∧ NUL ∉ w) →
      ([AMP].intercalate ws).length < fuel →
      loop (decodeBody query key) fuel (.at m pre.length j false none []) = lookup key ws pre.length j m := by
  induction ws with
  | nil => intro _ _ _ _ h; exact absurd rfl h
  | cons w ws ih =>
    intro pre j fuel m _ hq hws hfuel
    obtain ⟨hamp, hnul⟩ := hws w (List.mem_cons_self ..)
    cases ws with
    | nil =>
      rw [List.intercalate_singleton] at hq hfuel
      obtain ⟨fuel', -, hloop⟩ := loop_segment_end key m j hq (Or.inr rfl) hamp hnul hfuel
      rw [hloop]
      rfl
    | cons w' ws =>
      rw [List.intercalate_cons_cons] at hq hfuel
      have hq' : query = pre ++ (w ++ AMP :: ([AMP].intercalate (w' :: ws) ++ NUL :: junk)) := by simp [hq]
      simp only [List.length_append, List.length_singleton] at hfuel
      have hlt : w.length < fuel := by omega
      obtain ⟨fuel', hf, hloop⟩ := loop_segment_end key m j hq' (Or.inl rfl) hamp hnul hlt
      have hrest := @ih (pre ++ w ++ [AMP]) ((parseSegment w).mark j) fuel' (m.overlay ((parseSegment w).cells ++ [0]))
        (List.cons_ne_nil _ _) (by simp [hq]) (fun x hx => hws x (List.mem_cons_of_mem _ hx)) (by omega)
      have hpre : (pre ++ w ++ [AMP]).length = pre.length + w.length + 1 := by simp [Nat.add_assoc]
      rw [hpre] at hrest
      rw [hloop, hrest, if_neg (by decide : ¬ AMP = NUL)]
      rfl

/-- The loop over characters computes `lookup` on the segments of the query, whatever stands behind the terminator and
whatever was in the pair buffer. -/
theorem decodeQuery_eq_lookup {q : List UInt8} (hq : NUL ∉ q) (junk : List UInt8) (key : CStr) (buf : Mem n) :
    decodeQuery (q ++ NUL :: junk) key buf = lookup key (q.splitOn AMP) 0 0 buf := by
  have hjoin : [AMP].intercalate (q.splitOn AMP) = q := List.intercalate_splitOn AMP
  have hws : ∀ w ∈ q.splitOn AMP, AMP ∉ w ∧ NUL ∉ w := fun w hw =>
    ⟨(mem_splitOn hw).1, fun h => hq ((mem_splitOn hw).2 h)⟩
  have hfuel : ([AMP].intercalate (q.splitOn AMP)).length < (q ++ NUL :: junk).length := by
    rw [hjoin]
    simp
  have h : loop (decodeBody (q ++ NUL :: junk) key) (q ++ NUL :: junk).length (.at buf 0 0 false none []) = _ :=
    loop_lookup (q.splitOn AMP) (List.splitOn_ne_nil _ _) (by rw [hjoin, List.nil_append]) hws hfuel
  simpa [decodeQuery, QueryState.at] using h

end Tinyweb
