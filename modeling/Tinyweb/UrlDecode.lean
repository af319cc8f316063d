import Tinyweb.FieldLookup
import Tinyweb.MgString

/-!
# Form variables in `mongoose.c`

`mg_get_var` looks for a variable in form data and `mg_url_decode` decodes its value.  Unlike `decode_query` they work
on a block of bytes with a length, guard the look-ahead after `%` by that length and write to a destination of any size,
cutting what does not fit.

`mg_get_var` has sizes of type `size_t` and passes them on as `int`.  So for a large destination `dst_len` may be
negative or too small, and then nothing or not all of the value is decoded.  `mgUrlDecode_eq` says what is decoded for a
positive `dst_len`; the two decoders of the repository agree on the value of a field if and only if the value is empty
or `dst_len`, as an `int`, is larger than its decoded length (`decodersAgree_iff`).
-/

namespace Tinyweb

open Clib

variable {n : Nat}

/-- The macro `HEXTOI`, where the result is converted to `char` in the end. -/
def hextoi (x : UInt8) : UInt8 := if isdigit x then x - 48 else x - 87

structure UrlDecodeState (n : Nat) where
  i : Nat
  j : Nat
  dst : Mem n

/-- `dst[j++] = b`, and on to the index `i`. -/
def UrlDecodeState.put (s : UrlDecodeState n) (b : UInt8) (i : Nat) :
    Option (Step (UrlDecodeState n) (Mem n × Int)) := do
  let dst ← s.dst.store s.j b
  return .next ⟨i, s.j + 1, dst⟩

/-- The byte written as an escape at `src + i`, if there is one. -/
def urlEscapeAt (src : List UInt8) (srcLen : Int) (i : Nat) : Option (Option UInt8) := do
  if src[i]? = some PERCENT ∧ (i : Int) < srcLen - 2 then
    let a ← src[i + 1]?
    if isxdigit a then
      let b ← src[i + 2]?
      if isxdigit b then return some (hextoi (tolower a) <<< 4 ||| hextoi (tolower b))
      else return none
    else return none
  else return none

/-- One iteration of the loop of `mg_url_decode`, or what follows the loop. -/
def urlDecodeBody (src : List UInt8) (srcLen dstLen : Int) (isFormUrlEncoded : Bool) (s : UrlDecodeState n) :
    Option (Step (UrlDecodeState n) (Mem n × Int)) := do
  -- `dst_len - 1` is computed if `i < src_len`, and overflows for the least `int`
  if (s.i : Int) < srcLen ∧ dstLen = -2147483648 then none
  if (s.i : Int) < srcLen ∧ (s.j : Int) < dstLen - 1 then
    let c ← src[s.i]?
    match ← urlEscapeAt src srcLen s.i with
    | some b => s.put b (s.i + 3)
    | none => if isFormUrlEncoded ∧ c = PLUS then s.put SPACE (s.i + 1) else s.put c (s.i + 1)
  else
    let dst ← s.dst.store s.j NUL
    return .exit (dst, if (s.i : Int) ≥ srcLen then (s.j : Int) else -1)

/-- `mg_url_decode`: the destination and the return value. -/
def mgUrlDecode (src : List UInt8) (srcLen : Int) (dst : Mem n) (dstLen : Int) (isFormUrlEncoded : Bool) :
    Outcome (Mem n × Int) :=
  loop (urlDecodeBody src srcLen dstLen isFormUrlEncoded) (srcLen.toNat + 1) ⟨0, 0, dst⟩

/-- One iteration of the search of `mg_get_var`, which ends at the value of the variable. -/
def getVarBody (data name : List UInt8) (p : Nat) : Option (Step Nat (Option Nat)) :=
  if p + name.length < data.length then
    if (p = 0 ∨ data[p - 1]? = some AMP) ∧ data[p + name.length]? = some EQUALS ∧
        mgStrncasecmp name (data.drop p) name.length = 0 then
      some (.exit (some (p + name.length + 1)))
    else some (.next (p + 1))
  else some (.exit none)

/-- `mg_get_var`: the destination and the return value.  A pointer is null or the array it points to, with the length of
the array behind it in the list of arguments. -/
def mgGetVar (data : Option (List UInt8)) (name : Option CStr) (dst : Option (Mem n)) :
    Outcome (Option (Mem n) × Int) :=
  match dst with
  | none => .ret (none, -2)
  | some dst =>
    if n = 0 then .ret (some dst, -2)
    else
      match dst.store 0 NUL with
      | none => .fault
      | some dst =>
        match data, name with
        | some data, some name =>
          if data.length = 0 then .ret (some dst, -1)
          else
            match loop (getVarBody data name.bytes) (data.length + 1) 0 with
            | .ret none => .ret (some dst, -1)
            | .ret (some p) =>
              let s := match (data.drop p).idxOf? AMP with
                | some k => p + k
                | none => data.length
              (mgUrlDecode (data.drop p) (toInt (s - p : Nat)) dst (toInt n) true).map fun r =>
                (some r.1, if r.2 = -1 then -2 else r.2)
            | .fault => .fault
            | .running => .running
        | _, _ => .ret (some dst, -1)

/-! ### What `mg_url_decode` computes -/

private theorem hextoi_fin : ∀ x : Fin 256, isxdigit (UInt8.ofFin x) = (hexVal (UInt8.ofFin x)).isSome ∧
    ∀ v ∈ hexVal (UInt8.ofFin x), hextoi (tolower (UInt8.ofFin x)) = v.toUInt8 ∧ v < 16 := by
  decide +kernel

private theorem isxdigit_eq (c : UInt8) : isxdigit c = (hexVal c).isSome := (hextoi_fin c.toFin).1

private theorem hextoi_tolower {c : UInt8} {v : Nat} (h : hexVal c = some v) :
    hextoi (tolower c) = v.toUInt8 ∧ v < 16 := (hextoi_fin c.toFin).2 v h

private theorem shift_or_fin : ∀ a b : Fin 16, a.val.toUInt8 <<< 4 ||| b.val.toUInt8 =
    (16 * a.val + b.val).toUInt8 := by
  decide +kernel

/-- The escapes of `mg_url_decode` are those of the form encoding. -/
theorem urlEscapeAt_eq {src : List UInt8} {srcLen i : Nat} {c l r : UInt8} (hlen : i + 2 < srcLen)
    (hc : src[i]? = some c) (hl : src[i + 1]? = some l) (hr : src[i + 2]? = some r) :
    urlEscapeAt src srcLen i = some (escape c l r) := by
  have hlen : (i : Int) < srcLen - 2 := by omega
  unfold urlEscapeAt escape
  by_cases hpercent : c = PERCENT
  · subst hpercent
    simp only [hc, hl, hr, hlen, isxdigit_eq, true_and, ↓reduceIte, Option.bind_eq_bind, Option.bind_some]
    cases ha : hexVal l with
    | none => rfl
    | some a =>
      cases hb : hexVal r with
      | none => rfl
      | some b =>
        obtain ⟨hla, ha⟩ := hextoi_tolower ha
        obtain ⟨hrb, hb⟩ := hextoi_tolower hb
        simp only [Option.isSome_some, ↓reduceIte, hla, hrb]
        rw [shift_or_fin ⟨a, ha⟩ ⟨b, hb⟩]
        rfl
  · simp [hc, hpercent]

/-- At most two characters are left, so the look-ahead is not made. -/
theorem urlEscapeAt_of_short (src : List UInt8) {srcLen i : Nat} (hlen : srcLen ≤ i + 2) :
    urlEscapeAt src srcLen i = some none := by
  have hguard : ¬ (i : Int) < srcLen - 2 := by omega
  simp [urlEscapeAt, hguard]

section

variable {src : List UInt8} {srcLen d : Nat} {form : Bool} {s : UrlDecodeState n}

theorem urlDecodeBody_escape {c b : UInt8} (hc : src[s.i]? = some c) (hi : s.i < srcLen) (hj : s.j + 1 < d)
    (hesc : urlEscapeAt src srcLen s.i = some (some b)) : urlDecodeBody src srcLen d form s = s.put b (s.i + 3) := by
  have hmin : ¬ ((s.i : Int) < srcLen ∧ (d : Int) = -2147483648) := by omega
  have hroom : (s.i : Int) < srcLen ∧ (s.j : Int) < d - 1 := by omega
  simp only [urlDecodeBody, if_neg hmin, if_pos hroom, hc, hesc, Option.bind_eq_bind, Option.bind_some, Option.pure_def]

theorem urlDecodeBody_other {c : UInt8} (hc : src[s.i]? = some c) (hi : s.i < srcLen) (hj : s.j + 1 < d)
    (hesc : urlEscapeAt src srcLen s.i = some none) :
    urlDecodeBody src srcLen d form s = s.put (if form ∧ c = PLUS then SPACE else c) (s.i + 1) := by
  have hmin : ¬ ((s.i : Int) < srcLen ∧ (d : Int) = -2147483648) := by omega
  have hroom : (s.i : Int) < srcLen ∧ (s.j : Int) < d - 1 := by omega
  simp only [urlDecodeBody, if_neg hmin, if_pos hroom, hc, hesc, Option.bind_eq_bind, Option.bind_some, Option.pure_def]
  split <;> rfl

/-- Behind the last character or at the end of the destination the terminator is stored. -/
theorem urlDecodeBody_end {dstLen : Int} (hmin : dstLen ≠ -2147483648)
    (hend : ¬ (s.i < srcLen ∧ (s.j : Int) + 1 < dstLen)) {dst : Mem n} (hst : s.dst.store s.j NUL = some dst) :
    urlDecodeBody src srcLen dstLen form s = some (.exit (dst, if s.i ≥ srcLen then (s.j : Int) else -1)) := by
  have hover : ¬ ((s.i : Int) < srcLen ∧ dstLen = -2147483648) := fun h => hmin h.2
  have hroom : ¬ ((s.i : Int) < srcLen ∧ (s.j : Int) < dstLen - 1) := by omega
  simp only [urlDecodeBody, if_neg hover, if_neg hroom, hst, Option.bind_eq_bind, Option.bind_some, Option.pure_def,
    ge_iff_le, Nat.cast_le]

end

private theorem loop_urlDecode_end {src : List UInt8} {srcLen i d fuel : Nat} {m : Mem n} {acc : List UInt8}
    (hend : ¬ (i < srcLen ∧ acc.length + 1 < d)) (hacc : acc.length < n) :
    loop (urlDecodeBody src srcLen d true) (fuel + 1) ⟨i, acc.length, m.overlay acc⟩ =
      .ret (m.overlay (acc ++ [0]), if i ≥ srcLen then (acc.length : Int) else -1) := by
  have hst : (m.overlay acc).store acc.length 0 = some (m.overlay (acc ++ [0])) := by
    rw [Mem.store_overlay, if_pos hacc]
  exact loop_exit (urlDecodeBody_end (by omega) (by dsimp only; omega) hst)

/-- The result of `mg_url_decode` for the decoded text `u`. -/
private def decoded (m : Mem n) (d : Nat) (u : List UInt8) : Mem n × Int :=
  (m.overlay (u.take (d - 1) ++ [0]), if u.length < d then (u.length : Int) else -1)

/-- One iteration that takes the characters `u` as the byte `b`, and then a run over `w`. -/
private theorem loop_urlDecode_step {src : List UInt8} {srcLen d fuel : Nat} {m : Mem n} {pre acc u w : List UInt8}
    {b : UInt8} (hne : u ≠ []) (hsrc : srcLen = pre.length + (u ++ w).length) (hd : d ≤ n)
    (hacc : acc.length < d) (hbody : acc.length + 1 < d →
      urlDecodeBody src srcLen d true ⟨pre.length, acc.length, m.overlay acc⟩ =
      UrlDecodeState.put ⟨pre.length, acc.length, m.overlay acc⟩ b (pre.length + u.length))
    (hdec : unescape (u ++ w) = b :: unescape w) (hfuel : (u ++ w).length < fuel)
    (ih : ∀ f, w.length < f → (acc ++ [b]).length < d →
      loop (urlDecodeBody src srcLen d true) f ⟨(pre ++ u).length, (acc ++ [b]).length, m.overlay (acc ++ [b])⟩ =
        .ret (decoded m d (acc ++ [b] ++ unescape w))) :
    loop (urlDecodeBody src srcLen d true) fuel ⟨pre.length, acc.length, m.overlay acc⟩ =
      .ret (decoded m d (acc ++ unescape (u ++ w))) := by
  have hpos : 0 < u.length := List.length_pos_iff.2 hne
  rw [List.length_append] at hsrc hfuel
  obtain ⟨fuel, rfl⟩ : ∃ f, fuel = f + 1 := ⟨fuel - 1, by omega⟩
  rw [hdec]
  by_cases hroom : acc.length + 1 < d
  · have hlen : (acc ++ [b]).length = acc.length + 1 := by simp
    have hst : (m.overlay acc).store acc.length b = some (m.overlay (acc ++ [b])) := by
      rw [Mem.store_overlay, if_pos (by omega)]
    have hnext : urlDecodeBody src srcLen d true ⟨pre.length, acc.length, m.overlay acc⟩ =
        some (.next ⟨(pre ++ u).length, (acc ++ [b]).length, m.overlay (acc ++ [b])⟩) := by
      simp [hbody hroom, UrlDecodeState.put, hst]
    rw [loop_next hnext, ih fuel (by omega) (by omega), List.append_assoc, List.singleton_append]
  · have htake : (acc ++ b :: unescape w).take (d - 1) = acc := by
      rw [List.take_append_of_le_length (by omega), List.take_of_length_le (by omega)]
    have hlong : ¬ (acc ++ b :: unescape w).length < d := by
      rw [List.length_append, List.length_cons]
      omega
    rw [loop_urlDecode_end (by omega) (by omega), decoded, htake, if_neg hlong, if_neg (by omega)]

private theorem loop_urlDecode {src rest : List UInt8} {srcLen d : Nat} {m : Mem n} (hd : d ≤ n) (w : List UInt8) :
    ∀ {pre acc : List UInt8} {fuel : Nat}, src = pre ++ (w ++ rest) → srcLen = pre.length + w.length →
      acc.length < d → w.length < fuel →
      loop (urlDecodeBody src srcLen d true) fuel ⟨pre.length, acc.length, m.overlay acc⟩ =
        .ret (decoded m d (acc ++ unescape w)) := by
  induction w using unescape.induct with
  | case1 c l r w b hb ih =>
    intro pre acc fuel hsrc hlen hacc hfuel
    have hc : src[pre.length]? = some c := by simp [hsrc]
    have hi : pre.length < srcLen := by simp [hlen]
    have hesc : urlEscapeAt src srcLen pre.length = some (some b) := by
      rw [← hb]
      simp only [List.length_cons] at hlen
      apply urlEscapeAt_eq (by omega) <;> simp [hsrc]
    have hdec : unescape (c :: l :: r :: w) = b :: unescape w := by rw [unescape, hb]
    refine loop_urlDecode_step (u := [c, l, r]) (List.cons_ne_nil _ _) hlen hd hacc (fun hroom => ?_) hdec hfuel
      fun f hf hacc' => ?_
    · exact urlDecodeBody_escape hc hi hroom hesc
    · exact ih (by simp [hsrc]) (by simp [hlen]; omega) hacc' hf
  | case2 c l r w hb ih =>
    intro pre acc fuel hsrc hlen hacc hfuel
    have hc : src[pre.length]? = some c := by simp [hsrc]
    have hi : pre.length < srcLen := by simp [hlen]
    have hesc : urlEscapeAt src srcLen pre.length = some none := by
      rw [← hb]
      simp only [List.length_cons] at hlen
      apply urlEscapeAt_eq (by omega) <;> simp [hsrc]
    have hdec : unescape (c :: l :: r :: w) = plain c :: unescape (l :: r :: w) := by rw [unescape, hb]
    refine loop_urlDecode_step (u := [c]) (List.cons_ne_nil _ _) hlen hd hacc (fun hroom => ?_) hdec hfuel
      fun f hf hacc' => ?_
    · rw [urlDecodeBody_other (s := ⟨pre.length, acc.length, m.overlay acc⟩) hc hi hroom hesc]
      simp [plain]
    · exact ih (by simp [hsrc]) (by simp [hlen]; omega) hacc' hf
  | case3 c w hw ih =>
    intro pre acc fuel hsrc hlen hacc hfuel
    have hc : src[pre.length]? = some c := by simp [hsrc]
    have hi : pre.length < srcLen := by simp [hlen]
    have hshort : w.length < 2 := length_lt_two hw
    have hesc : urlEscapeAt src srcLen pre.length = some none := by
      apply urlEscapeAt_of_short
      rw [hlen, List.length_cons]
      omega
    refine loop_urlDecode_step (u := [c]) (List.cons_ne_nil _ _) hlen hd hacc (fun hroom => ?_)
      (unescape_of_short c hshort) hfuel fun f hf hacc' => ?_
    · rw [urlDecodeBody_other (s := ⟨pre.length, acc.length, m.overlay acc⟩) hc hi hroom hesc]
      simp [plain]
    · exact ih (by simp [hsrc]) (by simp [hlen]; omega) hacc' hf
  | case4 =>
    intro pre acc fuel hsrc hlen hacc hfuel
    obtain ⟨fuel, rfl⟩ : ∃ f, fuel = f + 1 := ⟨fuel - 1, by omega⟩
    have htake : acc.take (d - 1) = acc := List.take_of_length_le (by omega)
    rw [List.length_nil, Nat.add_zero] at hlen
    rw [loop_urlDecode_end (by omega) (by omega), unescape, List.append_nil, decoded, htake, if_pos hacc,
      if_pos (by omega)]

/-- `mg_url_decode` decodes the first `srcLen` bytes, as far as `dst_len` allows. -/
theorem mgUrlDecode_eq {d : Nat} (hpos : 0 < d) (hd : d ≤ n) (w rest : List UInt8) (dst : Mem n) :
    mgUrlDecode (w ++ rest) w.length dst d true =
      .ret (dst.overlay ((unescape w).take (d - 1) ++ [0]),
        if (unescape w).length < d then ((unescape w).length : Int) else -1) := by
  have h := @loop_urlDecode n (w ++ rest) rest w.length d dst hd w [] [] (w.length + 1) rfl (Nat.zero_add _).symm hpos
    (Nat.lt_succ_self _)
  rw [Mem.overlay_nil] at h
  exact h

private theorem store_zero (hn : 0 < n) (dst : Mem n) : dst.store 0 NUL = some (dst.overlay [0]) := by
  have h := Mem.store_overlay dst [] NUL
  rwa [Mem.overlay_nil, List.length_nil, if_pos hn] at h

/-- The whole text is decoded if there is none, or if `dst_len` is larger than the decoded text. -/
private theorem mgUrlDecode_whole (hn : 0 < n) {d : Int} (hd : d ≤ n) {w : List UInt8}
    (hroom : w = [] ∨ ((unescape w).length : Int) < d) (dst : Mem n) :
    mgUrlDecode w w.length dst d true = .ret (dst.overlay (unescape w ++ [0]), ((unescape w).length : Int)) := by
  by_cases hw : w = []
  · subst hw
    apply loop_exit
    simp [urlDecodeBody, store_zero hn, unescape]
  · have hlt := hroom.resolve_left hw
    obtain ⟨d, rfl⟩ := Int.eq_ofNat_of_zero_le (show 0 ≤ d by omega)
    have h := mgUrlDecode_eq (n := n) (d := d) (by omega) (by omega) w [] dst
    rwa [List.append_nil, List.take_of_length_le (by omega), if_pos (by omega)] at h

/-- With a `dst_len` that is not positive, nothing is decoded. -/
private theorem mgUrlDecode_nothing (hn : 0 < n) {d : Int} (hd : d ≤ 0) (hmin : d ≠ -2147483648) {w : List UInt8}
    (hw : w ≠ []) (dst : Mem n) : mgUrlDecode w w.length dst d true = .ret (dst.overlay [0], -1) := by
  have hpos := List.length_pos_iff.2 hw
  have hbody := @urlDecodeBody_end n w w.length true ⟨0, 0, dst⟩ d hmin (by dsimp only; omega) _ (store_zero hn dst)
  rw [if_neg (by dsimp only; omega)] at hbody
  exact loop_exit hbody

/-- Otherwise an error is returned, or the subtraction overflows. -/
private theorem mgUrlDecode_cut (hn : 0 < n) {d : Int} (hd : d ≤ n) {w : List UInt8} (hw : w ≠ [])
    (hroom : d ≤ (unescape w).length) (dst dst' : Mem n) (k : Nat) :
    mgUrlDecode w w.length dst d true ≠ .ret (dst', (k : Int)) := by
  intro h
  by_cases hpos : 0 < d
  · obtain ⟨d, rfl⟩ := Int.eq_ofNat_of_zero_le (Int.le_of_lt hpos)
    have hcut := mgUrlDecode_eq (n := n) (d := d) (by omega) (by omega) w [] dst
    rw [List.append_nil, h, if_neg (by omega), Outcome.ret.injEq, Prod.mk.injEq] at hcut
    omega
  by_cases hmin : d = -2147483648
  · have hfault : mgUrlDecode w w.length dst d true = .fault := by
      apply loop_fault
      simp [urlDecodeBody, hmin, List.length_pos_iff.2 hw]
    rw [h] at hfault
    cases hfault
  · rw [mgUrlDecode_nothing hn (by omega) hmin hw, Outcome.ret.injEq, Prod.mk.injEq] at h
    omega

/-! ### The two decoders -/

private theorem mgStrncasecmp_self {s : List UInt8} (hs : NUL ∉ s) (t : List UInt8) :
    mgStrncasecmp s (s ++ t) s.length = 0 := by
  induction s with
  | nil => rfl
  | cons c s ih =>
    obtain ⟨hc, hs⟩ := not_or.1 (mt List.mem_cons.2 hs)
    simp only [List.length_cons, List.cons_append, mgStrncasecmp, List.headD_cons, List.tail_cons, Int.sub_self, ih hs,
      ite_self]

/-- The value of the first variable goes to `mg_url_decode`. -/
private theorem mgGetVar_first {name : CStr} {v : List UInt8} (hamp : AMP ∉ v) (hn : 0 < n) (dst : Mem n) :
    mgGetVar (some (name.bytes ++ EQUALS :: v)) (some name) (some dst) =
      (mgUrlDecode v (toInt v.length) (dst.overlay [0]) (toInt n) true).map fun r =>
        (some r.1, if r.2 = -1 then -2 else r.2) := by
  have hbody : getVarBody (name.bytes ++ EQUALS :: v) name.bytes 0 = some (.exit (some (name.bytes.length + 1))) := by
    have hcmp := mgStrncasecmp_self name.nul_free (EQUALS :: v)
    simp [getVarBody, hcmp]
  have hdrop : (name.bytes ++ EQUALS :: v).drop (name.bytes.length + 1) = v := by
    rw [← List.drop_drop, List.drop_left]
    rfl
  have hend : (name.bytes ++ EQUALS :: v).length - (name.bytes.length + 1) = v.length := by
    rw [List.length_append, List.length_cons]
    omega
  have hne : ¬ (name.bytes ++ EQUALS :: v).length = 0 := by simp
  simp only [mgGetVar, Nat.ne_of_gt hn, ↓reduceIte, store_zero hn, hne, loop_exit hbody, hdrop,
    List.idxOf?_eq_none_iff.2 hamp, hend]

/-- For the field `name` with the value `v`, `decode_query` and `mg_get_var` deliver the same bytes, and these are what
`mg_url_decode` decodes. -/
def DecodersAgree (name : CStr) (v junk : List UInt8) (buf : Mem 256) (dst : Mem n) : Prop :=
  ∃ u i, decodeQuery (name.bytes ++ EQUALS :: v ++ NUL :: junk) name buf = .ret (.found u.length u i) ∧
    mgGetVar (some (name.bytes ++ EQUALS :: v)) (some name) (some dst) =
      .ret (some (dst.overlay (u ++ [0])), (u.length : Int)) ∧
    mgUrlDecode v v.length dst (toInt n) true = .ret (dst.overlay (u ++ [0]), (u.length : Int))

private theorem decodeQuery_alnum {name : CStr} (hne : name.bytes ≠ []) (hname : ∀ c ∈ name.bytes, isalnum c)
    {v : List UInt8} (hamp : AMP ∉ v) (hnul : NUL ∉ v) (hlen : name.bytes.length + 1 + v.length ≤ 255)
    (junk : List UInt8) (buf : Mem 256) :
    ∃ i, decodeQuery (name.bytes ++ EQUALS :: v ++ NUL :: junk) name buf =
      .ret (.found (unescape v).length (unescape v) i) := by
  have hplain : ∀ c ∈ name.bytes, c ≠ PERCENT ∧ c ≠ PLUS ∧ c ≠ AMP ∧ c ≠ EQUALS := by
    intro c hc
    have h := hname c hc
    refine ⟨?_, ?_, ?_, ?_⟩ <;> rintro rfl <;> exact absurd h (by decide)
  have hequals : EQUALS ∉ name.bytes := fun h => (hplain _ h).2.2.2 rfl
  have hq : NUL ∉ name.bytes ++ EQUALS :: v := by
    simp only [List.mem_append, List.mem_cons, not_or]
    exact ⟨name.nul_free, by decide, hnul⟩
  have hsplit : (name.bytes ++ EQUALS :: v).splitOn AMP = [name.bytes ++ EQUALS :: v] := by
    apply List.splitOn_eq_singleton
    simp only [List.mem_append, List.mem_cons, not_or]
    exact ⟨fun h => (hplain _ h).2.2.1 rfl, by decide, hamp⟩
  have hparse : parseSegment (name.bytes ++ EQUALS :: v) = ⟨name.bytes, some (unescape v)⟩ := by
    have h := parseSegment_pair 0 (v := v) hne hequals
    rw [unescape_of_literal fun c hc => ⟨(hplain c hc).1, (hplain c hc).2.1⟩] at h
    exact h
  have hfits : ¬ 256 ≤ (parseSegment (name.bytes ++ EQUALS :: v)).cells.length := by
    have := length_unescape_le v
    simp only [hparse, Segment.cells, List.length_append, List.length_cons]
    omega
  have hmatch : (parseSegment (name.bytes ++ EQUALS :: v)).Matches name := by
    rw [hparse]
    exact ⟨hne, List.prefix_refl _⟩
  refine ⟨0 + (name.bytes ++ EQUALS :: v).length, ?_⟩
  rw [decodeQuery_eq_lookup hq, hsplit, lookup, if_neg hfits, if_pos hmatch, hparse]
  rfl

/-- On the value of a field with an alphanumeric name, with a destination larger than the value, the two decoders agree
if and only if the value is empty or the size of the destination, as an `int`, is larger than the decoded value. -/
theorem decodersAgree_iff {name : CStr} (hne : name.bytes ≠ []) (hname : ∀ c ∈ name.bytes, isalnum c)
    {v : List UInt8} (hamp : AMP ∉ v) (hnul : NUL ∉ v) (hlen : name.bytes.length + 1 + v.length ≤ 255)
    (junk : List UInt8) (buf : Mem 256) {dst : Mem n} (hdst : v.length < n) :
    DecodersAgree name v junk buf dst ↔ v = [] ∨ ((unescape v).length : Int) < toInt n := by
  have hn : 0 < n := Nat.zero_lt_of_lt hdst
  constructor
  · rintro ⟨u, i, -, -, hdecode⟩
    by_contra hnot
    rw [not_or, Int.not_lt] at hnot
    exact mgUrlDecode_cut hn (toInt_le n) hnot.1 hnot.2 dst _ _ hdecode
  · intro hroom
    obtain ⟨i, hquery⟩ := decodeQuery_alnum hne hname hamp hnul hlen junk buf
    refine ⟨unescape v, i, hquery, ?_, mgUrlDecode_whole hn (toInt_le n) hroom dst⟩
    have hover : (dst.overlay [0]).overlay (unescape v ++ [0]) = dst.overlay (unescape v ++ [0]) := by
      have hle := length_unescape_le v
      apply Mem.overlay_overlay
      · simp
      · simp only [List.length_append, List.length_singleton]
        omega
    have hval : ((unescape v).length : Int) ≠ -1 := by omega
    rw [mgGetVar_first hamp hn, toInt_of_lt (show v.length < 2147483648 by omega),
      mgUrlDecode_whole hn (toInt_le n) hroom, Outcome.map, hover, if_neg hval]

/-- The value `%4%31+` of the field `b`. -/
theorem decodersAgree_iff_malformed :
    DecodersAgree keyB (ascii ['%', '4', '%', '3', '1', '+']) [] (Mem.fill 256 0) (Mem.fill 7 0) :=
  (decodersAgree_iff (by decide) (by decide +kernel) (by decide) (by decide) (by decide) [] (Mem.fill 256 0)
    (by decide)).2 (Or.inr (by decide))

/-- A destination of `2 ^ 31 + 1` bytes is said to be too small for the value `1`. -/
theorem not_decodersAgree_huge :
    mgGetVar (some (keyB.bytes ++ EQUALS :: ascii ['1'])) (some keyB) (some (Mem.fill 2147483649 7)) =
        .ret (some ((Mem.fill 2147483649 7).overlay [0]), -2) ∧
      ¬ DecodersAgree keyB (ascii ['1']) [] (Mem.fill 256 0) (Mem.fill 2147483649 7) := by
  have hsize : toInt (2147483649 : Nat) = -2147483647 := by decide
  generalize Mem.fill 2147483649 7 = dst
  have hnothing := @mgUrlDecode_nothing 2147483649 (by decide) (-2147483647) (by decide) (by decide)
    (ascii ['1']) (by decide)
  constructor
  · rw [mgGetVar_first (by decide) (by decide), hsize]
    have hlen : toInt (ascii ['1']).length = ((ascii ['1']).length : Int) := by decide
    rw [hlen, hnothing, Mem.overlay_overlay _ (Nat.le_refl _) (by decide)]
    rfl
  · rintro ⟨u, i, -, -, hdecode⟩
    rw [hsize, hnothing, Outcome.ret.injEq, Prod.mk.injEq] at hdecode
    omega

end Tinyweb
