import Mathlib.Tactic.Common
import Tinyweb.Lib.Paths
import Tinyweb.Lib.PercentEncoding
import Tinyweb.UrlDecode

/-!
# The URI of a request (`mongoose.c`)

`handle_request` decodes the URI and takes double dots and double slashes out of it, both in place: `mg_url_decode` is
called with the URI as source and as destination, and `remove_double_dots_and_double_slashes` copies the text to its own
beginning.  The memory is that of the URI and its terminator.

The reading index is never behind the writing one, so that both passes see the old text: decoding in place is decoding
into another array (`decodeUri_eq_mgUrlDecode`), and what is left in the end is the cleaned text of the decoded URI,
with what was there before behind it (`prepareUri_eq`).  The cleaned text has no `..` behind a slash
(`cleaned_no_dots`).
-/

namespace Tinyweb

open Clib

variable {len n : Nat}

abbrev BACKSLASH : UInt8 := 92

/-- `mg_url_decode(ri->uri, uri_len, ri->uri, uri_len + 1, 0)`; the URI lies in the buffer of the request, so that its
length is an `int`. -/
def decodeUri (uri : Mem (len + 1)) : Outcome (Mem (len + 1) × Int) :=
  loop (fun s => urlDecodeBody s.dst.cells len (len + 1 : Nat) false s) (len + 1) ⟨0, 0, uri⟩

def isSeparator (c : UInt8) : Bool := c == SLASH || c == BACKSLASH

/-- The inner loop, with the bytes from `s` on: the index of the first byte that is not skipped. -/
def skipDots : List UInt8 → Nat → Option Nat
  | [], _ => none
  | c :: l, s =>
    if c = NUL then some s
    else if isSeparator c then skipDots l (s + 1)
    else if c = DOT then
      match l with
      | [] => none
      | d :: l => if d = DOT then skipDots l (s + 2) else some s
    else some s

structure RemoveState (n : Nat) where
  s : Nat
  p : Nat
  mem : Mem n

def removeBody (st : RemoveState n) : Option (Step (RemoveState n) (Mem n)) := do
  let c ← st.mem.load st.s
  if c = NUL then
    let mem ← st.mem.store st.p NUL
    return .exit mem
  else
    let mem ← st.mem.store st.p c
    -- `s[-1]`, read again behind the store
    let last ← mem.load st.s
    let s ← (if isSeparator last then skipDots (mem.cells.drop (st.s + 1)) (st.s + 1) else some (st.s + 1) : Option Nat)
    return .next ⟨s, st.p + 1, mem⟩

def removeDoubleDotsAndDoubleSlashes (mem : Mem n) : Outcome (Mem n) := loop removeBody (n + 1) ⟨0, 0, mem⟩

/-- Both passes over the URI. -/
def prepareUri (uri : Mem (len + 1)) : Outcome (Mem (len + 1)) := do
  let (uri, _) ← decodeUri uri
  removeDoubleDotsAndDoubleSlashes uri

def terminated (u : List UInt8) : Mem (u.length + 1) := ⟨u ++ [NUL], by simp⟩

/-! ### Decoding in place -/

theorem drop_overlay (m : Mem n) {w : List UInt8} {k : Nat} (hw : w.length ≤ n) (hk : w.length ≤ k) :
    (m.overlay w).cells.drop k = m.cells.drop k := by
  rw [Mem.cells_overlay m hw, List.drop_append, List.drop_of_length_le hk, List.nil_append, List.drop_drop,
    Nat.add_sub_cancel' hk]

private theorem getElem?_of_drop_eq {a b : List UInt8} {i k : Nat} (h : a.drop i = b.drop i) (hk : i ≤ k) :
    a[k]? = b[k]? := by
  obtain ⟨d, rfl⟩ := Nat.exists_eq_add_of_le hk
  rw [← List.getElem?_drop, ← List.getElem?_drop, h]

/-- An iteration reads from its index on. -/
private theorem urlDecodeBody_congr {a b : List UInt8} {s : UrlDecodeState n} (h : a.drop s.i = b.drop s.i)
    (form : Bool) : urlDecodeBody a len (len + 1 : Nat) form s = urlDecodeBody b len (len + 1 : Nat) form s := by
  have h0 := getElem?_of_drop_eq h (Nat.le_refl s.i)
  have h1 := getElem?_of_drop_eq h (Nat.le_add_right s.i 1)
  have h2 := getElem?_of_drop_eq h (Nat.le_add_right s.i 2)
  simp only [urlDecodeBody, urlEscapeAt, h0, h1, h2]

private theorem put_next {s s' : UrlDecodeState n} {b : UInt8} {i : Nat} (h : s.put b i = some (.next s')) :
    s'.i = i ∧ s'.j = s.j + 1 ∧ s.dst.store s.j b = some s'.dst := by
  unfold UrlDecodeState.put at h
  cases hst : s.dst.store s.j b with
  | none => simp [hst] at h
  | some dst =>
    simp only [hst, Option.bind_eq_bind, Option.bind_some, Option.pure_def, Option.some.injEq, Step.next.injEq] at h
    subst h
    exact ⟨rfl, rfl, rfl⟩

private theorem urlDecodeBody_next {src : List UInt8} {form : Bool} {s s' : UrlDecodeState n}
    (h : urlDecodeBody src len (len + 1 : Nat) form s = some (.next s')) :
    s.i < s'.i ∧ s'.j = s.j + 1 ∧ ∃ b, s.dst.store s.j b = some s'.dst := by
  have hmin : ¬ ((s.i : Int) < len ∧ ((len + 1 : Nat) : Int) = -2147483648) := by omega
  simp only [urlDecodeBody, if_neg hmin, Option.bind_eq_bind, Option.pure_def] at h
  split at h
  next =>
    obtain ⟨c, -, h⟩ := Option.bind_eq_some_iff.1 h
    obtain ⟨e, -, h⟩ := Option.bind_eq_some_iff.1 h
    split at h
    next b =>
      obtain ⟨hi, hj, hst⟩ := put_next h
      exact ⟨by omega, hj, b, hst⟩
    next =>
      split at h <;>
      · obtain ⟨hi, hj, hst⟩ := put_next h
        exact ⟨by omega, hj, _, hst⟩
  next =>
    obtain ⟨dst, -, h⟩ := Option.bind_eq_some_iff.1 h
    cases h

/-- A store does not change what is behind it. -/
private theorem drop_store {m m' : Mem n} {j k : Nat} {b : UInt8} (h : m.store j b = some m') (hk : j < k) :
    m'.cells.drop k = m.cells.drop k := by
  unfold Mem.store at h
  split at h
  next =>
    cases h
    exact List.drop_set_of_lt hk
  next => cases h

theorem decodeUri_eq_mgUrlDecode (uri : Mem (len + 1)) :
    decodeUri uri = mgUrlDecode uri.cells len uri (len + 1 : Nat) false := by
  -- the text from the reading index on is still the old one
  have hinv : ∀ s ∈ visited (fun s => urlDecodeBody s.dst.cells len (len + 1 : Nat) false s) (len + 1) ⟨0, 0, uri⟩,
      s.j ≤ s.i ∧ s.dst.cells.drop s.i = uri.cells.drop s.i := by
    refine visited_invariant (fun s s' hs h => ?_) ⟨Nat.le_refl 0, rfl⟩
    obtain ⟨hi, hj, b, hst⟩ := urlDecodeBody_next h
    refine ⟨by omega, ?_⟩
    rw [drop_store hst (by omega), ← Nat.sub_add_cancel (Nat.le_of_lt hi), Nat.add_comm, ← List.drop_drop, hs.2,
      List.drop_drop]
  exact loop_congr fun s hs => urlDecodeBody_congr (hinv s hs).2 false

/-- One iteration that takes the characters `u` as the byte `b`, and then a run over `w`. -/
private theorem loop_percentDecode_step {src : List UInt8} {srcLen fuel : Nat} {m : Mem n}
    {pre acc u w : List UInt8} {b : UInt8}
    (hne : u ≠ []) (hroom : acc.length + (u ++ w).length < n) (hfuel : (u ++ w).length < fuel)
    (hdec : percentDecode (u ++ w) = b :: percentDecode w)
    (hbody : urlDecodeBody src srcLen n false ⟨pre.length, acc.length, m.overlay acc⟩ =
      UrlDecodeState.put ⟨pre.length, acc.length, m.overlay acc⟩ b (pre.length + u.length))
    (ih : ∀ f, w.length < f → loop (urlDecodeBody src srcLen n false) f
        ⟨(pre ++ u).length, (acc ++ [b]).length, m.overlay (acc ++ [b])⟩ =
      .ret (m.overlay (acc ++ [b] ++ percentDecode w ++ [0]), ((acc ++ [b] ++ percentDecode w).length : Int))) :
    loop (urlDecodeBody src srcLen n false) fuel ⟨pre.length, acc.length, m.overlay acc⟩ =
      .ret (m.overlay (acc ++ percentDecode (u ++ w) ++ [0]), ((acc ++ percentDecode (u ++ w)).length : Int)) := by
  have hpos := List.length_pos_iff.2 hne
  rw [List.length_append] at hroom hfuel
  obtain ⟨fuel, rfl⟩ : ∃ f, fuel = f + 1 := ⟨fuel - 1, by omega⟩
  have hst : (m.overlay acc).store acc.length b = some (m.overlay (acc ++ [b])) := by
    rw [Mem.store_overlay, if_pos (by omega)]
  have hnext : urlDecodeBody src srcLen n false ⟨pre.length, acc.length, m.overlay acc⟩ =
      some (.next ⟨(pre ++ u).length, (acc ++ [b]).length, m.overlay (acc ++ [b])⟩) := by
    simp [hbody, UrlDecodeState.put, hst]
  rw [loop_next hnext, ih fuel (by omega), hdec, List.append_assoc acc, List.singleton_append]

private theorem loop_percentDecode {src rest : List UInt8} {srcLen : Nat} {m : Mem n} (w : List UInt8) :
    ∀ {pre acc : List UInt8} {fuel : Nat}, src = pre ++ (w ++ rest) → srcLen = pre.length + w.length →
      acc.length + w.length < n → w.length < fuel →
      loop (urlDecodeBody src srcLen n false) fuel ⟨pre.length, acc.length, m.overlay acc⟩ =
        .ret (m.overlay (acc ++ percentDecode w ++ [0]), ((acc ++ percentDecode w).length : Int)) := by
  have hplain : ∀ {pre acc : List UInt8} {c : UInt8}, src[pre.length]? = some c → pre.length < srcLen →
      acc.length + 1 < n → urlEscapeAt src srcLen pre.length = some none →
      urlDecodeBody src srcLen n false ⟨pre.length, acc.length, m.overlay acc⟩ =
        UrlDecodeState.put ⟨pre.length, acc.length, m.overlay acc⟩ c (pre.length + 1) := by
    intro pre acc c hc hi hj hesc
    rw [urlDecodeBody_other (s := ⟨pre.length, acc.length, m.overlay acc⟩) hc hi hj hesc, if_neg (by simp)]
  induction w using percentDecode.induct with
  | case1 c l r w b hb ih =>
    intro pre acc fuel hsrc hlen hroom hfuel
    have hc : src[pre.length]? = some c := by simp [hsrc]
    simp only [List.length_cons] at hlen hroom
    have hesc : urlEscapeAt src srcLen pre.length = some (some b) := by
      rw [← hb]
      apply urlEscapeAt_eq (by omega) <;> simp [hsrc]
    refine loop_percentDecode_step (u := [c, l, r]) (List.cons_ne_nil _ _) hroom hfuel
      (by rw [List.cons_append, List.cons_append, List.singleton_append, percentDecode, hb]) ?_ fun f hf => ?_
    · exact urlDecodeBody_escape (s := ⟨pre.length, acc.length, m.overlay acc⟩) hc (by dsimp only; omega)
        (by dsimp only; omega) hesc
    · exact ih (by simp [hsrc]) (by simp [hlen]; omega) (by simp; omega) hf
  | case2 c l r w hb ih =>
    intro pre acc fuel hsrc hlen hroom hfuel
    have hc : src[pre.length]? = some c := by simp [hsrc]
    simp only [List.length_cons] at hlen hroom
    have hesc : urlEscapeAt src srcLen pre.length = some none := by
      rw [← hb]
      apply urlEscapeAt_eq (by omega) <;> simp [hsrc]
    refine loop_percentDecode_step (u := [c]) (List.cons_ne_nil _ _) hroom hfuel
      (by rw [List.singleton_append, percentDecode, hb]) ?_ fun f hf => ?_
    · exact hplain hc (by omega) (by omega) hesc
    · exact ih (by simp [hsrc]) (by simp [hlen]; omega) (by simp; omega) hf
  | case3 c w hw ih =>
    intro pre acc fuel hsrc hlen hroom hfuel
    have hc : src[pre.length]? = some c := by simp [hsrc]
    have hshort := length_lt_two hw
    simp only [List.length_cons] at hlen hroom
    have hesc : urlEscapeAt src srcLen pre.length = some none := by
      apply urlEscapeAt_of_short
      omega
    refine loop_percentDecode_step (u := [c]) (List.cons_ne_nil _ _) hroom hfuel (percentDecode_of_short c hshort) ?_
      fun f hf => ?_
    · exact hplain hc (by omega) (by omega) hesc
    · exact ih (by simp [hsrc]) (by simp [hlen]; omega) (by simp; omega) hf
  | case4 =>
    intro pre acc fuel hsrc hlen hroom hfuel
    obtain ⟨fuel, rfl⟩ : ∃ f, fuel = f + 1 := ⟨fuel - 1, by omega⟩
    rw [List.length_nil, Nat.add_zero] at hlen hroom
    have hst : (m.overlay acc).store acc.length 0 = some (m.overlay (acc ++ [0])) := by
      rw [Mem.store_overlay, if_pos hroom]
    rw [percentDecode, List.append_nil]
    have hbody := @urlDecodeBody_end n src srcLen false ⟨pre.length, acc.length, m.overlay acc⟩ n (by omega)
      (by dsimp only; omega) _ hst
    rw [if_pos (by dsimp only; omega)] at hbody
    exact loop_exit hbody

/-- What is decoded stands at the beginning of the URI. -/
theorem decodeUri_terminated (u : List UInt8) : decodeUri (terminated u) =
    .ret ((terminated u).overlay (percentDecode u ++ [NUL]), ((percentDecode u).length : Int)) := by
  have h := @loop_percentDecode (u.length + 1) (u ++ [NUL]) [NUL] u.length (terminated u) u [] [] (u.length + 1) rfl
    (by simp) (by simp) (Nat.lt_succ_self _)
  rw [Mem.overlay_nil, List.nil_append] at h
  rw [decodeUri_eq_mgUrlDecode]
  exact h

/-! ### Taking out double dots and double slashes -/

/-- What is copied of a text; `skipping` says that the last character copied is a slash. -/
def cleanFrom : Bool → List UInt8 → List UInt8
  | _, [] => []
  | false, c :: s => c :: cleanFrom (isSeparator c) s
  | true, c :: s =>
    if isSeparator c then cleanFrom true s
    else
      let copied := c :: cleanFrom false s
      match s with
      | [] => copied
      | d :: s => if c = DOT ∧ d = DOT then cleanFrom true s else copied

def cleaned (s : List UInt8) : List UInt8 := cleanFrom false s

theorem cleanFrom_false_cons (c : UInt8) (s : List UInt8) :
    cleanFrom false (c :: s) = c :: cleanFrom (isSeparator c) s := by
  rw [cleanFrom]

private theorem cleanFrom_separator {c : UInt8} (hc : isSeparator c = true) (s : List UInt8) :
    cleanFrom true (c :: s) = cleanFrom true s := by
  rw [cleanFrom, if_pos hc]

private theorem cleanFrom_dots (s : List UInt8) : cleanFrom true (DOT :: DOT :: s) = cleanFrom true s := by
  rw [cleanFrom, if_neg (by decide)]
  exact if_pos ⟨rfl, rfl⟩

private theorem cleanFrom_other {c : UInt8} {s : List UInt8} (hc : isSeparator c = false)
    (hdots : ¬ (c = DOT ∧ s.head? = some DOT)) : cleanFrom true (c :: s) = cleanFrom false (c :: s) := by
  have hcopied : cleanFrom false (c :: s) = c :: cleanFrom false s := by rw [cleanFrom_false_cons, hc]
  rw [hcopied, cleanFrom.eq_def]
  simp only [hc, Bool.false_eq_true, if_false]
  cases s with
  | nil => rfl
  | cons d s =>
    refine if_neg ?_
    rintro ⟨rfl, rfl⟩
    exact hdots ⟨rfl, rfl⟩

private theorem skipDots_nul (l : List UInt8) (s : Nat) : skipDots (NUL :: l) s = some s := by
  rw [skipDots.eq_def]
  exact if_pos rfl

private theorem skipDots_cons {c : UInt8} (hc : c ≠ NUL) (l : List UInt8) (s : Nat) : skipDots (c :: l) s =
    if isSeparator c then skipDots l (s + 1)
    else if c = DOT then
      match l with
      | [] => none
      | d :: l => if d = DOT then skipDots l (s + 2) else some s
    else some s := by
  rw [skipDots.eq_def]
  exact if_neg hc

/-- The inner loop stops where the copying goes on. -/
private theorem skipDots_spec (t : List UInt8) (ht : NUL ∉ t) (junk : List UInt8) (s : Nat) :
    ∃ k ≤ t.length, skipDots (t ++ NUL :: junk) s = some (s + k) ∧ cleanFrom true t = cleanFrom false (t.drop k) := by
  induction hk : t.length using Nat.strongRecOn generalizing t s with
  | ind k ih =>
    subst hk
    cases t with
    | nil => exact ⟨0, Nat.le_refl 0, skipDots_nul junk s, rfl⟩
    | cons c t =>
      simp only [List.mem_cons, not_or] at ht
      by_cases hsep : isSeparator c = true
      · obtain ⟨k, hk, hskip, hclean⟩ := ih t.length (Nat.lt_succ_self _) t ht.2 (s + 1) rfl
        refine ⟨k + 1, Nat.succ_le_succ hk, ?_, ?_⟩
        · rw [List.cons_append, skipDots_cons (Ne.symm ht.1), if_pos hsep, hskip, Nat.add_assoc, Nat.add_comm 1]
        · rw [cleanFrom_separator hsep, hclean, List.drop_succ_cons]
      have hsep' := Bool.eq_false_of_not_eq_true hsep
      by_cases hdots : c = DOT ∧ t.head? = some DOT
      · obtain ⟨rfl, hhead⟩ := hdots
        cases t with
        | nil => cases hhead
        | cons d t =>
          cases hhead
          simp only [List.mem_cons, not_or] at ht
          obtain ⟨k, hk, hskip, hclean⟩ :=
            ih t.length (by rw [List.length_cons, List.length_cons]; omega) t ht.2.2 (s + 2) rfl
          refine ⟨k + 2, by rw [List.length_cons, List.length_cons]; omega, ?_, ?_⟩
          · rw [List.cons_append, List.cons_append, skipDots_cons (by decide), if_neg (by decide), if_pos rfl]
            simp only [if_true]
            rw [hskip, Nat.add_assoc, Nat.add_comm 2]
          · rw [cleanFrom_dots, hclean, List.drop_succ_cons, List.drop_succ_cons]
      · refine ⟨0, Nat.zero_le _, ?_, cleanFrom_other hsep' hdots⟩
        rw [List.cons_append, skipDots_cons (Ne.symm ht.1), if_neg hsep, Nat.add_zero]
        split
        next hdot =>
          cases t with
          | nil => rfl
          | cons d t => exact if_neg fun hd => hdots ⟨hdot, by rw [hd]; rfl⟩
        next => rfl

/-- The rest of the run, with `acc` copied and the text `t` still to come. -/
private theorem loop_remove {m : Mem n} (junk : List UInt8) (t : List UInt8) (ht : NUL ∉ t) :
    ∀ {acc : List UInt8} {s fuel : Nat}, m.cells.drop s = t ++ NUL :: junk → acc.length ≤ s → t.length < fuel →
      loop removeBody fuel ⟨s, acc.length, m.overlay acc⟩ = .ret (m.overlay (acc ++ cleanFrom false t ++ [NUL])) := by
  induction hk : t.length using Nat.strongRecOn generalizing t with
  | ind k ih =>
    subst hk
    intro acc s fuel hcells hacc hfuel
    obtain ⟨fuel, rfl⟩ : ∃ f, fuel = f + 1 := ⟨fuel - 1, by omega⟩
    have hlen : s < n := by
      rw [← m.length_cells, ← List.drop_eq_nil_iff.not.trans Nat.not_le, hcells]
      simp
    have hload : ∀ w : List UInt8, w.length ≤ s → (m.overlay w).load s = (t ++ NUL :: junk)[0]? := by
      intro w hw
      rw [← hcells, ← drop_overlay m (by omega) hw, List.getElem?_drop]
      rfl
    have hstore : ∀ c, (m.overlay acc).store acc.length c = some (m.overlay (acc ++ [c])) := by
      intro c
      rw [Mem.store_overlay, if_pos (by omega)]
    cases t with
    | nil =>
      apply loop_exit
      simp [removeBody, hload acc hacc, hstore, cleanFrom]
    | cons c t =>
      simp only [List.mem_cons, not_or] at ht
      -- the character is there after the store, too
      have hlast : (m.overlay (acc ++ [c])).load s = some c := by
        by_cases heq : acc.length = s
        · rw [Mem.load, Mem.getElem?_overlay m (by simp; omega), if_pos (by simp; omega), ← heq]
          simp
        · exact hload _ (by simp; omega)
      have hrest : (m.overlay (acc ++ [c])).cells.drop (s + 1) = t ++ NUL :: junk := by
        rw [drop_overlay m (by simp; omega) (by simp; omega), ← List.drop_drop, hcells]
        rfl
      obtain ⟨k, hk, hskip, hclean⟩ : ∃ k ≤ t.length, (if isSeparator c then
          skipDots ((m.overlay (acc ++ [c])).cells.drop (s + 1)) (s + 1) else some (s + 1)) = some (s + 1 + k) ∧
          cleanFrom (isSeparator c) t = cleanFrom false (t.drop k) := by
        rw [hrest]
        cases isSeparator c with
        | true => exact skipDots_spec t ht.2 junk (s + 1)
        | false => exact ⟨0, Nat.zero_le _, rfl, rfl⟩
      have hnext : removeBody ⟨s, acc.length, m.overlay acc⟩ =
          some (.next ⟨s + 1 + k, (acc ++ [c]).length, m.overlay (acc ++ [c])⟩) := by
        simp only [removeBody, hload acc hacc, List.cons_append, List.getElem?_cons_zero, Option.bind_eq_bind,
          Option.bind_some, if_neg (Ne.symm ht.1), hstore, hlast, hskip, List.length_append, List.length_singleton]
        rfl
      have hdrop : m.cells.drop (s + 1 + k) = t.drop k ++ NUL :: junk := by
        rw [← List.drop_drop, ← List.drop_drop, hcells, List.drop_one, List.cons_append, List.tail_cons,
          List.drop_append_of_le_length hk]
      rw [loop_next hnext, ih (t.drop k).length (by rw [List.length_drop, List.length_cons]; omega) (t.drop k)
        (fun h => ht.2 (List.mem_of_mem_drop h)) rfl hdrop (by simp; omega)
        (by rw [List.length_drop]; simp at hfuel; omega),
        cleanFrom_false_cons, hclean]
      simp

/-- Up to its terminator, the text is replaced by the cleaned one. -/
theorem removeDoubleDotsAndDoubleSlashes_eq {m : Mem n} {t junk : List UInt8} (ht : NUL ∉ t)
    (hcells : m.cells = t ++ NUL :: junk) :
      removeDoubleDotsAndDoubleSlashes m = .ret (m.overlay (cleaned t ++ [NUL])) := by
  have hlen : t.length < n + 1 := by
    rw [← m.length_cells, hcells, List.length_append]
    omega
  have h := @loop_remove n m junk t ht [] 0 (n + 1) hcells (Nat.le_refl 0) hlen
  rwa [Mem.overlay_nil] at h

theorem head?_cleanFrom_false (s : List UInt8) : (cleanFrom false s).head? = s.head? := by
  cases s with
  | nil => rfl
  | cons c s => rw [cleanFrom_false_cons]; rfl

/-- A text without slash, `..` at its beginning, or a character in front of a text that is copied. -/
private theorem cleanFrom_true_cases (s : List UInt8) : s = [] ∨ (∃ t, t.length < s.length ∧ t <:+ s ∧
    cleanFrom true s = cleanFrom true t) ∨
    ∃ c t, s = c :: t ∧ isSeparator c = false ∧ ¬ (c = DOT ∧ t.head? = some DOT) ∧
      cleanFrom true s = c :: cleanFrom false t := by
  cases s with
  | nil => exact Or.inl rfl
  | cons c s =>
    by_cases hsep : isSeparator c = true
    · exact Or.inr (Or.inl ⟨s, Nat.lt_succ_self _, List.suffix_cons .., cleanFrom_separator hsep s⟩)
    have hsep' := Bool.eq_false_of_not_eq_true hsep
    by_cases hdots : c = DOT ∧ s.head? = some DOT
    · obtain ⟨rfl, hhead⟩ := hdots
      cases s with
      | nil => cases hhead
      | cons d s =>
        cases hhead
        refine Or.inr (Or.inl ⟨s, by rw [List.length_cons, List.length_cons]; omega, ?_, cleanFrom_dots s⟩)
        exact (List.suffix_cons ..).trans (List.suffix_cons ..)
    · exact Or.inr (Or.inr ⟨c, s, rfl, hsep', hdots, by rw [cleanFrom_other hsep' hdots, cleanFrom_false_cons, hsep']⟩)

private theorem cleanFrom_sublist (skipping : Bool) (s : List UInt8) : (cleanFrom skipping s).Sublist s := by
  induction hk : s.length using Nat.strongRecOn generalizing skipping s with
  | ind k ih =>
    subst hk
    cases skipping with
    | false =>
      cases s with
      | nil => exact List.Sublist.refl _
      | cons c s =>
        rw [cleanFrom_false_cons]
        exact (ih s.length (Nat.lt_succ_self _) _ s rfl).cons_cons c
    | true =>
      rcases cleanFrom_true_cases s with rfl | ⟨t, hlt, hsuffix, heq⟩ | ⟨c, t, rfl, -, -, heq⟩
      · exact List.Sublist.refl _
      · rw [heq]
        exact (ih t.length hlt true t rfl).trans hsuffix.sublist
      · rw [heq]
        exact (ih t.length (Nat.lt_succ_self _) false t rfl).cons_cons c

theorem cleaned_sublist (s : List UInt8) : (cleaned s).Sublist s := cleanFrom_sublist false s

/-- A text in which nothing has to be taken out: no separator is followed by a separator or by `..`. -/
def IsCleanText (s : List UInt8) : Prop :=
  ∀ a b : List UInt8, ∀ c, s = a ++ c :: b → isSeparator c = true → (∀ d ∈ b.head?, isSeparator d = false) ∧
    ¬ [DOT, DOT] <+: b

private theorem IsCleanText.tail {c : UInt8} {s : List UInt8} (h : IsCleanText (c :: s)) : IsCleanText s :=
  fun a b d hs => h (c :: a) b d (by rw [hs]; rfl)

theorem isCleanText_nil : IsCleanText [] := fun a b c h => absurd h.symm (by simp)

theorem isCleanText_cons {c : UInt8} {s : List UInt8} : IsCleanText (c :: s) ↔
    (isSeparator c = true → (∀ d ∈ s.head?, isSeparator d = false) ∧ ¬ [DOT, DOT] <+: s) ∧ IsCleanText s := by
  refine ⟨fun h => ⟨h [] s c rfl, h.tail⟩, ?_⟩
  rintro ⟨hc, h⟩ a b e heq hsep
  cases a with
  | nil =>
    obtain ⟨rfl, rfl⟩ := List.cons.inj heq
    exact hc hsep
  | cons x a => exact h a b e (List.cons.inj heq).2 hsep

instance decidableIsCleanText : DecidablePred IsCleanText
  | [] => isTrue isCleanText_nil
  | _ :: s =>
    have : Decidable (IsCleanText s) := decidableIsCleanText s
    decidable_of_iff _ isCleanText_cons.symm

theorem IsCleanText.cons {c : UInt8} {s : List UInt8} (h : IsCleanText s) (hc : isSeparator c = false) :
    IsCleanText (c :: s) := by
  refine isCleanText_cons.2 ⟨fun hsep => ?_, h⟩
  rw [hc] at hsep
  cases hsep

private theorem isCleanText_cleanFrom (skipping : Bool) (s : List UInt8) : IsCleanText (cleanFrom skipping s) ∧
    (skipping = true → (∀ d ∈ (cleanFrom skipping s).head?, isSeparator d = false) ∧
      ¬ [DOT, DOT] <+: cleanFrom skipping s) := by
  induction hk : s.length using Nat.strongRecOn generalizing skipping s with
  | ind k ih =>
    subst hk
    cases skipping with
    | false =>
      refine ⟨?_, nofun⟩
      cases s with
      | nil => exact isCleanText_nil
      | cons c s =>
        obtain ⟨hclean, hbehind⟩ := ih s.length (Nat.lt_succ_self _) (isSeparator c) s rfl
        rw [cleanFrom_false_cons]
        exact isCleanText_cons.2 ⟨hbehind, hclean⟩
    | true =>
      rcases cleanFrom_true_cases s with rfl | ⟨t, hlt, -, heq⟩ | ⟨c, t, rfl, hsep, hdots, heq⟩
      · exact ⟨isCleanText_nil, fun _ => ⟨nofun, by decide⟩⟩
      · rw [heq]
        exact ih t.length hlt true t rfl
      · rw [heq]
        refine ⟨(ih t.length (Nat.lt_succ_self _) false t rfl).1.cons hsep, fun _ => ⟨fun d hd => ?_, ?_⟩⟩
        · cases hd
          exact hsep
        · rw [List.cons_prefix_cons]
          rintro ⟨rfl, u, hu⟩
          refine hdots ⟨rfl, ?_⟩
          rw [← head?_cleanFrom_false t, ← hu]
          rfl

theorem isCleanText_cleaned (s : List UInt8) : IsCleanText (cleaned s) := (isCleanText_cleanFrom false s).1

theorem cleaned_no_dots (s : List UInt8) : ¬ [SLASH, DOT, DOT] <:+: cleaned s := by
  rintro ⟨a, b, h⟩
  refine (isCleanText_cleaned s a (DOT :: DOT :: b) SLASH ?_ rfl).2 ⟨b, rfl⟩
  rw [← h, List.append_assoc]
  rfl

/-- Clean texts may be joined at a separator. -/
theorem IsCleanText.join {a b : List UInt8} {c : UInt8} (ha : IsCleanText (a ++ [c])) (hb : IsCleanText (c :: b))
    (hc : isSeparator c = true) : IsCleanText (a ++ c :: b) := by
  induction a with
  | nil => exact hb
  | cons x a ih =>
    rw [List.cons_append] at ha ⊢
    obtain ⟨hx, ha⟩ := isCleanText_cons.1 ha
    refine isCleanText_cons.2 ⟨fun hsep => ?_, ih ha⟩
    obtain ⟨hhead, hdots⟩ := hx hsep
    have hdot : c ≠ DOT := by
      rintro rfl
      cases hc
    match a with
    | [] => exact ⟨hhead, fun h => hdot (List.cons_prefix_cons.1 h).1.symm⟩
    | [d] =>
      refine ⟨hhead, fun h => ?_⟩
      exact hdot (List.cons_prefix_cons.1 (List.cons_prefix_cons.1 h).2).1.symm
    | d :: e :: a =>
      refine ⟨hhead, fun h => hdots ?_⟩
      obtain ⟨rfl, htail⟩ := List.cons_prefix_cons.1 h
      obtain ⟨rfl, -⟩ := List.cons_prefix_cons.1 htail
      exact ⟨a ++ [c], rfl⟩

/-- Clean texts may be joined behind a character that is no separator and no dot. -/
theorem IsCleanText.append {a b : List UInt8} (ha : IsCleanText a) (hb : IsCleanText b)
    (hlast : ∀ c ∈ a.getLast?, isSeparator c = false ∧ c ≠ DOT) : IsCleanText (a ++ b) := by
  induction a with
  | nil => exact hb
  | cons c a ih =>
    match a with
    | [] => exact hb.cons (hlast c rfl).1
    | d :: a =>
      rw [List.getLast?_cons_cons] at hlast
      obtain ⟨hsplit, ha⟩ := isCleanText_cons.1 ha
      refine isCleanText_cons.2 ⟨fun hsep => ?_, ih ha hlast⟩
      obtain ⟨hhead, hdots⟩ := hsplit hsep
      refine ⟨hhead, ?_⟩
      intro hprefix
      obtain ⟨rfl, hrest⟩ := List.cons_prefix_cons.1 hprefix
      cases a with
      | nil => exact (hlast DOT rfl).2 rfl
      | cons e a =>
        obtain ⟨rfl, -⟩ := List.cons_prefix_cons.1 hrest
        exact hdots ⟨a, rfl⟩

theorem cleaned_of_isCleanText {s : List UInt8} (h : IsCleanText s) : cleaned s = s := by
  unfold cleaned
  induction s with
  | nil => rfl
  | cons c s ih =>
    have hrest := ih h.tail
    rw [cleanFrom_false_cons]
    cases hsep : isSeparator c with
    | false => rw [hrest]
    | true =>
      obtain ⟨hhead, hdots⟩ := h [] s c rfl hsep
      cases s with
      | nil => rfl
      | cons d s =>
        have hother : ¬ (d = DOT ∧ s.head? = some DOT) := by
          rintro ⟨rfl, hs⟩
          cases s with
          | nil => cases hs
          | cons e s =>
            cases hs
            exact hdots ⟨s, rfl⟩
        rw [cleanFrom_other (hhead d rfl) hother, hrest]

/-- A second slash at the end is dropped. -/
theorem cleaned_append_slash {s : List UInt8} (h : IsCleanText s) (hlast : s.getLast? = some SLASH) :
    cleaned (s ++ [SLASH]) = s := by
  unfold cleaned
  induction s with
  | nil => cases hlast
  | cons c s ih =>
    rw [List.cons_append, cleanFrom_false_cons]
    cases s with
    | nil =>
      cases hlast
      rfl
    | cons d s =>
      rw [List.getLast?_cons_cons] at hlast
      have hrest := ih h.tail hlast
      cases hsep : isSeparator c with
      | false => rw [hrest]
      | true =>
        obtain ⟨hhead, hdots⟩ := h [] (d :: s) c rfl hsep
        have hother : ¬ (d = DOT ∧ (s ++ [SLASH]).head? = some DOT) := by
          rintro ⟨rfl, hs⟩
          cases s with
          | nil => cases hs
          | cons e s =>
            cases hs
            exact hdots ⟨s, rfl⟩
        rw [List.cons_append] at hrest ⊢
        rw [cleanFrom_other (hhead d rfl) hother, hrest]

/-! ### Both passes -/

/-- The text that a program reads from an array: up to the first NUL. -/
def textOf (s : List UInt8) : List UInt8 := s.takeWhile (· != NUL)

/-- A text that has been written with its terminator is read again. -/
theorem textOf_overlay {n : Nat} {u : List UInt8} (hnul : NUL ∉ u) (hlen : u.length < n) (m : Mem n) :
    textOf (m.overlay (u ++ [NUL])).cells = u := by
  rw [Mem.cells_overlay m (by rw [List.length_append, List.length_singleton]; omega), List.append_assoc]
  exact (span_ne hnul _).1

/-- The URI as `handle_request` uses it. -/
def cleanUri (u : List UInt8) : List UInt8 := cleaned (textOf (percentDecode u))

/-- Both passes stay inside the memory of the URI; the new text is at its beginning, behind the terminator is what the
decoding has left there. -/
theorem prepareUri_eq (u : List UInt8) : prepareUri (terminated u) =
    .ret (((terminated u).overlay (percentDecode u ++ [NUL])).overlay (cleanUri u ++ [NUL])) := by
  have hlen := length_percentDecode_le u
  obtain ⟨junk, hjunk⟩ := exists_takeWhile_nul (percentDecode u) ((u ++ [NUL]).drop (percentDecode u ++ [NUL]).length)
  have hcells : ((terminated u).overlay (percentDecode u ++ [NUL])).cells =
      textOf (percentDecode u) ++ NUL :: junk := by
    rw [Mem.cells_overlay _ (by simp; omega), List.append_assoc]
    exact hjunk
  have hrest := removeDoubleDotsAndDoubleSlashes_eq (not_mem_takeWhile_ne NUL (percentDecode u)) hcells
  rw [prepareUri, decodeUri_terminated]
  exact hrest

/-- A URI that is used as it was sent. -/
theorem cleanUri_of_isCleanText {u : List UInt8} (h : IsCleanText u) (hpercent : PERCENT ∉ u) (hnul : NUL ∉ u) :
    cleanUri u = u := by
  rw [cleanUri, percentDecode_of_not_mem hpercent, textOf, (span_ne_self hnul).1, cleaned_of_isCleanText h]

theorem nul_not_mem_cleanUri (u : List UInt8) : NUL ∉ cleanUri u := fun h =>
  not_mem_takeWhile_ne NUL (percentDecode u) ((cleaned_sublist _).subset h)

theorem length_cleanUri_le (u : List UInt8) : (cleanUri u).length ≤ (percentDecode u).length :=
  (cleaned_sublist _).length_le.trans (List.takeWhile_prefix _).length_le

/-- A URI that begins with a slash keeps it. -/
theorem head?_cleanUri {u : List UInt8} (h : u.head? = some SLASH) : (cleanUri u).head? = some SLASH := by
  cases u with
  | nil => cases h
  | cons c u =>
    cases h
    rw [cleanUri, percentDecode_cons (by decide), cleaned, head?_cleanFrom_false, textOf, List.takeWhile_cons]
    rfl

end Tinyweb
