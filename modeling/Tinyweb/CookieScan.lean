import Tinyweb.GetCookie

/-!
# `scan_cookie` as a parser

`parseCookie` reads one cookie from the beginning of a text and returns it with the rest of the text; `cookies` repeats
this until it fails.  The scanner of `cgi-getcookie` works on the array it was given and writes terminators into it, but
what it has not reached yet is unchanged, so each call does what `parseCookie` does with the rest of the text
(`scanCookie_none`, `scanCookie_some`), and the program finds the first of the `cookies` with the wanted name
(`getcookieMain_eq`).
-/

namespace Tinyweb

open Clib

variable {n : Nat}

structure Cookie where
  name : List UInt8
  value : List UInt8
  deriving DecidableEq, Repr

def skipSemi (s : List UInt8) : List UInt8 := if s.headD NUL = SEMI then s.tail else s

/-- The value at the beginning of a text, and the rest. -/
def parseValue (s : List UInt8) : Option (List UInt8 × List UInt8) :=
  if isQuote (s.headD NUL) then
    match s.tail.dropWhile (· != s.headD NUL) with
    | [] => none
    | _ :: rest => some (s.tail.takeWhile (· != s.headD NUL), skipSemi rest)
  else some (s.takeWhile (!isDelimiter ·), (s.dropWhile (!isDelimiter ·)).tail)

/-- The cookie at the beginning of a text, and the rest. -/
def parseCookie (s : List UInt8) : Option (Cookie × List UInt8) :=
  let t := s.dropWhile isBlank
  match t.dropWhile (· != EQUALS) with
  | [] => none
  | _ :: u =>
    if t.takeWhile (· != EQUALS) = [] then none
    else (parseValue u).map fun r => (⟨t.takeWhile (· != EQUALS), r.1⟩, r.2)

/-! ### The value -/

/-- What a text with a cookie at its beginning looks like. -/
theorem parseCookie_eq_some {s rest : List UInt8} {c : Cookie} (h : parseCookie s = some (c, rest)) :
    c.name ≠ [] ∧ (s.dropWhile isBlank).takeWhile (· != EQUALS) = c.name ∧
      ∃ u, (s.dropWhile isBlank).dropWhile (· != EQUALS) = EQUALS :: u ∧ parseValue u = some (c.value, rest) := by
  unfold parseCookie at h
  cases hu : (s.dropWhile isBlank).dropWhile (· != EQUALS) with
  | nil => simp [hu] at h
  | cons d u =>
    obtain rfl := dropWhile_ne_cons hu
    by_cases hne : (s.dropWhile isBlank).takeWhile (· != EQUALS) = []
    · simp [hu, hne] at h
    · simp only [hu, hne, ↓reduceIte, Option.map_eq_some_iff] at h
      obtain ⟨⟨v, rest'⟩, hparse, hr⟩ := h
      obtain ⟨rfl, rfl⟩ := Prod.mk.inj hr
      exact ⟨hne, rfl, u, rfl, hparse⟩

private theorem scanQuoted {m : Mem n} {pre t junk : List UInt8} {q : UInt8}
    (hm : m.cells = pre ++ (q :: t ++ 0 :: junk)) (ht : NUL ∉ t) :
    m.scan (fun c => c != q && c != NUL) (pre.length + 1) = some (pre ++ q :: t.takeWhile (· != q)).length := by
  have hm' : m.cells = (pre ++ [q]) ++ (t ++ 0 :: junk) := by simpa using hm
  have h : m.scan (fun c => c != q && c != NUL) (pre ++ [q]).length =
      some (pre ++ [q] ++ t.takeWhile (· != q)).length := by
    apply Mem.scan_text hm' _ (by simp)
    intro c hc
    have : c ≠ NUL := fun h => ht (h ▸ hc)
    simp [this]
  rwa [List.length_append, List.append_assoc] at h

private theorem scanQuoted_none {m : Mem n} {pre t junk : List UInt8} {q : UInt8} (hq : isQuote q)
    (hm : m.cells = pre ++ (q :: t ++ 0 :: junk)) (ht : NUL ∉ t) (h : t.dropWhile (· != q) = []) :
    ∃ m', scanValue m pre.length = some (m', none) := by
  have hload : m.load pre.length = some q := Mem.load_of_cells hm
  have hscan := scanQuoted hm ht
  have hall : t.takeWhile (· != q) = t := by
    have := List.takeWhile_append_dropWhile (p := (· != q)) (l := t)
    rwa [h, List.append_nil] at this
  have hend : m.load (pre ++ q :: t).length = some 0 := Mem.load_text (s := []) (by simpa using hm)
  have hq0 : (0 : UInt8) ≠ q := by
    rintro rfl
    cases hq
  rw [hall] at hscan
  refine ⟨m, ?_⟩
  simp only [scanValue, hload, hq, hscan, hend, hq0, Option.bind_eq_bind, Option.bind_some, ne_eq, not_false_eq_true,
    ↓reduceIte]
  rfl

private theorem scanQuoted_some {m : Mem n} {pre t junk : List UInt8} {q : UInt8} (hq : isQuote q)
    (hm : m.cells = pre ++ (q :: t ++ 0 :: junk)) (ht : NUL ∉ t) {w : List UInt8}
    (h : t.dropWhile (· != q) = q :: w) :
    ∃ (m' : Mem n) (mid : List UInt8) (p : Nat),
      scanValue m pre.length = some (m', some ((pre ++ mid).length, p)) ∧
      m'.cells = pre ++ mid ++ (skipSemi w ++ 0 :: junk) ∧ m'.cstr p = some (t.takeWhile (· != q)) ∧
      mid.length + (skipSemi w).length = t.length + 1 := by
  have hload : m.load pre.length = some q := Mem.load_of_cells hm
  have hscan := scanQuoted hm ht
  have hnul : NUL ∉ t.takeWhile (· != q) := fun h => ht (List.takeWhile_subset _ h)
  obtain ⟨-, hsplit⟩ := dropWhile_cons_imp h
  generalize t.takeWhile (· != q) = v at hsplit hscan hnul ⊢
  subst hsplit
  have hm' : m.cells = (pre ++ q :: v) ++ q :: (w ++ 0 :: junk) := by simpa using hm
  obtain ⟨m', hstore, hcells⟩ := Mem.store_of_cells NUL hm'
  have hnext : m'.load ((pre ++ q :: v).length + 1) = some (w.headD 0) := by
    have hcells' : m'.cells = (pre ++ q :: v ++ [NUL]) ++ (w ++ 0 :: junk) := by simpa using hcells
    have h := Mem.load_text hcells'
    rwa [List.length_append] at h
  have hcstr : m'.cstr (pre.length + 1) = some v := by
    have hcells' : m'.cells = (pre ++ [q]) ++ (v ++ 0 :: (w ++ 0 :: junk)) := by simpa using hcells
    have h := Mem.cstr_of_cells hcells' hnul
    rwa [List.length_append] at h
  have hval : scanValue m pre.length = some (m', some (if w.headD 0 = SEMI then (pre ++ q :: v).length + 2
      else (pre ++ q :: v).length + 1, pre.length + 1)) := by
    simp only [scanValue, hload, hq, hscan, Mem.load_of_cells hm', hstore, hnext, Option.bind_eq_bind, Option.bind_some,
      ne_eq, not_true_eq_false, ↓reduceIte]
    rfl
  by_cases hsemi : w.headD 0 = SEMI
  · obtain ⟨w, rfl⟩ : ∃ w', w = SEMI :: w' := by
      cases w with
      | nil => cases hsemi
      | cons c w => exact ⟨w, by rw [← hsemi]; rfl⟩
    have hskip : skipSemi (SEMI :: w) = w := rfl
    rw [if_pos hsemi] at hval
    refine ⟨m', q :: (v ++ [NUL, SEMI]), pre.length + 1,
      ?_, by simpa [hskip] using hcells, hcstr, by simp [hskip]; omega⟩
    rw [hval]
    simp
    omega
  · have hskip : skipSemi w = w := if_neg hsemi
    rw [if_neg hsemi] at hval
    refine ⟨m', q :: (v ++ [NUL]), pre.length + 1, ?_, by simpa [hskip] using hcells, hcstr, by simp [hskip]; omega⟩
    rw [hval]
    simp
    omega

private theorem scanBare_some {m : Mem n} {pre s junk : List UInt8} (hm : m.cells = pre ++ (s ++ 0 :: junk))
    (hs : NUL ∉ s) (hq : ¬ isQuote (s.headD NUL)) :
    ∃ (m' : Mem n) (mid : List UInt8) (p : Nat),
      scanValue m pre.length = some (m', some ((pre ++ mid).length, p)) ∧
      m'.cells = pre ++ mid ++ ((s.dropWhile (!isDelimiter ·)).tail ++ 0 :: junk) ∧
      m'.cstr p = some (s.takeWhile (!isDelimiter ·)) ∧
      mid.length + (s.dropWhile (!isDelimiter ·)).tail.length = s.length := by
  have hload := Mem.load_text hm
  have hscan : m.scan (fun c => !isDelimiter c && c != NUL) pre.length =
      some (pre ++ s.takeWhile (!isDelimiter ·)).length := by
    apply Mem.scan_text hm _ (by decide)
    intro c hc
    have : c ≠ NUL := fun h => hs (h ▸ hc)
    simp [this]
  have hnul : NUL ∉ s.takeWhile (!isDelimiter ·) := fun h => hs (List.takeWhile_subset _ h)
  have hsplit := List.takeWhile_append_dropWhile (p := (!isDelimiter ·)) (l := s)
  cases hd : s.dropWhile (!isDelimiter ·) with
  | nil =>
    rw [hd, List.append_nil] at hsplit
    rw [hsplit] at hscan hnul
    have hend : m.load (pre ++ s).length = some 0 := Mem.load_text (s := []) (by simpa using hm)
    refine ⟨m, s, pre.length, ?_, by simpa using hm, ?_, rfl⟩
    · simp only [scanValue, hload, hq, hscan, hend, Option.bind_eq_bind, Option.bind_some, ↓reduceIte]
      rfl
    · rw [hsplit]
      exact Mem.cstr_of_cells hm hnul
  | cons d w =>
    obtain ⟨hdelim, hsplit⟩ := dropWhile_cons_imp hd
    generalize s.takeWhile (!isDelimiter ·) = v at hsplit hscan hnul
    subst hsplit
    have hd0 : d ≠ NUL := fun h => hs (by simp [h])
    have hm' : m.cells = (pre ++ v) ++ d :: (w ++ 0 :: junk) := by simpa using hm
    obtain ⟨m', hstore, hcells⟩ := Mem.store_of_cells NUL hm'
    refine ⟨m', v ++ [NUL], pre.length, ?_, by simpa using hcells, ?_, by simp; omega⟩
    · simp only [scanValue, hload, hq, hscan, Mem.load_of_cells hm', hd0, hstore, Option.bind_eq_bind, Option.bind_some,
        ↓reduceIte]
      simp [Nat.add_assoc]
    · exact Mem.cstr_of_cells (by simpa using hcells) hnul

theorem eq_cons_of_isQuote {s : List UInt8} (h : isQuote (s.headD NUL)) : s = s.headD NUL :: s.tail := by
  cases s with
  | nil => cases h
  | cons c s => rfl

private theorem scanValue_none {m : Mem n} {pre s junk : List UInt8} (hm : m.cells = pre ++ (s ++ 0 :: junk))
    (hs : NUL ∉ s) (h : parseValue s = none) : ∃ m', scanValue m pre.length = some (m', none) := by
  unfold parseValue at h
  split at h
  · rename_i hq
    have hcons := eq_cons_of_isQuote hq
    split at h
    · rename_i hd
      rw [hcons] at hm
      exact scanQuoted_none hq hm (fun h => hs (List.mem_of_mem_tail h)) hd
    · cases h
  · cases h

private theorem scanValue_some {m : Mem n} {pre s junk v rest : List UInt8} (hm : m.cells = pre ++ (s ++ 0 :: junk))
    (hs : NUL ∉ s) (h : parseValue s = some (v, rest)) :
    ∃ (m' : Mem n) (mid : List UInt8) (p : Nat),
      scanValue m pre.length = some (m', some ((pre ++ mid).length, p)) ∧
      m'.cells = pre ++ mid ++ (rest ++ 0 :: junk) ∧ m'.cstr p = some v ∧ mid.length + rest.length = s.length := by
  unfold parseValue at h
  split at h
  · rename_i hq
    have hcons := eq_cons_of_isQuote hq
    split at h
    · cases h
    · rename_i c w hd
      obtain rfl := dropWhile_ne_cons hd
      obtain ⟨rfl, rfl⟩ := Prod.mk.inj (Option.some.inj h)
      have hlen : s.length = s.tail.length + 1 := by
        conv_lhs => rw [hcons]
        rfl
      rw [hcons] at hm
      rw [hlen]
      exact scanQuoted_some hq hm (fun h => hs (List.mem_of_mem_tail h)) hd
  · rename_i hq
    obtain ⟨rfl, rfl⟩ := Prod.mk.inj (Option.some.inj h)
    exact scanBare_some hm hs hq

/-! ### The name -/

/-- The array and the index behind the `=` of a name. -/
private theorem scanName {m : Mem n} {pre s junk : List UInt8} (hm : m.cells = pre ++ (s ++ 0 :: junk)) (hs : NUL ∉ s) :
    ∃ pre', pre <+: pre' ∧ m.cells = pre' ++ (s.dropWhile isBlank ++ 0 :: junk) ∧
      pre'.length + (s.dropWhile isBlank).length = pre.length + s.length ∧
      scanspaces m pre.length = some pre'.length ∧
      m.scan (fun c => c != EQUALS && c != NUL) pre'.length =
        some (pre' ++ (s.dropWhile isBlank).takeWhile (· != EQUALS)).length := by
  have hsplit := List.takeWhile_append_dropWhile (p := isBlank) (l := s)
  have hm' : m.cells = (pre ++ s.takeWhile isBlank) ++ (s.dropWhile isBlank ++ 0 :: junk) := by
    rw [List.append_assoc, ← List.append_assoc (s.takeWhile isBlank), hsplit, hm]
  refine ⟨pre ++ s.takeWhile isBlank, List.prefix_append .., hm', ?_, ?_, ?_⟩
  · have hlen := congrArg List.length hsplit
    rw [List.length_append] at hlen ⊢
    omega
  · exact Mem.scan_text hm (fun _ _ => rfl) (by decide)
  · apply Mem.scan_text hm' _ (by decide)
    intro c hc
    have : c ≠ NUL := fun h => hs (h ▸ (List.dropWhile_sublist _).subset hc)
    simp [this]

/-- The `=` behind a name is overwritten, and the value follows. -/
private theorem scanCookie_name {m : Mem n} {pre s junk u : List UInt8} (hm : m.cells = pre ++ (s ++ 0 :: junk))
    (hs : NUL ∉ s) (hu : (s.dropWhile isBlank).dropWhile (· != EQUALS) = EQUALS :: u)
    (hne : (s.dropWhile isBlank).takeWhile (· != EQUALS) ≠ []) :
    ∃ (m' : Mem n) (pre' : List UInt8), pre <+: pre' ∧
      m'.cells = pre' ++ (s.dropWhile isBlank).takeWhile (· != EQUALS) ++ [NUL] ++ (u ++ 0 :: junk) ∧
      (pre' ++ (s.dropWhile isBlank).takeWhile (· != EQUALS) ++ [NUL]).length + u.length = pre.length + s.length ∧
      scanCookie m pre.length =
        (scanValue m' (pre' ++ (s.dropWhile isBlank).takeWhile (· != EQUALS) ++ [NUL]).length).map
          fun r => (r.1, r.2.map fun r => (r.1, ⟨pre'.length, r.2⟩)) := by
  obtain ⟨pre', hpre, hm', hlen, hspaces, hscan⟩ := scanName hm hs
  obtain ⟨-, hsplit⟩ := dropWhile_cons_imp hu
  generalize (s.dropWhile isBlank).takeWhile (· != EQUALS) = name at hsplit hscan hne ⊢
  rw [hsplit] at hm' hlen
  have hat : m.cells = (pre' ++ name) ++ EQUALS :: (u ++ 0 :: junk) := by simpa using hm'
  obtain ⟨m', hstore, hcells⟩ := Mem.store_of_cells NUL hat
  have hne' : (pre' ++ name).length ≠ pre'.length := by
    have := List.length_pos_iff.2 hne
    rw [List.length_append]
    omega
  refine ⟨m', pre', hpre, by simpa using hcells, ?_, ?_⟩
  · simp only [List.length_append, List.length_cons, List.length_nil] at hlen ⊢
    omega
  · have hbehind : (pre' ++ name ++ [NUL]).length = (pre' ++ name).length + 1 := List.length_append
    simp only [scanCookie, hspaces, hscan, Mem.load_of_cells hat, hne', hstore, hbehind, Option.bind_eq_bind,
      Option.bind_some, ne_eq, not_true_eq_false, or_self, ↓reduceIte]
    cases scanValue m' ((pre' ++ name).length + 1) with
    | none => rfl
    | some r => rfl

theorem scanCookie_none {m : Mem n} {pre s junk : List UInt8} (hm : m.cells = pre ++ (s ++ 0 :: junk)) (hs : NUL ∉ s)
    (h : parseCookie s = none) : ∃ m', scanCookie m pre.length = some (m', none) := by
  obtain ⟨pre', -, hm', -, hspaces, hscan⟩ := scanName hm hs
  unfold parseCookie at h
  cases hu : (s.dropWhile isBlank).dropWhile (· != EQUALS) with
  | nil =>
    -- the loop over the name has come to the terminator
    have hall := List.takeWhile_append_dropWhile (p := (· != EQUALS)) (l := s.dropWhile isBlank)
    rw [hu, List.append_nil] at hall
    rw [hall] at hscan
    have hend : m.load (pre' ++ s.dropWhile isBlank).length = some 0 := Mem.load_text (s := []) (by simpa using hm')
    refine ⟨m, ?_⟩
    simp only [scanCookie, hspaces, hscan, hend, Option.bind_eq_bind, Option.bind_some]
    rfl
  | cons c u =>
    obtain ⟨-, hsplit⟩ := dropWhile_cons_imp hu
    obtain rfl := dropWhile_ne_cons hu
    by_cases hne : (s.dropWhile isBlank).takeWhile (· != EQUALS) = []
    · rw [hne, List.nil_append] at hsplit
      rw [hne, List.append_nil] at hscan
      rw [hsplit] at hm'
      have hat : m.load pre'.length = some EQUALS := Mem.load_of_cells hm'
      refine ⟨m, ?_⟩
      simp only [scanCookie, hspaces, hscan, hat, Option.bind_eq_bind, Option.bind_some, or_true, ↓reduceIte]
      rfl
    · simp only [hu, hne, ↓reduceIte, Option.map_eq_none_iff] at h
      obtain ⟨m₁, pre₁, -, hcells, -, hcookie⟩ := scanCookie_name hm hs hu hne
      have hu0 : NUL ∉ u := by
        intro hmem
        have : NUL ∈ s.dropWhile isBlank := by
          rw [hsplit]
          simp [hmem]
        exact hs ((List.dropWhile_sublist _).subset this)
      obtain ⟨m', hval⟩ := scanValue_none hcells hu0 h
      rw [hcookie, hval]
      exact ⟨m', rfl⟩

theorem scanCookie_some {m : Mem n} {pre s junk rest : List UInt8} {c : Cookie}
    (hm : m.cells = pre ++ (s ++ 0 :: junk)) (hs : NUL ∉ s) (h : parseCookie s = some (c, rest)) :
    ∃ (m' : Mem n) (pre' : List UInt8) (items : Items),
      scanCookie m pre.length = some (m', some (pre'.length, items)) ∧
      m'.cells = pre' ++ (rest ++ 0 :: junk) ∧ m'.cstr items.name = some c.name ∧ m'.cstr items.value = some c.value ∧
      pre <+: pre' ∧ pre'.length + rest.length = pre.length + s.length := by
  have ht : NUL ∉ s.dropWhile isBlank := fun h => hs ((List.dropWhile_sublist _).subset h)
  obtain ⟨hne, hname, u, hu, hparse⟩ := parseCookie_eq_some h
  have hu0 : NUL ∉ u := fun hmem => ht ((List.dropWhile_sublist _).subset
    (by rw [hu]; exact List.mem_cons_of_mem _ hmem))
  have hname0 : NUL ∉ c.name := fun h => ht (List.takeWhile_subset _ (hname ▸ h))
  obtain ⟨m₁, pre₁, hpre, hcells, hlen, hcookie⟩ := scanCookie_name hm hs hu (hname ▸ hne)
  rw [hname] at hcells hlen hcookie
  obtain ⟨m', mid, p, hval, hcells', hcstr, hlen'⟩ := scanValue_some hcells hu0 hparse
  refine ⟨m', pre₁ ++ c.name ++ [NUL] ++ mid, ⟨pre₁.length, p⟩, ?_, hcells', ?_, hcstr, ?_, ?_⟩
  · rw [hcookie, hval]
    rfl
  · -- the name stands before everything the value scan has written
    exact Mem.cstr_of_cells (by simpa using hcells') hname0
  · refine hpre.trans ?_
    rw [List.append_assoc, List.append_assoc]
    exact List.prefix_append ..
  · rw [List.length_append]
    omega

/-! ### All cookies -/

theorem skipSemi_suffix (s : List UInt8) : skipSemi s <:+ s := by
  unfold skipSemi
  split
  · exact List.tail_suffix s
  · exact List.suffix_refl s

private theorem parseValue_suffix {s v rest : List UInt8} (h : parseValue s = some (v, rest)) : rest <:+ s := by
  unfold parseValue at h
  split at h
  · split at h
    · cases h
    · rename_i c w hd
      obtain ⟨-, rfl⟩ := Prod.mk.inj (Option.some.inj h)
      have hsub : c :: w <:+ s.tail := hd ▸ List.dropWhile_suffix _
      exact (skipSemi_suffix w).trans ((List.suffix_cons c w).trans (hsub.trans (List.tail_suffix s)))
  · obtain ⟨-, rfl⟩ := Prod.mk.inj (Option.some.inj h)
    exact (List.tail_suffix _).trans (List.dropWhile_suffix _)

theorem parseCookie_suffix {s rest : List UInt8} {c : Cookie} (h : parseCookie s = some (c, rest)) : rest <:+ s := by
  obtain ⟨-, -, u, hu, hparse⟩ := parseCookie_eq_some h
  have hsub : EQUALS :: u <:+ s := hu ▸ (List.dropWhile_suffix _).trans (List.dropWhile_suffix _)
  exact (parseValue_suffix hparse).trans ((List.suffix_cons EQUALS u).trans hsub)

theorem length_parseCookie {s rest : List UInt8} {c : Cookie} (h : parseCookie s = some (c, rest)) :
    c.name.length + 1 + rest.length ≤ s.length := by
  obtain ⟨-, hname, u, hu, hparse⟩ := parseCookie_eq_some h
  have hlen := congrArg List.length (dropWhile_cons_imp hu).2
  have hsub := (List.dropWhile_suffix isBlank (l := s)).length_le
  have hval := (parseValue_suffix hparse).length_le
  rw [hname, List.length_append, List.length_cons] at hlen
  omega

theorem two_add_length_parseCookie {s rest : List UInt8} {c : Cookie} (h : parseCookie s = some (c, rest)) :
    2 + rest.length ≤ s.length := by
  have hname := List.length_pos_iff.2 (parseCookie_eq_some h).1
  have hlen := length_parseCookie h
  omega

def cookies (s : List UInt8) : List Cookie :=
  match _h : parseCookie s with
  | none => []
  | some (c, rest) => c :: cookies rest
termination_by s.length
decreasing_by
  have := length_parseCookie _h
  omega

theorem cookies_of_none {s : List UInt8} (h : parseCookie s = none) : cookies s = [] := by
  rw [cookies]
  split
  · rfl
  · simp_all

theorem cookies_of_some {s rest : List UInt8} {c : Cookie} (h : parseCookie s = some (c, rest)) :
    cookies s = c :: cookies rest := by
  rw [cookies]
  split
  · simp_all
  · simp_all

/-- What the program prints and returns: the value of the first cookie with the name `key`. -/
def answer (key : List UInt8) (cs : List Cookie) : List UInt8 × Int :=
  match cs.find? (·.name == key) with
  | some c => (c.value, 0)
  | none => ([], -1)

/-- Each iteration that goes on has consumed two bytes at least. -/
theorem loop_getcookie {junk : List UInt8} (field : CStr) (s : List UInt8) :
    ∀ {m : Mem n} {pre : List UInt8} {fuel : Nat}, m.cells = pre ++ (s ++ 0 :: junk) → NUL ∉ s → s.length / 2 < fuel →
      loop (getcookieBody field) fuel (m, pre.length) = .ret (answer field.bytes (cookies s)) := by
  induction s using cookies.induct with
  | case1 s h =>
    intro m pre fuel hm hs hfuel
    obtain ⟨fuel, rfl⟩ : ∃ f, fuel = f + 1 := ⟨fuel - 1, by omega⟩
    obtain ⟨m', hscan⟩ := scanCookie_none hm hs h
    rw [cookies_of_none h]
    apply loop_exit
    simp [getcookieBody, hscan, answer]
  | case2 s c rest h ih =>
    intro m pre fuel hm hs hfuel
    obtain ⟨fuel, rfl⟩ : ∃ f, fuel = f + 1 := ⟨fuel - 1, by omega⟩
    obtain ⟨m', pre', items, hscan, hcells, hname, hvalue, -, hlen⟩ := scanCookie_some hm hs h
    have hcmp := strcmp_eq_zero_iff (Mem.nul_not_mem_of_cstr hname) field.nul_free
    rw [cookies_of_some h]
    by_cases hkey : c.name = field.bytes
    · have hfound : answer field.bytes (c :: cookies rest) = (c.value, 0) := by simp [answer, hkey]
      rw [hfound]
      apply loop_exit
      simp [getcookieBody, hscan, hname, hvalue, hcmp.2 hkey]
    · have hnext : getcookieBody field (m, pre.length) = some (.next (m', pre'.length)) := by
        simp [getcookieBody, hscan, hname, mt hcmp.1 hkey]
      have hrest : NUL ∉ rest := fun hmem => hs ((parseCookie_suffix h).subset hmem)
      have hshort := two_add_length_parseCookie h
      rw [loop_next hnext, ih hcells hrest (by omega)]
      simp [answer, hkey]

/-- For an input that leaves room for the terminator, the program looks for the first cookie with the wanted name in the
text up to the first NUL. -/
theorem getcookieMain_eq (prog key : CStr) {stdin : List UInt8} (h : stdin.length < 4096) (buf : Mem 4096) :
    getcookieMain [prog, key] stdin buf = .ret (answer key.bytes (cookies (stdin.takeWhile (· != NUL)))) := by
  have hinput : stdin.take 4096 = stdin := List.take_of_length_le (Nat.le_of_lt h)
  by_cases hne : stdin = []
  · subst hne
    have hnone : parseCookie [] = none := rfl
    simp [getcookieMain, Mem.write, cookies_of_none hnone, answer]
  · have hpos : stdin.length > 0 := List.length_pos_iff.2 hne
    have hstore := Mem.store_overlay buf stdin NUL
    rw [if_pos h] at hstore
    obtain ⟨junk, hjunk⟩ := exists_takeWhile_nul stdin (buf.cells.drop (stdin ++ [NUL]).length)
    have hcells : (buf.overlay (stdin ++ [NUL])).cells =
        [] ++ (stdin.takeWhile (· != NUL) ++ 0 :: junk) := by
      rw [Mem.cells_overlay _ (by rw [List.length_append]; exact h), List.append_assoc]
      exact hjunk
    have hnul : NUL ∉ stdin.takeWhile (· != NUL) := not_mem_takeWhile_ne NUL stdin
    have hfuel : (stdin.takeWhile (· != NUL)).length / 2 < 4096 := by
      have hle := (List.takeWhile_sublist (· != NUL) (l := stdin)).length_le
      omega
    simp only [getcookieMain, hinput, Mem.write, Nat.le_of_lt h, ↓reduceIte, hpos, hstore]
    exact loop_getcookie key _ hcells hnul hfuel

end Tinyweb
