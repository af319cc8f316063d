import Tinyweb.CookieJoin

/-!
# A segment in front of a cookie header

A cookie should be found in `s; h` exactly as in `h`, if the segment `s` is not that cookie (`Unaffected`).  The scanner
does not stop at `;` while it reads a name or a quoted value, and it ends a value at a blank, so that this holds only
for segments that are sequences of complete cookies, up to their last character (`CookieRun`); any other segment hides
the cookie behind it (`unaffected_iff`).
-/

namespace Tinyweb

open Clib

/-- The texts that are sequences of complete cookies: blanks may stand before a cookie, a value without quotes is
followed by a blank if it is not the last, and nothing follows the last. -/
inductive CookieRun : List WrittenCookie → List UInt8 → Prop where
  | last (c : WrittenCookie) : CookieRun [c] c.text
  | blank {x : UInt8} {cs : List WrittenCookie} {s : List UInt8} (hx : isBlank x) (hs : CookieRun cs s) :
    CookieRun cs (x :: s)
  | bare (c : WrittenCookie) {x : UInt8} {cs : List WrittenCookie} {s : List UInt8} (hc : c.quote = none)
    (hx : isBlank x) (hs : CookieRun cs s) : CookieRun (c :: cs) (c.text ++ x :: s)
  | quoted (c : WrittenCookie) {cs : List WrittenCookie} {s : List UInt8} (hc : c.quote ≠ none)
    (hs : CookieRun cs s) : CookieRun (c :: cs) (c.text ++ s)

/-! ### Sequences of complete cookies -/

private theorem CookieRun.blanks {blanks s : List UInt8} {cs : List WrittenCookie} (hblanks : ∀ x ∈ blanks, isBlank x)
    (h : CookieRun cs s) : CookieRun cs (blanks ++ s) := by
  induction blanks with
  | nil => exact h
  | cons x blanks ih =>
    obtain ⟨hx, hblanks⟩ := List.forall_mem_cons.1 hblanks
    exact .blank hx (ih hblanks)

theorem exists_cookieRun {s : List UInt8} (hs : OneSegment s) (hnul : NUL ∉ s) (h : Closed s) :
    ∃ cs, CookieRun cs s := by
  induction s using cookies.induct with
  | case1 s hp =>
    obtain ⟨hne, hleft, -⟩ := h
    rw [leftover_of_none hp] at hleft
    exact absurd hleft hne
  | case2 s c rest hp ih =>
    have hsuffix := parseCookie_suffix hp
    have hrest : rest ≠ [] → ∃ cs, CookieRun cs rest := fun hrest =>
      ih (hs.of_suffix hsuffix) (fun h => hnul (hsuffix.subset h)) ((closed_iff_of_some hp hrest).1 h)
    obtain ⟨⟨hne, hhead, hequals⟩, blanks, u, hblanks, rfl, hparse⟩ := parseCookie_shape hp
    have hchars : ∀ x ∈ c.name, x ≠ EQUALS ∧ x ≠ NUL := by
      intro x hx
      constructor
      · rintro rfl
        exact hequals hx
      · rintro rfl
        exact hnul (by simp [hx])
    rcases parseValue_shape hparse with ⟨q, w, hq, hv, rfl, rfl⟩ | ⟨d, hquote, hv, hd, rfl, rfl⟩
    · have hw : OneSegment w := fun x hx => hs x (by simp [hx])
      rw [hw.skipSemi_eq] at hrest
      let c' : WrittenCookie := ⟨c.name, c.value, some q, hne, hhead, hchars, hq, fun x hx => ⟨?_, ?_⟩⟩
      have htext : c'.text ++ w = c.name ++ EQUALS :: q :: (c.value ++ q :: w) := by
        simp [c', WrittenCookie.text, WrittenCookie.valueText]
      by_cases hnil : w = []
      · refine ⟨[c'], .blanks hblanks ?_⟩
        rw [← htext, hnil, List.append_nil]
        exact .last c'
      · obtain ⟨cs, hcs⟩ := hrest hnil
        refine ⟨c' :: cs, .blanks hblanks ?_⟩
        rw [← htext]
        exact .quoted c' (Option.some_ne_none q) hcs
      · rintro rfl
        exact hv hx
      · rintro rfl
        exact hnul (by simp [hx])
    · let c' : WrittenCookie :=
        ⟨c.name, c.value, none, hne, hhead, hchars, hquote, fun x hx => ⟨hv x hx, fun h => hnul (by simp [← h, hx])⟩⟩
      have htext : c'.text ++ d = c.name ++ EQUALS :: (c.value ++ d) := by
        simp [c', WrittenCookie.text, WrittenCookie.valueText]
      cases d with
      | nil =>
        refine ⟨[c'], .blanks hblanks ?_⟩
        rw [← htext, List.append_nil]
        exact .last c'
      | cons x d =>
        have hx : isBlank x = true := by
          rw [← hs.isDelimiter_eq (by simp)]
          exact hd x rfl
        have hnil : d ≠ [] := by
          rintro rfl
          have hend := h.2.2
          rw [← htext, ← List.append_assoc, endsBlank_append_cons] at hend
          exact absurd hend (by simp [endsBlank, hx])
        obtain ⟨cs, hcs⟩ := hrest hnil
        refine ⟨c' :: cs, .blanks hblanks ?_⟩
        rw [← htext]
        exact .bare c' rfl hx hcs

private theorem endsBlank_text (c : WrittenCookie) : endsBlank c.text = false := by
  have hchars := c.value_chars
  rw [WrittenCookie.text, endsBlank_append_cons, endsBlank_cons (by decide)]
  unfold WrittenCookie.valueText
  split at hchars
  · exact endsBlank_of_not_isDelimiter fun x hx => (hchars.2 x hx).1
  · rename_i q _
    have hq := not_isBlank_of_isQuote hchars.1
    rw [endsBlank_cons hq, endsBlank_append_cons, endsBlank_cons hq]
    rfl

private theorem closed_of_rest {s rest : List UInt8} {c : Cookie} (h : parseCookie s = some (c, rest))
    (hrest : Closed rest) : Closed s := (closed_iff_of_some h hrest.1).2 hrest

theorem CookieRun.closed {s : List UInt8} {cs : List WrittenCookie} (h : CookieRun cs s)
    (hs : OneSegment s) : Closed s ∧ cookies s = cs.map WrittenCookie.cookie := by
  induction h with
  | last c =>
    have hparse : parseCookie (c.text ++ []) = _ := parseCookie_text c rfl
    rw [List.append_nil] at hparse
    have hne : c.text ≠ [] := by
      intro h
      rw [h] at hparse
      cases hparse
    refine ⟨⟨hne, ?_, endsBlank_text c⟩, ?_⟩
    · rw [leftover_of_some hparse, List.tail_nil, leftover_of_none rfl]
    · rw [cookies_of_some hparse, List.tail_nil, cookies_of_none rfl]
      rfl
  | @blank x cs s hx h ih =>
    obtain ⟨⟨hne, hleft, hend⟩, hcookies⟩ := ih (hs.of_suffix (List.suffix_cons x s))
    have hblank : ∀ y ∈ [x], isBlank y := List.forall_mem_singleton.2 hx
    have hparse : parseCookie (x :: s) = parseCookie s := parseCookie_blanks hblank s
    have hcons : cookies (x :: s) = cookies s := cookies_blanks hblank s
    refine ⟨⟨List.cons_ne_nil x s, ?_, ?_⟩, hcons.trans hcookies⟩
    · cases hp : parseCookie s with
      | none => exact absurd (leftover_of_none hp ▸ hleft) hne
      | some r =>
        obtain ⟨c, rest⟩ := r
        rw [leftover_of_some (hparse.trans hp), ← leftover_of_some hp, hleft]
    · rw [endsBlank_of_suffix (List.suffix_cons x s) hne, hend]
  | @bare c x cs s hc hx h ih =>
    obtain ⟨hclosed, hcookies⟩ := ih fun c hc => hs c (by simp [hc])
    have hdelim : isDelimiter x = true := by rwa [hs.isDelimiter_eq (by simp)]
    have hparse := parseCookie_text_bare hc (by simpa using hdelim : ∀ y ∈ (x :: s).head?, isDelimiter y = true)
    refine ⟨closed_of_rest hparse hclosed, ?_⟩
    rw [cookies_of_some hparse, List.tail_cons, hcookies]
    rfl
  | @quoted c cs s hc h ih =>
    have hs' : OneSegment s := fun c hc => hs c (List.mem_append_right _ hc)
    obtain ⟨hclosed, hcookies⟩ := ih hs'
    have hparse := parseCookie_text_quoted hc s
    rw [hs'.skipSemi_eq] at hparse
    refine ⟨closed_of_rest hparse hclosed, ?_⟩
    rw [cookies_of_some hparse, hcookies]
    rfl

/-! ### The wanted cookie behind a segment -/

private theorem answer_of_forall_ne {key : List UInt8} {cs : List Cookie} (h : ∀ c ∈ cs, c.name ≠ key) :
    answer key cs = ([], -1) := by
  have hfind : cs.find? (·.name == key) = none := by simpa using h
  rw [answer, hfind]

private theorem answer_ne_found {key : List UInt8} {cs : List Cookie} (h : ∀ c ∈ cs, c.name ≠ key) :
    answer key cs ≠ ([], 0) := by
  rw [answer_of_forall_ne h]
  decide

private theorem answer_append {key : List UInt8} {cs : List Cookie} (h : ∀ c ∈ cs, c.name ≠ key) (ds : List Cookie) :
    answer key (cs ++ ds) = answer key ds := by
  have hfind : cs.find? (·.name == key) = none := by simpa using h
  rw [answer, answer, List.find?_append, hfind, Option.none_or]

private theorem answer_ne_missing {key : List UInt8} {cs : List Cookie} {c : Cookie} (hc : c ∈ cs)
    (hkey : c.name = key) : answer key cs ≠ ([], -1) := by
  cases hfind : cs.find? (·.name == key) with
  | none =>
    rw [List.find?_eq_none] at hfind
    exact absurd (by simpa using hkey) (hfind c hc)
  | some d =>
    rw [answer, hfind]
    simp

/-- An unclosed quote runs on into the text behind it. -/
private theorem answer_behind_quote {name key v : List UInt8} {q : UInt8} (hname : IsCookieName name) (hq : isQuote q)
    (hv : q ∉ v) :
    answer key (cookies (name ++ EQUALS :: q :: (v ++ SEMI :: SPACE :: (key ++ [EQUALS])))) ≠ ([], 0) := by
  obtain ⟨hne, hhead, hequals⟩ := hname
  have hparse := parseCookie_name hne hhead hequals (q :: (v ++ SEMI :: SPACE :: (key ++ [EQUALS])))
  by_cases hmem : q ∈ SEMI :: SPACE :: (key ++ [EQUALS])
  · obtain ⟨a, b, hsplit, ha⟩ := List.eq_append_cons_of_mem hmem
    -- the quotes close behind the separator, which becomes a part of the value
    have hlong : 2 ≤ a.length := by
      match a, hsplit with
      | [], hsplit =>
        obtain rfl : SEMI = q := (List.cons.inj hsplit).1
        cases hq
      | [x], hsplit =>
        obtain rfl : SPACE = q := (List.cons.inj (List.cons.inj hsplit).2).1
        cases hq
      | x :: y :: a, _ => simp
    have hvalue : q ∉ v ++ a := by
      rw [List.mem_append, not_or]
      exact ⟨hv, ha⟩
    rw [hsplit, ← List.append_assoc, parseValue_quoted hq hvalue] at hparse
    rw [hsplit, ← List.append_assoc v, cookies_of_some hparse]
    by_cases hkey : name = key
    · have hne : v ++ a ≠ [] := by
        rintro h
        rw [(List.append_eq_nil_iff.1 h).2] at hlong
        cases hlong
      simp [answer, hkey, hne]
    · refine answer_ne_found (List.forall_mem_cons.2 ⟨hkey, ?_⟩)
      rintro c hc rfl
      have hshort : c.name.length < (skipSemi b).length := (isCookieName_of_mem hc).2
      have hskip := (skipSemi_suffix b).length_le
      have hlen := congrArg List.length hsplit
      simp only [List.length_cons, List.length_append, List.length_nil] at hlen
      omega
  · have hall : q ∉ v ++ SEMI :: SPACE :: (key ++ [EQUALS]) := by
      rw [List.mem_append, not_or]
      exact ⟨hv, hmem⟩
    rw [parseValue_unclosed hq hall] at hparse
    rw [cookies_of_none hparse]
    exact answer_ne_found (List.forall_mem_nil _)

/-- An empty cookie is not found behind a text that the scanner gives up on. -/
private theorem answer_behind {r key : List UInt8} (hr : parseCookie r = none) (hkey : IsCookieName key) :
    answer key (cookies (r ++ SEMI :: SPACE :: (key ++ [EQUALS]))) ≠ ([], 0) := by
  obtain ⟨blanks, t, hblanks, rfl, hhead, hshape⟩ := parseCookie_shape_none hr
  rw [List.append_assoc, cookies_blanks hblanks]
  rcases hshape with ht | ⟨u, rfl⟩ | ⟨name, q, v, hname, hq, hv, rfl⟩
  · -- the text, the separator and the name are taken for one name
    have hname : parseCookie ((t ++ SEMI :: SPACE :: key) ++ EQUALS :: []) =
        some (⟨t ++ SEMI :: SPACE :: key, []⟩, []) := by
      refine parseCookie_name (by simp) ?_ ?_ []
      · cases t with
        | nil => rfl
        | cons c t => exact hhead
      · simp only [List.mem_append, List.mem_cons, not_or]
        exact ⟨ht, by decide, by decide, hkey.2.2⟩
    have hne : t ++ SEMI :: SPACE :: key ≠ key := by
      intro h
      have hlen := congrArg List.length h
      simp only [List.length_append, List.length_cons] at hlen
      omega
    rw [List.append_assoc, List.cons_append, List.cons_append] at hname
    rw [cookies_of_some hname, cookies_of_none (s := []) rfl]
    exact answer_ne_found (by simpa using hne)
  · have hdrop : (EQUALS :: (u ++ SEMI :: SPACE :: (key ++ [EQUALS]))).dropWhile isBlank = _ :=
      List.dropWhile_cons_of_neg (by decide)
    have hnone : parseCookie (EQUALS :: u ++ SEMI :: SPACE :: (key ++ [EQUALS])) = none := by
      simp only [parseCookie, List.cons_append, hdrop]
      rfl
    rw [cookies_of_none hnone]
    exact answer_ne_found (List.forall_mem_nil _)
  · rw [List.append_assoc]
    exact answer_behind_quote hname hq hv

/-- In front of every header, the segment leaves what the program prints and returns for `key` as it is. -/
def Unaffected (key : CStr) (s : List UInt8) : Prop :=
  ∀ (prog : CStr) (cs : List WrittenCookie) (h : List UInt8) (buf₁ buf₂ : Mem 4096), Serialises cs h →
    (s ++ SEMI :: SPACE :: h).length ≤ 4095 →
      getcookieMain [prog, key] (s ++ SEMI :: SPACE :: h) buf₁ = getcookieMain [prog, key] h buf₂

/-- There is no cookie with such a name, or the segment is a sequence of complete cookies with other names. -/
def Harmless (key s : List UInt8) : Prop :=
  ¬ IsCookieName key ∨ ∃ cs, CookieRun cs s ∧ ∀ c ∈ cs, c.name ≠ key

private theorem harmless_iff {s : List UInt8} (hs : OneSegment s) (hnul : NUL ∉ s)
    (key : List UInt8) : Harmless key s ↔ ¬ IsCookieName key ∨ Closed s ∧ ∀ c ∈ cookies s, c.name ≠ key := by
  refine or_congr_right ⟨?_, ?_⟩
  · rintro ⟨cs, hrun, hother⟩
    obtain ⟨hclosed, hcookies⟩ := hrun.closed hs
    refine ⟨hclosed, ?_⟩
    rw [hcookies]
    exact List.forall_mem_map.2 hother
  · rintro ⟨hclosed, hother⟩
    obtain ⟨cs, hrun⟩ := exists_cookieRun hs hnul hclosed
    rw [(hrun.closed hs).2] at hother
    exact ⟨cs, hrun, fun c hc => hother c.cookie (List.mem_map_of_mem hc)⟩

private theorem unaffected_iff_answer {s : List UInt8} (hs : NUL ∉ s) (key : CStr) :
    Unaffected key s ↔ ∀ (cs : List WrittenCookie) (h : List UInt8), Serialises cs h →
      (s ++ SEMI :: SPACE :: h).length ≤ 4095 →
        answer key.bytes (cookies (s ++ SEMI :: SPACE :: h)) = answer key.bytes (cookies h) := by
  have hmain : ∀ (prog : CStr) (cs : List WrittenCookie) (h : List UInt8) (buf₁ buf₂ : Mem 4096), Serialises cs h →
      (s ++ SEMI :: SPACE :: h).length ≤ 4095 →
        (getcookieMain [prog, key] (s ++ SEMI :: SPACE :: h) buf₁ = getcookieMain [prog, key] h buf₂ ↔
          answer key.bytes (cookies (s ++ SEMI :: SPACE :: h)) = answer key.bytes (cookies h)) := by
    intro prog cs h buf₁ buf₂ hcs hlen
    have hnul : NUL ∉ s ++ SEMI :: SPACE :: h := by
      simp only [List.mem_append, List.mem_cons, not_or]
      exact ⟨hs, by decide, by decide, hcs.nul_not_mem⟩
    have hshort : h.length < 4096 := by
      simp only [List.length_append, List.length_cons] at hlen
      omega
    rw [getcookieMain_eq prog key (Nat.lt_succ_of_le hlen), getcookieMain_eq prog key hshort,
      (span_ne_self hnul).1, (span_ne_self hcs.nul_not_mem).1]
    exact ⟨fun h => Outcome.ret.inj h, congrArg _⟩
  constructor
  · intro hsame cs h hcs hlen
    let empty : CStr := ⟨[], List.not_mem_nil⟩
    exact (hmain empty cs h (Mem.fill 4096 0) (Mem.fill 4096 0) hcs hlen).1 (hsame _ _ _ _ _ hcs hlen)
  · intro hsame prog cs h buf₁ buf₂ hcs hlen
    exact (hmain prog cs h buf₁ buf₂ hcs hlen).2 (hsame cs h hcs hlen)

private theorem cookies_join_space {s : List UInt8} (hs : OneSegment s) (h : List UInt8) :
    cookies (s ++ SEMI :: SPACE :: h) =
      cookies s ++ cookies (if Closed s then h else leftover s ++ SEMI :: SPACE :: h) := by
  have hblank : ∀ x ∈ [SPACE], isBlank x := List.forall_mem_singleton.2 rfl
  have hspace : cookies (SPACE :: h) = cookies h := cookies_blanks hblank h
  rw [cookies_join hs]
  by_cases hclosed : Closed s
  · rw [if_pos hclosed, if_pos hclosed, hspace]
  · rw [if_neg hclosed, if_neg hclosed]

private def emptyCookie (key : CStr) (h : IsCookieName key.bytes) : WrittenCookie where
  name := key.bytes
  value := []
  quote := none
  name_ne := h.1
  name_head := h.2.1
  name_chars := fun _ hc => ⟨fun he => h.2.2 (he ▸ hc), fun he => key.nul_free (he ▸ hc)⟩
  value_chars := ⟨rfl, List.forall_mem_nil _⟩

/-- A segment that is `Harmless` does not change the answer, and no other segment leaves it unchanged, if there is room
for a cookie `key` behind it. -/
theorem unaffected_iff {s : List UInt8} (hs : ∀ c ∈ s, c ≠ SEMI ∧ c ≠ NUL ∧ c ≠ CR ∧ c ≠ LF) (key : CStr) :
    (Harmless key.bytes s → Unaffected key s) ∧
      (s.length + key.bytes.length + 3 ≤ 4095 → Unaffected key s → Harmless key.bytes s) := by
  have hnul : NUL ∉ s := fun h => (hs NUL h).2.1 rfl
  have hone : OneSegment s := fun c hc => ⟨(hs c hc).1, (hs c hc).2.2⟩
  have hjoin := cookies_join_space hone
  rw [unaffected_iff_answer hnul, harmless_iff hone hnul]
  constructor
  · rintro (hkey | ⟨hclosed, hother⟩) cs h hcs hlen
    · have hmiss : ∀ t : List UInt8, answer key.bytes (cookies t) = ([], -1) := by
        intro t
        apply answer_of_forall_ne
        rintro c hc heq
        exact hkey (heq ▸ (isCookieName_of_mem hc).1)
      rw [hmiss, hmiss]
    · rw [hjoin, answer_append hother, if_pos hclosed]
  · intro hroom hsame
    by_contra hharm
    obtain ⟨hkey, hharm⟩ := not_or.1 hharm
    rw [not_not] at hkey
    -- a cookie of the segment with the wanted name is found where the header has none
    have hother : ∀ c ∈ cookies s, c.name ≠ key.bytes := by
      intro c hc heq
      have hlen : (s ++ SEMI :: SPACE :: []).length ≤ 4095 := by
        simp only [List.length_append, List.length_cons, List.length_nil]
        omega
      have h := hsame [] [] .nil hlen
      rw [hjoin, cookies_of_none (s := []) rfl] at h
      exact answer_ne_missing (List.mem_append_left _ hc) heq h
    have hclosed : ¬ Closed s := fun hclosed => hharm ⟨hclosed, hother⟩
    have htext : (emptyCookie key hkey).text = key.bytes ++ [EQUALS] := rfl
    have hlen : (s ++ SEMI :: SPACE :: (emptyCookie key hkey).text).length ≤ 4095 := by
      rw [htext]
      simp only [List.length_append, List.length_cons, List.length_nil]
      omega
    have h := hsame _ _ (.last (emptyCookie key hkey)) hlen
    have hfound : answer key.bytes (cookies (emptyCookie key hkey).text) = ([], 0) := by
      rw [(Serialises.last (emptyCookie key hkey)).cookies_eq]
      simp [answer, WrittenCookie.cookie, emptyCookie]
    rw [hjoin, answer_append hother, if_neg hclosed, hfound, htext] at h
    exact answer_behind (parseCookie_leftover s) hkey h

def cookieC : WrittenCookie where
  name := ascii ['c']
  value := ascii ['1']
  quote := none
  name_ne := by decide
  name_head := by decide
  name_chars := by decide +kernel
  value_chars := by decide +kernel

/-- `c=1` in front of a header does no harm to the cookie `b`. -/
theorem unaffected_iff_one :
    Harmless (ascii ['b']) (ascii ['c', '=', '1']) ∧ Unaffected ⟨ascii ['b'], by decide⟩ (ascii ['c', '=', '1']) :=
  have hharmless : Harmless (ascii ['b']) (ascii ['c', '=', '1']) :=
    Or.inr ⟨[cookieC], .last cookieC, List.forall_mem_singleton.2 (by decide)⟩
  ⟨hharmless, (unaffected_iff (by decide +kernel) ⟨ascii ['b'], by decide⟩).1 hharmless⟩

/-- The name of a segment: the text before its first `=`, without blanks around it. -/
def namePart (s : List UInt8) : List UInt8 :=
  (((s.takeWhile (· != EQUALS)).dropWhile isBlank).reverse.dropWhile isBlank).reverse

def cookieKey : WrittenCookie where
  name := ascii ['k', 'e', 'y']
  value := ascii ['v']
  quote := none
  name_ne := by decide
  name_head := by decide
  name_chars := by decide +kernel
  value_chars := by decide +kernel

/-- The cookie `key` of `foo; key=v` is not found, and the cookie `key` of `a=1 key=x; key=v` is that of the segment. -/
theorem not_unaffected_foo :
    let key : CStr := ⟨ascii ['k', 'e', 'y'], by decide⟩
    let foo := ascii ['f', 'o', 'o']
    let forged := ascii ['a', '=', '1', ' ', 'k', 'e', 'y', '=', 'x']
    let h := ascii ['k', 'e', 'y', '=', 'v']
    let main stdin := getcookieMain [⟨[], by decide⟩, key] stdin (Mem.fill 4096 0)
    Serialises [cookieKey] h ∧
      (∀ s ∈ [foo, forged], namePart s ≠ key.bytes ∧ (∀ c ∈ s, c ≠ SEMI ∧ c ≠ NUL ∧ c ≠ CR ∧ c ≠ LF) ∧
        (s ++ SEMI :: SPACE :: h).length ≤ 4095) ∧
      main h = .ret (ascii ['v'], 0) ∧ main (foo ++ SEMI :: SPACE :: h) = .ret ([], -1) ∧
      main (forged ++ SEMI :: SPACE :: h) = .ret (ascii ['x'], 0) := by
  intro key foo forged h main
  have hmain : ∀ stdin, stdin.length < 4096 → NUL ∉ stdin → main stdin = .ret (answer key.bytes (cookies stdin)) := by
    intro stdin hlen hnul
    have heq := getcookieMain_eq ⟨[], by decide⟩ key hlen (Mem.fill 4096 0)
    rwa [(span_ne_self hnul).1] at heq
  have hnil : parseCookie [] = none := rfl
  have hfoo : parseCookie (foo ++ SEMI :: SPACE :: h) =
      some (⟨foo ++ SEMI :: SPACE :: key.bytes, ascii ['v']⟩, []) := by
    decide
  have ha : parseCookie (forged ++ SEMI :: SPACE :: h) =
      some (⟨ascii ['a'], ascii ['1']⟩, ascii ['k', 'e', 'y', '=', 'x'] ++ SEMI :: SPACE :: h) := by
    decide
  have hx : parseCookie (ascii ['k', 'e', 'y', '=', 'x'] ++ SEMI :: SPACE :: h) =
      some (⟨key.bytes, ascii ['x']⟩, SPACE :: h) := by
    decide
  refine ⟨.last cookieKey, by decide +kernel, ?_, ?_, ?_⟩
  · have hkey : cookies h = [cookieKey.cookie] := (Serialises.last cookieKey).cookies_eq
    rw [hmain h (by decide) (by decide), hkey]
    decide
  · rw [hmain _ (by decide) (by decide), cookies_of_some hfoo, cookies_of_none hnil]
    decide
  · rw [hmain _ (by decide) (by decide), cookies_of_some ha, cookies_of_some hx]
    rfl

end Tinyweb
