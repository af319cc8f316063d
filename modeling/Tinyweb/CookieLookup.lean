import Tinyweb.CookieScan

/-!
# Looking up a cookie

A cookie is written as `name=value`, or with the value in one of three kinds of quotes, and the cookies of a header are
separated by `;` and blanks (`Serialises`).  The scanner reads such a header back, so that the program prints the value
of the first cookie with the wanted name (`getcookieMain_serialises`).
-/

namespace Tinyweb

open Clib

/-- A cookie as it is written, with or without quotes. -/
structure WrittenCookie where
  name : List UInt8
  value : List UInt8
  quote : Option UInt8
  name_ne : name ≠ []
  name_head : isBlank (name.headD NUL) = false
  name_chars : ∀ c ∈ name, c ≠ EQUALS ∧ c ≠ NUL
  value_chars : match quote with
    | none => isQuote (value.headD NUL) = false ∧ ∀ c ∈ value, isDelimiter c = false ∧ c ≠ NUL
    | some q => isQuote q ∧ ∀ c ∈ value, c ≠ q ∧ c ≠ NUL

namespace WrittenCookie

def valueText (c : WrittenCookie) : List UInt8 :=
  match c.quote with
  | none => c.value
  | some q => q :: (c.value ++ [q])

def text (c : WrittenCookie) : List UInt8 := c.name ++ EQUALS :: c.valueText

def cookie (c : WrittenCookie) : Cookie := ⟨c.name, c.value⟩

end WrittenCookie

/-- The ways to write a list of cookies after one another. -/
inductive Serialises : List WrittenCookie → List UInt8 → Prop where
  | nil : Serialises [] []
  | last (c : WrittenCookie) : Serialises [c] c.text
  | cons (c : WrittenCookie) {blanks : List UInt8} {cs : List WrittenCookie} {s : List UInt8}
    (hblanks : ∀ x ∈ blanks, isBlank x) (hs : Serialises cs s) :
    Serialises (c :: cs) (c.text ++ SEMI :: (blanks ++ s))

/-! ### The parser on given texts -/

theorem parseCookie_blanks {blanks : List UInt8} (h : ∀ x ∈ blanks, isBlank x) (s : List UInt8) :
    parseCookie (blanks ++ s) = parseCookie s := by
  have hdrop : (blanks ++ s).dropWhile isBlank = s.dropWhile isBlank := List.dropWhile_append_of_pos h
  simp only [parseCookie, hdrop]

theorem cookies_blanks {blanks : List UInt8} (h : ∀ x ∈ blanks, isBlank x) (s : List UInt8) :
    cookies (blanks ++ s) = cookies s := by
  have hparse := parseCookie_blanks h s
  cases hp : parseCookie s with
  | none => rw [cookies_of_none hp, cookies_of_none (hparse.trans hp)]
  | some r =>
    obtain ⟨c, rest⟩ := r
    rw [cookies_of_some hp, cookies_of_some (hparse.trans hp)]

theorem parseCookie_name {name : List UInt8} (hne : name ≠ []) (hhead : isBlank (name.headD NUL) = false)
    (hequals : EQUALS ∉ name) (u : List UInt8) :
    parseCookie (name ++ EQUALS :: u) = (parseValue u).map fun r => (⟨name, r.1⟩, r.2) := by
  have hdrop : (name ++ EQUALS :: u).dropWhile isBlank = name ++ EQUALS :: u := by
    cases name with
    | nil => exact absurd rfl hne
    | cons c name => exact List.dropWhile_cons_of_neg (by simpa using hhead)
  obtain ⟨htake, hrest⟩ := span_ne hequals u
  simp only [parseCookie, hdrop, htake, hrest, hne, ↓reduceIte]

theorem parseValue_quoted {q : UInt8} (hq : isQuote q) {v : List UInt8} (hv : q ∉ v) (w : List UInt8) :
    parseValue (q :: (v ++ q :: w)) = some (v, skipSemi w) := by
  obtain ⟨htake, hrest⟩ := span_ne hv w
  simp only [parseValue, List.headD_cons, hq, ↓reduceIte, List.tail_cons, htake, hrest]

theorem parseValue_unclosed {q : UInt8} (hq : isQuote q) {v : List UInt8} (hv : q ∉ v) :
    parseValue (q :: v) = none := by
  simp only [parseValue, List.headD_cons, hq, ↓reduceIte, List.tail_cons, (span_ne_self hv).2]

private theorem not_isQuote_of_isDelimiter {c : UInt8} (h : isDelimiter c = true) : isQuote c = false := by
  simp only [isDelimiter, Bool.or_eq_true, beq_iff_eq] at h
  rcases h with (((rfl | rfl) | rfl) | rfl) | rfl <;> rfl

theorem parseValue_bare {v d : List UInt8} (hquote : isQuote (v.headD NUL) = false)
    (hv : ∀ c ∈ v, isDelimiter c = false) (hd : ∀ x ∈ d.head?, isDelimiter x = true) :
    parseValue (v ++ d) = some (v, d.tail) := by
  have hhead : isQuote ((v ++ d).headD NUL) = false := by
    cases v with
    | cons c v => exact hquote
    | nil =>
      cases d with
      | nil => rfl
      | cons x d => exact not_isQuote_of_isDelimiter (hd x rfl)
  obtain ⟨htake, hrest⟩ : (v ++ d).takeWhile (!isDelimiter ·) = v ∧ (v ++ d).dropWhile (!isDelimiter ·) = d := by
    apply span_append
    · intro c hc
      rw [hv c hc]
      rfl
    · intro x hx
      rw [hd x hx]
      rfl
  simp only [parseValue, hhead, htake, hrest]
  rfl

/-! ### Written cookies -/

private theorem parseCookie_text_append (c : WrittenCookie) (rest : List UInt8) :
    parseCookie (c.text ++ rest) = (parseValue (c.valueText ++ rest)).map fun r => (⟨c.name, r.1⟩, r.2) := by
  have hequals : EQUALS ∉ c.name := fun h => (c.name_chars _ h).1 rfl
  rw [WrittenCookie.text, List.append_assoc, List.cons_append, parseCookie_name c.name_ne c.name_head hequals]

/-- A written cookie without quotes is read back before a delimiter and at the end of the text. -/
theorem parseCookie_text_bare {c : WrittenCookie} (hc : c.quote = none) {rest : List UInt8}
    (hrest : ∀ x ∈ rest.head?, isDelimiter x = true) : parseCookie (c.text ++ rest) = some (c.cookie, rest.tail) := by
  have hchars := c.value_chars
  simp only [hc] at hchars
  have htext : c.valueText = c.value := by simp only [WrittenCookie.valueText, hc]
  rw [parseCookie_text_append, htext, parseValue_bare hchars.1 (fun x hx => (hchars.2 x hx).1) hrest]
  rfl

/-- A written cookie in quotes is read back whatever follows. -/
theorem parseCookie_text_quoted {c : WrittenCookie} (hc : c.quote ≠ none) (rest : List UInt8) :
    parseCookie (c.text ++ rest) = some (c.cookie, skipSemi rest) := by
  obtain ⟨q, hq⟩ := Option.ne_none_iff_exists'.1 hc
  have hchars := c.value_chars
  simp only [hq] at hchars
  have htext : c.valueText ++ rest = q :: (c.value ++ q :: rest) := by simp [WrittenCookie.valueText, hq]
  have hvalue : q ∉ c.value := fun h => (hchars.2 q h).1 rfl
  rw [parseCookie_text_append, htext, parseValue_quoted hchars.1 hvalue]
  rfl

theorem parseCookie_text (c : WrittenCookie) {rest : List UInt8} (hrest : rest.headD SEMI = SEMI) :
    parseCookie (c.text ++ rest) = some (c.cookie, rest.tail) := by
  by_cases hc : c.quote = none
  · apply parseCookie_text_bare hc
    intro x hx
    rw [List.headD_eq_head?_getD, Option.mem_def.1 hx] at hrest
    rw [show x = SEMI from hrest]
    rfl
  · have hskip : skipSemi rest = rest.tail := by
      cases rest with
      | nil => rfl
      | cons y rest => exact if_pos hrest
    rw [parseCookie_text_quoted hc, hskip]

theorem Serialises.cookies_eq {cs : List WrittenCookie} {s : List UInt8} (h : Serialises cs s) :
    cookies s = cs.map WrittenCookie.cookie := by
  induction h with
  | nil => exact cookies_of_none rfl
  | last c =>
    have hparse : parseCookie (c.text ++ []) = _ := parseCookie_text c rfl
    rw [List.append_nil] at hparse
    rw [cookies_of_some hparse, List.tail_nil, cookies_of_none rfl]
    rfl
  | cons c hblanks hs ih =>
    rw [cookies_of_some (parseCookie_text c rfl), List.tail_cons, cookies_blanks hblanks, ih]
    rfl

private theorem nul_not_mem_blanks {blanks : List UInt8} (h : ∀ x ∈ blanks, isBlank x) : NUL ∉ blanks :=
  fun hmem => absurd (h NUL hmem) (by decide)

private theorem WrittenCookie.nul_not_mem_text (c : WrittenCookie) : NUL ∉ c.text := by
  have hname : NUL ∉ c.name := fun h => (c.name_chars _ h).2 rfl
  have hvalue : NUL ∉ c.valueText := by
    have hchars := c.value_chars
    unfold WrittenCookie.valueText
    split at hchars
    · exact fun h => (hchars.2 _ h).2 rfl
    · rename_i q _
      have hq : NUL ≠ q := by
        rintro rfl
        cases hchars.1
      simp only [List.mem_cons, List.mem_append, List.not_mem_nil, or_false, not_or]
      exact ⟨hq, fun h => (hchars.2 _ h).2 rfl, hq⟩
  simp only [WrittenCookie.text, List.mem_append, List.mem_cons, not_or]
  exact ⟨hname, by decide, hvalue⟩

theorem Serialises.nul_not_mem {cs : List WrittenCookie} {s : List UInt8} (h : Serialises cs s) : NUL ∉ s := by
  induction h with
  | nil => exact List.not_mem_nil
  | last c => exact c.nul_not_mem_text
  | cons c hblanks hs ih =>
    simp only [List.mem_append, List.mem_cons, not_or]
    exact ⟨c.nul_not_mem_text, by decide, nul_not_mem_blanks hblanks, ih⟩

/-- The program prints the value of the first cookie with the wanted name, for every way to write the cookies. -/
theorem getcookieMain_serialises {cs : List WrittenCookie} {blanks s : List UInt8} (hblanks : ∀ x ∈ blanks, isBlank x)
    (hs : Serialises cs s) (hlen : (blanks ++ s).length ≤ 4095) (prog key : CStr) (buf : Mem 4096) :
    getcookieMain [prog, key] (blanks ++ s) buf =
      .ret (match cs.find? (·.name == key.bytes) with
        | some c => (c.value, 0)
        | none => ([], -1)) := by
  have hnul : NUL ∉ blanks ++ s := by
    simp only [List.mem_append, not_or]
    exact ⟨nul_not_mem_blanks hblanks, hs.nul_not_mem⟩
  have hcomp : (fun c : Cookie => c.name == key.bytes) ∘ WrittenCookie.cookie = fun c => c.name == key.bytes := rfl
  rw [getcookieMain_eq prog key (Nat.lt_succ_of_le hlen), (span_ne_self hnul).1, cookies_blanks hblanks,
    hs.cookies_eq, answer, List.find?_map, hcomp]
  cases cs.find? (·.name == key.bytes) with
  | none => rfl
  | some c => rfl

def cookieA : WrittenCookie where
  name := ascii ['a']
  value := ascii ['x', ';', ' ', 'b', '=', '1']
  quote := some DQUOTE
  name_ne := by decide
  name_head := by decide
  name_chars := by decide +kernel
  value_chars := by decide +kernel

def cookieB : WrittenCookie where
  name := ascii ['b']
  value := ascii ['2']
  quote := none
  name_ne := by decide
  name_head := by decide
  name_chars := by decide +kernel
  value_chars := by decide +kernel

/-- The cookie `b` of ` a="x; b=1"; b=2;`. -/
theorem getcookieMain_serialises_two :
    getcookieMain [⟨[], by decide⟩, ⟨ascii ['b'], by decide⟩]
      ([SPACE] ++ (cookieA.text ++ SEMI :: ([SPACE] ++ (cookieB.text ++ SEMI :: ([] ++ []))))) (Mem.fill 4096 0) =
      .ret (ascii ['2'], 0) :=
  have hspace : ∀ x ∈ [SPACE], isBlank x := List.forall_mem_singleton.2 rfl
  getcookieMain_serialises hspace (.cons cookieA hspace (.cons cookieB (List.forall_mem_nil _) .nil)) (by decide) _ _ _

end Tinyweb
