import Tinyweb.CookieLookup

/-!
# Two texts of cookies

What the scanner reads from `s;t`, for a text `s` without `;` and line ends: the cookies of `s`, and then those of `t`
if `s` is `Closed`.  Otherwise what is left of `s` (`leftover`), or the `;` alone, is taken for the beginning of the
next cookie (`cookies_join`).
-/

namespace Tinyweb

open Clib

/-- What is left of a text when no further cookie can be read. -/
def leftover (s : List UInt8) : List UInt8 :=
  match _h : parseCookie s with
  | none => s
  | some (_, rest) => leftover rest
termination_by s.length
decreasing_by
  have := length_parseCookie _h
  omega

theorem leftover_of_none {s : List UInt8} (h : parseCookie s = none) : leftover s = s := by
  rw [leftover]
  split
  · rfl
  · simp_all

theorem leftover_of_some {s rest : List UInt8} {c : Cookie} (h : parseCookie s = some (c, rest)) :
    leftover s = leftover rest := by
  rw [leftover]
  split
  · simp_all
  · simp_all

def endsBlank (s : List UInt8) : Bool := s.getLast?.any isBlank

/-- The text is a sequence of complete cookies, the last of which ends with the text. -/
def Closed (s : List UInt8) : Prop := s ≠ [] ∧ leftover s = [] ∧ endsBlank s = false

instance (s : List UInt8) : Decidable (Closed s) := inferInstanceAs (Decidable (_ ∧ _))

/-- The names that the scanner can find. -/
def IsCookieName (name : List UInt8) : Prop :=
  name ≠ [] ∧ isBlank (name.headD NUL) = false ∧ EQUALS ∉ name

/-! ### Shapes of texts -/

private theorem isBlank_headD_dropWhile (s : List UInt8) : isBlank ((s.dropWhile isBlank).headD NUL) = false := by
  have h := List.head?_dropWhile_not isBlank s
  cases hd : s.dropWhile isBlank with
  | nil => rfl
  | cons c t =>
    rw [hd] at h
    simpa using h

theorem parseCookie_shape {s rest : List UInt8} {c : Cookie} (h : parseCookie s = some (c, rest)) :
    IsCookieName c.name ∧ ∃ blanks u, (∀ x ∈ blanks, isBlank x) ∧ s = blanks ++ (c.name ++ EQUALS :: u) ∧
      parseValue u = some (c.value, rest) := by
  obtain ⟨hne, hname, u, hu, hparse⟩ := parseCookie_eq_some h
  have hsplit : s.dropWhile isBlank = c.name ++ EQUALS :: u := by
    rw [← hname, ← hu, List.takeWhile_append_dropWhile]
  refine ⟨⟨hne, ?_, hname ▸ not_mem_takeWhile_ne _ _⟩, s.takeWhile isBlank, u, ?_, ?_, hparse⟩
  · have hhead := isBlank_headD_dropWhile s
    rw [hsplit] at hhead
    cases hc : c.name with
    | nil => exact absurd hc hne
    | cons x name =>
      rw [hc] at hhead
      exact hhead
  · exact fun x hx => List.mem_takeWhile_imp hx
  · rw [← hsplit, List.takeWhile_append_dropWhile]

theorem parseValue_shape {u v rest : List UInt8} (h : parseValue u = some (v, rest)) :
    (∃ q w, isQuote q ∧ q ∉ v ∧ u = q :: (v ++ q :: w) ∧ rest = skipSemi w) ∨
      ∃ d, isQuote (v.headD NUL) = false ∧ (∀ c ∈ v, isDelimiter c = false) ∧ (∀ x ∈ d.head?, isDelimiter x = true) ∧
        u = v ++ d ∧ rest = d.tail := by
  unfold parseValue at h
  split at h
  · rename_i hq
    split at h
    · cases h
    · rename_i q w hd
      obtain ⟨rfl, rfl⟩ := Prod.mk.inj (Option.some.inj h)
      obtain ⟨hq', hsplit⟩ := dropWhile_cons_imp hd
      obtain rfl : q = u.headD NUL := by simpa using hq'
      refine Or.inl ⟨u.headD NUL, w, hq, not_mem_takeWhile_ne _ _, ?_, rfl⟩
      rw [← hsplit]
      exact eq_cons_of_isQuote hq
  · rename_i hq
    obtain ⟨rfl, rfl⟩ := Prod.mk.inj (Option.some.inj h)
    have hall : ∀ c ∈ u.takeWhile (!isDelimiter ·), isDelimiter c = false := by
      intro c hc
      simpa using List.mem_takeWhile_imp hc
    refine Or.inr ⟨u.dropWhile (!isDelimiter ·), ?_, hall, ?_, ?_, rfl⟩
    · cases u with
      | nil => rfl
      | cons c u =>
        rw [List.takeWhile_cons]
        split
        · simpa using hq
        · rfl
    · intro x hx
      have hhead := List.head?_dropWhile_not (!isDelimiter ·) u
      rw [Option.mem_def.1 hx] at hhead
      simpa using hhead
    · rw [List.takeWhile_append_dropWhile]

theorem parseValue_shape_none {u : List UInt8} (h : parseValue u = none) : ∃ q v, isQuote q ∧ q ∉ v ∧ u = q :: v := by
  unfold parseValue at h
  split at h
  · rename_i hq
    split at h
    · rename_i hd
      refine ⟨u.headD NUL, u.tail, hq, ?_, eq_cons_of_isQuote hq⟩
      have hall := List.takeWhile_append_dropWhile (p := (· != u.headD NUL)) (l := u.tail)
      rw [hd, List.append_nil] at hall
      rw [← hall]
      exact not_mem_takeWhile_ne _ _
    · cases h
  · cases h

/-- A text that does not begin with a cookie: there is no `=`, no name before it, or no end of the quotes. -/
theorem parseCookie_shape_none {s : List UInt8} (h : parseCookie s = none) :
    ∃ blanks t, (∀ x ∈ blanks, isBlank x) ∧ s = blanks ++ t ∧ isBlank (t.headD NUL) = false ∧
      (EQUALS ∉ t ∨ (∃ u, t = EQUALS :: u) ∨
        ∃ name q v, IsCookieName name ∧ isQuote q ∧ q ∉ v ∧ t = name ++ EQUALS :: q :: v) := by
  have hhead := isBlank_headD_dropWhile s
  refine ⟨s.takeWhile isBlank, s.dropWhile isBlank, fun x hx => List.mem_takeWhile_imp hx,
    List.takeWhile_append_dropWhile.symm, hhead, ?_⟩
  unfold parseCookie at h
  generalize s.dropWhile isBlank = t at hhead h ⊢
  have hsplit := List.takeWhile_append_dropWhile (p := (· != EQUALS)) (l := t)
  have hequals := not_mem_takeWhile_ne EQUALS t
  cases hu : t.dropWhile (· != EQUALS) with
  | nil =>
    rw [hu, List.append_nil] at hsplit
    rw [hsplit] at hequals
    exact Or.inl hequals
  | cons e u =>
    obtain rfl : e = EQUALS := by simpa using (dropWhile_cons_imp hu).1
    rw [hu] at hsplit
    right
    by_cases hne : t.takeWhile (· != EQUALS) = []
    · rw [hne, List.nil_append] at hsplit
      exact Or.inl ⟨u, hsplit.symm⟩
    · simp only [hu, hne, ↓reduceIte, Option.map_eq_none_iff] at h
      obtain ⟨q, v, hq, hv, rfl⟩ := parseValue_shape_none h
      refine Or.inr ⟨t.takeWhile (· != EQUALS), q, v, ⟨hne, ?_, hequals⟩, hq, hv, hsplit.symm⟩
      obtain ⟨c, name, hname⟩ := List.exists_cons_of_ne_nil hne
      rw [← hsplit, hname] at hhead
      rw [hname]
      exact hhead

theorem isCookieName_of_mem {s : List UInt8} {c : Cookie} (h : c ∈ cookies s) :
    IsCookieName c.name ∧ c.name.length < s.length := by
  induction s using cookies.induct with
  | case1 s hp =>
    rw [cookies_of_none hp] at h
    cases h
  | case2 s c' rest hp ih =>
    have hlen := length_parseCookie hp
    rw [cookies_of_some hp] at h
    rcases List.mem_cons.1 h with rfl | h
    · exact ⟨(parseCookie_shape hp).1, by omega⟩
    · obtain ⟨hname, hlt⟩ := ih h
      exact ⟨hname, by omega⟩

/-! ### Joined texts -/

theorem endsBlank_append_cons (s u : List UInt8) (c : UInt8) : endsBlank (s ++ c :: u) = endsBlank (c :: u) := by
  rw [endsBlank, endsBlank, List.getLast?_append, List.getLast?_cons, Option.some_or]

theorem endsBlank_cons {c : UInt8} (hc : isBlank c = false) (u : List UInt8) :
    endsBlank (c :: u) = endsBlank u := by
  cases u with
  | nil => simpa [endsBlank] using hc
  | cons d u => simp [endsBlank]

theorem endsBlank_of_suffix {s s' : List UInt8} (h : s' <:+ s) (hne : s' ≠ []) : endsBlank s = endsBlank s' := by
  obtain ⟨a, rfl⟩ := h
  cases s' with
  | nil => exact absurd rfl hne
  | cons c s' => exact endsBlank_append_cons a s' c

/-- A text without `;`, CR and LF, whose only delimiters are blanks. -/
def OneSegment (s : List UInt8) : Prop := ∀ c ∈ s, c ≠ SEMI ∧ c ≠ CR ∧ c ≠ LF

theorem OneSegment.isDelimiter_eq {s : List UInt8} (hs : OneSegment s) {c : UInt8} (hc : c ∈ s) :
    isDelimiter c = isBlank c := by
  obtain ⟨hsemi, hcr, hlf⟩ := hs c hc
  simp [isDelimiter, isBlank, beq_eq_false_iff_ne.2 hsemi, beq_eq_false_iff_ne.2 hcr, beq_eq_false_iff_ne.2 hlf]

theorem OneSegment.skipSemi_eq {s : List UInt8} (hs : OneSegment s) : skipSemi s = s := by
  cases s with
  | nil => rfl
  | cons c s => exact if_neg (hs c (List.mem_cons_self ..)).1

theorem OneSegment.of_suffix {s s' : List UInt8} (hs : OneSegment s) (h : s' <:+ s) : OneSegment s' :=
  fun c hc => hs c (h.subset hc)

theorem not_isBlank_of_isQuote {c : UInt8} (h : isQuote c = true) : isBlank c = false := by
  simp only [isQuote, Bool.or_eq_true, beq_iff_eq] at h
  rcases h with (rfl | rfl) | rfl <;> rfl

theorem endsBlank_of_not_isDelimiter {v : List UInt8} (hv : ∀ c ∈ v, isDelimiter c = false) :
    endsBlank v = false := by
  rw [endsBlank, Option.any_eq_false]
  intro c hc
  have hdelim := hv c (List.mem_of_getLast? hc)
  simp only [isDelimiter, Bool.or_eq_false_iff] at hdelim
  simp only [isBlank, hdelim]
  decide

/-- How the value at the beginning of a segment goes on when `;` follows the segment. -/
private theorem parseValue_join {u v rest : List UInt8} (hu : OneSegment u) (h : parseValue u = some (v, rest))
    (t : List UInt8) :
    parseValue (u ++ SEMI :: t) =
      some (v, if rest = [] ∧ endsBlank u = false then t else rest ++ SEMI :: t) := by
  rcases parseValue_shape h with ⟨q, w, hq, hv, rfl, rfl⟩ | ⟨d, hhead, hv, hd, rfl, rfl⟩
  · have hw : OneSegment w := hu.of_suffix ⟨q :: (v ++ [q]), by simp⟩
    rw [List.cons_append, List.append_assoc, List.cons_append, parseValue_quoted hq hv, hw.skipSemi_eq]
    cases w with
    | nil =>
      have hend : endsBlank (q :: (v ++ [q])) = false := by
        rw [← List.cons_append, endsBlank_append_cons, endsBlank_cons (not_isBlank_of_isQuote hq)]
        rfl
      rw [if_pos ⟨rfl, hend⟩]
      rfl
    | cons c w =>
      have hskip : skipSemi (c :: w ++ SEMI :: t) = c :: w ++ SEMI :: t :=
        if_neg (hw c (List.mem_cons_self ..)).1
      rw [hskip, if_neg (fun h => List.cons_ne_nil _ _ h.1)]
  · rw [List.append_assoc]
    cases d with
    | nil =>
      have hend : endsBlank (v ++ []) = false := by
        rw [List.append_nil]
        exact endsBlank_of_not_isDelimiter hv
      rw [List.nil_append, parseValue_bare hhead hv (by simp; rfl), if_pos ⟨rfl, hend⟩]
      rfl
    | cons x d =>
      have hx : isBlank x = true := by
        rw [← hu.isDelimiter_eq (by simp)]
        exact hd x rfl
      have hcond : ¬ ((x :: d).tail = [] ∧ endsBlank (v ++ x :: d) = false) := by
        rintro ⟨hnil, hend⟩
        obtain rfl : d = [] := hnil
        rw [endsBlank_append_cons] at hend
        exact absurd hend (by simp [endsBlank, hx])
      rw [parseValue_bare hhead hv (by simpa using hd x rfl), if_neg hcond]
      rfl

private theorem parseCookie_join {s rest : List UInt8} {c : Cookie} (hs : OneSegment s)
    (h : parseCookie s = some (c, rest)) (t : List UInt8) :
    parseCookie (s ++ SEMI :: t) =
      some (c, if rest = [] ∧ endsBlank s = false then t else rest ++ SEMI :: t) := by
  obtain ⟨⟨hne, hhead, hequals⟩, blanks, u, hblanks, rfl, hparse⟩ := parseCookie_shape h
  have hend : endsBlank (blanks ++ (c.name ++ EQUALS :: u)) = endsBlank u := by
    rw [← List.append_assoc, endsBlank_append_cons, endsBlank_cons (by decide)]
  have hu : OneSegment u := hs.of_suffix ⟨blanks ++ (c.name ++ [EQUALS]), by simp⟩
  rw [List.append_assoc, parseCookie_blanks hblanks, List.append_assoc, List.cons_append,
    parseCookie_name hne hhead hequals, parseValue_join hu hparse, hend]
  rfl

theorem closed_iff_of_some {s rest : List UInt8} {c : Cookie} (h : parseCookie s = some (c, rest))
    (hrest : rest ≠ []) : Closed s ↔ Closed rest := by
  have hne : s ≠ [] := by
    rintro rfl
    cases h
  simp only [Closed, ne_eq, hne, hrest, leftover_of_some h, endsBlank_of_suffix (parseCookie_suffix h) hrest]

/-- The cookies of `s;t`: those of `s`, and then those of `t` if `s` is closed; otherwise what is left of `s` is taken
for the beginning of the next cookie. -/
theorem cookies_join {s : List UInt8} (hs : OneSegment s) (t : List UInt8) :
    cookies (s ++ SEMI :: t) = cookies s ++ cookies (if Closed s then t else leftover s ++ SEMI :: t) := by
  induction s using cookies.induct with
  | case1 s h =>
    have hclosed : ¬ Closed s := by
      rintro ⟨hne, hleft, -⟩
      rw [leftover_of_none h] at hleft
      exact hne hleft
    rw [cookies_of_none h, if_neg hclosed, leftover_of_none h, List.nil_append]
  | case2 s c rest h ih =>
    have hne : s ≠ [] := by
      rintro rfl
      cases h
    have hleft := leftover_of_some h
    rw [cookies_of_some (parseCookie_join hs h t), cookies_of_some h, List.cons_append]
    congr 1
    by_cases hrest : rest = []
    · subst hrest
      rw [leftover_of_none (s := []) rfl] at hleft
      have hclosed : Closed s ↔ endsBlank s = false := ⟨fun h => h.2.2, fun h => ⟨hne, hleft, h⟩⟩
      simp only [true_and, hclosed, hleft, cookies_of_none (s := []) rfl, List.nil_append]
    · rw [if_neg (fun h => hrest h.1), ih (hs.of_suffix (parseCookie_suffix h))]
      simp only [closed_iff_of_some h hrest, hleft]

theorem parseCookie_leftover (s : List UInt8) : parseCookie (leftover s) = none := by
  induction s using leftover.induct with
  | case1 s h => rwa [leftover_of_none h]
  | case2 s c rest h ih => rwa [leftover_of_some h]

end Tinyweb
