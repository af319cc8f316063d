import Mathlib.Algebra.Order.Ring.Int
import Tinyweb.Lib.CString

/-!
# Patterns for paths and URIs (`mongoose.c`)

`match_prefix` compares the beginning of a text with a pattern: `?` stands for one character, `*` for characters of one
path segment, `**` for any characters, `$` for the end of the text and `|` separates alternatives.  It tries the longest
text for a star first and returns the number of characters matched, or -1; the callers ask whether it is positive.

`Matches` says what a pattern means without reference to the order in which the stars are tried.  The search misses
nothing: the result is positive exactly if some alternative matches a prefix that is not empty (`matchPrefix_pos_iff`).
-/

namespace Tinyweb

open Clib

abbrev QUESTION : UInt8 := 63
abbrev DOLLAR : UInt8 := 36
abbrev STAR : UInt8 := 42
abbrev BAR : UInt8 := 124

/-- The loop over the lengths of the text for a star, from `len` down: what `rest` returns behind that text, and the
length. -/
def matchStar (rest : List UInt8 → Int) (str : List UInt8) : Nat → Int × Nat
  | 0 => (rest str, 0)
  | len + 1 =>
    let res := rest (str.drop (len + 1))
    if res = -1 then matchStar rest str len else (res, len + 1)

/-- The loop of `match_prefix`, for a pattern without `|`; `str` is the text from `j` on. -/
def matchFrom : List UInt8 → List UInt8 → Nat → Int
  | [], _, j => j
  | c :: pattern, str, j =>
    if c = QUESTION ∧ str ≠ [] then matchFrom pattern str.tail (j + 1)
    else if c = DOLLAR then if str = [] then j else -1
    else if c = STAR then
      let behind := (matchFrom pattern · 0)
      match pattern with
      | [] => j + (str.takeWhile (· != SLASH)).length
      | d :: pattern' =>
        let (res, len) :=
          if d = STAR then
            -- nothing is left to be matched behind the stars if the pattern ends here
            if pattern' = [] then (0, str.length) else matchStar (matchFrom pattern' · 0) str str.length
          else matchStar behind str (str.takeWhile (· != SLASH)).length
        if res = -1 then -1 else j + res + len
    else if some c ≠ str.head? then -1
    else matchFrom pattern str.tail (j + 1)

/-- The alternatives are tried from the left; only the last one may match without a character. -/
def matchAny : List (List UInt8) → List UInt8 → Int
  | [], _ => -1
  | [pattern], str => matchFrom pattern str 0
  | pattern :: patterns, str =>
    let res := matchFrom pattern str 0
    if res > 0 then res else matchAny patterns str

def matchPrefix (pattern str : List UInt8) : Int := matchAny (pattern.splitOn BAR) str

/-! ### What a pattern means -/

/-- The pattern matches the beginning of `str`, and `rest` is the text behind it. -/
inductive Matches : List UInt8 → List UInt8 → List UInt8 → Prop where
  | nil {rest : List UInt8} : Matches [] rest rest
  | any {c : UInt8} {pattern str rest : List UInt8} :
      Matches pattern str rest → Matches (QUESTION :: pattern) (c :: str) rest
  | stop {pattern : List UInt8} : Matches (DOLLAR :: pattern) [] []
  | star {pattern segment str rest : List UInt8} : pattern.head? ≠ some STAR → SLASH ∉ segment →
      Matches pattern str rest → Matches (STAR :: pattern) (segment ++ str) rest
  | stars {pattern text str rest : List UInt8} :
      Matches pattern str rest → Matches (STAR :: STAR :: pattern) (text ++ str) rest
  | char {c : UInt8} {pattern str rest : List UInt8} : c ≠ QUESTION → c ≠ DOLLAR → c ≠ STAR →
      Matches pattern str rest → Matches (c :: pattern) (c :: str) rest

variable {pattern str rest : List UInt8}

theorem Matches.suffix (h : Matches pattern str rest) : rest <:+ str := by
  induction h with
  | nil => exact List.suffix_rfl
  | any _ ih => exact ih.trans (List.suffix_cons ..)
  | stop => exact List.suffix_rfl
  | star _ _ _ ih => exact ih.trans (List.suffix_append ..)
  | stars _ ih => exact ih.trans (List.suffix_append ..)
  | char _ _ _ _ ih => exact ih.trans (List.suffix_cons ..)

/-- How far a single star reaches. -/
private theorem length_segment_le {segment : List UInt8} (h : SLASH ∉ segment) (str : List UInt8) :
    segment.length ≤ ((segment ++ str).takeWhile (· != SLASH)).length := by
  have hseg : ∀ c ∈ segment, (c != SLASH) = true := by
    intro c hc
    rw [bne_iff_ne]
    rintro rfl
    exact h hc
  rw [List.takeWhile_append_of_pos hseg, List.length_append]
  omega

theorem matches_star_iff (hp : pattern.head? ≠ some STAR) : Matches (STAR :: pattern) str rest ↔
    ∃ n ≤ (str.takeWhile (· != SLASH)).length, Matches pattern (str.drop n) rest := by
  constructor
  · intro h
    cases h with
    | @star _ segment str _ _ hseg h =>
      exact ⟨segment.length, length_segment_le hseg str, by rw [List.drop_left]; exact h⟩
    | stars => exact absurd rfl hp
    | char _ _ hc => exact absurd rfl hc
  · rintro ⟨n, hn, h⟩
    rw [← List.take_append_drop n str]
    refine .star hp ?_ h
    -- the text for the star is a part of the segment
    have hle : str.take n <+: str.takeWhile (· != SLASH) :=
      List.prefix_of_prefix_length_le (List.take_prefix n str) (List.takeWhile_prefix _)
        ((List.length_take_le n str).trans hn)
    exact fun hmem => not_mem_takeWhile_ne SLASH str (hle.subset hmem)

theorem matches_stars_iff : Matches (STAR :: STAR :: pattern) str rest ↔
    ∃ n ≤ str.length, Matches pattern (str.drop n) rest := by
  constructor
  · intro h
    cases h with
    | star hp => exact absurd rfl hp
    | @stars _ text str _ h =>
      exact ⟨text.length, by rw [List.length_append]; omega, by rw [List.drop_left]; exact h⟩
    | char _ _ hc => exact absurd rfl hc
  · rintro ⟨n, -, h⟩
    rw [← List.take_append_drop n str]
    exact .stars h

/-! ### The search -/

/-- `r` is the number of characters of a match, and 0 only if no match has more; or there is none. -/
def Found (pattern str : List UInt8) (r : Int) : Prop :=
  (∃ rest, Matches pattern str rest ∧ r + rest.length = str.length ∧
    (rest = str → ∀ rest', Matches pattern str rest' → rest' = str)) ∨
  (r = -1 ∧ ∀ rest, ¬ Matches pattern str rest)

theorem Found.eq_neg_one_or {r : Int} (h : Found pattern str r) : r = -1 ∨ 0 ≤ r := by
  rcases h with ⟨rest, hm, hr, -⟩ | ⟨hr, -⟩
  · have := hm.suffix.length_le
    omega
  · exact Or.inl hr

theorem Found.not_matches (h : Found pattern str (-1)) : ¬ Matches pattern str rest := by
  rcases h with ⟨rest', hm, hr, -⟩ | ⟨-, hnone⟩
  · have := hm.suffix.length_le
    omega
  · exact hnone rest

/-- The loop over the lengths stops at the longest text behind which the rest is found. -/
private theorem matchStar_spec (behind : List UInt8 → Int) (str : List UInt8) (len : Nat) :
    (∃ n ≤ len, matchStar behind str len = (behind (str.drop n), n) ∧ behind (str.drop n) ≠ -1 ∧
      ∀ m, n < m → m ≤ len → behind (str.drop m) = -1) ∨
    ((matchStar behind str len).1 = -1 ∧ ∀ m ≤ len, behind (str.drop m) = -1) := by
  induction len with
  | zero =>
    by_cases h : behind str = -1
    · refine Or.inr ⟨h, fun m hm => ?_⟩
      rw [Nat.le_zero.1 hm]
      exact h
    · exact Or.inl ⟨0, Nat.le_refl 0, rfl, h, fun m _ _ => by omega⟩
  | succ len ih =>
    rw [matchStar]
    by_cases h : behind (str.drop (len + 1)) = -1
    · rw [if_pos h]
      rcases ih with ⟨n, hn, heq, hne, hlater⟩ | ⟨heq, hnone⟩
      · refine Or.inl ⟨n, by omega, heq, hne, fun m hlt hm => ?_⟩
        rcases Nat.lt_or_eq_of_le hm with hm | rfl
        · exact hlater m hlt (by omega)
        · exact h
      · refine Or.inr ⟨heq, fun m hm => ?_⟩
        rcases Nat.lt_or_eq_of_le hm with hm | rfl
        · exact hnone m (by omega)
        · exact h
    · rw [if_neg h]
      exact Or.inl ⟨len + 1, Nat.le_refl _, rfl, h, fun m _ _ => by omega⟩

private theorem matchStar_eq_neg_one_or {behind : List UInt8 → Int} (hbehind : ∀ str, Found pattern str (behind str))
    (str : List UInt8) (len : Nat) : (matchStar behind str len).1 = -1 ∨ 0 ≤ (matchStar behind str len).1 := by
  rcases matchStar_spec behind str len with ⟨n, -, heq, -⟩ | ⟨heq, -⟩
  · rw [heq]
    exact (hbehind _).eq_neg_one_or
  · exact Or.inl heq

/-- What a star adds to the search for the rest of the pattern. -/
private theorem found_star {behind : List UInt8 → Int} {whole : List UInt8} {len : Nat} (hlen : len ≤ str.length)
    (hbehind : ∀ str, Found pattern str (behind str))
    (hwhole : ∀ rest, Matches whole str rest ↔ ∃ n ≤ len, Matches pattern (str.drop n) rest) :
    Found whole str (if (matchStar behind str len).1 = -1 then -1
      else (matchStar behind str len).1 + (matchStar behind str len).2) := by
  rcases matchStar_spec behind str len with ⟨n, hn, heq, hne, hlater⟩ | ⟨heq, hnone⟩
  · rw [heq, if_neg hne]
    rcases hbehind (str.drop n) with ⟨rest, hm, hr, hmin⟩ | ⟨hr, -⟩
    · refine Or.inl ⟨rest, (hwhole rest).2 ⟨n, hn, hm⟩, ?_, ?_⟩
      · rw [List.length_drop] at hr
        omega
      · rintro rfl rest' hm'
        have hle := hm.suffix.length_le
        rw [List.length_drop] at hle
        -- all the text is left, so the star stands for no text
        obtain rfl : n = 0 := by omega
        obtain ⟨n', hn', hm'⟩ := (hwhole rest').1 hm'
        by_cases hzero : n' = 0
        · subst hzero
          exact hmin rfl rest' hm'
        · have hfail := hbehind (rest.drop n')
          rw [hlater n' (by omega) hn'] at hfail
          exact absurd hm' hfail.not_matches
    · exact absurd hr hne
  · rw [if_pos heq]
    refine Or.inr ⟨rfl, fun rest hm => ?_⟩
    obtain ⟨n, hn, hm⟩ := (hwhole rest).1 hm
    have hfail := hbehind (str.drop n)
    rw [hnone n hn] at hfail
    exact hfail.not_matches hm

private theorem matchFrom_special (j : Nat) : matchFrom (STAR :: pattern) str j =
    match pattern with
    | [] => j + (str.takeWhile (· != SLASH)).length
    | d :: pattern' =>
      let (res, len) :=
        if d = STAR then
          if pattern' = [] then (0, str.length) else matchStar (matchFrom pattern' · 0) str str.length
        else matchStar (matchFrom pattern · 0) str (str.takeWhile (· != SLASH)).length
      if res = -1 then -1 else j + res + len := by
  rw [matchFrom, if_neg (fun h => absurd h.1 (by decide)), if_neg (by decide), if_pos rfl]

private theorem matchFrom_star (hp : pattern.head? ≠ some STAR) (j : Nat) :
    let found := matchStar (matchFrom pattern · 0) str (str.takeWhile (· != SLASH)).length
    matchFrom (STAR :: pattern) str j = if found.1 = -1 then -1 else j + found.1 + found.2 := by
  cases pattern with
  | nil =>
    have hend : matchStar (matchFrom [] · 0) str (str.takeWhile (· != SLASH)).length =
        (0, (str.takeWhile (· != SLASH)).length) := by
      cases (str.takeWhile (· != SLASH)).length <;> rfl
    rw [matchFrom_special, hend]
    simp
  | cons d pattern =>
    have hd : d ≠ STAR := fun h => hp (by rw [h]; rfl)
    rw [matchFrom_special]
    simp only [if_neg hd]

private theorem matchFrom_stars (j : Nat) :
    let found := matchStar (matchFrom pattern · 0) str str.length
    matchFrom (STAR :: STAR :: pattern) str j = if found.1 = -1 then -1 else j + found.1 + found.2 := by
  cases pattern with
  | nil =>
    have hend : matchStar (matchFrom [] · 0) str str.length = (0, str.length) := by
      cases str.length <;> rfl
    rw [matchFrom_special, hend]
    simp
  | cons d pattern =>
    rw [matchFrom_special]
    simp only [if_true, reduceCtorEq, if_false]

/-- What a character adds to the search, with the text behind it. -/
private theorem found_cons {c x : UInt8} {r : Int} (h : Found pattern str r)
    (hwhole : ∀ rest, Matches (c :: pattern) (x :: str) rest ↔ Matches pattern str rest) :
    Found (c :: pattern) (x :: str) (if r = -1 then -1 else r + 1) := by
  rcases h with ⟨rest, hm, hr, -⟩ | ⟨hr, hnone⟩
  · have hle := hm.suffix.length_le
    rw [if_neg (by omega)]
    refine Or.inl ⟨rest, (hwhole rest).2 hm, by rw [List.length_cons]; omega, ?_⟩
    rintro rfl
    rw [List.length_cons] at hle
    omega
  · rw [if_pos hr]
    exact Or.inr ⟨rfl, fun rest hm => hnone rest ((hwhole rest).1 hm)⟩

private theorem not_matches_nil {c : UInt8} (hstop : c ≠ DOLLAR) (hstar : c ≠ STAR) :
    ¬ Matches (c :: pattern) [] rest := by
  intro h
  generalize hp : c :: pattern = p, hs : ([] : List UInt8) = s at h
  cases h with
  | nil => cases hp
  | any => cases hs
  | stop => exact hstop (List.cons.inj hp).1
  | star => exact hstar (List.cons.inj hp).1
  | stars => exact hstar (List.cons.inj hp).1
  | char => cases hs

private theorem matches_any_iff {x : UInt8} :
    Matches (QUESTION :: pattern) (x :: str) rest ↔ Matches pattern str rest := by
  constructor
  · intro h
    cases h with
    | any h => exact h
    | char hc => exact absurd rfl hc
  · exact .any

private theorem matches_char_iff {c : UInt8} (hany : c ≠ QUESTION) (hstop : c ≠ DOLLAR) (hstar : c ≠ STAR) {x : UInt8} :
    Matches (c :: pattern) (x :: str) rest ↔ c = x ∧ Matches pattern str rest := by
  constructor
  · intro h
    generalize hs : x :: str = s at h
    cases h with
    | any => exact absurd rfl hany
    | stop => exact absurd rfl hstop
    | star => exact absurd rfl hstar
    | stars => exact absurd rfl hstar
    | char _ _ _ h =>
      cases hs
      exact ⟨rfl, h⟩
  · rintro ⟨rfl, h⟩
    exact .char hany hstop hstar h

/-- The result for the text from `j` on is `j` more than what is found there. -/
private theorem matchFrom_found (pattern str : List UInt8) :
    ∃ r, Found pattern str r ∧ ∀ j, matchFrom pattern str j = if r = -1 then -1 else j + r := by
  induction hk : pattern.length using Nat.strongRecOn generalizing pattern str with
  | ind k ih =>
    subst hk
    have hbehind : ∀ p : List UInt8, p.length < pattern.length → ∀ s, Found p s (matchFrom p s 0) := by
      intro p hp s
      obtain ⟨r, hr, heq⟩ := ih p.length hp p s rfl
      rw [heq 0]
      split
      next h => exact h ▸ hr
      next => simpa using hr
    cases pattern with
    | nil =>
      refine ⟨0, Or.inl ⟨str, .nil, by simp, ?_⟩, fun j => by simp [matchFrom]⟩
      rintro - rest hm
      cases hm
      rfl
    | cons c pattern =>
      by_cases hstar : c = STAR
      · subst hstar
        by_cases hp : pattern.head? = some STAR
        · cases pattern with
          | nil => cases hp
          | cons d pattern =>
            cases hp
            have hrest := hbehind pattern (by rw [List.length_cons, List.length_cons]; omega)
            have hnonneg := matchStar_eq_neg_one_or hrest str str.length
            refine ⟨_, found_star (Nat.le_refl _) hrest fun rest => matches_stars_iff, fun j => ?_⟩
            rw [matchFrom_stars]
            split <;> omega
        · have hlen := (List.takeWhile_prefix (l := str) (· != SLASH)).length_le
          have hrest := hbehind pattern (Nat.lt_succ_self _)
          have hnonneg := matchStar_eq_neg_one_or hrest str (str.takeWhile (· != SLASH)).length
          refine ⟨_, found_star hlen hrest fun rest => matches_star_iff hp, fun j => ?_⟩
          rw [matchFrom_star hp]
          split <;> omega
      by_cases hstop : c = DOLLAR
      · subst hstop
        cases str with
        | nil =>
          refine ⟨0, Or.inl ⟨[], .stop, rfl, ?_⟩, fun j => by simp [matchFrom]⟩
          rintro - rest hm
          exact List.suffix_nil.1 hm.suffix
        | cons x str =>
          refine ⟨-1, Or.inr ⟨rfl, ?_⟩, fun j => ?_⟩
          · intro rest hm
            cases hm with
            | char _ hc => exact hc rfl
          · rw [matchFrom, if_neg fun h => absurd h.1 (by decide), if_pos rfl,
              if_neg (List.cons_ne_nil x str), if_pos rfl]
      -- one character of the pattern against one of the text
      cases str with
      | nil =>
        exact ⟨-1, Or.inr ⟨rfl, fun rest => not_matches_nil hstop hstar⟩, fun j => by simp [matchFrom, hstop, hstar]⟩
      | cons x str =>
        obtain ⟨r, hr, heq⟩ := ih pattern.length (by simp) pattern str rfl
        have hnonneg := hr.eq_neg_one_or
        by_cases hany : c = QUESTION
        · subst hany
          refine ⟨_, found_cons hr fun rest => matches_any_iff, fun j => ?_⟩
          simp only [matchFrom, ne_eq, reduceCtorEq, not_false_eq_true, and_self, if_true, List.tail_cons, heq]
          split <;> omega
        · by_cases hx : c = x
          · subst hx
            have hwhole : ∀ rest, Matches (c :: pattern) (c :: str) rest ↔ Matches pattern str rest := fun rest => by
              rw [matches_char_iff hany hstop hstar, and_iff_right rfl]
            refine ⟨_, found_cons hr hwhole, fun j => ?_⟩
            simp only [matchFrom, hany, hstop, hstar, false_and, if_false, List.head?_cons, ne_eq, not_true,
              List.tail_cons, heq]
            split <;> omega
          · refine ⟨-1, Or.inr ⟨rfl, ?_⟩, fun j => by simp [matchFrom, hany, hstop, hstar, hx]⟩
            intro rest hm
            exact hx ((matches_char_iff hany hstop hstar).1 hm).1

private theorem found_matchFrom (pattern str : List UInt8) : Found pattern str (matchFrom pattern str 0) := by
  obtain ⟨r, hr, heq⟩ := matchFrom_found pattern str
  rw [heq 0]
  split
  next h => exact h ▸ hr
  next => simpa using hr

/-! ### Alternatives -/

private theorem found_pos_iff {r : Int} (h : Found pattern str r) :
    0 < r ↔ ∃ rest, Matches pattern str rest ∧ rest ≠ str := by
  constructor
  · intro hpos
    rcases h with ⟨rest, hm, hr, -⟩ | ⟨hr, -⟩
    · refine ⟨rest, hm, ?_⟩
      rintro rfl
      omega
    · omega
  · rintro ⟨rest', hm', hne⟩
    rcases h with ⟨rest, hm, hr, hmin⟩ | ⟨-, hnone⟩
    · have hle := hm.suffix.length_le
      by_contra hzero
      have hrest : rest = str := hm.suffix.eq_of_length (by omega)
      exact hne (hmin hrest rest' hm')
    · exact absurd hm' (hnone rest')

private theorem matchAny_cons (p q : List UInt8) (patterns : List (List UInt8)) (str : List UInt8) :
    matchAny (p :: q :: patterns) str =
      if matchFrom p str 0 > 0 then matchFrom p str 0 else matchAny (q :: patterns) str := rfl

private theorem matchAny_pos {patterns : List (List UInt8)} (hpos : 0 < matchAny patterns str) :
    ∃ pattern ∈ patterns, ∃ rest, Matches pattern str rest ∧ matchAny patterns str + rest.length = str.length := by
  have hfirst : ∀ p, 0 < matchFrom p str 0 →
      ∃ rest, Matches p str rest ∧ matchFrom p str 0 + rest.length = str.length := by
    intro p hp
    rcases found_matchFrom p str with ⟨rest, hm, hr, -⟩ | ⟨hr, -⟩
    · exact ⟨rest, hm, hr⟩
    · omega
  induction patterns with
  | nil => exact absurd (show (0 : Int) < -1 from hpos) (by decide)
  | cons p patterns ih =>
    cases patterns with
    | nil => exact ⟨p, List.mem_singleton_self p, hfirst p hpos⟩
    | cons q patterns =>
      rw [matchAny_cons] at hpos ⊢
      split at hpos
      next hp =>
        rw [if_pos hp]
        exact ⟨p, List.mem_cons_self, hfirst p hp⟩
      next hp =>
        rw [if_neg hp]
        obtain ⟨r, hr, h⟩ := ih hpos
        exact ⟨r, List.mem_cons_of_mem p hr, h⟩

private theorem matchAny_pos_of_mem {patterns : List (List UInt8)} {p : List UInt8} (hp : p ∈ patterns)
    (hm : Matches p str rest) (hne : rest ≠ str) : 0 < matchAny patterns str := by
  have hpos := (found_pos_iff (found_matchFrom p str)).2 ⟨rest, hm, hne⟩
  induction patterns with
  | nil => cases hp
  | cons q patterns ih =>
    cases patterns with
    | nil =>
      rw [List.mem_singleton] at hp
      subst hp
      exact hpos
    | cons q' patterns =>
      rw [matchAny_cons]
      split
      next hq => exact hq
      next hq =>
        rcases List.mem_cons.1 hp with rfl | hp
        · exact absurd hpos hq
        · exact ih hp

theorem exists_matches_of_pos (h : 0 < matchPrefix pattern str) : ∃ alternative ∈ pattern.splitOn BAR, ∃ rest,
    Matches alternative str rest ∧ matchPrefix pattern str + rest.length = str.length := matchAny_pos h

theorem matchPrefix_pos_iff (pattern str : List UInt8) : 0 < matchPrefix pattern str ↔
    ∃ alternative ∈ pattern.splitOn BAR, ∃ rest, Matches alternative str rest ∧ rest ≠ str := by
  constructor
  · intro h
    obtain ⟨p, hp, rest, hm, hr⟩ := exists_matches_of_pos h
    refine ⟨p, hp, rest, hm, ?_⟩
    rintro rfl
    omega
  · rintro ⟨p, hp, rest, hm, hne⟩
    exact matchAny_pos_of_mem hp hm hne

/-- The search misses no match, whatever has to be chosen for the stars, and what it returns is the length of one. -/
theorem matchPrefix_spec (pattern str : List UInt8) :
    (0 < matchPrefix pattern str ↔ ∃ alternative ∈ pattern.splitOn BAR, ∃ rest, Matches alternative str rest ∧
      rest ≠ str) ∧
      (0 < matchPrefix pattern str → ∃ alternative ∈ pattern.splitOn BAR, ∃ rest, Matches alternative str rest ∧
        matchPrefix pattern str + rest.length = str.length) :=
  ⟨matchPrefix_pos_iff pattern str, exists_matches_of_pos⟩

/-! ### Hidden files -/

def passwordsFileName : List UInt8 := ascii ['.', 'h', 't', 'p', 'a', 's', 's', 'w', 'd']

def mustHideFile (hideFiles : Option (List UInt8)) (path : List UInt8) : Bool :=
  matchPrefix (STAR :: STAR :: (passwordsFileName ++ [DOLLAR])) path > 0 ||
    match hideFiles with
    | some pattern => matchPrefix pattern path > 0
    | none => false

/-- A pattern of ordinary characters. -/
def IsLiteral (pattern : List UInt8) : Prop := ∀ c ∈ pattern, c ≠ QUESTION ∧ c ≠ DOLLAR ∧ c ≠ STAR ∧ c ≠ BAR

theorem matches_literal_append {lit : List UInt8} (hlit : IsLiteral lit) :
    Matches (lit ++ pattern) str rest ↔ ∃ str', str = lit ++ str' ∧ Matches pattern str' rest := by
  induction lit generalizing str with
  | nil => simp
  | cons c lit ih =>
    rw [IsLiteral, List.forall_mem_cons] at hlit
    obtain ⟨⟨hany, hstop, hstar, -⟩, hlit⟩ := hlit
    cases str with
    | nil =>
      refine iff_of_false (not_matches_nil hstop hstar) ?_
      rintro ⟨str', h, -⟩
      cases h
    | cons x str =>
      rw [List.cons_append, matches_char_iff hany hstop hstar, ih hlit]
      constructor
      · rintro ⟨rfl, str', rfl, h⟩
        exact ⟨str', rfl, h⟩
      · rintro ⟨str', heq, h⟩
        cases heq
        exact ⟨rfl, str', rfl, h⟩

/-- An ordinary text matches itself. -/
theorem matchPrefix_literal {lit : List UInt8} (hlit : IsLiteral lit) (hne : lit ≠ []) (text : List UInt8) :
    matchPrefix lit (lit ++ text) = lit.length := by
  have hsplit : lit.splitOn BAR = [lit] := List.splitOn_eq_singleton fun h => (hlit BAR h).2.2.2 rfl
  have hiff : ∀ rest, Matches lit (lit ++ text) rest ↔ rest = text := by
    intro rest
    have h := @matches_literal_append [] (lit ++ text) rest lit hlit
    rw [List.append_nil] at h
    rw [h]
    constructor
    · rintro ⟨str', heq, hm⟩
      cases hm
      exact (List.append_cancel_left heq).symm
    · rintro rfl
      exact ⟨rest, rfl, .nil⟩
  have hpos : 0 < matchPrefix lit (lit ++ text) := by
    rw [matchPrefix_pos_iff, hsplit]
    refine ⟨lit, List.mem_singleton_self lit, text, (hiff text).2 rfl, fun h => hne ?_⟩
    have := congrArg List.length h
    rw [List.length_append] at this
    exact List.length_eq_zero_iff.1 (by omega)
  obtain ⟨p, hp, rest, hm, hlen⟩ := exists_matches_of_pos hpos
  rw [hsplit, List.mem_singleton] at hp
  subst hp
  rw [(hiff rest).1 hm, List.length_append] at hlen
  omega

end Tinyweb
