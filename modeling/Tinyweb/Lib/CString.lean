import Mathlib.Data.List.Basic
import Mathlib.Data.List.Infix
import Mathlib.Data.List.TakeWhile
import Mathlib.Tactic.Common

/-!
# C strings

The string functions of the C library on bytes.  A string argument is the list of bytes at the pointer; the end of the
list stands for the terminating NUL, so a list with a NUL inside is read only up to it.  `CStr` is a string as a program
receives it in `argv`: a list of bytes without NUL.  Comparing the first `strlen(key)` characters of a text with `key`
asks whether `key` is a prefix of the text (`strncmp_length_eq_zero_iff`).  The character classes are those of the C
locale.
-/

namespace Clib

def ascii (cs : List Char) : List UInt8 := cs.map Char.toUInt8

abbrev NUL : UInt8 := 0
abbrev TAB : UInt8 := 9
abbrev LF : UInt8 := 10
abbrev CR : UInt8 := 13
abbrev SPACE : UInt8 := 32
abbrev DQUOTE : UInt8 := 34
abbrev HASH : UInt8 := 35
abbrev PERCENT : UInt8 := 37
abbrev AMP : UInt8 := 38
abbrev SQUOTE : UInt8 := 39
abbrev PLUS : UInt8 := 43
abbrev COMMA : UInt8 := 44
abbrev MINUS : UInt8 := 45
abbrev SLASH : UInt8 := 47
abbrev SEMI : UInt8 := 59
abbrev EQUALS : UInt8 := 61
abbrev BQUOTE : UInt8 := 96

/-- A NUL-terminated string: bytes without NUL. -/
structure CStr where
  bytes : List UInt8
  nul_free : NUL ∉ bytes
  deriving DecidableEq, Repr

/-- The conversion of a wider integer to `int`. -/
def toInt (n : Int) : Int := n.bmod 4294967296

theorem toInt_of_lt {n : Nat} (h : n < 2147483648) : toInt n = n := Int.bmod_eq_of_le (by omega) (by omega)

theorem toInt_le (n : Nat) : toInt n ≤ n := by
  unfold toInt Int.bmod
  dsimp only
  split <;> omega

/-! ### Comparisons and character classes -/

def strncmp : List UInt8 → List UInt8 → Nat → Int
  | _, _, 0 => 0
  | s1, s2, n + 1 =>
    if s1.headD NUL ≠ s2.headD NUL then (s1.headD NUL).toNat - (s2.headD NUL).toNat
    else if s1.headD NUL = NUL then 0
    else strncmp s1.tail s2.tail n

def strcmp : List UInt8 → List UInt8 → Int
  | [], s2 => -((s2.headD NUL).toNat : Int)
  | a :: s1, s2 =>
    if a ≠ s2.headD NUL then a.toNat - (s2.headD NUL).toNat
    else if a = NUL then 0
    else strcmp s1 s2.tail

def memcmp : List UInt8 → List UInt8 → Nat → Int
  | a :: s1, b :: s2, n + 1 => if a ≠ b then a.toNat - b.toNat else memcmp s1 s2 n
  | _, _, _ => 0

/-- The text that `snprintf` leaves in an array of `size` bytes. -/
def snprintf (size : Nat) (text : List UInt8) : List UInt8 := text.take (size - 1)

/-- The index of the last `c`. -/
def strrchr (c : UInt8) : List UInt8 → Option Nat
  | [] => none
  | a :: s =>
    match strrchr c s with
    | some i => some (i + 1)
    | none => if a = c then some 0 else none

def isdigit (c : UInt8) : Bool := 48 ≤ c && c ≤ 57

def isalnum (c : UInt8) : Bool := isdigit c || (65 ≤ c && c ≤ 90) || (97 ≤ c && c ≤ 122)

def isxdigit (c : UInt8) : Bool := isdigit c || (65 ≤ c && c ≤ 70) || (97 ≤ c && c ≤ 102)

def isspace (c : UInt8) : Bool := c == SPACE || (9 ≤ c && c ≤ 13)

def tolower (c : UInt8) : UInt8 := if 65 ≤ c && c ≤ 90 then c + 32 else c

/-! ### Cutting a text -/

section

variable {α : Type} {s u : List α} {a c : α}

theorem dropWhile_cons_imp {p : α → Bool} (h : s.dropWhile p = c :: u) : p c = false ∧ s = s.takeWhile p ++ c :: u := by
  constructor
  · have hhead := List.head?_dropWhile_not p s
    rw [h] at hhead
    simpa using hhead
  · rw [← h, List.takeWhile_append_dropWhile]

theorem span_append {p : α → Bool} (hs : ∀ x ∈ s, p x = true) (hu : ∀ x ∈ u.head?, p x = false) :
    (s ++ u).takeWhile p = s ∧ (s ++ u).dropWhile p = u := by
  rw [List.takeWhile_append_of_pos hs, List.dropWhile_append_of_pos hs]
  cases u with
  | nil => simp
  | cons x u =>
    have hx : p x = false := hu x rfl
    simp [hx]

variable [BEq α] [LawfulBEq α]

theorem not_mem_takeWhile_ne (a : α) (s : List α) : a ∉ s.takeWhile (· != a) := by
  intro h
  have := List.mem_takeWhile_imp h
  simp at this

theorem dropWhile_ne_cons (h : s.dropWhile (· != a) = c :: u) : c = a := by
  simpa using (dropWhile_cons_imp h).1

private theorem bne_of_not_mem (h : a ∉ s) : ∀ x ∈ s, (x != a) = true := by
  intro x hx
  rw [bne_iff_ne]
  rintro rfl
  exact h hx

theorem span_ne (h : a ∉ s) (u : List α) :
    (s ++ a :: u).takeWhile (· != a) = s ∧ (s ++ a :: u).dropWhile (· != a) = a :: u :=
  span_append (bne_of_not_mem h) fun x hx => by simp_all

theorem span_ne_self (h : a ∉ s) : s.takeWhile (· != a) = s ∧ s.dropWhile (· != a) = [] := by
  have hcut := @span_append α s [] (· != a) (bne_of_not_mem h) nofun
  rwa [List.append_nil] at hcut

end

section

variable {α : Type} {a : α} {s : List α}

theorem exists_last_of_mem (h : a ∈ s) : ∃ l u, s = l ++ a :: u ∧ a ∉ u := by
  obtain ⟨u, l, hsplit, hu⟩ := List.eq_append_cons_of_mem (List.mem_reverse.2 h)
  refine ⟨l.reverse, u.reverse, ?_, fun hmem => hu (List.mem_reverse.1 hmem)⟩
  have hrev : s.reverse.reverse = (u ++ a :: l).reverse := by rw [hsplit]
  simpa using hrev

/-- The first occurrence of `a` is among the first `k` entries. -/
theorem mem_take_append_cons (h : a ∉ s) (u : List α) (k : Nat) : a ∈ (s ++ a :: u).take k ↔ s.length < k := by
  constructor
  · intro hmem
    by_contra hle
    rw [List.take_append_of_le_length (Nat.not_lt.1 hle)] at hmem
    exact h (List.mem_of_mem_take hmem)
  · intro hlt
    obtain ⟨d, hd⟩ : ∃ d, k = s.length + (d + 1) := ⟨k - s.length - 1, by omega⟩
    rw [hd, List.take_length_add_append, List.take_succ_cons]
    simp

end

/-- A terminated array holds the text up to the first NUL. -/
theorem exists_takeWhile_nul (s rest : List UInt8) :
    ∃ junk, s ++ NUL :: rest = s.takeWhile (· != NUL) ++ NUL :: junk := by
  induction s with
  | nil => exact ⟨rest, rfl⟩
  | cons c s ih =>
    obtain ⟨junk, hjunk⟩ := ih
    by_cases hc : c = NUL
    · subst hc
      exact ⟨s ++ NUL :: rest, rfl⟩
    · refine ⟨junk, ?_⟩
      rw [List.takeWhile_cons, if_pos (bne_iff_ne.2 hc), List.cons_append, hjunk, List.cons_append]

/-! ### The last occurrence of a character -/

theorem strrchr_of_not_mem {c : UInt8} {s : List UInt8} (h : c ∉ s) : strrchr c s = none := by
  induction s with
  | nil => rfl
  | cons a s ih =>
    simp only [List.mem_cons, not_or] at h
    rw [strrchr, ih h.2]
    exact if_neg (Ne.symm h.1)

theorem strrchr_append_cons {c : UInt8} {u : List UInt8} (h : c ∉ u) (s : List UInt8) :
    strrchr c (s ++ c :: u) = some s.length := by
  induction s with
  | nil =>
    rw [List.nil_append, strrchr, strrchr_of_not_mem h]
    exact if_pos rfl
  | cons a s ih =>
    rw [List.cons_append, strrchr, ih]
    rfl

/-! ### What the comparisons decide -/

private theorem toNat_sub_ne_zero {a b : UInt8} (h : a ≠ b) : (a.toNat : Int) - b.toNat ≠ 0 := by
  intro he
  exact h (UInt8.toNat_inj.1 (by omega))

theorem strcmp_eq_zero_iff {s1 s2 : List UInt8} (h1 : NUL ∉ s1) (h2 : NUL ∉ s2) : strcmp s1 s2 = 0 ↔ s1 = s2 := by
  induction s1 generalizing s2 with
  | nil =>
    cases s2 with
    | nil => simp [strcmp]
    | cons b s2 =>
      simp only [List.mem_cons, not_or] at h2
      have := toNat_sub_ne_zero h2.1
      simp [strcmp] at this ⊢
      exact this
  | cons a s1 ih =>
    simp only [List.mem_cons, not_or] at h1
    cases s2 with
    | nil =>
      have := toNat_sub_ne_zero (Ne.symm h1.1)
      simpa [strcmp, Ne.symm h1.1] using this
    | cons b s2 =>
      simp only [List.mem_cons, not_or] at h2
      by_cases hab : a = b
      · subst hab
        simp [strcmp, Ne.symm h1.1, ih h1.2 h2.2]
      · simp [strcmp, hab, toNat_sub_ne_zero hab]

/-- The first characters decide, or the rest. -/
private theorem strcmp_eq (s1 s2 : List UInt8) : strcmp s1 s2 =
    if s1.headD NUL ≠ s2.headD NUL then ((s1.headD NUL).toNat : Int) - (s2.headD NUL).toNat
    else if s1.headD NUL = NUL then 0 else strcmp s1.tail s2.tail := by
  cases s1 with
  | nil =>
    rw [strcmp, List.headD_nil]
    by_cases h : NUL = s2.headD NUL
    · rw [if_neg (not_not.2 h), if_pos rfl, ← h]
      rfl
    · rw [if_pos h]
      exact (Int.zero_sub _).symm
  | cons a s1 => rfl

theorem strcmp_comm (s1 s2 : List UInt8) : strcmp s2 s1 = -strcmp s1 s2 := by
  induction s1 generalizing s2 with
  | nil =>
    rw [strcmp_eq s2, strcmp, List.headD_nil]
    by_cases h : s2.headD NUL = NUL
    · rw [if_neg (not_not.2 h), if_pos h, h]
      rfl
    · rw [if_pos h, Int.neg_neg]
      exact Int.sub_zero _
  | cons a s1 ih =>
    rw [strcmp_eq s2, strcmp_eq (a :: s1), List.headD_cons, List.tail_cons, ih]
    by_cases h : a = s2.headD NUL
    · rw [if_neg (not_not.2 h.symm), if_neg (not_not.2 h), ← h]
      split <;> rfl
    · rw [if_pos (Ne.symm h), if_pos h, Int.neg_sub]

theorem strcmp_trans {s1 s2 s3 : List UInt8} (h12 : strcmp s1 s2 ≤ 0) (h23 : strcmp s2 s3 ≤ 0) : strcmp s1 s3 ≤ 0 := by
  induction s1 generalizing s2 s3 with
  | nil =>
    rw [strcmp]
    omega
  | cons a s1 ih =>
    rw [strcmp_eq, List.headD_cons, List.tail_cons] at h12 ⊢
    rw [strcmp_eq] at h23
    by_cases hab : a = s2.headD NUL
    · rw [if_neg (not_not.2 hab)] at h12
      rw [← hab] at h23
      by_cases hac : a = s3.headD NUL
      · rw [if_neg (not_not.2 hac)] at h23 ⊢
        by_cases ha : a = NUL
        · exact Int.le_of_eq (if_pos ha)
        · rw [if_neg ha] at h12 h23 ⊢
          exact ih h12 h23
      · rwa [if_pos hac] at h23 ⊢
    · rw [if_pos hab] at h12
      have hlt := toNat_sub_ne_zero hab
      have hle : ((s2.headD NUL).toNat : Int) ≤ (s3.headD NUL).toNat := by
        by_cases hbc : s2.headD NUL = s3.headD NUL
        · exact Int.le_of_eq (by rw [hbc])
        · rw [if_pos hbc] at h23
          omega
      have hac : a ≠ s3.headD NUL := by
        rintro rfl
        omega
      rw [if_pos hac]
      omega

/-- The contract of `qsort`: the arguments may be swapped, and the order is transitive. -/
structure IsComparison {α : Type} (compare : α → α → Int) : Prop where
  comm : ∀ a b, compare b a = -compare a b
  trans : ∀ a b c, compare a b ≤ 0 → compare b c ≤ 0 → compare a c ≤ 0

namespace IsComparison

variable {α β : Type} {compare : α → α → Int}

theorem on (h : IsComparison compare) (f : β → α) : IsComparison fun a b => compare (f a) (f b) :=
  ⟨fun a b => h.comm (f a) (f b), fun a b c => h.trans (f a) (f b) (f c)⟩

theorem neg (h : IsComparison compare) : IsComparison fun a b => -compare a b := by
  refine ⟨fun a b => by rw [h.comm], fun a b c hab hbc => ?_⟩
  rw [← h.comm] at hab hbc ⊢
  exact h.trans c b a hbc hab

/-- What is `first` comes first, and the comparison decides among equals. -/
theorem lexicographic (h : IsComparison compare) (first : α → Bool) : IsComparison fun a b =>
    if first a && !first b then -1 else if !first a && first b then 1 else compare a b := by
  constructor
  · intro a b
    have := h.comm a b
    cases first a <;> cases first b <;> simp [this]
  · intro a b c
    have := h.trans a b c
    cases first a <;> cases first b <;> cases first c <;> simp <;> exact this

end IsComparison

theorem isComparison_strcmp : IsComparison strcmp := ⟨strcmp_comm, fun _ _ _ => strcmp_trans⟩

/-- Comparing all the bytes of `s2` is asking for a prefix. -/
theorem memcmp_length_eq_zero_iff {s1 s2 : List UInt8} (h : s2.length ≤ s1.length) :
    memcmp s1 s2 s2.length = 0 ↔ s2 <+: s1 := by
  induction s2 generalizing s1 with
  | nil => cases s1 <;> simp [memcmp]
  | cons b s2 ih =>
    cases s1 with
    | nil => simp at h
    | cons a s1 =>
      by_cases hab : a = b
      · subst hab
        simpa [memcmp, List.cons_prefix_cons] using ih (by simpa using h)
      · simp [memcmp, hab, toNat_sub_ne_zero hab, List.cons_prefix_cons, Ne.symm hab]

/-- Compared with its terminator, a text that is too short differs from `t` there. -/
theorem prefix_of_memcmp_nul {s t : List UInt8} (ht : NUL ∉ t) (h : memcmp (s ++ [NUL]) t t.length = 0) : t <+: s := by
  induction t generalizing s with
  | nil => exact List.nil_prefix
  | cons b t ih =>
    simp only [List.mem_cons, not_or] at ht
    cases s with
    | nil =>
      rw [List.nil_append, List.length_cons, memcmp, if_pos ht.1] at h
      exact absurd h (toNat_sub_ne_zero ht.1)
    | cons a s =>
      by_cases hab : a = b
      · subst hab
        rw [List.cons_prefix_cons]
        refine ⟨rfl, ih ht.2 ?_⟩
        simpa [memcmp] using h
      · simp [memcmp, hab, toNat_sub_ne_zero hab] at h

/-- Comparing the first `strlen(key)` characters of a text with `key` is asking for a prefix. -/
theorem strncmp_length_eq_zero_iff {key s : List UInt8} (hkey : NUL ∉ key) :
    strncmp s key key.length = 0 ↔ key <+: s := by
  induction key generalizing s with
  | nil => simp [strncmp]
  | cons a key ih =>
    simp only [List.mem_cons, not_or] at hkey
    cases s with
    | nil =>
      have := toNat_sub_ne_zero hkey.1
      simpa [strncmp, hkey.1] using this
    | cons b s =>
      by_cases hab : b = a
      · subst hab
        have hb : b ≠ NUL := Ne.symm hkey.1
        simp only [List.length_cons, strncmp, List.headD_cons, ne_eq, not_true_eq_false, ↓reduceIte, hb,
          List.tail_cons, ih hkey.2, List.cons_prefix_cons, true_and]
      · simp [strncmp, hab, toNat_sub_ne_zero hab, List.cons_prefix_cons, Ne.symm hab]

end Clib
