import Mathlib.Algebra.Order.Ring.Int
import Tinyweb.Lib.CString

/-!
# Numbers in texts

`decimal` writes a number as `printf` does, `strtoll` and the conversion `%d` of `sscanf` read one.  `sscanf` goes
through the directives of its format and stops at the first that does not fit; its result is the list of converted
values, so that the number it returns is the length of the list.  Digits are read back up to the first other character
(`scanNumber_digits`, `scanNumber_decimal`).
-/

namespace Clib

def decimal (n : Nat) : List UInt8 := (Nat.toDigits 10 n).map Char.toUInt8

/-- The value of decimal digits. -/
def digitsValue (digits : List UInt8) : Int := digits.foldl (fun v d => v * 10 + (d.toNat - 48)) 0

/-- Numbers that do not fit are replaced by the largest or the smallest one. -/
def strtoll (s : List UInt8) : Int :=
  let s := s.dropWhile isspace
  let digits := (if s.headD NUL = MINUS ∨ s.headD NUL = PLUS then s.tail else s).takeWhile isdigit
  if s.headD NUL = MINUS then max (-digitsValue digits) (-9223372036854775808)
  else min (digitsValue digits) 9223372036854775807

/-- A conversion `%lld`: the number and the text behind it. -/
def scanNumber (s : List UInt8) : Option (Int × List UInt8) :=
  let s := s.dropWhile isspace
  let digits := if s.headD NUL = MINUS ∨ s.headD NUL = PLUS then s.tail else s
  if digits.takeWhile isdigit = [] then none else some (strtoll s, digits.dropWhile isdigit)

/-- A conversion `%3s`: a word of at most `width` characters, and the text behind it. -/
def scanWord (width : Nat) (s : List UInt8) : Option (List UInt8 × List UInt8) :=
  let s := s.dropWhile isspace
  let word := (s.take width).takeWhile (!isspace ·)
  if word = [] then none else some (word, s.drop word.length)

inductive Directive where
  | number
  | word (width : Nat)
  /-- `%*3s` -/
  | skipWord (width : Nat)
  | literal (c : UInt8)
  | blank
  deriving DecidableEq, Repr

inductive Scanned where
  | number (n : Int)
  | word (w : List UInt8)
  deriving DecidableEq, Repr

def Scanned.number? : Scanned → Option Int
  | .number n => some n
  | .word _ => none

def Scanned.word? : Scanned → Option (List UInt8)
  | .number _ => none
  | .word w => some w

def sscanf : List Directive → List UInt8 → List Scanned
  | [], _ => []
  | .number :: format, s =>
    match scanNumber s with
    | some (n, s) => .number n :: sscanf format s
    | none => []
  | .word width :: format, s =>
    match scanWord width s with
    | some (w, s) => .word w :: sscanf format s
    | none => []
  | .skipWord width :: format, s =>
    match scanWord width s with
    | some (_, s) => sscanf format s
    | none => []
  | .literal c :: format, s => if s.head? = some c then sscanf format s.tail else []
  | .blank :: format, s => sscanf format (s.dropWhile isspace)

section

variable {format : List Directive} {s u w : List UInt8} {n : Int} {width : Nat}

theorem sscanf_number (h : scanNumber s = some (n, u)) :
    sscanf (.number :: format) s = .number n :: sscanf format u := by
  rw [sscanf, h]

theorem sscanf_word (h : scanWord width s = some (w, u)) :
    sscanf (.word width :: format) s = .word w :: sscanf format u := by
  rw [sscanf, h]

theorem sscanf_skipWord (h : scanWord width s = some (w, u)) :
    sscanf (.skipWord width :: format) s = sscanf format u := by
  rw [sscanf, h]

theorem sscanf_literal (c : UInt8) : sscanf (.literal c :: format) (c :: s) = sscanf format s := by
  rw [sscanf, List.head?_cons, if_pos rfl, List.tail_cons]

theorem sscanf_literals (w : List UInt8) : sscanf (w.map .literal ++ format) (w ++ s) = sscanf format s := by
  induction w with
  | nil => rfl
  | cons c w ih => rw [List.map_cons, List.cons_append, List.cons_append, sscanf_literal, ih]

def Directive.converts : Directive → Bool
  | .number | .word _ => true
  | .skipWord _ | .literal _ | .blank => false

theorem length_sscanf_le (format : List Directive) (s : List UInt8) :
    (sscanf format s).length ≤ format.countP Directive.converts := by
  induction format generalizing s with
  | nil => exact Nat.le_refl 0
  | cons d format ih =>
    cases d with
    | number =>
      rw [sscanf, List.countP_cons_of_pos rfl]
      split
      next n s _ => exact Nat.succ_le_succ (ih s)
      next => exact Nat.zero_le _
    | word width =>
      rw [sscanf, List.countP_cons_of_pos rfl]
      split
      next w s _ => exact Nat.succ_le_succ (ih s)
      next => exact Nat.zero_le _
    | skipWord width =>
      rw [sscanf, List.countP_cons_of_neg Bool.false_ne_true]
      split
      next w s _ => exact ih s
      next => exact Nat.zero_le _
    | literal c =>
      rw [sscanf, List.countP_cons_of_neg Bool.false_ne_true]
      split
      next => exact ih s.tail
      next => exact Nat.zero_le _
    | blank =>
      rw [sscanf, List.countP_cons_of_neg Bool.false_ne_true]
      exact ih _

private theorem dropWhile_isspace_space (s : List UInt8) :
    ((SPACE :: s).dropWhile isspace).dropWhile isspace = s.dropWhile isspace := by
  have hdrop : (SPACE :: s).dropWhile isspace = s.dropWhile isspace := List.dropWhile_cons_of_pos rfl
  have hhead := List.head?_dropWhile_not isspace s
  rw [hdrop]
  cases hs : s.dropWhile isspace with
  | nil => rfl
  | cons c u =>
    rw [hs] at hhead
    exact List.dropWhile_cons_of_neg (by simpa using hhead)

/-- The conversions skip blanks themselves. -/
theorem sscanf_blank_number : sscanf (.blank :: .number :: format) (SPACE :: s) = sscanf (.number :: format) s := by
  show sscanf (.number :: format) ((SPACE :: s).dropWhile isspace) = _
  rw [sscanf, sscanf, scanNumber, scanNumber, dropWhile_isspace_space]

theorem sscanf_blank_word : sscanf (.blank :: .word width :: format)
    (SPACE :: s) = sscanf (.word width :: format) s := by
  show sscanf (.word width :: format) ((SPACE :: s).dropWhile isspace) = _
  rw [sscanf, sscanf, scanWord, scanWord, dropWhile_isspace_space]

end

/-! ### Reading back what was printed -/

private theorem isdigit_digitChar : ∀ d : Fin 10, isdigit (Nat.digitChar d).toUInt8 = true ∧
    ((Nat.digitChar d).toUInt8.toNat : Int) - 48 = d := by
  decide

private theorem digitsValue_append (ds : List UInt8) (d : UInt8) :
    digitsValue (ds ++ [d]) = digitsValue ds * 10 + (d.toNat - 48) := by
  rw [digitsValue, List.foldl_append]
  rfl

theorem decimal_spec (n : Nat) : decimal n ≠ [] ∧ (∀ c ∈ decimal n, isdigit c = true) ∧
    digitsValue (decimal n) = n := by
  unfold decimal
  induction n using Nat.strongRecOn with
  | ind n ih =>
    by_cases hn : n < 10
    · obtain ⟨hdigit, hvalue⟩ := isdigit_digitChar ⟨n, hn⟩
      rw [Nat.toDigits_of_lt_base hn]
      refine ⟨List.cons_ne_nil _ _, List.forall_mem_singleton.2 hdigit, ?_⟩
      show 0 * 10 + (((Nat.digitChar n).toUInt8.toNat : Int) - 48) = n
      rw [hvalue, Int.zero_mul, Int.zero_add]
    · obtain ⟨hne, hdigits, hvalue⟩ := ih (n / 10) (by omega)
      obtain ⟨hdigit, hlast⟩ := isdigit_digitChar ⟨n % 10, Nat.mod_lt _ (by decide)⟩
      rw [Nat.toDigits_of_base_le (by decide) (by omega), List.map_append, List.map_singleton]
      refine ⟨List.append_ne_nil_of_left_ne_nil hne _, fun c hc => ?_, ?_⟩
      · rcases List.mem_append.1 hc with hc | hc
        · exact hdigits c hc
        · rw [List.mem_singleton.1 hc]
          exact hdigit
      · rw [digitsValue_append, hvalue, hlast]
        push_cast
        omega

theorem not_mem_decimal {c : UInt8} (hc : isdigit c = false) (n : Nat) : c ∉ decimal n := by
  intro hmem
  rw [(decimal_spec n).2.1 c hmem] at hc
  cases hc

theorem length_decimal_le {n k : Nat} (hk : 0 < k) (hn : n < 10 ^ k) : (decimal n).length ≤ k := by
  rw [decimal, List.length_map]
  exact (Nat.length_toDigits_le_iff (by decide) hk).2 hn

private theorem isspace_of_isdigit {c : UInt8} (h : isdigit c = true) : isspace c = false ∧ c ≠ MINUS ∧ c ≠ PLUS := by
  unfold isdigit at h
  simp only [Bool.and_eq_true, decide_eq_true_eq, UInt8.le_iff_toNat_le] at h
  have h48 : (48 : UInt8).toNat = 48 := rfl
  have h57 : (57 : UInt8).toNat = 57 := rfl
  refine ⟨?_, ?_, ?_⟩
  · have h9 : (9 : UInt8).toNat = 9 := rfl
    have h13 : (13 : UInt8).toNat = 13 := rfl
    have hne : c ≠ SPACE := by
      rintro rfl
      have : SPACE.toNat = 32 := rfl
      omega
    simp only [isspace, Bool.or_eq_false_iff, beq_eq_false_iff_ne, Bool.and_eq_false_iff, decide_eq_false_iff_not,
      UInt8.le_iff_toNat_le]
    exact ⟨hne, Or.inr (by omega)⟩
  · rintro rfl
    have : MINUS.toNat = 45 := rfl
    omega
  · rintro rfl
    have : PLUS.toNat = 43 := rfl
    omega

private theorem digitsValue_nonneg {ds : List UInt8} (h : ∀ c ∈ ds, isdigit c = true) : 0 ≤ digitsValue ds := by
  induction ds using List.reverseRecOn with
  | nil => exact Int.le_refl 0
  | append_singleton ds d ih =>
    have hd := h d (List.mem_append_right _ List.mem_cons_self)
    have hds := ih fun c hc => h c (List.mem_append_left _ hc)
    simp only [isdigit, Bool.and_eq_true, decide_eq_true_eq, UInt8.le_iff_toNat_le] at hd
    have h48 : (48 : UInt8).toNat = 48 := rfl
    rw [digitsValue_append]
    omega

theorem strtoll_bounds (s : List UInt8) : -9223372036854775808 ≤ strtoll s ∧ strtoll s ≤ 9223372036854775807 := by
  unfold strtoll
  dsimp only
  have hdigits : ∀ {u : List UInt8}, ∀ c ∈ u.takeWhile isdigit, isdigit c = true :=
    fun c hc => List.mem_takeWhile_imp hc
  have hvalue := digitsValue_nonneg (@hdigits
    (if (s.dropWhile isspace).headD NUL = MINUS ∨ (s.dropWhile isspace).headD NUL = PLUS
    then (s.dropWhile isspace).tail else s.dropWhile isspace))
  split <;> omega

private theorem value_of_scanNumber {s u : List UInt8} {n : Int} (h : scanNumber s = some (n, u)) :
    n = strtoll (s.dropWhile isspace) := by
  unfold scanNumber at h
  dsimp only at h
  generalize (if (s.dropWhile isspace).headD NUL = MINUS ∨ (s.dropWhile isspace).headD NUL = PLUS then
    (s.dropWhile isspace).tail else s.dropWhile isspace) = digits at h
  split at h
  next => cases h
  next =>
    cases h
    rfl

/-- Numbers that are converted fit into 64 bits. -/
theorem sscanf_bounds {format : List Directive} {s : List UInt8} {n : Int} (h : .number n ∈ sscanf format s) :
    -9223372036854775808 ≤ n ∧ n ≤ 9223372036854775807 := by
  induction format generalizing s with
  | nil => cases h
  | cons d format ih =>
    cases d with
    | number =>
      rw [sscanf] at h
      split at h
      next m u hscan =>
        rcases List.mem_cons.1 h with heq | h
        · cases heq
          rw [value_of_scanNumber hscan]
          exact strtoll_bounds _
        · exact ih h
      next => cases h
    | word width =>
      rw [sscanf] at h
      split at h
      next w u _ =>
        rcases List.mem_cons.1 h with heq | h
        · cases heq
        · exact ih h
      next => cases h
    | skipWord width =>
      rw [sscanf] at h
      split at h
      next => exact ih h
      next => cases h
    | literal c =>
      rw [sscanf] at h
      split at h
      next => exact ih h
      next => cases h
    | blank =>
      rw [sscanf] at h
      exact ih h

variable {ds rest : List UInt8}

private theorem strtoll_digits (hne : ds ≠ []) (hds : ∀ c ∈ ds, isdigit c = true)
    (hrest : ∀ c ∈ rest.head?, isdigit c = false)
    (hvalue : digitsValue ds ≤ 9223372036854775807) : strtoll (ds ++ rest) = digitsValue ds := by
  cases ds with
  | nil => exact absurd rfl hne
  | cons d ds =>
    obtain ⟨hspace, hminus, hplus⟩ := isspace_of_isdigit (hds d List.mem_cons_self)
    have hdrop : (d :: ds ++ rest).dropWhile isspace = d :: ds ++ rest := List.dropWhile_cons_of_neg (by simp [hspace])
    have hsign : ¬ ((d :: ds ++ rest).headD NUL = MINUS ∨ (d :: ds ++ rest).headD NUL = PLUS) :=
      not_or.2 ⟨hminus, hplus⟩
    unfold strtoll
    dsimp only
    rw [hdrop, if_neg hsign, (span_append hds hrest).1, if_neg (show ¬ (d :: ds ++ rest).headD NUL = MINUS from hminus),
      min_eq_left hvalue]

/-- Digits up to another character. -/
theorem scanNumber_digits (hne : ds ≠ []) (hds : ∀ c ∈ ds, isdigit c = true)
    (hrest : ∀ c ∈ rest.head?, isdigit c = false)
    (hvalue : digitsValue ds ≤ 9223372036854775807) : scanNumber (ds ++ rest) = some (digitsValue ds, rest) := by
  have hstrtoll := strtoll_digits hne hds hrest hvalue
  cases ds with
  | nil => exact absurd rfl hne
  | cons d ds =>
    obtain ⟨hspace, hminus, hplus⟩ := isspace_of_isdigit (hds d List.mem_cons_self)
    have hdrop : (d :: ds ++ rest).dropWhile isspace = d :: ds ++ rest := List.dropWhile_cons_of_neg (by simp [hspace])
    have hsign : ¬ ((d :: ds ++ rest).headD NUL = MINUS ∨ (d :: ds ++ rest).headD NUL = PLUS) :=
      not_or.2 ⟨hminus, hplus⟩
    obtain ⟨htake, hrest'⟩ := span_append hds hrest
    unfold scanNumber
    dsimp only
    rw [hdrop, if_neg hsign, htake, hrest', if_neg hne, hstrtoll]

theorem scanNumber_decimal {n : Nat} (hn : n ≤ 9223372036854775807) (hrest : ∀ c ∈ rest.head?, isdigit c = false) :
    scanNumber (decimal n ++ rest) = some ((n : Int), rest) := by
  obtain ⟨hne, hdigits, hvalue⟩ := decimal_spec n
  rw [scanNumber_digits hne hdigits hrest (by rw [hvalue]; omega), hvalue]

/-- `%lld` -/
def decimalInt (n : Int) : List UInt8 := if n < 0 then MINUS :: decimal n.natAbs else decimal n.natAbs

theorem not_mem_decimalInt {c : UInt8} (hc : isdigit c = false) (hminus : c ≠ MINUS) (n : Int) : c ∉ decimalInt n := by
  unfold decimalInt
  split
  next => exact List.not_mem_cons_of_ne_of_not_mem hminus (not_mem_decimal hc _)
  next => exact not_mem_decimal hc _

theorem length_decimalInt_le {n : Int} {k : Nat} (hk : 0 < k) (hn : n.natAbs < 10 ^ k) :
    (decimalInt n).length ≤ k + 1 := by
  have hlen := length_decimal_le hk hn
  unfold decimalInt
  split
  next =>
    rw [List.length_cons]
    omega
  next => omega

theorem strtoll_decimalInt {n : Int} (hlow : -9223372036854775808 ≤ n) (hhigh : n ≤ 9223372036854775807) :
    strtoll (decimalInt n) = n := by
  obtain ⟨hne, hdigits, hvalue⟩ := decimal_spec n.natAbs
  unfold decimalInt
  split
  next hneg =>
    have hsign : (MINUS :: decimal n.natAbs).headD NUL = MINUS ∨ (MINUS :: decimal n.natAbs).headD NUL = PLUS :=
      Or.inl rfl
    have hdrop : (MINUS :: decimal n.natAbs).dropWhile isspace = MINUS :: decimal n.natAbs := rfl
    unfold strtoll
    dsimp only
    rw [hdrop, if_pos hsign, if_pos (show (MINUS :: decimal n.natAbs).headD NUL = MINUS from rfl), List.tail_cons,
      List.takeWhile_eq_self_iff.2 hdigits, hvalue]
    omega
  next hnonneg =>
    have h := @strtoll_digits _ [] hne hdigits nofun (by rw [hvalue]; omega)
    rw [List.append_nil, hvalue] at h
    rw [h]
    omega

end Clib
