import Tinyweb.Lib.CString
import Mathlib.Data.List.Forall2

/-!
# The form encoding of texts

`unescape` is the decoding of `application/x-www-form-urlencoded` text: `+` is a space and `%` with two hexadecimal
digits is a byte; any other `%` stands for itself.  `Encodes literal b w` says that `w` is one of the encodings of the
byte `b`, when the bytes of `literal` may stand for themselves, and `EncodesText` the same for texts.  A form is a list
of pairs `name=value` joined by `&` (`EncodesForm`); no encoded name contains `=` and no encoded pair `&`, so that the
form splits into the encodings of its pairs (`EncodesForm.splitOn`).  Decoding undoes every encoding
(`EncodesText.unescape_eq`).
-/

namespace Clib

/-- The value of a hexadecimal digit. -/
def hexVal (c : UInt8) : Option Nat :=
  if 48 ≤ c ∧ c ≤ 57 then some (c.toNat - 48)
  else if 65 ≤ c ∧ c ≤ 70 then some (c.toNat - 55)
  else if 97 ≤ c ∧ c ≤ 102 then some (c.toNat - 87)
  else none

/-- The byte written as `%` and two hexadecimal digits. -/
def escape (c l r : UInt8) : Option UInt8 :=
  if c = PERCENT then
    match hexVal l, hexVal r with
    | some a, some b => some (16 * a + b).toUInt8
    | _, _ => none
  else none

/-- A character outside of escapes. -/
def plain (c : UInt8) : UInt8 := if c = PLUS then SPACE else c

def unescape : List UInt8 → List UInt8
  | c :: l :: r :: w =>
    match escape c l r with
    | some b => b :: unescape w
    | none => plain c :: unescape (l :: r :: w)
  | c :: w => plain c :: unescape w
  | [] => []

theorem unescape_cons {c : UInt8} (hc : c ≠ PERCENT) (w : List UInt8) : unescape (c :: w) = plain c :: unescape w := by
  rcases w with _ | ⟨l, _ | ⟨r, w⟩⟩
  · rfl
  · rfl
  · rw [unescape, escape, if_neg hc]

theorem length_lt_two {α : Type} {w : List α} (h : ∀ l r w', w = l :: r :: w' → False) : w.length < 2 := by
  rcases w with _ | ⟨l, _ | ⟨r, w⟩⟩
  · exact Nat.zero_lt_two
  · exact Nat.one_lt_two
  · exact (h l r w rfl).elim

theorem unescape_of_short (c : UInt8) {w : List UInt8} (h : w.length < 2) :
    unescape (c :: w) = plain c :: unescape w := by
  rcases w with _ | ⟨l, _ | ⟨r, w⟩⟩
  · rfl
  · rfl
  · simp only [List.length_cons] at h
    omega

theorem unescape_ne_nil {w : List UInt8} (h : w ≠ []) : unescape w ≠ [] := by
  cases w using unescape.fun_cases with
  | case1 c l r w b hb => simp [unescape, hb]
  | case2 c l r w hb => simp [unescape, hb]
  | case3 c w hw => simp [unescape_of_short c (length_lt_two hw)]
  | case4 => exact absurd rfl h

theorem length_unescape_le (w : List UInt8) : (unescape w).length ≤ w.length := by
  induction w using unescape.induct with
  | case1 c l r w b hb ih =>
    rw [unescape, hb]
    simp only [List.length_cons]
    omega
  | case2 c l r w hb ih =>
    rw [unescape, hb]
    simp only [List.length_cons] at ih ⊢
    omega
  | case3 c w hw ih =>
    rw [unescape_of_short c (length_lt_two hw), List.length_cons, List.length_cons]
    omega
  | case4 => exact Nat.le_refl 0

/-- A text without `%` and `+` stands for itself. -/
theorem unescape_of_literal {w : List UInt8} (h : ∀ c ∈ w, c ≠ PERCENT ∧ c ≠ PLUS) : unescape w = w := by
  induction w with
  | nil => rfl
  | cons c w ih =>
    obtain ⟨hc, hw⟩ := List.forall_mem_cons.1 h
    rw [unescape_cons hc.1, ih hw, plain, if_neg hc.2]

/-! ### Encodings -/

/-- The encodings of a byte: an escape with digits of either case, `+` for a space, or the byte itself. -/
inductive Encodes (literal : UInt8 → Prop) : UInt8 → List UInt8 → Prop where
  | escape {b l r : UInt8} (hl : hexVal l = some (b.toNat / 16)) (hr : hexVal r = some (b.toNat % 16)) :
    Encodes literal b [PERCENT, l, r]
  | plus : Encodes literal SPACE [PLUS]
  | literal {b : UInt8} (h : literal b) : Encodes literal b [b]

inductive EncodesText (literal : UInt8 → Prop) : List UInt8 → List UInt8 → Prop where
  | nil : EncodesText literal [] []
  | cons {b : UInt8} {t w u : List UInt8} (hb : Encodes literal b w) (ht : EncodesText literal t u) :
    EncodesText literal (b :: t) (w ++ u)

variable {literal : UInt8 → Prop} {t w : List UInt8}

private theorem escape_toNat {b l r : UInt8} (hl : hexVal l = some (b.toNat / 16))
    (hr : hexVal r = some (b.toNat % 16)) : escape PERCENT l r = some b := by
  have hb : 16 * (b.toNat / 16) + b.toNat % 16 = b.toNat := Nat.div_add_mod b.toNat 16
  rw [escape, if_pos rfl, hl, hr]
  show some (16 * (b.toNat / 16) + b.toNat % 16).toUInt8 = some b
  rw [hb]
  simp

theorem EncodesText.unescape_eq (hlit : ∀ b, literal b → b ≠ PERCENT ∧ b ≠ PLUS) (h : EncodesText literal t w) :
    unescape w = t := by
  induction h with
  | nil => rfl
  | cons hb ht ih =>
    cases hb with
    | escape hl hr => rw [List.cons_append, List.cons_append, List.cons_append, List.nil_append, unescape,
        escape_toNat hl hr, ih]
    | plus =>
      rw [List.singleton_append, unescape_cons (by decide), ih]
      rfl
    | literal h =>
      obtain ⟨hpercent, hplus⟩ := hlit _ h
      rw [List.singleton_append, unescape_cons hpercent, ih, plain, if_neg hplus]

/-- A character outside of escapes that may not stand for itself is in no encoding. -/
theorem EncodesText.not_mem {c : UInt8} (hhex : hexVal c = none) (hpercent : c ≠ PERCENT) (hplus : c ≠ PLUS)
    (hlit : ¬ literal c) (h : EncodesText literal t w) : c ∉ w := by
  induction h with
  | nil => exact List.not_mem_nil
  | cons hb ht ih =>
    intro hc
    rcases List.mem_append.1 hc with hc | hc
    · cases hb with
      | escape hl hr =>
        simp only [List.mem_cons, List.not_mem_nil, or_false] at hc
        rcases hc with rfl | rfl | rfl
        · exact hpercent rfl
        · rw [hl] at hhex
          cases hhex
        · rw [hr] at hhex
          cases hhex
      | plus => exact hplus (List.mem_singleton.1 hc)
      | literal h => exact hlit (List.mem_singleton.1 hc ▸ h)
    · exact ih hc

theorem EncodesText.ne_nil (h : EncodesText literal t w) (ht : t ≠ []) : w ≠ [] := by
  cases h with
  | nil => exact absurd rfl ht
  | cons hb _ => cases hb <;> simp

/-! ### Forms -/

def ValueLiteral (b : UInt8) : Prop := b ≠ AMP ∧ b ≠ PLUS ∧ b ≠ PERCENT ∧ b ≠ NUL

def NameLiteral (b : UInt8) : Prop := ValueLiteral b ∧ b ≠ EQUALS

instance : DecidablePred ValueLiteral := fun _ => inferInstanceAs (Decidable (_ ∧ _))

instance : DecidablePred NameLiteral := fun _ => inferInstanceAs (Decidable (_ ∧ _))

def EncodesPair (pair : List UInt8 × List UInt8) (w : List UInt8) : Prop :=
  ∃ u v, EncodesText NameLiteral pair.1 u ∧ EncodesText ValueLiteral pair.2 v ∧ w = u ++ EQUALS :: v

def EncodesForm (pairs : List (List UInt8 × List UInt8)) (q : List UInt8) : Prop :=
  ∃ ws, List.Forall₂ EncodesPair pairs ws ∧ q = [AMP].intercalate ws

theorem mem_splitOn {α : Type*} [BEq α] [LawfulBEq α] {a : α} {q w : List α} (h : w ∈ q.splitOn a) : a ∉ w ∧ w ⊆ q := by
  induction q generalizing w with
  | nil => simp_all
  | cons c q ih =>
    rw [List.splitOn_cons_eq_if_modifyHead] at h
    split at h
    · rcases List.mem_cons.mp h with rfl | h
      · exact ⟨List.not_mem_nil, List.nil_subset _⟩
      · exact ⟨(ih h).1, List.subset_cons_of_subset _ (ih h).2⟩
    · rename_i hc
      obtain ⟨v, vs, hv⟩ := List.exists_cons_of_ne_nil (List.splitOn_ne_nil a q)
      rw [hv] at h ih
      rcases List.mem_cons.mp h with rfl | h
      · obtain ⟨ha, hsub⟩ := ih (List.mem_cons_self ..)
        refine ⟨fun hmem => ?_, List.cons_subset_cons c hsub⟩
        rcases List.mem_cons.mp hmem with rfl | hmem
        · exact hc BEq.rfl
        · exact ha hmem
      · obtain ⟨ha, hsub⟩ := ih (List.mem_cons_of_mem _ h)
        exact ⟨ha, List.subset_cons_of_subset _ hsub⟩

private theorem EncodesPair.not_mem {pair : List UInt8 × List UInt8} {c : UInt8} (hc : c = AMP ∨ c = NUL)
    (h : EncodesPair pair w) : c ∉ w := by
  obtain ⟨u, v, hu, hv, rfl⟩ := h
  have hhex : hexVal c = none := by rcases hc with rfl | rfl <;> decide
  have hpercent : c ≠ PERCENT := by rcases hc with rfl | rfl <;> decide
  have hplus : c ≠ PLUS := by rcases hc with rfl | rfl <;> decide
  have hequals : c ≠ EQUALS := by rcases hc with rfl | rfl <;> decide
  have hlit : ¬ ValueLiteral c := by
    rintro ⟨hamp, _, _, hnul⟩
    rcases hc with rfl | rfl
    · exact hamp rfl
    · exact hnul rfl
  intro hmem
  rcases List.mem_append.1 hmem with hmem | hmem
  · exact hu.not_mem hhex hpercent hplus (fun h => hlit h.1) hmem
  · rcases List.mem_cons.1 hmem with rfl | hmem
    · exact hequals rfl
    · exact hv.not_mem hhex hpercent hplus hlit hmem

private theorem not_mem_intercalate {α : Type*} {a : α} {sep : List α} {ws : List (List α)} (hsep : a ∉ sep)
    (h : ∀ w ∈ ws, a ∉ w) : a ∉ sep.intercalate ws := by
  induction ws with
  | nil => exact List.not_mem_nil
  | cons w ws ih =>
    have hw := h w (List.mem_cons_self ..)
    cases ws with
    | nil => rwa [List.intercalate_singleton]
    | cons w' ws =>
      have hws := ih fun x hx => h x (List.mem_cons_of_mem _ hx)
      simp only [List.intercalate_cons_cons, List.mem_append, not_or]
      exact ⟨⟨hw, hsep⟩, hws⟩

/-- The pairs of a form are what stands between its separators. -/
theorem EncodesForm.splitOn {pairs : List (List UInt8 × List UInt8)} {q : List UInt8} (hne : pairs ≠ [])
    (h : EncodesForm pairs q) : List.Forall₂ EncodesPair pairs (q.splitOn AMP) ∧ NUL ∉ q := by
  obtain ⟨ws, hws, rfl⟩ := h
  have hmem : ∀ w ∈ ws, AMP ∉ w ∧ NUL ∉ w := by
    clear hne
    induction hws with
    | nil => exact fun w hw => absurd hw List.not_mem_nil
    | cons hpair _ ih =>
      intro w hw
      rcases List.mem_cons.1 hw with rfl | hw
      · exact ⟨hpair.not_mem (Or.inl rfl), hpair.not_mem (Or.inr rfl)⟩
      · exact ih w hw
  have hws' : ws ≠ [] := by
    rintro rfl
    exact hne (List.forall₂_nil_right_iff.1 hws)
  constructor
  · rw [List.splitOn_intercalate AMP (fun w hw => (hmem w hw).1) hws']
    exact hws
  · exact not_mem_intercalate (by decide) fun w hw => (hmem w hw).2

end Clib
