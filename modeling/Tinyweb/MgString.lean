import Tinyweb.Lib.CString

/-!
# Strings in `mongoose.c`

The comparisons without regard to case, and `mg_printf`.  The latter prints into an array of `MG_BUF_LEN` bytes first,
which a text of exactly that length does not fit; a shorter one is written as it is (`mgPrintf_of_lt`).
-/

namespace Tinyweb

open Clib

/-! ### Comparisons -/

def mgStrcasecmp : List UInt8 → List UInt8 → Int
  | [], s2 => (tolower NUL).toNat - (tolower (s2.headD NUL)).toNat
  | a :: s1, s2 =>
    let diff : Int := (tolower a).toNat - (tolower (s2.headD NUL)).toNat
    if diff = 0 ∧ a ≠ NUL then mgStrcasecmp s1 s2.tail else diff

private theorem tolower_eq_nul (c : UInt8) (h : tolower c = NUL) : c = NUL := by
  unfold tolower at h
  split at h
  next hupper =>
    simp only [Bool.and_eq_true, decide_eq_true_eq, UInt8.le_iff_toNat_le, ← UInt8.toNat_inj,
      UInt8.toNat_add] at hupper h
    have h65 : (65 : UInt8).toNat = 65 := rfl
    have h90 : (90 : UInt8).toNat = 90 := rfl
    have h32 : (32 : UInt8).toNat = 32 := rfl
    have h0 : NUL.toNat = 0 := rfl
    omega
  next => exact h

private theorem toNat_tolower_sub {a b : UInt8} (h : ((tolower a).toNat : Int) - (tolower b).toNat = 0) :
    tolower a = tolower b := UInt8.toNat_inj.1 (by omega)

/-- Equal without regard to case. -/
theorem mgStrcasecmp_eq_zero_iff {s1 s2 : List UInt8} (h1 : NUL ∉ s1) (h2 : NUL ∉ s2) :
    mgStrcasecmp s1 s2 = 0 ↔ s1.map tolower = s2.map tolower := by
  induction s1 generalizing s2 with
  | nil =>
    cases s2 with
    | nil => exact iff_of_true rfl rfl
    | cons b s2 =>
      refine iff_of_false (fun h => ?_) nofun
      have hb := tolower_eq_nul b (toNat_tolower_sub h).symm
      exact h2 (hb ▸ List.mem_cons_self)
  | cons a s1 ih =>
    rw [List.mem_cons, not_or] at h1
    have ha : a ≠ NUL := fun h => h1.1 h.symm
    cases s2 with
    | nil =>
      refine iff_of_false (fun h => ?_) nofun
      have hdiff : ((tolower a).toNat : Int) - (tolower NUL).toNat ≠ 0 :=
        fun h => ha (tolower_eq_nul a (toNat_tolower_sub h))
      rw [mgStrcasecmp] at h
      exact hdiff (by rwa [if_neg fun hand => hdiff hand.1] at h)
    | cons b s2 =>
      rw [List.mem_cons, not_or] at h2
      rw [mgStrcasecmp, List.map_cons, List.map_cons, List.cons.injEq]
      by_cases hab : tolower a = tolower b
      · have hdiff : ((tolower a).toNat : Int) - (tolower ((b :: s2).headD NUL)).toNat = 0 := by
          rw [List.headD_cons, hab, Int.sub_self]
        rw [if_pos ⟨hdiff, ha⟩, List.tail_cons, ih h1.2 h2.2]
        exact (and_iff_right hab).symm
      · refine iff_of_false (fun h => ?_) fun h => hab h.1
        have hdiff : ¬ ((tolower a).toNat : Int) - (tolower ((b :: s2).headD NUL)).toNat = 0 :=
          fun h => hab (toNat_tolower_sub h)
        exact hdiff (by rwa [if_neg fun hand => hdiff hand.1] at h)

def mgStrncasecmp : List UInt8 → List UInt8 → Nat → Int
  | _, _, 0 => 0
  | s1, s2, len + 1 =>
    let diff : Int := (tolower (s1.headD NUL)).toNat - (tolower (s2.headD NUL)).toNat
    if diff = 0 ∧ s1.headD NUL ≠ NUL ∧ len > 0 then mgStrncasecmp s1.tail s2.tail len else diff

/-- Whether `mg_strcasestr` finds `smallStr`. -/
def mgStrcasestr (bigStr smallStr : List UInt8) : Bool :=
  (List.range (bigStr.length + 1 - smallStr.length)).any fun i =>
    mgStrncasecmp (bigStr.drop i) smallStr smallStr.length = 0

/-! ### Printing -/

def mgBufLen : Nat := 8192

/-- `mg_printf`: the text is printed into an array of `MG_BUF_LEN` bytes unless it is longer than the array, and as many
bytes as the text has are written from there. -/
def mgPrintf (text : List UInt8) : List UInt8 :=
  if text.length > mgBufLen then text else (snprintf mgBufLen text ++ [NUL]).take text.length

theorem mgPrintf_of_lt {text : List UInt8} (h : text.length < mgBufLen) : mgPrintf text = text := by
  have hfits : snprintf mgBufLen text = text := by
    apply List.take_of_length_le
    have : mgBufLen = 8192 := rfl
    omega
  rw [mgPrintf, if_neg (by omega), hfits, List.take_left]

end Tinyweb
