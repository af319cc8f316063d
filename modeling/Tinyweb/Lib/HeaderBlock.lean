import Tinyweb.Lib.CString

/-!
# Header blocks

The head of an HTTP message: lines that end with CRLF, and an empty line behind the last one.  `block` writes such a
head, `readBlock` is a receiver that reads it: it cuts at every CRLF and stops at the first empty line.  Lines that are
not empty and hold no CR are read back as they were written, whatever follows the block (`readBlock_block`).  If the
line end of the last line is missing, the receiver finds no empty line (`readBlock_unended`).
-/

namespace Http

open Clib

def crlf : List UInt8 := [CR, LF]

def block (lines : List (List UInt8)) : List UInt8 := lines.flatMap (· ++ crlf) ++ crlf

/-- The lines up to the first empty line and the bytes behind it; `cur` is the beginning of the current line, the last
byte first. -/
def readLines (cur : List UInt8) : List UInt8 → Option (List (List UInt8) × List UInt8)
  | 13 :: 10 :: rest =>
    if cur = [] then some ([], rest) else (readLines [] rest).map fun r => (cur.reverse :: r.1, r.2)
  | c :: rest => readLines (c :: cur) rest
  | [] => none

def readBlock (bytes : List UInt8) : Option (List (List UInt8) × List UInt8) := readLines [] bytes

private theorem readLines_cons {c : UInt8} (hc : c ≠ CR) (cur rest : List UInt8) :
    readLines cur (c :: rest) = readLines (c :: cur) rest := by
  rw [readLines]
  intro rest' hcr
  exact absurd hcr hc

private theorem readLines_append {l : List UInt8} (hl : CR ∉ l) (cur rest : List UInt8) :
    readLines cur (l ++ rest) = readLines (l.reverse ++ cur) rest := by
  induction l generalizing cur with
  | nil => rfl
  | cons c l ih =>
    simp only [List.mem_cons, not_or] at hl
    rw [List.cons_append, readLines_cons (Ne.symm hl.1), ih hl.2, List.reverse_cons, List.append_assoc]
    rfl

/-- A line may also hold a CR, as long as there is no LF in it. -/
private theorem readLines_append_crlf {l : List UInt8} (hl : LF ∉ l) (cur rest : List UInt8) :
    readLines cur (l ++ CR :: LF :: rest) = readLines (l.reverse ++ cur) (CR :: LF :: rest) := by
  induction l generalizing cur with
  | nil => rfl
  | cons c l ih =>
    rw [List.mem_cons, not_or] at hl
    have hcons : readLines cur (c :: (l ++ CR :: LF :: rest)) = readLines (c :: cur) (l ++ CR :: LF :: rest) := by
      rw [readLines]
      intro rest' _ htail
      cases l with
      | nil => cases htail
      | cons d l => exact hl.2 ((List.cons.inj htail).1 ▸ List.mem_cons_self)
    rw [List.cons_append, hcons, ih hl.2, List.reverse_cons, List.append_assoc]
    rfl

/-- One line of a block. -/
private theorem readLines_line {l : List UInt8} (hne : l ≠ []) (hl : CR ∉ l) (rest : List UInt8) :
    readLines [] (l ++ crlf ++ rest) = (readLines [] rest).map fun r => (l :: r.1, r.2) := by
  have hrev : l.reverse ≠ [] := by
    intro h
    exact hne (List.reverse_eq_nil_iff.1 h)
  rw [List.append_assoc, readLines_append hl, List.append_nil]
  show readLines l.reverse (13 :: 10 :: rest) = _
  rw [readLines, if_neg hrev, List.reverse_reverse]

/-- A text without a line end in front of the last one: what follows is searched for the end of the block. -/
theorem readBlock_unended {lines : List (List UInt8)} (h : ∀ l ∈ lines, l ≠ [] ∧ CR ∉ l) {l rest : List UInt8}
    (hne : l ≠ [])
    (hl : LF ∉ l) (hrest : CR ∉ rest) : readBlock (lines.flatMap (· ++ crlf) ++ l ++ crlf ++ rest) = none := by
  induction lines with
  | nil =>
    have hrev : l.reverse ≠ [] := fun heq => hne (List.reverse_eq_nil_iff.1 heq)
    have hend : readLines [] rest = none := by
      have := readLines_append hrest [] []
      rwa [List.append_nil] at this
    rw [readBlock, List.flatMap_nil, List.nil_append, List.append_assoc]
    show readLines [] (l ++ CR :: LF :: rest) = none
    rw [readLines_append_crlf hl, List.append_nil]
    show readLines l.reverse (13 :: 10 :: rest) = none
    rw [readLines, if_neg hrev, hend]
    rfl
  | cons x lines ih =>
    rw [List.forall_mem_cons] at h
    have htail := ih h.2
    rw [readBlock] at htail ⊢
    rw [List.flatMap_cons, List.append_assoc (x ++ crlf), List.append_assoc (x ++ crlf), List.append_assoc (x ++ crlf),
      readLines_line h.1.1 h.1.2, htail]
    rfl

/-- A block is read back line by line, and nothing of what follows it is taken for a line. -/
theorem readBlock_block {lines : List (List UInt8)} (h : ∀ l ∈ lines, l ≠ [] ∧ CR ∉ l) (rest : List UInt8) :
    readBlock (block lines ++ rest) = some (lines, rest) := by
  induction lines with
  | nil => rfl
  | cons l lines ih =>
    obtain ⟨hne, hl⟩ := h l (List.mem_cons_self ..)
    have htail := ih fun x hx => h x (List.mem_cons_of_mem _ hx)
    have hsplit : block (l :: lines) ++ rest = l ++ crlf ++ (block lines ++ rest) := by
      simp only [block, List.flatMap_cons, List.append_assoc]
    rw [readBlock] at htail ⊢
    rw [hsplit, readLines_line hne hl, htail]
    rfl

end Http
