import Mathlib.Data.List.DropRight
import Mathlib.Data.List.Infix
import Tinyweb.Lib.CString

/-!
# Paths of files

A path leads from a directory to a file or a directory: its segments are separated by slashes, `.` and an empty segment
stay where they are and `..` goes one directory up.  `resolve cwd path` is the list of names from the root of the file
system on; symbolic links are not followed.  A path that is continued without `..` leads to something under the same
directory (`prefix_resolve_append`).
-/

namespace Clib

abbrev DOT : UInt8 := 46

/-- One segment of a path. -/
def walk (dir : List (List UInt8)) (segment : List UInt8) : List (List UInt8) :=
  if segment = [] ∨ segment = [DOT] then dir
  else if segment = [DOT, DOT] then dir.dropLast
  else dir ++ [segment]

/-- Where a path leads for a process in the directory `cwd`. -/
def resolve (cwd : List (List UInt8)) (path : List UInt8) : List (List UInt8) :=
  (path.splitOn SLASH).foldl walk (if path.head? = some SLASH then [] else cwd)

theorem prefix_walk {dir : List (List UInt8)} {segment : List UInt8} (h : segment ≠ [DOT, DOT]) :
    dir <+: walk dir segment := by
  unfold walk
  rw [if_neg h]
  split
  next => exact List.prefix_rfl
  next => exact List.prefix_append ..

theorem prefix_foldl_walk {segments : List (List UInt8)} (h : [DOT, DOT] ∉ segments) (dir : List (List UInt8)) :
    dir <+: segments.foldl walk dir := by
  induction segments generalizing dir with
  | nil => exact List.prefix_rfl
  | cons segment segments ih =>
    simp only [List.mem_cons, not_or] at h
    exact (prefix_walk (Ne.symm h.1)).trans (ih h.2 _)

section

variable {α : Type} [BEq α] [LawfulBEq α]

theorem splitOn_append_cons (s : α) (a b : List α) : (a ++ s :: b).splitOn s = a.splitOn s ++ b.splitOn s := by
  induction a with
  | nil => rw [List.nil_append, List.splitOn_cons_eq_if_modifyHead, if_pos BEq.rfl, List.splitOn_nil]; rfl
  | cons c a ih =>
    rw [List.cons_append, List.splitOn_cons_eq_if_modifyHead, ih, List.splitOn_cons_eq_if_modifyHead]
    split
    next => rfl
    next =>
      obtain ⟨v, vs, hv⟩ := List.exists_cons_of_ne_nil (List.splitOn_ne_nil s a)
      rw [hv]
      rfl

/-- The first segment begins the text, every other one has a separator before it. -/
private theorem segments_infix {s : α} {a v : List α} {vs : List (List α)} (h : a.splitOn s = v :: vs) :
    v <+: a ∧ ∀ w ∈ vs, s :: w <:+: a := by
  induction a generalizing v vs with
  | nil =>
    rw [List.splitOn_nil] at h
    cases h
    exact ⟨List.nil_prefix, List.forall_mem_nil _⟩
  | cons c a ih =>
    obtain ⟨u, us, hu⟩ := List.exists_cons_of_ne_nil (List.splitOn_ne_nil s a)
    obtain ⟨hfirst, hothers⟩ := ih hu
    rw [List.splitOn_cons_eq_if_modifyHead, hu] at h
    split at h
    next hc =>
      cases h
      rw [eq_of_beq hc]
      refine ⟨List.nil_prefix, List.forall_mem_cons.2 ⟨?_, fun w hw => (hothers w hw).trans ?_⟩⟩
      · exact (List.cons_prefix_cons.2 ⟨rfl, hfirst⟩).isInfix
      · exact (List.suffix_cons ..).isInfix
    next =>
      cases h
      exact ⟨List.cons_prefix_cons.2 ⟨rfl, hfirst⟩, fun w hw => (hothers w hw).trans (List.suffix_cons ..).isInfix⟩

theorem infix_of_mem_splitOn {s : α} {a w : List α} (h : w ∈ a.splitOn s) : s :: w <:+: s :: a := by
  obtain ⟨u, us, hu⟩ := List.exists_cons_of_ne_nil (List.splitOn_ne_nil s a)
  obtain ⟨hfirst, hothers⟩ := segments_infix hu
  rw [hu] at h
  rcases List.mem_cons.1 h with rfl | h
  · exact (List.cons_prefix_cons.2 ⟨rfl, hfirst⟩).isInfix
  · exact (hothers w h).trans (List.suffix_cons ..).isInfix

end

theorem resolve_append_cons (cwd : List (List UInt8)) {dir : List UInt8} (hne : dir ≠ []) (tail : List UInt8) :
    resolve cwd (dir ++ SLASH :: tail) = (tail.splitOn SLASH).foldl walk (resolve cwd dir) := by
  cases dir with
  | nil => exact absurd rfl hne
  | cons c dir => rw [resolve, resolve, splitOn_append_cons, List.foldl_append]; rfl

theorem resolve_append_slash (cwd : List (List UInt8)) {dir : List UInt8} (hne : dir ≠ []) :
    resolve cwd (dir ++ [SLASH]) = resolve cwd dir := by
  rw [resolve_append_cons cwd hne, List.splitOn_nil]
  rfl

/-- Continued by a slash and without `..` behind slashes, a path stays under the directory. -/
theorem prefix_resolve_append (cwd : List (List UInt8)) {dir tail : List UInt8} (hne : dir ≠ [])
    (htail : tail = [] ∨ tail.head? = some SLASH) (hdots : ¬ [SLASH, DOT, DOT] <:+: tail) :
    resolve cwd dir <+: resolve cwd (dir ++ tail) := by
  cases tail with
  | nil => rw [List.append_nil]
  | cons c tail =>
    obtain rfl : c = SLASH := by simpa using htail
    rw [resolve_append_cons cwd hne]
    apply prefix_foldl_walk
    intro hmem
    exact hdots (infix_of_mem_splitOn hmem)

end Clib
