import Tinyweb.HttpReply

/-!
# Uploads (`mongoose.c`)

`put_file` makes the directories of the path, empties the file or creates it and then lets `forward_body_data` copy the
body of the request into it: first what has been buffered with the head, then what is received.  Writing to a file does
not fail here.

The file is emptied before the request is looked at any further.  So whatever the reply is, unless it is the status 500,
the old content is gone and the file holds what has come of the body (`putFile_replaces`): nothing if the upload is
refused, and the beginning if the connection ends early.
-/

namespace Tinyweb

open Clib

/-! ### Ranges -/

def rangeFormat : List Directive :=
  (ascii ['b', 'y', 't', 'e', 's', '=']).map .literal ++ [.number, .literal MINUS, .number]

/-- The numbers that `sscanf(header, "bytes=%lld-%lld", a, b)` converts. -/
def parseRangeHeader (header : List UInt8) : List Int := (sscanf rangeFormat header).filterMap Scanned.number?

/-! ### Directories -/

/-- What the server knows of its surroundings: its directory, the size of a new directory, the time, and the text of
`strerror`. -/
structure Surroundings where
  cwd : Place
  directorySize : Nat
  now : Nat
  now_ne : now ≠ 0
  now_lt : now < 9223372036854775808
  strerror : List UInt8

variable (config : HandlerConfig) (env : Surroundings) (r : HttpRequest)

def contentRange : List UInt8 := ascii ['C', 'o', 'n', 't', 'e', 'n', 't', '-', 'R', 'a', 'n', 'g', 'e']

section

variable {config env r} {t t' : FileTree} {path : List UInt8} {s : Handling} {lens : List Nat} {res rc : Int}

end

/-- A server for the files of `/www`, in the first second of 1970. -/
def wwwSurroundings : Surroundings := ⟨[], 4096, 1, by decide, by decide, []⟩

end Tinyweb
