import Mathlib.Algebra.Order.Ring.Int
import Tinyweb.Lib.CString
import Tinyweb.Lib.Loop
import Tinyweb.Lib.Memory

/-!
# `cgi-getfield`

The program of `cgi-getfield.c`: it reads a query string from its standard input and prints the value of one field.

`decodeBody` is one iteration of the loop of `decode_query`, on the variables of that function.  The pointer `name` is
either null or `buf`, so it is a `Bool`; `value` is null or an index of `buf`.  Every read of `query` and every access
of `buf` is checked, and the loop fails at the first one outside the array; so does the final `memcpy`, whose length
`k - j` is an `int` that may be negative.  The contents of the arrays before they are written are parameters.
-/

namespace Tinyweb

open Clib

def hex (digit : UInt8) : Int :=
  if 48 ≤ digit ∧ digit ≤ 57 then digit.toNat - 48
  else if 65 ≤ digit ∧ digit ≤ 70 then 10 + digit.toNat - 65
  else if 97 ≤ digit ∧ digit ≤ 102 then 10 + digit.toNat - 97
  else -1

/-- The variables of `decode_query`, for a pair buffer of `n` bytes. -/
structure QueryState (n : Nat) where
  i : Nat
  k : Nat
  j : Nat
  name : Bool
  value : Option Nat
  buf : Mem n

/-- What `decode_query` returns: 0 with `*psize` and the bytes copied to `pval`, or -1.  In the first case `i` is the
index of `query` it has come to, the end of the segment it has chosen. -/
inductive QueryResult where
  | found (psize : Int) (pval : List UInt8) (i : Nat)
  | missing
  deriving DecidableEq, Repr

variable {n : Nat}

/-- `buf[k++] = b`, and on to the index `i`. -/
def QueryState.push (s : QueryState n) (b : UInt8) (i : Nat) : Option (Step (QueryState n) QueryResult) := do
  let buf ← s.buf.store s.k b
  return .next { s with buf := buf, k := s.k + 1, i := i }

/-- `*psize = k - j; memcpy(pval, value, k - j); return 0` -/
def QueryState.deliver (s : QueryState n) : Option (Step (QueryState n) QueryResult) := do
  let value ← s.value
  -- a negative count becomes a huge `size_t`
  if s.k < s.j then none
  let pval ← s.buf.read value (s.k - s.j)
  return .exit (.found ((s.k : Int) - s.j) pval s.i)

/-- The end of a segment, at a NUL (`done`) or at `&`. -/
def QueryState.endSegment (s : QueryState n) (pkey : CStr) (done : Bool) :
    Option (Step (QueryState n) QueryResult) := do
  let buf ← s.buf.store s.k 0
  let s := { s with buf := buf }
  let s := if !s.name && s.k > 0 then { s with name := true, value := some s.k } else s
  if s.name && strncmp s.buf.cells pkey.bytes pkey.bytes.length = 0 then s.deliver
  else if done then return .exit .missing
  else return .next { s with k := 0, name := false, value := none, i := s.i + 1 }

/-- One iteration of the loop of `decode_query`. -/
def decodeBody (query : List UInt8) (pkey : CStr) (s : QueryState n) : Option (Step (QueryState n) QueryResult) := do
  let c ← query[s.i]?
  if c = EQUALS then
    if s.name then s.push c (s.i + 1)
    else if s.k > 0 then
      let buf ← s.buf.store s.k 0
      return .next ⟨s.i + 1, s.k + 1, s.k + 1, true, some (s.k + 1), buf⟩
    else return .next { s with i := s.i + 1 }
  else if c = NUL then s.endSegment pkey true
  else if c = AMP then s.endSegment pkey false
  else if c = PLUS then s.push SPACE (s.i + 1)
  else if c = PERCENT then
    let l ← query[s.i + 1]?
    if hex l ≥ 0 then
      let r ← query[s.i + 2]?
      if hex r ≥ 0 then s.push (((hex l).toNat <<< 4) + (hex r).toNat).toUInt8 (s.i + 3)
      else s.push c (s.i + 1)
    else s.push c (s.i + 1)
  else s.push c (s.i + 1)

/-- `decode_query`, for a query array with its terminator and the uninitialised pair buffer `buf`. -/
def decodeQuery (query : List UInt8) (pkey : CStr) (buf : Mem n) : Outcome QueryResult :=
  loop (decodeBody query pkey) query.length ⟨0, 0, 0, false, none, buf⟩

/-! ### The program -/

def maxQuerySize : Nat := 1024

/-- `atoi`: `strtol` to base 10, then a conversion to `int`. -/
def atoi (s : List UInt8) : Int :=
  let s := s.dropWhile isspace
  let digits := (if s.headD NUL = 45 ∨ s.headD NUL = PLUS then s.tail else s).takeWhile isdigit
  let v : Int := digits.foldl (fun v d => v * 10 + (d.toNat - 48)) 0
  let long : Int := if s.headD NUL = 45 then max (-v) (-2 ^ 63) else min v (2 ^ 63 - 1)
  long.bmod (2 ^ 32)

/-- The conversion of an `int` to `size_t`. -/
def toSizeT (len : Int) : Nat := (len % 2 ^ 64).toNat

/-- The value of `len` before the read, for the arguments after the key. -/
def readLength : List CStr → Int
  | [] => maxQuerySize
  | arg :: _ => atoi arg.bytes

/-- `main` of `cgi-getfield`: what it prints and what it returns, for the given contents of its arrays. -/
def getfieldMain (argv : List CStr) (stdin : List UInt8) (qbuf : Mem maxQuerySize) (buf : Mem 256) :
    Outcome (List UInt8 × Int) :=
  match argv with
  | _ :: key :: args =>
    let input := stdin.take (toSizeT (readLength args))
    match qbuf.write input with
    | none => .fault
    | some qbuf =>
      if input.length > 0 then
        match qbuf.store input.length 0 with
        | none => .fault
        | some qbuf =>
          match decodeQuery qbuf.cells key buf with
          -- the destination `val` has `MAX_QUERY_SIZE` bytes
          | .ret (.found _ pval _) => if pval.length ≤ maxQuerySize then .ret (pval, 0) else .fault
          | .ret .missing => .ret ([], -1)
          | .fault => .fault
          | .running => .running
      else .ret ([], -1)
  | _ => .ret ([], -1)

end Tinyweb
