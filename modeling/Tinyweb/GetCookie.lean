import Tinyweb.Lib.CString
import Tinyweb.Lib.Loop
import Tinyweb.Lib.Memory

/-!
# `cgi-getcookie`

The program of `cgi-getcookie.c`: it reads the text of a cookie header from its standard input and prints the value of
one cookie.

`scanCookie` is `scan_cookie` on an array of `n` bytes.  It overwrites the ends of the name and of the value by NUL and
returns the index where the next cookie starts, or nothing for the null pointer; the pointers `items` are indices of the
array as well.  Every access is checked, the loops included.
-/

namespace Tinyweb

open Clib

variable {n : Nat}

def isBlank (c : UInt8) : Bool := c == SPACE || c == TAB

def isQuote (c : UInt8) : Bool := c == DQUOTE || c == SQUOTE || c == BQUOTE

/-- The characters that end a value without quotes, apart from the terminator. -/
def isDelimiter (c : UInt8) : Bool := c == SEMI || c == SPACE || c == TAB || c == CR || c == LF

def scanspaces (m : Mem n) (p : Nat) : Option Nat := m.scan isBlank p

structure Items where
  name : Nat
  value : Nat
  deriving DecidableEq, Repr

/-- The second half of `scan_cookie`, behind the `=`: the array after it and, unless the null pointer is returned, the
returned pointer and `items[1]`. -/
def scanValue (m : Mem n) (p : Nat) : Option (Mem n × Option (Nat × Nat)) := do
  let quote ← m.load p
  if isQuote quote then
    let value := p + 1
    let p ← m.scan (fun c => c != quote && c != NUL) value
    let c ← m.load p
    if c ≠ quote then return (m, none)
    let m ← m.store p NUL
    let c ← m.load (p + 1)
    return (m, some (if c = SEMI then p + 2 else p + 1, value))
  else
    let value := p
    let p ← m.scan (fun c => !isDelimiter c && c != NUL) value
    let c ← m.load p
    if c = NUL then return (m, some (p, value))
    let m ← m.store p NUL
    return (m, some (p + 1, value))

/-- `scan_cookie`: the array after the call and, unless it returns the null pointer, the returned pointer and the
items. -/
def scanCookie (m : Mem n) (p : Nat) : Option (Mem n × Option (Nat × Items)) := do
  let name ← scanspaces m p
  let p ← m.scan (fun c => c != EQUALS && c != NUL) name
  let c ← m.load p
  if c ≠ EQUALS ∨ p = name then return (m, none)
  let m ← m.store p NUL
  let (m, r) ← scanValue m (p + 1)
  return (m, r.map fun r => (r.1, ⟨name, r.2⟩))

/-- One iteration of the loop of `main`, on the array and the pointer `p`. -/
def getcookieBody (field : CStr) (s : Mem n × Nat) : Option (Step (Mem n × Nat) (List UInt8 × Int)) := do
  match ← scanCookie s.1 s.2 with
  | (_, none) => return .exit ([], -1)
  | (m, some (p, items)) =>
    let name ← m.cstr items.name
    if strcmp name field.bytes = 0 then
      let value ← m.cstr items.value
      return .exit (value, 0)
    else return .next (m, p)

/-- `main` of `cgi-getcookie`: what it prints and what it returns, for the given content of its array. -/
def getcookieMain (argv : List CStr) (stdin : List UInt8) (buf : Mem 4096) : Outcome (List UInt8 × Int) :=
  match argv with
  | [_, field] =>
    let input := stdin.take 4096
    match buf.write input with
    | none => .fault
    | some buf =>
      if input.length > 0 then
        match buf.store input.length NUL with
        | none => .fault
        | some buf => loop (getcookieBody field) 4096 (buf, 0)
      else .ret ([], -1)
  | _ => .ret ([], -1)

end Tinyweb
