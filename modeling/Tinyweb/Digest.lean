import Mathlib.Algebra.Order.Ring.Nat
import Tinyweb.Lib.CString

/-!
# SHA-1 and base64 (`mongoose.c`)

The accept value of a WebSocket handshake is the base64 text of a SHA-1 digest.  `sha1Transform`, `sha1Update` and
`sha1Final` follow the routines of the same names.  The macros `S0` to `S4` differ in the round function and its
constant only, and their five variables change places from one round to the next, so `sha1Round` is one round on the
variables in the order of the macro's arguments, which is the order `a, b, c, d, e` again after every five rounds.

`base64Encode` is `base64_encode`; its result consists of characters of the alphabet and of `=` (`mem_base64Encode`),
four for every three bytes begun (`length_base64Encode`).
-/

namespace Tinyweb

open Clib

/-! ### SHA-1 -/

def rol (value bits : UInt32) : UInt32 := (value <<< bits) ||| (value >>> (32 - bits))

/-- The five variables of a round. -/
structure Sha1Vars where
  v : UInt32
  w : UInt32
  x : UInt32
  y : UInt32
  z : UInt32
  deriving DecidableEq

/-- The words of a block: `blk0` reads them with the most significant byte first on every machine. -/
def blockWords (buffer : List UInt8) : List UInt32 :=
  (List.range 16).map fun i =>
    ((buffer.drop (4 * i)).take 4).foldl (fun n b => n <<< 8 ||| b.toUInt32) 0

/-- The word used in round `i`, and the block after it. -/
def blk (block : List UInt32) (i : Nat) : UInt32 × List UInt32 :=
  if i < 16 then (block.getD i 0, block)
  else
    let word := rol (block.getD ((i + 13) % 16) 0 ^^^ block.getD ((i + 8) % 16) 0 ^^^ block.getD ((i + 2) % 16) 0 ^^^
      block.getD (i % 16) 0) 1
    (word, block.set (i % 16) word)

/-- The round function and the constant of round `i`. -/
def roundTerm (i : Nat) (s : Sha1Vars) : UInt32 :=
  if i < 20 then ((s.w &&& (s.x ^^^ s.y)) ^^^ s.y) + 0x5A827999
  else if i < 40 then (s.w ^^^ s.x ^^^ s.y) + 0x6ED9EBA1
  else if i < 60 then (((s.w ||| s.x) &&& s.y) ||| (s.w &&& s.x)) + 0x8F1BBCDC
  else (s.w ^^^ s.x ^^^ s.y) + 0xCA62C1D6

/-- Round `i`; the variables come out in the order in which round `i + 1` takes them. -/
def sha1Round (st : Sha1Vars × List UInt32) (i : Nat) : Sha1Vars × List UInt32 :=
  let (s, block) := st
  let (word, block) := blk block i
  (⟨s.z + roundTerm i s + word + rol s.v 5, s.v, rol s.w 30, s.x, s.y⟩, block)

def sha1Transform (state : Sha1Vars) (buffer : List UInt8) : Sha1Vars :=
  let (s, _) := (List.range 80).foldl sha1Round (state, blockWords buffer)
  ⟨state.v + s.v, state.w + s.w, state.x + s.x, state.y + s.y, state.z + s.z⟩

/-- `SHA1_CTX` -/
structure Sha1Ctx where
  state : Sha1Vars
  count0 : UInt32
  count1 : UInt32
  buffer : List UInt8

def sha1Init : Sha1Ctx :=
  ⟨⟨0x67452301, 0xEFCDAB89, 0x98BADCFE, 0x10325476, 0xC3D2E1F0⟩, 0, 0, List.replicate 64 0⟩

/-- `memcpy(&buffer[j], data, ..)` -/
def putAt (buffer : List UInt8) (j : Nat) (data : List UInt8) : List UInt8 :=
  buffer.take j ++ data ++ buffer.drop (j + data.length)

theorem length_putAt {buffer data : List UInt8} {j : Nat} (h : j + data.length ≤ buffer.length) :
    (putAt buffer j data).length = buffer.length := by
  simp only [putAt, List.length_append, List.length_take, List.length_drop]
  omega

theorem take_putAt {buffer data : List UInt8} {j : Nat} (h : j + data.length ≤ buffer.length) :
    (putAt buffer j data).take (j + data.length) = buffer.take j ++ data := by
  have hlen : (buffer.take j ++ data).length = j + data.length := by
    simp only [List.length_append, List.length_take]
    omega
  rw [putAt, ← hlen, List.take_left]

def sha1Update (ctx : Sha1Ctx) (data : List UInt8) : Sha1Ctx :=
  let len := data.length.toUInt32
  let count0 := ctx.count0 + (len <<< 3)
  let carry := if count0 < ctx.count0 then ctx.count1 + 1 else ctx.count1
  let count1 := carry + (len >>> 29)
  let j := (ctx.count0 >>> 3 &&& 63).toNat
  if j + data.length > 63 then
    let rest := data.drop (64 - j)
    let full := rest.length / 64
    let state := sha1Transform ctx.state (putAt ctx.buffer j (data.take (64 - j)))
    let state := (List.range full).foldl (fun s i => sha1Transform s ((rest.drop (64 * i)).take 64)) state
    ⟨state, count0, count1, putAt (putAt ctx.buffer j (data.take (64 - j))) 0 (rest.drop (64 * full))⟩
  else ⟨ctx.state, count0, count1, putAt ctx.buffer j data⟩

/-- The loop of `SHA1Final` that adds zero bytes; each of them adds 8 to `count0`, so at most 63 are added. -/
def sha1Pad : Nat → Sha1Ctx → Sha1Ctx
  | 0, ctx => ctx
  | fuel + 1, ctx => if ctx.count0 &&& 504 = 448 then ctx else sha1Pad fuel (sha1Update ctx [0])

/-- Byte `i` of a row of words, the most significant byte of each first. -/
def wordByte (words : List UInt32) (i : Nat) : UInt8 :=
  (words.getD (i / 4) 0 >>> ((3 - i % 4) * 8).toUInt32).toUInt8

def sha1Final (ctx : Sha1Ctx) : List UInt8 :=
  let finalcount := (List.range 8).map (wordByte [ctx.count1, ctx.count0])
  let ctx := sha1Pad 64 (sha1Update ctx [0x80])
  let ctx := sha1Update ctx finalcount
  (List.range 20).map (wordByte [ctx.state.v, ctx.state.w, ctx.state.x, ctx.state.y, ctx.state.z])

def sha1 (data : List UInt8) : List UInt8 := sha1Final (sha1Update sha1Init data)

theorem length_sha1 (data : List UInt8) : (sha1 data).length = 20 := by
  show ((List.range 20).map _).length = 20
  rw [List.length_map, List.length_range]

/-! ### base64 -/

def b64 : List UInt8 := ascii "ABCDEFGHIJKLMNOPQRSTUVWXYZabcdefghijklmnopqrstuvwxyz0123456789+/".toList

def b64Char (i : Nat) : UInt8 := b64.getD i 0

/-- The loop of `base64_encode`, three bytes an iteration; bytes that are missing count as 0. -/
def b64Digits : List UInt8 → List UInt8
  | [] => []
  | [a] => [b64Char (a.toNat >>> 2), b64Char ((a.toNat &&& 3) <<< 4)]
  | [a, b] =>
    [b64Char (a.toNat >>> 2), b64Char ((a.toNat &&& 3) <<< 4 ||| b.toNat >>> 4), b64Char ((b.toNat &&& 15) <<< 2)]
  | a :: b :: c :: src =>
    [b64Char (a.toNat >>> 2), b64Char ((a.toNat &&& 3) <<< 4 ||| b.toNat >>> 4),
      b64Char ((b.toNat &&& 15) <<< 2 ||| c.toNat >>> 6), b64Char (c.toNat &&& 63)] ++ b64Digits src

def base64Encode (src : List UInt8) : List UInt8 :=
  b64Digits src ++ List.replicate ((4 - (b64Digits src).length % 4) % 4) EQUALS

private theorem b64Char_mem {i : Nat} (h : i < 64) : b64Char i ∈ b64 := by
  have hlen : i < b64.length := h
  rw [b64Char, List.getD_eq_getElem?_getD, List.getElem?_eq_getElem hlen, Option.getD_some]
  exact List.getElem_mem hlen

private theorem shiftRight_lt (a : UInt8) {k m : Nat} (h : 2 ^ 8 ≤ m * 2 ^ k) : a.toNat >>> k < m := by
  rw [Nat.shiftRight_eq_div_pow]
  have := a.toNat_lt
  exact Nat.div_lt_of_lt_mul (by rw [Nat.mul_comm]; omega)

private theorem and_shiftLeft_lt (a : Nat) {mask k : Nat} (h : mask * 2 ^ k < 64) : (a &&& mask) <<< k < 64 := by
  rw [Nat.shiftLeft_eq]
  exact Nat.lt_of_le_of_lt (Nat.mul_le_mul_right _ Nat.and_le_right) h

private theorem or_lt {a b : Nat} (ha : a < 64) (hb : b < 64) : a ||| b < 64 := @Nat.or_lt_two_pow a b 6 ha hb

private theorem mem_b64Digits (src : List UInt8) : ∀ c ∈ b64Digits src, c ∈ b64 := by
  have h1 (a : UInt8) : b64Char (a.toNat >>> 2) ∈ b64 := b64Char_mem (shiftRight_lt a (by decide))
  have h2 (a b : UInt8) : b64Char ((a.toNat &&& 3) <<< 4 ||| b.toNat >>> 4) ∈ b64 :=
    b64Char_mem (or_lt (and_shiftLeft_lt _ (by decide)) (shiftRight_lt b (by decide)))
  have h3 (b c : UInt8) : b64Char ((b.toNat &&& 15) <<< 2 ||| c.toNat >>> 6) ∈ b64 :=
    b64Char_mem (or_lt (and_shiftLeft_lt _ (by decide)) (shiftRight_lt c (by decide)))
  have h4 (c : UInt8) : b64Char (c.toNat &&& 63) ∈ b64 := b64Char_mem (Nat.lt_succ_of_le Nat.and_le_right)
  induction src using b64Digits.induct with
  | case1 => exact fun c hc => absurd hc List.not_mem_nil
  | case2 a =>
    have h2' : b64Char ((a.toNat &&& 3) <<< 4) ∈ b64 := b64Char_mem (and_shiftLeft_lt _ (by decide))
    intro c hc
    simp only [b64Digits, List.mem_cons, List.not_mem_nil, or_false] at hc
    rcases hc with rfl | rfl
    · exact h1 a
    · exact h2'
  | case3 a b =>
    have h3' : b64Char ((b.toNat &&& 15) <<< 2) ∈ b64 := b64Char_mem (and_shiftLeft_lt _ (by decide))
    intro c hc
    simp only [b64Digits, List.mem_cons, List.not_mem_nil, or_false] at hc
    rcases hc with rfl | rfl | rfl
    · exact h1 a
    · exact h2 a b
    · exact h3'
  | case4 a b c src ih =>
    intro d hd
    simp only [b64Digits, List.cons_append, List.nil_append, List.mem_cons] at hd
    rcases hd with rfl | rfl | rfl | rfl | hd
    · exact h1 a
    · exact h2 a b
    · exact h3 b c
    · exact h4 c
    · exact ih d hd

theorem mem_base64Encode {src : List UInt8} {c : UInt8} (h : c ∈ base64Encode src) : c ∈ b64 ∨ c = EQUALS := by
  rw [base64Encode, List.mem_append] at h
  rcases h with h | h
  · exact Or.inl (mem_b64Digits src c h)
  · exact Or.inr (List.eq_of_mem_replicate h)

private theorem length_b64Digits (src : List UInt8) :
    (b64Digits src).length = 4 * (src.length / 3) + (if src.length % 3 = 0 then 0 else src.length % 3 + 1) := by
  induction src using b64Digits.induct with
  | case1 => rfl
  | case2 a => simp [b64Digits]
  | case3 a b => simp [b64Digits]
  | case4 a b c src ih =>
    have hmod : (src.length + 1 + 1 + 1) % 3 = src.length % 3 := by omega
    rw [b64Digits, List.length_append, ih]
    simp only [List.length_cons, List.length_nil, hmod]
    omega

theorem length_base64Encode (src : List UInt8) : (base64Encode src).length = 4 * ((src.length + 2) / 3) := by
  rw [base64Encode, List.length_append, List.length_replicate, length_b64Digits]
  split <;> omega

end Tinyweb
