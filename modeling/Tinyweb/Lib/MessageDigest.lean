import Tinyweb.Lib.BlockHash

/-!
# The MD5 message digest

A message is padded to blocks of sixteen words, the least significant byte of a word first.  For each block there are 64
steps on four words `a`, `b`, `c`, `d`: four rounds of sixteen steps, each round with a function and rotations of its
own. `md5` is the digest of a message.
-/

namespace MessageDigest

open Clib

structure State where
  a : UInt32
  b : UInt32
  c : UInt32
  d : UInt32
  deriving DecidableEq, Repr

/-- The function of each round. -/
def mix (round : Nat) (x y z : UInt32) : UInt32 :=
  match round with
  | 0 => (x &&& y) ||| (~~~x &&& z)
  | 1 => (x &&& z) ||| (y &&& ~~~z)
  | 2 => x ^^^ y ^^^ z
  | _ => y ^^^ (x ||| ~~~z)

/-- The word that is added in the step `i`. -/
def wordIndex (i : Nat) : Nat :=
  match i / 16 with
  | 0 => i
  | 1 => (5 * i + 1) % 16
  | 2 => (3 * i + 5) % 16
  | _ => 7 * i % 16

def rotations : List (List Nat) := [[7, 12, 17, 22], [5, 9, 14, 20], [4, 11, 16, 23], [6, 10, 15, 21]]

def rotation (i : Nat) : Nat := (rotations.getD (i / 16) []).getD (i % 4) 0

/-- The constant of the step `i` is the integer part of `2 ^ 32 * |sin (i + 1)|`. -/
def constants : List UInt32 := [
  0xd76aa478, 0xe8c7b756, 0x242070db, 0xc1bdceee, 0xf57c0faf, 0x4787c62a, 0xa8304613, 0xfd469501,
  0x698098d8, 0x8b44f7af, 0xffff5bb1, 0x895cd7be, 0x6b901122, 0xfd987193, 0xa679438e, 0x49b40821,
  0xf61e2562, 0xc040b340, 0x265e5a51, 0xe9b6c7aa, 0xd62f105d, 0x02441453, 0xd8a1e681, 0xe7d3fbc8,
  0x21e1cde6, 0xc33707d6, 0xf4d50d87, 0x455a14ed, 0xa9e3e905, 0xfcefa3f8, 0x676f02d9, 0x8d2a4c8a,
  0xfffa3942, 0x8771f681, 0x6d9d6122, 0xfde5380c, 0xa4beea44, 0x4bdecfa9, 0xf6bb4b60, 0xbebfbc70,
  0x289b7ec6, 0xeaa127fa, 0xd4ef3085, 0x04881d05, 0xd9d4d039, 0xe6db99e5, 0x1fa27cf8, 0xc4ac5665,
  0xf4292244, 0x432aff97, 0xab9423a7, 0xfc93a039, 0x655b59c3, 0x8f0ccc92, 0xffeff47d, 0x85845dd1,
  0x6fa87e4f, 0xfe2ce6e0, 0xa3014314, 0x4e0811a1, 0xf7537e82, 0xbd3af235, 0x2ad7d2bb, 0xeb86d391]

def rotateLeft (w : UInt32) (n : Nat) : UInt32 := ⟨w.toBitVec.rotateLeft n⟩

def step (words : Nat → UInt32) (s : State) (i : Nat) : State :=
  let sum := s.a + mix (i / 16) s.b s.c s.d + words (wordIndex i) + constants.getD i 0
  ⟨s.d, s.b + rotateLeft sum (rotation i), s.b, s.c⟩

/-- The number of bytes, the least significant first. -/
def ofBytes (bytes : List UInt8) : Nat := bytes.foldr (fun b n => 256 * n + b.toNat) 0

def toBytes (count n : Nat) : List UInt8 := (List.range count).map fun k => (n / 256 ^ k % 256).toUInt8

def word (block : List UInt8) (k : Nat) : UInt32 := (ofBytes ((block.drop (4 * k)).take 4)).toUInt32

def compress (s : State) (block : List UInt8) : State :=
  let t := (List.range 64).foldl (step (word block)) s
  ⟨s.a + t.a, s.b + t.b, s.c + t.c, s.d + t.d⟩

def init : State := ⟨0x67452301, 0xefcdab89, 0x98badcfe, 0x10325476⟩

def md5 (msg : List UInt8) : List UInt8 :=
  let s := paddedHash compress init (toBytes 8) msg
  [s.a, s.b, s.c, s.d].flatMap fun w => toBytes 4 w.toNat

/-! ### Computing with words -/

private theorem word_ext {v w : UInt32} (h : ∀ i, v.toBitVec.getLsbD i = w.toBitVec.getLsbD i) : v = w :=
  UInt32.toBitVec_inj.1 (BitVec.eq_of_getLsbD_eq fun i _ => h i)

/-- The function of the first round without `or`: where `x` has a one bit, `z` is replaced by `y`. -/
theorem mix_zero (x y z : UInt32) : mix 0 x y z = z ^^^ (x &&& (y ^^^ z)) := by
  apply word_ext
  intro i
  simp only [mix, UInt32.toBitVec_or, UInt32.toBitVec_and, UInt32.toBitVec_not, UInt32.toBitVec_xor, BitVec.getLsbD_or,
    BitVec.getLsbD_and, BitVec.getLsbD_not, BitVec.getLsbD_xor]
  by_cases hi : i < 32
  · cases x.toBitVec.getLsbD i <;> cases y.toBitVec.getLsbD i <;> cases z.toBitVec.getLsbD i <;> simp [hi]
  · simp [BitVec.getLsbD_of_ge _ i (Nat.not_lt.1 hi)]

/-- The second round uses the same function, with its arguments turned. -/
theorem mix_one (x y z : UInt32) : mix 1 x y z = mix 0 z x y := by
  show (x &&& z) ||| (y &&& ~~~z) = (z &&& x) ||| (~~~z &&& y)
  rw [UInt32.and_comm x, UInt32.and_comm y]

theorem rotateLeft_eq (w : UInt32) {n : Nat} (hpos : 0 < n) (hn : n < 32) :
    rotateLeft w n = (w <<< n.toUInt32) ||| (w >>> (32 - n.toUInt32)) := by
  have hmod : (32 : BitVec 32).toNat = 32 := rfl
  have hleft : (n.toUInt32.toBitVec % 32).toNat = n := by
    rw [BitVec.toNat_umod, hmod, Nat.toUInt32, UInt32.toBitVec_ofNat', BitVec.toNat_ofNat]
    omega
  have hright : ((32 - n.toUInt32).toBitVec % 32).toNat = 32 - n := by
    rw [BitVec.toNat_umod, hmod, UInt32.toBitVec_sub, BitVec.toNat_sub, Nat.toUInt32, UInt32.toBitVec_ofNat',
      BitVec.toNat_ofNat, show (UInt32.toBitVec 32).toNat = 32 from rfl]
    omega
  apply UInt32.toBitVec_inj.1
  rw [UInt32.toBitVec_or, UInt32.toBitVec_shiftLeft, UInt32.toBitVec_shiftRight]
  show w.toBitVec.rotateLeft n = _
  rw [BitVec.rotateLeft_def, Nat.mod_eq_of_lt hn, BitVec.shiftLeft_eq', BitVec.ushiftRight_eq', hleft, hright]

private theorem toNat_shiftLeft_or {w : UInt32} (hw : w.toNat < 2 ^ 24) (b : UInt8) :
    (w <<< 8 ||| b.toUInt32).toNat = 256 * w.toNat + b.toNat := by
  have hshift : (w <<< 8).toNat = w.toNat <<< 8 := by
    rw [UInt32.toNat_shiftLeft, Nat.mod_eq_of_lt]
    · rfl
    · show w.toNat <<< 8 < 2 ^ 32
      rw [Nat.shiftLeft_eq]
      omega
  rw [UInt32.toNat_or, hshift, UInt8.toNat_toUInt32, ← Nat.shiftLeft_add_eq_or_of_lt b.toNat_lt, Nat.shiftLeft_eq,
    Nat.mul_comm]

/-- A word that is put together by shifts. -/
theorem toUInt32_ofBytes {bytes : List UInt8} (h : bytes.length ≤ 4) :
    (ofBytes bytes).toUInt32 = bytes.foldr (fun b (n : UInt32) => n <<< 8 ||| b.toUInt32) 0 := by
  have hfold : ∀ {l : List UInt8}, l.length ≤ 4 →
      (l.foldr (fun b (n : UInt32) => n <<< 8 ||| b.toUInt32) 0).toNat = ofBytes l ∧ ofBytes l < 256 ^ l.length := by
    intro l hl
    induction l with
    | nil => exact ⟨rfl, by decide⟩
    | cons b l ih =>
      rw [List.length_cons] at hl
      obtain ⟨hnat, hlt⟩ := ih (by omega)
      have hpow : 256 ^ l.length ≤ 256 ^ 3 := Nat.pow_le_pow_right (by decide) (by omega)
      have hb := b.toNat_lt
      rw [List.foldr_cons, toNat_shiftLeft_or (by omega), hnat, List.length_cons, Nat.pow_succ]
      exact ⟨rfl, show 256 * ofBytes l + b.toNat < _ by omega⟩
  rw [← (hfold h).1]
  exact UInt32.ofNat_toNat

end MessageDigest
