import Tinyweb.Digest
import Tinyweb.Lib.BlockHash
import Tinyweb.Lib.Frames
import Tinyweb.Lib.MessageDigest
import Tinyweb.Lib.PercentEncoding

/-!
# MD5 (`mongoose.c`)

`mg_md5` hashes a list of strings, one `MD5Update` for each of them.  The macro `MD5STEP` is always called with its four
variables in the order of the last call turned by one place, so `md5Step` is one step on the variables in the order of
the macro's arguments, which is `a, b, c, d` again after four steps.  `MD5Init` leaves the bytes of the block as they
are on the stack.

The result depends on the joined text only, and is its message digest (`mgMd5_eq_md5`).
-/

namespace Tinyweb

open Clib Rfc6455

structure Md5Vars where
  w : UInt32
  x : UInt32
  y : UInt32
  z : UInt32
  deriving DecidableEq

def f1 (x y z : UInt32) : UInt32 := z ^^^ (x &&& (y ^^^ z))
def f2 (x y z : UInt32) : UInt32 := f1 z x y
def f3 (x y z : UInt32) : UInt32 := x ^^^ y ^^^ z
def f4 (x y z : UInt32) : UInt32 := y ^^^ (x ||| ~~~z)

/-- The word of the block, the constant and the rotation of each step. -/
def md5Steps : List (Nat × UInt32 × UInt32) := [
  (0, 0xd76aa478, 7), (1, 0xe8c7b756, 12), (2, 0x242070db, 17), (3, 0xc1bdceee, 22),
  (4, 0xf57c0faf, 7), (5, 0x4787c62a, 12), (6, 0xa8304613, 17), (7, 0xfd469501, 22),
  (8, 0x698098d8, 7), (9, 0x8b44f7af, 12), (10, 0xffff5bb1, 17), (11, 0x895cd7be, 22),
  (12, 0x6b901122, 7), (13, 0xfd987193, 12), (14, 0xa679438e, 17), (15, 0x49b40821, 22),
  (1, 0xf61e2562, 5), (6, 0xc040b340, 9), (11, 0x265e5a51, 14), (0, 0xe9b6c7aa, 20),
  (5, 0xd62f105d, 5), (10, 0x02441453, 9), (15, 0xd8a1e681, 14), (4, 0xe7d3fbc8, 20),
  (9, 0x21e1cde6, 5), (14, 0xc33707d6, 9), (3, 0xf4d50d87, 14), (8, 0x455a14ed, 20),
  (13, 0xa9e3e905, 5), (2, 0xfcefa3f8, 9), (7, 0x676f02d9, 14), (12, 0x8d2a4c8a, 20),
  (5, 0xfffa3942, 4), (8, 0x8771f681, 11), (11, 0x6d9d6122, 16), (14, 0xfde5380c, 23),
  (1, 0xa4beea44, 4), (4, 0x4bdecfa9, 11), (7, 0xf6bb4b60, 16), (10, 0xbebfbc70, 23),
  (13, 0x289b7ec6, 4), (0, 0xeaa127fa, 11), (3, 0xd4ef3085, 16), (6, 0x04881d05, 23),
  (9, 0xd9d4d039, 4), (12, 0xe6db99e5, 11), (15, 0x1fa27cf8, 16), (2, 0xc4ac5665, 23),
  (0, 0xf4292244, 6), (7, 0x432aff97, 10), (14, 0xab9423a7, 15), (5, 0xfc93a039, 21),
  (12, 0x655b59c3, 6), (3, 0x8f0ccc92, 10), (10, 0xffeff47d, 15), (1, 0x85845dd1, 21),
  (8, 0x6fa87e4f, 6), (15, 0xfe2ce6e0, 10), (6, 0xa3014314, 15), (13, 0x4e0811a1, 21),
  (4, 0xf7537e82, 6), (11, 0xbd3af235, 10), (2, 0x2ad7d2bb, 15), (9, 0xeb86d391, 21)]

/-- The step number `i`; the variables come out in the order in which the next step takes them. -/
def md5Step (words : List UInt32) (st : Md5Vars × Nat) (step : Nat × UInt32 × UInt32) : Md5Vars × Nat :=
  let (v, i) := st
  let (k, constant, s) := step
  let f := if i < 16 then f1 else if i < 32 then f2 else if i < 48 then f3 else f4
  let w := v.w + f v.x v.y v.z + (words.getD k 0 + constant)
  let w := rol w s + v.x
  (⟨v.z, w, v.x, v.y⟩, i + 1)

/-- The words of a block, the least significant byte first; `byteReverse` makes this so on every machine. -/
def md5Words (block : List UInt8) : List UInt32 :=
  (List.range 16).map fun i => ((block.drop (4 * i)).take 4).foldr (fun b n => n <<< 8 ||| b.toUInt32) 0

def md5Transform (buf : Md5Vars) (block : List UInt8) : Md5Vars :=
  let (v, _) := md5Steps.foldl (md5Step (md5Words block)) (buf, 0)
  ⟨buf.w + v.w, buf.x + v.x, buf.y + v.y, buf.z + v.z⟩

/-- `MD5_CTX` -/
structure Md5Ctx where
  buf : Md5Vars
  bits0 : UInt32
  bits1 : UInt32
  input : List UInt8

def md5InitBuf : Md5Vars := ⟨0x67452301, 0xefcdab89, 0x98badcfe, 0x10325476⟩

def md5Init (stack : List UInt8) : Md5Ctx := ⟨md5InitBuf, 0, 0, stack⟩

/-- The loop of `MD5Update` over whole blocks, which are copied to the context, and the copy behind it. -/
def md5Blocks : Nat → Md5Vars → List UInt8 → List UInt8 → Md5Vars × List UInt8
  | 0, buf, input, data => (buf, putAt input 0 data)
  | fuel + 1, buf, input, data =>
    if data.length ≥ 64 then
      let input := putAt input 0 (data.take 64)
      md5Blocks fuel (md5Transform buf input) input (data.drop 64)
    else (buf, putAt input 0 data)

def md5Update (ctx : Md5Ctx) (data : List UInt8) : Md5Ctx :=
  let len := data.length.toUInt32
  let bits0 := ctx.bits0 + (len <<< 3)
  let bits1 := (if bits0 < ctx.bits0 then ctx.bits1 + 1 else ctx.bits1) + (len >>> 29)
  let t := (ctx.bits0 >>> 3 &&& 63).toNat
  if t ≠ 0 then
    if data.length < 64 - t then ⟨ctx.buf, bits0, bits1, putAt ctx.input t data⟩
    else
      let input := putAt ctx.input t (data.take (64 - t))
      let data := data.drop (64 - t)
      let (buf, input) := md5Blocks data.length (md5Transform ctx.buf input) input data
      ⟨buf, bits0, bits1, input⟩
  else
    let (buf, input) := md5Blocks data.length ctx.buf ctx.input data
    ⟨buf, bits0, bits1, input⟩

/-- The bytes of a word, the least significant first. -/
def littleEndian (w : UInt32) : List UInt8 := [w.toUInt8, (w >>> 8).toUInt8, (w >>> 16).toUInt8, (w >>> 24).toUInt8]

def md5Final (ctx : Md5Ctx) : List UInt8 :=
  let count := (ctx.bits0 >>> 3 &&& 63).toNat
  let input := putAt ctx.input count [0x80]
  let free := 63 - count
  let (buf, input) :=
    if free < 8 then
      let input := putAt input (count + 1) (List.replicate free 0)
      (md5Transform ctx.buf input, putAt input 0 (List.replicate 56 0))
    else (ctx.buf, putAt input (count + 1) (List.replicate (free - 8) 0))
  let buf := md5Transform buf (putAt input 56 (littleEndian ctx.bits0 ++ littleEndian ctx.bits1))
  littleEndian buf.w ++ littleEndian buf.x ++ littleEndian buf.y ++ littleEndian buf.z

def bin2str (bytes : List UInt8) : List UInt8 :=
  bytes.flatMap fun b => [hexDigit (b.toNat / 16), hexDigit (b.toNat % 16)]

/-- `mg_md5` for strings; `stack` is what was in the memory of the context. -/
def mgMd5 (stack : List UInt8) (strings : List (List UInt8)) : List UInt8 :=
  bin2str (md5Final (strings.foldl md5Update (md5Init stack)))

/-! ### The text hashed -/

/-- The context after the bytes of `msg`. -/
structure Md5Ctx.Holds (ctx : Md5Ctx) (msg : List UInt8) : Prop where
  digests : Digests 64 md5Transform md5InitBuf msg ctx.buf (ctx.input.take (msg.length % 64))
  length_input : ctx.input.length = 64
  bits : wordsNat ctx.bits1 ctx.bits0 = 8 * msg.length % 2 ^ 64

theorem holds_md5Init {stack : List UInt8} (h : stack.length = 64) : (md5Init stack).Holds [] := by
  refine ⟨?_, h, by simp [md5Init, wordsNat]⟩
  rw [md5Init, List.length_nil, Nat.zero_mod, List.take_zero]
  exact .short (by decide)

/-- A copy to the beginning of the block. -/
private theorem take_putAt_zero {buffer data : List UInt8} (h : data.length ≤ buffer.length) :
    (putAt buffer 0 data).take data.length = data := by
  have htake := @take_putAt buffer data 0 (by omega)
  rwa [Nat.zero_add, List.take_zero, List.nil_append] at htake

private theorem putAt_full {buffer data : List UInt8} {j : Nat} (h : j + data.length = buffer.length) :
    putAt buffer j data = buffer.take j ++ data := by
  have htake := @take_putAt buffer data j (by omega)
  rwa [h, List.take_of_length_le] at htake
  rw [length_putAt (by omega)]

private theorem md5Blocks_spec (fuel : Nat) {buf : Md5Vars} {input data : List UInt8} (hinput : input.length = 64)
    (hfuel : data.length ≤ 64 * fuel + 63) :
    (md5Blocks fuel buf input data).2.length = 64 ∧ Digests 64 md5Transform buf data (md5Blocks fuel buf input data).1
      ((md5Blocks fuel buf input data).2.take (data.length % 64)) := by
  have hshort : ∀ {buf : Md5Vars} {input data : List UInt8}, input.length = 64 → data.length < 64 →
      (putAt input 0 data).length = 64 ∧
        Digests 64 md5Transform buf data buf ((putAt input 0 data).take (data.length % 64)) := by
    intro buf input data hinput hdata
    rw [Nat.mod_eq_of_lt hdata, take_putAt_zero (by omega), length_putAt (by omega)]
    exact ⟨hinput, .short hdata⟩
  induction fuel generalizing buf input data with
  | zero => exact hshort hinput (by omega)
  | succ fuel ih =>
    rw [md5Blocks]
    split
    next hmore =>
      have hblock : (data.take 64).length = 64 := List.length_take_of_le hmore
      have hcopy : putAt input 0 (data.take 64) = data.take 64 := by
        rw [putAt_full (by omega), List.take_zero, List.nil_append]
      dsimp only
      rw [hcopy]
      have hlast : data.length % 64 = (data.drop 64).length % 64 := by
        rw [List.length_drop]
        omega
      obtain ⟨hlen, hrest⟩ := ih hblock (show (data.drop 64).length ≤ 64 * fuel + 63 by rw [List.length_drop]; omega)
      refine ⟨hlen, ?_⟩
      rw [hlast]
      have h := Digests.block hblock hrest
      rwa [List.take_append_drop] at h
    next hless => exact hshort hinput (by omega)

variable {ctx : Md5Ctx} {msg : List UInt8}

private theorem md5Update_bits (ctx : Md5Ctx) (data : List UInt8) :
    ((md5Update ctx data).bits1, (md5Update ctx data).bits0) = addBits ctx.bits1 ctx.bits0 data.length.toUInt32 := by
  unfold md5Update
  dsimp only
  split
  next => split <;> rfl
  next => rfl

theorem Md5Ctx.Holds.update (h : ctx.Holds msg) {data : List UInt8} (hdata : data.length < 2 ^ 32) :
    (md5Update ctx data).Holds (msg ++ data) := by
  have hbits : wordsNat (md5Update ctx data).bits1 (md5Update ctx data).bits0 = 8 * (msg ++ data).length % 2 ^ 64 := by
    have hlen : data.length.toUInt32.toNat = data.length := Nat.mod_eq_of_lt hdata
    have hadd := wordsNat_addBits ctx.bits1 ctx.bits0 data.length.toUInt32
    rw [← md5Update_bits, h.bits, hlen] at hadd
    rw [hadd, List.length_append]
    omega
  have hplace := place_of_wordsNat h.bits
  have hinput := h.length_input
  have hlt := Nat.mod_lt msg.length (show 0 < 64 by decide)
  have hdigests := h.digests
  have hnew : (msg ++ data).length % 64 = (msg.length % 64 + data.length) % 64 := by
    rw [List.length_append, Nat.mod_add_mod]
  generalize msg.length % 64 = t at hplace hlt hdigests hnew
  suffices hrest : (md5Update ctx data).input.length = 64 ∧ Digests 64 md5Transform ctx.buf (ctx.input.take t ++ data)
      (md5Update ctx data).buf ((md5Update ctx data).input.take ((msg ++ data).length % 64)) from
    ⟨hdigests.append hrest.2, hrest.1, hbits⟩
  rw [hnew]
  unfold md5Update
  dsimp only
  rw [hplace]
  split
  next hbegun =>
    split
    next hfew =>
      have hroom : t + data.length ≤ ctx.input.length := by omega
      rw [Nat.mod_eq_of_lt (show t + data.length < 64 by omega), take_putAt hroom]
      refine ⟨by rw [length_putAt hroom, hinput], .short ?_⟩
      rw [List.length_append, List.length_take]
      omega
    next hmany =>
      -- the first bytes fill the block that has been begun
      have hfirst : (data.take (64 - t)).length = 64 - t := List.length_take_of_le (by omega)
      have hlenblock : (ctx.input.take t ++ data.take (64 - t)).length = 64 := by
        rw [List.length_append, List.length_take, hfirst]
        omega
      rw [putAt_full (show t + (data.take (64 - t)).length = ctx.input.length by omega)]
      obtain ⟨hlen, hrest⟩ := @md5Blocks_spec (data.drop (64 - t)).length
        (md5Transform ctx.buf (ctx.input.take t ++ data.take (64 - t))) _ (data.drop (64 - t)) hlenblock (by omega)
      have hlast : (data.drop (64 - t)).length % 64 = (t + data.length) % 64 := by
        rw [List.length_drop]
        omega
      rw [hlast] at hrest
      refine ⟨hlen, ?_⟩
      have h := Digests.block hlenblock hrest
      rwa [List.append_assoc, List.take_append_drop] at h
  next hempty =>
    obtain rfl : t = 0 := by omega
    rw [List.take_zero, List.nil_append, Nat.zero_add]
    exact md5Blocks_spec data.length hinput (by omega)

/-- The counter as it is written behind the text. -/
private theorem littleEndian_bits {high low : UInt32} {len : Nat} (h : wordsNat high low = 8 * len % 2 ^ 64) :
    littleEndian low ++ littleEndian high = (bigEndian 8 (8 * len)).reverse := by
  have hhigh := high.toNat_lt
  have hlow := low.toNat_lt
  unfold wordsNat at h
  have hlast : ∀ w : UInt32, w.toUInt8 = (w.toNat % 256).toUInt8 := by
    intro w
    rw [← UInt8.toNat_inj, UInt32.toNat_toUInt8]
    exact (Nat.mod_mod _ _).symm
  simp only [littleEndian, byte_of_word _ 8 8 rfl, byte_of_word _ 16 16 rfl, byte_of_word _ 24 24 rfl, hlast, bigEndian,
    List.nil_append, List.cons_append, List.reverse_cons, List.reverse_nil, List.cons.injEq, and_true]
  refine ⟨?_, ?_, ?_, ?_, ?_, ?_, ?_, ?_⟩ <;> exact congrArg Nat.toUInt8 (by omega)

/-- The padding is written over what is left in the block, and over another block if the counter does not fit. -/
private theorem md5Final_eq (h : ctx.Holds msg) :
    let buf := paddedHash md5Transform md5InitBuf (fun n => (bigEndian 8 n).reverse) msg
    md5Final ctx = littleEndian buf.w ++ littleEndian buf.x ++ littleEndian buf.y ++ littleEndian buf.z := by
  have hplace := place_of_wordsNat h.bits
  have hinput := h.length_input
  have hlt := Nat.mod_lt msg.length (show 0 < 64 by decide)
  have hfield := littleEndian_bits h.bits
  have hfieldlen : (bigEndian 8 (8 * msg.length)).reverse.length = 8 := by rw [List.length_reverse, length_bigEndian]
  have hhash : ∀ buf, Digests 64 md5Transform ctx.buf (ctx.input.take (msg.length % 64) ++
      padding msg.length (bigEndian 8 (8 * msg.length)).reverse) buf [] →
      paddedHash md5Transform md5InitBuf (fun n => (bigEndian 8 n).reverse) msg = buf := fun buf hbuf =>
    congrArg Prod.fst (h.digests.append hbuf).digest_eq
  unfold padding at hhash
  unfold md5Final
  dsimp only
  rw [hplace, hfield]
  generalize msg.length % 64 = c at hlt hhash
  generalize (bigEndian 8 (8 * msg.length)).reverse = field at hfieldlen hhash
  have hlen : (putAt ctx.input c [0x80]).length = 64 := by rw [length_putAt (by simp; omega), hinput]
  have htake : (putAt ctx.input c [0x80]).take (c + 1) = ctx.input.take c ++ [0x80] :=
    @take_putAt ctx.input [0x80] c (by simp; omega)
  have hpending : (ctx.input.take c).length = c := List.length_take_of_le (by omega)
  generalize ctx.input.take c = pending at hhash htake hpending
  have hend : ∀ {block : List UInt8} {buf : Md5Vars}, block.length = 64 →
      Digests 64 md5Transform buf block (md5Transform buf block) [] := by
    intro block buf hblock
    have h := @Digests.block UInt8 Md5Vars 64 md5Transform buf (md5Transform buf block) block [] [] hblock
      (.short (by simp))
    rwa [List.append_nil] at h
  split
  next hfree =>
    have hzeros : (119 - c) % 64 = (63 - c) + 56 := by omega
    have hblock : putAt (putAt ctx.input c [0x80]) (c + 1) (List.replicate (63 - c) 0) =
        pending ++ [0x80] ++ List.replicate (63 - c) 0 := by
      rw [putAt_full (by rw [List.length_replicate, hlen]; omega), htake]
    have hblocklen : (pending ++ [0x80] ++ List.replicate (63 - c) (0 : UInt8)).length = 64 := by
      simp only [List.length_append, List.length_singleton, List.length_replicate, hpending]
      omega
    rw [hblock]
    have hsecond : putAt (putAt (pending ++ [0x80] ++ List.replicate (63 - c) 0) 0 (List.replicate 56 0)) 56 field =
        List.replicate 56 0 ++ field := by
      rw [putAt_full (by rw [hfieldlen, length_putAt (by simp; omega), hblocklen])]
      have h56 := @take_putAt_zero (pending ++ [0x80] ++ List.replicate (63 - c) 0) (List.replicate 56 0) (by
        rw [List.length_replicate, hblocklen]; decide)
      rw [List.length_replicate] at h56
      rw [h56]
    rw [hsecond, hhash]
    have hmsg : pending ++ 0x80 :: (List.replicate ((119 - c) % 64) 0 ++ field) =
        (pending ++ [0x80] ++ List.replicate (63 - c) 0) ++ (List.replicate 56 0 ++ field) := by
      rw [hzeros, List.replicate_add]
      simp
    rw [hmsg]
    exact .block hblocklen (hend (by rw [List.length_append, List.length_replicate, hfieldlen]))
  next hfree =>
    have hzeros : (119 - c) % 64 = 63 - c - 8 := by omega
    have hblock : putAt (putAt (putAt ctx.input c [0x80]) (c + 1) (List.replicate (63 - c - 8) 0)) 56 field =
        pending ++ 0x80 :: (List.replicate ((119 - c) % 64) 0 ++ field) := by
      have hroom : (c + 1) + (List.replicate (63 - c - 8) (0 : UInt8)).length ≤ (putAt ctx.input c [0x80]).length := by
        rw [List.length_replicate, hlen]
        omega
      have h56 := take_putAt hroom
      rw [List.length_replicate, show c + 1 + (63 - c - 8) = 56 by omega, htake] at h56
      rw [putAt_full (by rw [hfieldlen, length_putAt hroom, hlen]), h56, hzeros]
      simp
    rw [hblock, hhash]
    apply hend
    simp only [List.length_append, List.length_cons, List.length_replicate, hfieldlen, hpending]
    omega

/-! ### The message digest -/

section

open MessageDigest

def Md5Vars.state (v : Md5Vars) : State := ⟨v.w, v.x, v.y, v.z⟩

private theorem md5Steps_eq : md5Steps = (List.range 64).map fun i =>
    (wordIndex i, constants.getD i 0, (rotation i).toUInt32) := by
  decide +kernel

private theorem rotation_fin : ∀ i : Fin 64, 0 < rotation i ∧ rotation i < 32 ∧ wordIndex i < 16 := by decide +kernel

private theorem round_eq {i : Nat} (hi : i < 64) (x y z : UInt32) :
    (if i < 16 then f1 else if i < 32 then f2 else if i < 48 then f3 else f4) x y z = mix (i / 16) x y z := by
  by_cases h1 : i < 16
  · rw [if_pos h1, Nat.div_eq_of_lt h1, mix_zero]
    rfl
  by_cases h2 : i < 32
  · rw [if_neg h1, if_pos h2, show i / 16 = 1 by omega, mix_one, mix_zero]
    rfl
  by_cases h3 : i < 48
  · rw [if_neg h1, if_neg h2, if_pos h3, show i / 16 = 2 by omega]
    rfl
  · rw [if_neg h1, if_neg h2, if_neg h3, show i / 16 = 3 by omega]
    rfl

private theorem getD_md5Words (block : List UInt8) {k : Nat} (hk : k < 16) :
    (md5Words block).getD k 0 = word block k := by
  rw [md5Words, List.getD_eq_getElem?_getD, List.getElem?_map, List.getElem?_range hk, Option.map_some,
    Option.getD_some, word, toUInt32_ofBytes (List.length_take_le _ _)]

private theorem md5Step_eq (block : List UInt8) (v : Md5Vars) {i : Nat} (hi : i < 64) :
    ∃ v' : Md5Vars, md5Step (md5Words block) (v, i) (wordIndex i, constants.getD i 0, (rotation i).toUInt32) =
      (v', i + 1) ∧ v'.state = step (word block) v.state i := by
  obtain ⟨hpos, hlt, hindex⟩ := rotation_fin ⟨i, hi⟩
  refine ⟨_, rfl, ?_⟩
  simp only [Md5Vars.state, step]
  rw [round_eq hi, getD_md5Words block hindex, rotateLeft_eq _ hpos hlt, ← UInt32.add_assoc, UInt32.add_comm v.x]
  rfl

private theorem md5Steps_foldl (block : List UInt8) (buf : Md5Vars) {n : Nat} (hn : n ≤ 64) :
    ∃ v : Md5Vars, ((List.range n).map fun i => (wordIndex i, constants.getD i 0, (rotation i).toUInt32)).foldl
        (md5Step (md5Words block)) (buf, 0) = (v, n) ∧
      v.state = (List.range n).foldl (step (word block)) buf.state := by
  induction n with
  | zero => exact ⟨buf, rfl, rfl⟩
  | succ n ih =>
    obtain ⟨v, hv, hstate⟩ := ih (by omega)
    obtain ⟨v', hv', hstate'⟩ := md5Step_eq block v (show n < 64 by omega)
    refine ⟨v', ?_, ?_⟩
    · rw [List.range_succ, List.map_append, List.foldl_append, hv, List.map_singleton, List.foldl_cons,
        List.foldl_nil, hv']
    · rw [List.range_succ, List.foldl_append, List.foldl_cons, List.foldl_nil, ← hstate, hstate']

private theorem md5Transform_state (buf : Md5Vars) (block : List UInt8) :
    (md5Transform buf block).state = compress buf.state block := by
  obtain ⟨v, hv, hstate⟩ := md5Steps_foldl block buf (Nat.le_refl 64)
  unfold md5Transform compress
  rw [md5Steps_eq, hv, ← hstate]
  rfl

private theorem littleEndian_eq (w : UInt32) : littleEndian w = toBytes 4 w.toNat := by
  have hfirst : w.toUInt8 = (w.toNat / 256 ^ 0 % 256).toUInt8 := by
    rw [← UInt8.toNat_inj, UInt32.toNat_toUInt8, Nat.pow_zero, Nat.div_one]
    exact (Nat.mod_mod _ _).symm
  rw [littleEndian, hfirst, byte_of_word w 8 8 rfl, byte_of_word w 16 16 rfl, byte_of_word w 24 24 rfl]
  rfl

private theorem reverse_bigEndian (count n : Nat) : (bigEndian count n).reverse = toBytes count n := by
  induction count generalizing n with
  | zero => rfl
  | succ count ih =>
    rw [bigEndian, List.reverse_append, List.reverse_singleton, List.singleton_append, ih, toBytes, toBytes,
      List.range_succ_eq_map, List.map_cons, List.map_map, Nat.pow_zero, Nat.div_one]
    congr 1
    apply List.map_congr_left
    intro k _
    rw [Function.comp_apply, Nat.div_div_eq_div_mul, Nat.succ_eq_add_one, Nat.pow_succ, Nat.mul_comm]

/-- The padded message goes through `MD5Transform` as the standard says. -/
private theorem paddedHash_state (msg : List UInt8) :
    (paddedHash md5Transform md5InitBuf (fun n => (bigEndian 8 n).reverse) msg).state =
      paddedHash compress init (toBytes 8) msg := by
  rw [paddedHash_map md5Transform_state]
  congr 1
  funext n
  exact reverse_bigEndian 8 n

private theorem md5Final_eq_md5 (h : ctx.Holds msg) : md5Final ctx = md5 msg := by
  have hfinal := md5Final_eq h
  have hstate := paddedHash_state msg
  dsimp only at hfinal
  unfold md5
  rw [hfinal, ← hstate, littleEndian_eq, littleEndian_eq, littleEndian_eq, littleEndian_eq]
  simp only [Md5Vars.state, List.flatMap_cons, List.flatMap_nil, List.append_nil, List.append_assoc]

end

/-- The strings may be cut at any place. -/
theorem mgMd5_eq_md5 {stack : List UInt8} (hstack : stack.length = 64) {strings : List (List UInt8)}
    (hstrings : ∀ s ∈ strings, s.length < 2 ^ 32) :
      mgMd5 stack strings = bin2str (MessageDigest.md5 strings.flatten) := by
  have hrun : ∀ {ctx : Md5Ctx} {msg : List UInt8}, ctx.Holds msg →
      (strings.foldl md5Update ctx).Holds (msg ++ strings.flatten) := by
    induction strings with
    | nil =>
      intro ctx msg h
      rw [List.flatten_nil, List.append_nil]
      exact h
    | cons s strings ih =>
      intro ctx msg h
      rw [List.forall_mem_cons] at hstrings
      rw [List.flatten_cons, ← List.append_assoc]
      exact ih hstrings.2 (h.update hstrings.1)
  have h := hrun (holds_md5Init hstack)
  rw [List.nil_append] at h
  exact congrArg bin2str (md5Final_eq_md5 h)

/-- A digest that is given with the algorithm. -/
theorem mgMd5_eq_md5_abc : mgMd5 (List.replicate 64 1) [ascii ['a'], ascii ['b', 'c']] =
    ascii "900150983cd24fb0d6963f7d28e17f72".toList := by
  have h := @mgMd5_eq_md5 (List.replicate 64 1) List.length_replicate [ascii ['a'], ascii ['b', 'c']]
    (List.forall_mem_cons.2 ⟨by decide, List.forall_mem_singleton.2 (by decide)⟩)
  rw [h]
  decide +kernel

end Tinyweb
