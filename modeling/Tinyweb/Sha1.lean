import Tinyweb.Digest
import Tinyweb.Lib.BlockHash
import Tinyweb.Lib.Frames

/-!
# SHA-1 of a message that arrives in parts

The context of the SHA-1 routines keeps the state, the bytes that do not fill a block and the number of bits in two
words. `Sha1Ctx.Holds` says that it stands for a message; `SHA1Update` adds the bytes of a part to it
(`Sha1Ctx.Holds.update`), also when `SHA1Final` adds the padding byte by byte.  So the digest is that of the padded
message (`sha1_eq_sha1Hash`).
-/

namespace Tinyweb

open Clib Rfc6455

/-- The context after the bytes of `msg`. -/
structure Sha1Ctx.Holds (ctx : Sha1Ctx) (msg : List UInt8) : Prop where
  digests : Digests 64 sha1Transform sha1Init.state msg ctx.state (ctx.buffer.take (msg.length % 64))
  length_buffer : ctx.buffer.length = 64
  bits : wordsNat ctx.count1 ctx.count0 = 8 * msg.length % 2 ^ 64

theorem holds_sha1Init : sha1Init.Holds [] where
  digests := .short (by decide)
  length_buffer := rfl
  bits := rfl

variable {ctx : Sha1Ctx} {msg : List UInt8}

/-- The words of the counter after an update. -/
private theorem sha1Update_count (ctx : Sha1Ctx) (data : List UInt8) :
    ((sha1Update ctx data).count1, (sha1Update ctx data).count0) =
      addBits ctx.count1 ctx.count0 data.length.toUInt32 := by
  unfold sha1Update
  dsimp only
  split <;> rfl

theorem Sha1Ctx.Holds.update (h : ctx.Holds msg) {data : List UInt8} (hdata : data.length < 2 ^ 32) :
    (sha1Update ctx data).Holds (msg ++ data) := by
  have hbits : wordsNat (sha1Update ctx data).count1 (sha1Update ctx data).count0 =
      8 * (msg ++ data).length % 2 ^ 64 := by
    have hlen : data.length.toUInt32.toNat = data.length := Nat.mod_eq_of_lt hdata
    have hadd := wordsNat_addBits ctx.count1 ctx.count0 data.length.toUInt32
    rw [← sha1Update_count, h.bits, hlen] at hadd
    rw [hadd, List.length_append]
    omega
  have hplace := place_of_wordsNat h.bits
  have hbuffer := h.length_buffer
  have hlt := Nat.mod_lt msg.length (show 0 < 64 by decide)
  have hdigests := h.digests
  have hnew : (msg ++ data).length % 64 = (msg.length % 64 + data.length) % 64 := by
    rw [List.length_append, Nat.mod_add_mod]
  generalize msg.length % 64 = j at hplace hlt hdigests hnew
  suffices hrest : (sha1Update ctx data).buffer.length = 64 ∧
      Digests 64 sha1Transform ctx.state (ctx.buffer.take j ++ data)
      (sha1Update ctx data).state ((sha1Update ctx data).buffer.take ((msg ++ data).length % 64)) from
    ⟨hdigests.append hrest.2, hrest.1, hbits⟩
  rw [hnew]
  unfold sha1Update
  dsimp only
  rw [hplace]
  split
  next hfill =>
    -- the first bytes fill the block, then come the whole blocks of the rest
    have hfirst : (data.take (64 - j)).length = 64 - j := List.length_take_of_le (by omega)
    have hblock : putAt ctx.buffer j (data.take (64 - j)) = ctx.buffer.take j ++ data.take (64 - j) := by
      have htake := @take_putAt ctx.buffer (data.take (64 - j)) j (by omega)
      rwa [List.take_of_length_le] at htake
      rw [length_putAt (by omega)]
      omega
    have hlenblock : (ctx.buffer.take j ++ data.take (64 - j)).length = 64 := by
      rw [List.length_append, List.length_take, hfirst]
      omega
    have hblocks := @foldl_blocks UInt8 Sha1Vars 64 sha1Transform ((data.drop (64 - j)).length / 64)
      (sha1Transform ctx.state (ctx.buffer.take j ++ data.take (64 - j))) (data.drop (64 - j))
    have hdigest := @digests_digest UInt8 Sha1Vars 64 sha1Transform (by decide)
      (sha1Transform ctx.state (ctx.buffer.take j ++ data.take (64 - j))) (data.drop (64 - j))
    have hleft := hdigest.length_rest
    unfold digest at hdigest hleft
    rw [← hblocks.1, hblocks.2] at hdigest
    rw [hblocks.2] at hleft
    have hlast : (data.drop (64 - j)).length % 64 = (j + data.length) % 64 := by
      rw [List.length_drop]
      omega
    rw [hblock, ← hlast, ← hleft]
    generalize (data.drop (64 - j)).drop (64 * ((data.drop (64 - j)).length / 64)) = rest at hdigest hleft ⊢
    have hroom : 0 + rest.length ≤ (ctx.buffer.take j ++ data.take (64 - j)).length := by omega
    refine ⟨by rw [length_putAt hroom, hlenblock], ?_⟩
    have htake := take_putAt hroom
    rw [Nat.zero_add, List.take_zero, List.nil_append] at htake
    rw [htake]
    have h := Digests.block hlenblock hdigest
    rwa [List.append_assoc, List.take_append_drop] at h
  next hfill =>
    have hroom : j + data.length ≤ ctx.buffer.length := by omega
    rw [Nat.mod_eq_of_lt (show j + data.length < 64 by omega), take_putAt hroom]
    refine ⟨by rw [length_putAt hroom, hbuffer], .short ?_⟩
    rw [List.length_append, List.length_take]
    omega

/-- The loop of `SHA1Final` adds zeros until eight bytes are missing in the block. -/
private theorem Sha1Ctx.Holds.pad (fuel : Nat) (h : ctx.Holds msg) (hfuel : (120 - msg.length % 64) % 64 < fuel) :
    (sha1Pad fuel ctx).Holds (msg ++ List.replicate ((120 - msg.length % 64) % 64) 0) := by
  induction fuel generalizing ctx msg with
  | zero => omega
  | succ fuel ih =>
    have hmask := mask_of_wordsNat h.bits
    rw [sha1Pad]
    split
    next hdone =>
      have hat : msg.length % 64 = 56 := by
        have := congrArg UInt32.toNat hdone
        rw [hmask] at this
        change _ = 448 at this
        omega
      rw [hat]
      simpa using h
    next hmore =>
      have hnot : msg.length % 64 ≠ 56 := by
        intro hat
        apply hmore
        rw [← UInt32.toNat_inj, hmask, hat]
        rfl
      have hnext := h.update (show [(0 : UInt8)].length < 2 ^ 32 by decide)
      have hlen : (120 - msg.length % 64) % 64 = (120 - (msg ++ [(0 : UInt8)]).length % 64) % 64 + 1 := by
        rw [List.length_append, List.length_singleton]
        omega
      rw [hlen] at hfuel ⊢
      have hpad := ih hnext (by omega)
      rwa [List.append_assoc, List.singleton_append, ← List.replicate_succ] at hpad

/-- The bytes of the counter. -/
private theorem map_wordByte {high low : UInt32} {len : Nat} (h : wordsNat high low = 8 * len % 2 ^ 64) :
    (List.range 8).map (wordByte [high, low]) = bigEndian 8 (8 * len) := by
  have hhigh := high.toNat_lt
  have hlow := low.toNat_lt
  unfold wordsNat at h
  have hlist : (List.range 8).map (wordByte [high, low]) =
      [(high >>> 24).toUInt8, (high >>> 16).toUInt8, (high >>> 8).toUInt8, (high >>> 0).toUInt8,
        (low >>> 24).toUInt8, (low >>> 16).toUInt8, (low >>> 8).toUInt8, (low >>> 0).toUInt8] := rfl
  rw [hlist, byte_of_word high 24 24 rfl, byte_of_word high 16 16 rfl, byte_of_word high 8 8 rfl,
    byte_of_word high 0 0 rfl,
    byte_of_word low 24 24 rfl, byte_of_word low 16 16 rfl, byte_of_word low 8 8 rfl, byte_of_word low 0 0 rfl]
  simp only [bigEndian, List.nil_append, List.cons_append, List.cons.injEq, and_true]
  refine ⟨?_, ?_, ?_, ?_, ?_, ?_, ?_, ?_⟩ <;> exact congrArg Nat.toUInt8 (by omega)

/-- The hash of the padded message, without a buffer. -/
def sha1Hash (data : List UInt8) : List UInt8 :=
  let s := paddedHash sha1Transform sha1Init.state (bigEndian 8) data
  (List.range 20).map (wordByte [s.v, s.w, s.x, s.y, s.z])

theorem sha1_eq_sha1Hash {data : List UInt8} (hdata : data.length < 2 ^ 31) : sha1 data = sha1Hash data := by
  have h := holds_sha1Init.update (show data.length < 2 ^ 32 by omega)
  rw [List.nil_append] at h
  have hone := h.update (show [(0x80 : UInt8)].length < 2 ^ 32 by decide)
  have hpad := hone.pad 64 (Nat.mod_lt _ (by decide))
  have hend := hpad.update (show (bigEndian 8 (8 * data.length)).length < 2 ^ 32 by rw [length_bigEndian]; decide)
  have hmsg : data ++ [0x80] ++ List.replicate ((120 - (data ++ [(0x80 : UInt8)]).length % 64) % 64) 0 ++
      bigEndian 8 (8 * data.length) = data ++ padding data.length (bigEndian 8 (8 * data.length)) := by
    have hzeros : (120 - (data ++ [(0x80 : UInt8)]).length % 64) % 64 = (119 - data.length % 64) % 64 := by
      rw [List.length_append, List.length_singleton]
      omega
    rw [hzeros, padding, List.append_assoc, List.append_assoc, List.singleton_append]
  rw [hmsg] at hend
  have hstate : paddedHash sha1Transform sha1Init.state (bigEndian 8) data =
      (sha1Update (sha1Pad 64 (sha1Update (sha1Update sha1Init data) [0x80])) (bigEndian 8 (8 * data.length))).state :=
    congrArg Prod.fst hend.digests.digest_eq
  unfold sha1 sha1Final sha1Hash
  dsimp only
  rw [map_wordByte h.bits, ← hstate]

/-- A digest that is given with the algorithm. -/
theorem sha1_eq_sha1Hash_abc : sha1 (ascii ['a', 'b', 'c']) = sha1Hash (ascii ['a', 'b', 'c']) ∧
    sha1Hash (ascii ['a', 'b', 'c']) = [0xa9, 0x99, 0x3e, 0x36, 0x47, 0x06, 0x81, 0x6a, 0xba, 0x3e, 0x25, 0x71,
      0x78, 0x50, 0xc2, 0x6c, 0x9c, 0xd0, 0xd8, 0x9d] :=
  ⟨sha1_eq_sha1Hash (by decide), by decide +kernel⟩

end Tinyweb
