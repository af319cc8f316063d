import Mathlib.Algebra.Order.Ring.Nat
import Mathlib.Data.List.Basic
import Mathlib.Tactic.Common

/-!
# Hashing a message block by block

A message is cut into blocks of `size` entries, and `compress` takes the state from one block to the next; what does not
fill a block is left over.  `Digests` says this for a message that arrives in parts: the rest of one part is put in
front of the next one (`Digests.append`).  The hash of a whole message fills its last block with a padding that ends
with the length of the message (`paddedHash`).

The number of bits is kept in two words; `addBits` is the addition of the length of a part to them.
-/

namespace Clib

section

variable {α σ : Type} {size : Nat} {compress : σ → List α → σ} {s t : σ} {msg rest : List α}

/-- From the state `s`, the message leads to the state `t` and the entries `rest` are left over. -/
inductive Digests (size : Nat) (compress : σ → List α → σ) : σ → List α → σ → List α → Prop where
  | short {s : σ} {msg : List α} : msg.length < size → Digests size compress s msg s msg
  | block {s t : σ} {b msg rest : List α} : b.length = size → Digests size compress (compress s b) msg t rest →
      Digests size compress s (b ++ msg) t rest

theorem Digests.length_rest_lt (h : Digests size compress s msg t rest) : rest.length < size := by
  induction h with
  | short h => exact h
  | block _ _ ih => exact ih

theorem Digests.length_rest (h : Digests size compress s msg t rest) : rest.length = msg.length % size := by
  induction h with
  | short h => exact (Nat.mod_eq_of_lt h).symm
  | block hb _ ih => rw [ih, List.length_append, hb, Nat.add_mod_left]

theorem Digests.append {u : σ} {more rest' : List α} (h : Digests size compress s msg t rest)
    (hmore : Digests size compress t (rest ++ more) u rest') : Digests size compress s (msg ++ more) u rest' := by
  induction h with
  | short => exact hmore
  | block hb _ ih =>
    rw [List.append_assoc]
    exact .block hb (ih hmore)

/-- The blocks of a message, `count` of them, and what is left over. -/
def digestBlocks (size : Nat) (compress : σ → List α → σ) : Nat → σ → List α → σ × List α
  | 0, s, msg => (s, msg)
  | count + 1, s, msg => digestBlocks size compress count (compress s (msg.take size)) (msg.drop size)

def digest (size : Nat) (compress : σ → List α → σ) (s : σ) (msg : List α) : σ × List α :=
  digestBlocks size compress (msg.length / size) s msg

theorem Digests.digest_eq (h : Digests size compress s msg t rest) : digest size compress s msg = (t, rest) := by
  unfold digest
  induction h with
  | short h => rw [Nat.div_eq_of_lt h]; rfl
  | @block s t b msg rest hb hrest ih =>
    have hpos : 0 < size := Nat.zero_lt_of_lt hrest.length_rest_lt
    rw [List.length_append, hb, Nat.add_div_left _ hpos, digestBlocks, ← hb, List.take_left, List.drop_left, hb]
    exact ih

theorem digests_digest (hsize : 0 < size) (s : σ) (msg : List α) :
    Digests size compress s msg (digest size compress s msg).1 (digest size compress s msg).2 := by
  induction hk : msg.length using Nat.strongRecOn generalizing s msg with
  | ind k ih =>
    subst hk
    by_cases hshort : msg.length < size
    · have h : Digests size compress s msg s msg := .short hshort
      rw [h.digest_eq]
      exact h
    · have hlen : (msg.take size).length = size := List.length_take_of_le (Nat.not_lt.1 hshort)
      have hrest := ih (msg.drop size).length (by rw [List.length_drop]; omega) (compress s (msg.take size))
        (msg.drop size) rfl
      have h := Digests.block hlen hrest
      rw [List.take_append_drop] at h
      rw [h.digest_eq]
      exact h

/-- The loop over the blocks of a message by their index. -/
theorem foldl_blocks (count : Nat) (s : σ) (msg : List α) :
    (List.range count).foldl (fun s i => compress s ((msg.drop (size * i)).take size)) s =
      (digestBlocks size compress count s msg).1 ∧
      (digestBlocks size compress count s msg).2 = msg.drop (size * count) := by
  induction count generalizing s msg with
  | zero => exact ⟨rfl, rfl⟩
  | succ count ih =>
    obtain ⟨hstate, hrest⟩ := ih (compress s (msg.take size)) (msg.drop size)
    have hshift : ∀ i, (msg.drop size).drop (size * i) = msg.drop (size * (i + 1)) := fun i => by
      rw [List.drop_drop, Nat.mul_succ, Nat.add_comm]
    simp only [hshift] at hstate hrest
    rw [List.range_succ_eq_map, List.foldl_cons, List.foldl_map, digestBlocks]
    exact ⟨hstate, hrest⟩

end

/-! ### Padding -/

variable {σ : Type}

/-- A one bit, zeros and the length of the message, so that blocks of 64 bytes are filled. -/
def padding (len : Nat) (lengthField : List UInt8) : List UInt8 :=
  0x80 :: (List.replicate ((119 - len % 64) % 64) 0 ++ lengthField)

/-- The state after a message and its padding; `lengthField` writes the number of bits as eight bytes. -/
def paddedHash (compress : σ → List UInt8 → σ) (init : σ) (lengthField : Nat → List UInt8) (msg : List UInt8) : σ :=
  (digest 64 compress init (msg ++ padding msg.length (lengthField (8 * msg.length)))).1

/-- Two ways to write the same states. -/
theorem paddedHash_map {τ : Type} {f : σ → τ} {compress : σ → List UInt8 → σ} {compress' : τ → List UInt8 → τ}
    (h : ∀ s b, f (compress s b) = compress' (f s) b) (init : σ) (lengthField : Nat → List UInt8) (msg : List UInt8) :
    f (paddedHash compress init lengthField msg) = paddedHash compress' (f init) lengthField msg := by
  have hblocks : ∀ (count : Nat) (s : σ) (msg : List UInt8),
      f (digestBlocks 64 compress count s msg).1 = (digestBlocks 64 compress' count (f s) msg).1 := by
    intro count
    induction count with
    | zero => exact fun s msg => rfl
    | succ count ih =>
      intro s msg
      rw [digestBlocks, digestBlocks, ih, h]
  exact hblocks _ init _

/-! ### Counting bits -/

/-- A number of two words. -/
def wordsNat (high low : UInt32) : Nat := high.toNat * 2 ^ 32 + low.toNat

/-- The words after `len` bytes: the low word is added with its carry, then the part of the length that has been shifted
out. -/
def addBits (high low len : UInt32) : UInt32 × UInt32 :=
  let low' := low + (len <<< 3)
  ((if low' < low then high + 1 else high) + (len >>> 29), low')

theorem wordsNat_addBits (high low len : UInt32) :
    wordsNat (addBits high low len).1 (addBits high low len).2 = (wordsNat high low + 8 * len.toNat) % 2 ^ 64 := by
  have hhigh := high.toNat_lt
  have hlow := low.toNat_lt
  have hlen := len.toNat_lt
  have hshift : (len <<< 3).toNat = 8 * len.toNat % 2 ^ 32 := by
    rw [UInt32.toNat_shiftLeft, Nat.shiftLeft_eq]
    have : UInt32.toNat 3 % 32 = 3 := by decide
    rw [this]
    omega
  have hover : (len >>> 29).toNat = len.toNat / 2 ^ 29 := by
    rw [UInt32.toNat_shiftRight, Nat.shiftRight_eq_div_pow]
    have : UInt32.toNat 29 % 32 = 29 := by decide
    rw [this]
  have hsum : (low + (len <<< 3)).toNat = (low.toNat + 8 * len.toNat % 2 ^ 32) % 2 ^ 32 := by
    rw [UInt32.toNat_add, hshift]
  simp only [wordsNat, addBits]
  split
  next hcarry =>
    rw [UInt32.lt_iff_toNat_lt, hsum] at hcarry
    rw [UInt32.toNat_add, UInt32.toNat_add, hover, hsum, show UInt32.toNat 1 = 1 from rfl]
    omega
  next hcarry =>
    rw [UInt32.lt_iff_toNat_lt, hsum] at hcarry
    rw [UInt32.toNat_add, hover, hsum]
    omega

/-- A byte of a word. -/
theorem byte_of_word (w k : UInt32) (d : Nat) (hk : k.toNat % 32 = d) :
    (w >>> k).toUInt8 = (w.toNat / 2 ^ d % 256).toUInt8 := by
  rw [← UInt8.toNat_inj, UInt32.toNat_toUInt8, UInt32.toNat_shiftRight, Nat.shiftRight_eq_div_pow, hk]
  exact (Nat.mod_mod _ _).symm

private theorem low_of_wordsNat {high low : UInt32} {len : Nat} (h : wordsNat high low = 8 * len % 2 ^ 64) :
    low.toNat = 8 * (len % 2 ^ 29) := by
  have hlow := low.toNat_lt
  unfold wordsNat at h
  omega

/-- The place in the block that the low word gives. -/
theorem place_of_wordsNat {high low : UInt32} {len : Nat} (h : wordsNat high low = 8 * len % 2 ^ 64) :
    (low >>> 3 &&& 63).toNat = len % 64 := by
  have hshift : (low >>> 3).toNat = low.toNat / 8 := by
    rw [UInt32.toNat_shiftRight, Nat.shiftRight_eq_div_pow]
    rfl
  rw [UInt32.toNat_and, hshift, low_of_wordsNat h, show UInt32.toNat 63 = 2 ^ 6 - 1 from rfl,
    Nat.and_two_pow_sub_one_eq_mod]
  omega

/-- The same place, as a number of bits. -/
theorem mask_of_wordsNat {high low : UInt32} {len : Nat} (h : wordsNat high low = 8 * len % 2 ^ 64) :
    (low &&& 504).toNat = 8 * (len % 64) := by
  have hand : ∀ q : Nat, 8 * q &&& 504 = 8 * (q % 64) := by
    intro q
    have hq : 8 * q = q <<< 3 := by rw [Nat.shiftLeft_eq]; omega
    have h504 : 504 = (2 ^ 6 - 1) <<< 3 := rfl
    rw [hq, h504, ← Nat.shiftLeft_and_distrib, Nat.and_two_pow_sub_one_eq_mod, Nat.shiftLeft_eq]
    omega
  rw [UInt32.toNat_and, low_of_wordsNat h, show UInt32.toNat 504 = 504 from rfl, hand]
  omega

end Clib
