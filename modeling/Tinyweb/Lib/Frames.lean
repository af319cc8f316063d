import Mathlib.Algebra.Order.Ring.Nat
import Mathlib.Data.List.Basic
import Mathlib.Tactic.Common

/-!
# WebSocket frames and messages (RFC 6455)

The receiving side of the protocol, for frames sent without a mask.  `decodeFrame` reads one frame in any of the three
length forms of section 5.2, `decodeFrames` a whole stream with no bytes left over.  `header` is the shortest header for
a payload length; a frame that starts with it is read back whatever follows (`decodeFrames_header`).

`reassemble` puts the frames of a stream together to messages by the rules of section 5.4: a data frame opens a message,
continuation frames extend the open one, FIN ends it, and control frames may stand anywhere.  `split` cuts a message
into a first frame and continuation frames; every such cut is reassembled to the message (`reassemble_split`).
-/

namespace Rfc6455

/-- A frame: the FIN bit, the three reserved bits, the opcode and the payload. -/
structure Frame where
  fin : Bool
  rsv : UInt8
  opcode : UInt8
  payload : List UInt8
  deriving DecidableEq, Repr

def frameOf (b0 : UInt8) (payload : List UInt8) : Frame :=
  { fin := b0 &&& 0x80 != 0, rsv := (b0 >>> 4) &&& 7, opcode := b0 &&& 0x0f, payload := payload }

/-- The number in the first `k` bytes, the most significant first, and the bytes after it. -/
def readNat (k : Nat) (bytes : List UInt8) : Option (Nat × List UInt8) :=
  if k ≤ bytes.length then some ((bytes.take k).foldl (fun n b => n * 256 + b.toNat) 0, bytes.drop k) else none

/-- The payload length and the bytes after the length field, for second byte `b1`. -/
def decodeLength (b1 : UInt8) (rest : List UInt8) : Option (Nat × List UInt8) :=
  if b1.toNat < 126 then some (b1.toNat, rest)
  else if b1.toNat = 126 then readNat 2 rest
  else if b1.toNat = 127 then readNat 8 rest
  else none

/-- One frame without a mask, and the bytes after it. -/
def decodeFrame : List UInt8 → Option (Frame × List UInt8)
  | b0 :: b1 :: rest =>
    match decodeLength b1 rest with
    | none => none
    | some (len, rest) => if len ≤ rest.length then some (frameOf b0 (rest.take len), rest.drop len) else none
  | _ => none

private theorem readNat_length {k n : Nat} {bytes rest : List UInt8} (h : readNat k bytes = some (n, rest)) :
    rest.length ≤ bytes.length := by
  unfold readNat at h
  split at h
  · cases h
    simp only [List.length_drop]
    omega
  · cases h

private theorem decodeLength_length {b1 : UInt8} {rest rest' : List UInt8} {len : Nat}
    (h : decodeLength b1 rest = some (len, rest')) : rest'.length ≤ rest.length := by
  unfold decodeLength at h
  split at h
  · cases h
    exact Nat.le_refl _
  · split at h
    · exact readNat_length h
    · split at h
      · exact readNat_length h
      · cases h

private theorem decodeFrame_length {bytes rest : List UInt8} {f : Frame} (h : decodeFrame bytes = some (f, rest)) :
    rest.length < bytes.length := by
  match bytes, h with
  | b0 :: b1 :: bs, h =>
    simp only [decodeFrame] at h
    split at h
    · cases h
    · rename_i len rest' hlen
      have := decodeLength_length hlen
      split at h
      · cases h
        simp only [List.length_drop, List.length_cons]
        omega
      · cases h

/-- The frames of a stream, with no bytes left over. -/
def decodeFrames (bytes : List UInt8) : Option (List Frame) :=
  match bytes with
  | [] => some []
  | b :: bs =>
    match _h : decodeFrame (b :: bs) with
    | none => none
    | some (f, rest) => (decodeFrames rest).map (f :: ·)
termination_by bytes.length
decreasing_by exact decodeFrame_length _h

def bigEndian : Nat → Nat → List UInt8
  | 0, _ => []
  | k + 1, n => bigEndian k (n / 256) ++ [(n % 256).toUInt8]

/-- The first byte and the shortest length field for a payload of `n` bytes. -/
def header (b0 : UInt8) (n : Nat) : List UInt8 :=
  if n < 126 then [b0, n.toUInt8]
  else if n < 65536 then b0 :: 126 :: bigEndian 2 n
  else b0 :: 127 :: bigEndian 8 n

private theorem toNat_toUInt8 {n : Nat} (h : n < 256) : n.toUInt8.toNat = n := by
  simp [Nat.mod_eq_of_lt h]

theorem length_bigEndian (k n : Nat) : (bigEndian k n).length = k := by
  induction k generalizing n with
  | zero => rfl
  | succ k ih => rw [bigEndian, List.length_append, ih, List.length_singleton]

theorem foldl_bigEndian {k n : Nat} (h : n < 256 ^ k) :
    (bigEndian k n).foldl (fun n b => n * 256 + b.toNat) 0 = n := by
  induction k generalizing n with
  | zero =>
    rw [pow_zero] at h
    exact (Nat.lt_one_iff.1 h).symm
  | succ k ih =>
    rw [pow_succ] at h
    rw [bigEndian, List.foldl_append, ih (Nat.div_lt_of_lt_mul (Nat.mul_comm .. ▸ h)), List.foldl_cons, List.foldl_nil,
      toNat_toUInt8 (Nat.mod_lt _ (by decide))]
    exact Nat.div_add_mod' n 256

theorem readNat_bigEndian {k n : Nat} (h : n < 256 ^ k) (rest : List UInt8) :
    readNat k (bigEndian k n ++ rest) = some (n, rest) := by
  have hlen := length_bigEndian k n
  have htake : (bigEndian k n ++ rest).take k = bigEndian k n := List.take_left' hlen
  have hdrop : (bigEndian k n ++ rest).drop k = rest := List.drop_left' hlen
  have hle : k ≤ (bigEndian k n ++ rest).length := by
    rw [List.length_append]
    omega
  rw [readNat, if_pos hle, htake, hdrop, foldl_bigEndian h]

theorem decodeFrame_header (b0 : UInt8) {p : List UInt8} (hp : p.length < 2 ^ 64) (rest : List UInt8) :
    decodeFrame (header b0 p.length ++ p ++ rest) = some (frameOf b0 p, rest) := by
  unfold header
  split
  · rename_i h
    have hn : p.length.toUInt8.toNat = p.length := toNat_toUInt8 (by omega)
    simp [decodeFrame, decodeLength, hn, h]
  · split
    · rename_i h
      have hread : readNat 2 (bigEndian 2 p.length ++ (p ++ rest)) = some (p.length, p ++ rest) :=
        readNat_bigEndian (by omega) _
      simp [decodeFrame, decodeLength, hread]
    · have hread : readNat 8 (bigEndian 8 p.length ++ (p ++ rest)) = some (p.length, p ++ rest) :=
        readNat_bigEndian (by omega) _
      simp [decodeFrame, decodeLength, hread]

theorem decodeFrames_of_decodeFrame {bytes rest : List UInt8} {f : Frame} (h : decodeFrame bytes = some (f, rest)) :
    decodeFrames bytes = (decodeFrames rest).map (f :: ·) := by
  cases bytes with
  | nil => cases h
  | cons b bs =>
    rw [decodeFrames]
    split
    · rename_i h'
      rw [h] at h'
      cases h'
    · rename_i f' rest' h'
      rw [h] at h'
      cases h'
      rfl

theorem eq_nil_of_decodeFrames {bytes : List UInt8} (h : decodeFrames bytes = some []) : bytes = [] := by
  cases bytes with
  | nil => rfl
  | cons b bs =>
    rw [decodeFrames] at h
    split at h
    · cases h
    · obtain ⟨fs, -, hfs⟩ := Option.map_eq_some_iff.1 h
      cases hfs

/-- A stream that starts with a frame and its header is read as that frame and the frames of the rest. -/
theorem decodeFrames_header (b0 : UInt8) {p : List UInt8} (hp : p.length < 2 ^ 64) (rest : List UInt8) :
    decodeFrames (header b0 p.length ++ p ++ rest) = (decodeFrames rest).map (frameOf b0 p :: ·) :=
  decodeFrames_of_decodeFrame (decodeFrame_header b0 hp rest)

/-! ### Messages -/

/-- A message: the opcode of its first frame and its whole payload. -/
structure Message where
  opcode : UInt8
  payload : List UInt8
  deriving DecidableEq, Repr

/-- The messages of a sequence of frames, `none` if the sequence is not legal.  The first argument is the message that
is open, if there is one; a control frame is a message of its own. -/
def reassemble : Option Message → List Frame → Option (List Message)
  | none, [] => some []
  | some _, [] => none
  | cur, f :: fs =>
    if f.rsv ≠ 0 then none
    else if 8 ≤ f.opcode then
      if f.fin then (reassemble cur fs).map (⟨f.opcode, f.payload⟩ :: ·) else none
    else
      match cur with
      | none =>
        if f.opcode = 1 ∨ f.opcode = 2 then
          if f.fin then (reassemble none fs).map (⟨f.opcode, f.payload⟩ :: ·)
          else reassemble (some ⟨f.opcode, f.payload⟩) fs
        else none
      | some m =>
        if f.opcode = 0 then
          if f.fin then (reassemble none fs).map (⟨m.opcode, m.payload ++ f.payload⟩ :: ·)
          else reassemble (some ⟨m.opcode, m.payload ++ f.payload⟩) fs
        else none

/-- The frames of a message cut into the pieces `p, ps`: FIN on the last one only. -/
def split : UInt8 → List UInt8 → List (List UInt8) → List Frame
  | opcode, p, [] => [⟨true, 0, opcode, p⟩]
  | opcode, p, q :: ps => ⟨false, 0, opcode, p⟩ :: split 0 q ps

private theorem reassemble_split_open (m : Message) (p : List UInt8) (ps : List (List UInt8)) (fs : List Frame) :
    reassemble (some m) (split 0 p ps ++ fs) =
      (reassemble none fs).map (⟨m.opcode, m.payload ++ (p :: ps).flatten⟩ :: ·) := by
  induction ps generalizing m p with
  | nil => simp [split, reassemble]
  | cons q ps ih =>
    have h := ih ⟨m.opcode, m.payload ++ p⟩ q
    simpa [split, reassemble] using h

/-- However a message is cut into frames, the frames are reassembled to the message. -/
theorem reassemble_split {opcode : UInt8} (hop : opcode = 1 ∨ opcode = 2) (p : List UInt8) (ps : List (List UInt8))
    (fs : List Frame) :
    reassemble none (split opcode p ps ++ fs) =
      (reassemble none fs).map (⟨opcode, (p :: ps).flatten⟩ :: ·) := by
  have h8 : ¬ 8 ≤ opcode := by rcases hop with rfl | rfl <;> decide
  cases ps with
  | nil => simp [split, reassemble, h8, hop]
  | cons q ps =>
    have h := reassemble_split_open ⟨opcode, p⟩ q ps fs
    simpa [split, reassemble, h8, hop] using h

end Rfc6455
