import Tinyweb.Lib.Frames
import Tinyweb.Websocket

/-!
# The frame stream of the echo endpoint

For frames that do not take the close branch, the bytes written back form a stream of frames.  A payload below 65536
bytes is sent behind the shortest header for its length (`written_eq_header`), so a receiver reads it back and is at the
next frame.  From 65536 bytes on, `websocket_data` sends 65536 bytes behind the two length bytes `256 mod 256` and `0`:
the receiver reads an empty frame and takes the payload for the frames that follow.  Hence the stream is read as one
frame for each frame handed in exactly if no payload has 65536 bytes or more (`decodeFrames_serveCalls_iff`).
-/

namespace Tinyweb

open Clib Rfc6455

private def echoHead (c : Call) : UInt8 := 0x80 ||| (c.flags &&& 0x0f)

/-- The frame that answers the call: FIN set, the same opcode, at most 65536 bytes of the payload. -/
def echoFrame (c : Call) : Frame := ⟨true, 0, c.flags &&& 0x0f, c.data.bytes.take 65536⟩

private theorem frameOf_echoHead_fin : ∀ b : Fin 256,
    ((0x80 ||| (UInt8.ofFin b &&& 0x0f)) &&& 0x80 != 0) = true ∧
      ((0x80 ||| (UInt8.ofFin b &&& 0x0f)) >>> 4) &&& 7 = 0 ∧
      (0x80 ||| (UInt8.ofFin b &&& 0x0f)) &&& 0x0f = UInt8.ofFin b &&& 0x0f := by
  decide +kernel

theorem frameOf_echoHead (c : Call) (p : List UInt8) :
    frameOf (echoHead c) p = ⟨true, 0, c.flags &&& 0x0f, p⟩ := by
  obtain ⟨h1, h2, h3⟩ := frameOf_echoHead_fin c.flags.toFin
  simp only [frameOf, echoHead, Frame.mk.injEq, and_true]
  exact ⟨h1, h2, h3⟩

private theorem bytes_take (d : Payload) : d.bytes.take 65536 = d.mem.take (min d.len 65536) := by
  rw [Payload.bytes, List.take_take, Nat.min_comm]

private theorem length_bytes_take (d : Payload) : (d.bytes.take 65536).length = min d.len 65536 := by
  have := d.len_le
  rw [bytes_take, List.length_take]
  omega

/-- Below 65536 bytes, the reply is the echoed frame behind its shortest header. -/
theorem written_eq_header {c : Call} (h : ¬ c.Closes) (hlen : c.data.len < 65536) :
    (websocketData c.flags c.data).written =
      header (echoHead c) (c.data.bytes.take 65536).length ++ c.data.bytes.take 65536 := by
  have hmin : min c.data.len 65536 = c.data.len := by omega
  rw [websocketData_of_not_closes h, length_bytes_take, bytes_take, hmin]
  unfold header echoHead
  by_cases h125 : c.data.len ≤ 125
  · rw [if_pos h125, if_pos (by omega)]
  · have hhigh : c.data.len / 256 % 256 = c.data.len / 256 := Nat.mod_eq_of_lt (by omega)
    rw [if_neg h125, if_neg (by omega), if_pos hlen, bigEndian, bigEndian, bigEndian, hhigh]
    rfl

theorem written_of_long {c : Call} (h : ¬ c.Closes) (hlen : 65536 ≤ c.data.len) :
    (websocketData c.flags c.data).written = [echoHead c, 126, 0, 0] ++ c.data.bytes.take 65536 := by
  have hmin : min c.data.len 65536 = 65536 := by omega
  rw [websocketData_of_not_closes h, bytes_take, hmin]
  rfl

theorem serveCalls_cons_of_not_closes {ri : RequestInfo} (hri : ri.IsEcho) {c : Call} (hc : ¬ c.Closes)
    (cs : List Call) :
    serveCalls ri (c :: cs) = (websocketData c.flags c.data).written ++ serveCalls ri cs := by
  have h8 : ¬ c.flags &&& 0x0f = 8 := fun h => hc (Or.inl h)
  have hret : ¬ (websocketData c.flags c.data).ret = 0 := by
    rw [websocketData_of_not_closes hc]
    exact Int.one_ne_zero
  simp only [serveCalls, websocketDataHandler_of_isEcho hri, hret, h8, or_self, ↓reduceIte]

/-- One step of the stream, for a payload below 65536 bytes: the receiver reads the echoed frame and goes on with the
bytes of the next call. -/
theorem decodeFrames_serveCalls_cons {ri : RequestInfo} (hri : ri.IsEcho) {c : Call} (hc : ¬ c.Closes)
    (hlen : c.data.len < 65536) (cs : List Call) :
    decodeFrames (serveCalls ri (c :: cs)) = (decodeFrames (serveCalls ri cs)).map (echoFrame c :: ·) := by
  have hshort : (c.data.bytes.take 65536).length < 2 ^ 64 := by
    rw [length_bytes_take]
    omega
  rw [serveCalls_cons_of_not_closes hri hc, written_eq_header hc hlen, decodeFrames_header _ hshort,
    frameOf_echoHead]
  rfl

/-- For a payload of 65536 bytes or more the receiver reads an empty frame. -/
theorem decodeFrames_serveCalls_long {ri : RequestInfo} (hri : ri.IsEcho) {c : Call} (hc : ¬ c.Closes)
    (hlen : 65536 ≤ c.data.len) (cs : List Call) :
    ∃ rest, decodeFrames (serveCalls ri (c :: cs)) =
      (decodeFrames rest).map (⟨true, 0, c.flags &&& 0x0f, []⟩ :: ·) := by
  refine ⟨c.data.bytes.take 65536 ++ serveCalls ri cs, ?_⟩
  rw [serveCalls_cons_of_not_closes hri hc, written_of_long hc hlen]
  apply decodeFrames_of_decodeFrame
  have hzero (rest : List UInt8) : readNat 2 (0 :: 0 :: rest) = some (0, rest) :=
    readNat_bigEndian (k := 2) (n := 0) (by decide) rest
  simp [decodeFrame, decodeLength, frameOf_echoHead, hzero]

/-- The bytes written for a sequence of data frames are read as one frame for each of them, in order, with FIN, the
same opcode and the payload up to 65536 bytes, exactly if every payload is shorter than 65536 bytes. -/
theorem decodeFrames_serveCalls_iff {ri : RequestInfo} (hri : ri.IsEcho) {cs : List Call}
    (hcs : ∀ c ∈ cs, ¬ c.Closes) :
    decodeFrames (serveCalls ri cs) = some (cs.map echoFrame) ↔ ∀ c ∈ cs, c.data.len < 65536 := by
  induction cs with
  | nil => simp [serveCalls, decodeFrames]
  | cons c cs ih =>
    have hc : ¬ c.Closes := hcs c (List.mem_cons_self ..)
    have hcs' : ∀ d ∈ cs, ¬ d.Closes := fun d hd => hcs d (List.mem_cons_of_mem _ hd)
    rw [List.forall_mem_cons, ← ih hcs', List.map_cons]
    by_cases hlen : c.data.len < 65536
    · rw [decodeFrames_serveCalls_cons hri hc hlen]
      constructor
      · intro h
        obtain ⟨fs, hfs, he⟩ := Option.map_eq_some_iff.1 h
        rw [List.cons.injEq] at he
        exact ⟨hlen, by rw [hfs, he.2]⟩
      · rintro ⟨-, h⟩
        rw [h]
        rfl
    · obtain ⟨rest, hrest⟩ := decodeFrames_serveCalls_long hri hc (by omega) cs
      constructor
      · -- the first frame read is empty, the expected one has 65536 bytes
        intro h
        rw [hrest] at h
        obtain ⟨fs, -, he⟩ := Option.map_eq_some_iff.1 h
        rw [List.cons.injEq] at he
        have hp : [] = c.data.bytes.take 65536 := congrArg Frame.payload he.1
        have hl := length_bytes_take c.data
        rw [← hp, List.length_nil] at hl
        omega
      · rintro ⟨h, -⟩
        exact absurd h hlen

/-- A text frame with the payload `hello`, in memory that goes on with one more byte. -/
def helloCall : Call := ⟨0x81, ⟨ascii ['h', 'e', 'l', 'l', 'o', '!'], 5, by decide, by decide⟩⟩

theorem decodeFrames_serveCalls_iff_hello :
    decodeFrames (serveCalls rootRequest [helloCall, helloCall]) = some ([helloCall, helloCall].map echoFrame) :=
  (decodeFrames_serveCalls_iff rootRequest_isEcho (by decide)).2 (by decide)

def longCall : Call :=
  ⟨0x82, ⟨List.replicate 65536 0, 65536, List.length_replicate.ge, by rw [List.length_replicate]; omega⟩⟩

theorem longCall_not_closes : ¬ longCall.Closes := by
  rintro (h | h)
  · exact absurd h (by decide)
  · obtain ⟨t, ht⟩ := h
    have hm : (46 : UInt8) ∈ dotClose ++ t := List.mem_append_left _ (by decide)
    rw [ht] at hm
    exact absurd (List.eq_of_mem_replicate hm) (by decide)

/-- The reply to a frame of 65536 bytes is not read as one frame with these bytes. -/
theorem decodeFrames_longCall_ne : rootRequest.IsEcho ∧ ¬ longCall.Closes ∧
    decodeFrames (serveCalls rootRequest [longCall]) ≠ some ([longCall].map echoFrame) := by
  refine ⟨rootRequest_isEcho, longCall_not_closes, ?_⟩
  intro h
  obtain ⟨rest, hrest⟩ := decodeFrames_serveCalls_long rootRequest_isEcho longCall_not_closes (Nat.le_refl 65536) []
  rw [hrest] at h
  obtain ⟨fs, -, he⟩ := Option.map_eq_some_iff.1 h
  rw [List.map_cons, List.cons.injEq] at he
  have hp : [] = longCall.data.bytes.take 65536 := congrArg Frame.payload he.1
  have hl := length_bytes_take longCall.data
  rw [← hp] at hl
  exact absurd hl (by decide)

end Tinyweb
