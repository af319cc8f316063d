import Tinyweb.EchoStream

/-!
# Messages at the echo endpoint

A client may cut a text or binary message into frames: the first carries the opcode, the others opcode 0, and only the
last one FIN.  `websocket_data` answers frame by frame and sets FIN on every reply, so the reply to the first frame of a
cut message is a whole message and the reply to the second a continuation without an open message.  Frames in one piece
come back as the same messages, unless bytes left in the buffer complete a payload of fewer than six bytes to `.close`.
`received_serveCalls_iff` says that these are the only ways in which the messages are not the ones that were sent.
-/

namespace Tinyweb

open Clib Rfc6455

/-- A text or binary message as a client sends it, cut into a first piece and further ones of at most 65535 bytes; the
message does not begin with `.close`. -/
structure ClientMessage where
  opcode : UInt8
  first : Payload
  rest : List Payload
  opcode_data : opcode = 1 ∨ opcode = 2
  len_le : ∀ p ∈ first :: rest, p.len ≤ 65535
  not_close : ¬ dotClose <+: ((first :: rest).map Payload.bytes).flatten

namespace ClientMessage

def message (m : ClientMessage) : Message := ⟨m.opcode, ((m.first :: m.rest).map Payload.bytes).flatten⟩

/-- The callback's view of the frames of a message cut into the pieces `p, ps`. -/
def pieceCalls : UInt8 → Payload → List Payload → List Call
  | opcode, p, [] => [⟨0x80 ||| opcode, p⟩]
  | opcode, p, q :: ps => ⟨opcode, p⟩ :: pieceCalls 0 q ps

def calls (m : ClientMessage) : List Call := pieceCalls m.opcode m.first m.rest

/-- Sent in one frame, and not completed to `.close` by the bytes behind a short payload. -/
def InOnePiece (m : ClientMessage) : Prop := m.rest = [] ∧ (m.first.len < 6 → ¬ dotClose <+: m.first.mem)

end ClientMessage

open ClientMessage

/-- The messages a receiver gets from a stream. -/
def received (bytes : List UInt8) : Option (List Message) := (decodeFrames bytes).bind (reassemble none)

private theorem frameOf_first {opcode : UInt8} (hop : opcode = 0 ∨ opcode = 1 ∨ opcode = 2) (p : List UInt8) :
    frameOf (0x80 ||| opcode) p = ⟨true, 0, opcode, p⟩ ∧ frameOf opcode p = ⟨false, 0, opcode, p⟩ := by
  rcases hop with rfl | rfl | rfl <;> exact ⟨rfl, rfl⟩

/-- The frames of the calls are a cut of the message in the sense of the protocol. -/
theorem map_frameOf_pieceCalls {opcode : UInt8} (hop : opcode = 0 ∨ opcode = 1 ∨ opcode = 2) (p : Payload)
    (ps : List Payload) :
    (pieceCalls opcode p ps).map (fun c => frameOf c.flags c.data.bytes) =
      split opcode p.bytes (ps.map Payload.bytes) := by
  induction ps generalizing opcode p with
  | nil => simp only [pieceCalls, split, List.map_cons, List.map_nil, (frameOf_first hop p.bytes).1]
  | cons q ps ih =>
    have h := ih (Or.inl rfl) q
    simp only [pieceCalls, List.map_cons, split, h, (frameOf_first hop p.bytes).2]

private theorem opcode_pieceCalls {opcode : UInt8} (hop : opcode = 0 ∨ opcode = 1 ∨ opcode = 2) :
    (0x80 ||| opcode) &&& 0x0f = opcode ∧ opcode &&& 0x0f = opcode := by
  rcases hop with rfl | rfl | rfl <;> exact ⟨rfl, rfl⟩

/-- A payload of at least six bytes in memory that begins with `.close` begins with `.close`. -/
private theorem dotClose_prefix_bytes {d : Payload} (hlen : 6 ≤ d.len) (h : dotClose <+: d.mem) :
    dotClose <+: d.bytes := by
  rw [Payload.bytes, List.prefix_take_iff]
  exact ⟨h, hlen⟩

private theorem bytes_take_of_le {d : Payload} (h : d.len ≤ 65535) : d.bytes.take 65536 = d.bytes := by
  apply List.take_of_length_le
  rw [Payload.bytes, List.length_take]
  omega

/-- The call for a message in one piece takes the echo branch and is answered by the same frame. -/
private theorem calls_of_inOnePiece {m : ClientMessage} (h : m.InOnePiece) :
    ∃ c, m.calls = [c] ∧ ¬ c.Closes ∧ c.data.len < 65536 ∧ [echoFrame c] = split m.opcode m.message.payload [] := by
  obtain ⟨hrest, hstale⟩ := h
  have hlen := m.len_le m.first (List.mem_cons_self ..)
  have hop : (0x80 ||| m.opcode) &&& 0x0f = m.opcode := (opcode_pieceCalls (Or.inr m.opcode_data)).1
  have hpay : m.message.payload = m.first.bytes := by simp [message, hrest]
  have hcalls : m.calls = [⟨0x80 ||| m.opcode, m.first⟩] := by rw [calls, hrest, pieceCalls]
  have hcut := map_frameOf_pieceCalls (Or.inr m.opcode_data) m.first m.rest
  refine ⟨⟨0x80 ||| m.opcode, m.first⟩, hcalls, ?_, by simp only; omega, ?_⟩
  · rintro (h8 | hmem)
    · rw [hop] at h8
      rcases m.opcode_data with h1 | h1 <;> rw [h1] at h8 <;> exact absurd h8 (by decide)
    · by_cases h6 : m.first.len < 6
      · exact hstale h6 hmem
      · apply m.not_close
        have hflat : ((m.first :: m.rest).map Payload.bytes).flatten = m.first.bytes := hpay
        rw [hflat]
        exact dotClose_prefix_bytes (by omega) hmem
  · rw [hrest, List.map_nil, pieceCalls] at hcut
    rw [hpay, ← hcut, List.map_singleton, (frameOf_first (Or.inr m.opcode_data) _).1, echoFrame, hop,
      bytes_take_of_le hlen]

/-- The first byte of the reply to a call, whichever branch it takes. -/
private theorem serveCalls_cons_head {ri : RequestInfo} (hri : ri.IsEcho) (c : Call) (cs : List Call) :
    ∃ b t, serveCalls ri (c :: cs) = b :: t ∧
      (c.Closes → b = 0x88) ∧ (¬ c.Closes → b = 0x80 ||| (c.flags &&& 0x0f)) := by
  by_cases hc : c.Closes
  · have hw : serveCalls ri (c :: cs) =
        0x88 :: (min c.data.len 65536).toUInt8 :: c.data.mem.take (min c.data.len 65536) := by
      simp [serveCalls, websocketDataHandler_of_isEcho hri, websocketData_of_closes hc]
    exact ⟨_, _, hw, fun _ => rfl, fun h => absurd hc h⟩
  · rw [serveCalls_cons_of_not_closes hri hc, websocketData_of_not_closes hc]
    split
    · exact ⟨_, _, rfl, fun h => absurd h hc, fun _ => rfl⟩
    · exact ⟨_, _, rfl, fun h => absurd h hc, fun _ => rfl⟩

private theorem decodeFrames_cons_head {b : UInt8} {t : List UInt8} {fs : List Frame}
    (h : decodeFrames (b :: t) = some fs) : ∃ p fs', fs = frameOf b p :: fs' := by
  rw [decodeFrames] at h
  split at h
  · cases h
  · rename_i f rest hf
    obtain ⟨fs', -, rfl⟩ := Option.map_eq_some_iff.1 h
    cases t with
    | nil => cases hf
    | cons b1 t =>
      simp only [decodeFrame] at hf
      split at hf
      · cases hf
      · split at hf
        · cases hf
          exact ⟨_, fs', rfl⟩
        · cases hf

/-- A stream that starts with a close frame or with a continuation frame is never read as text and binary messages. -/
private theorem received_ne_of_head {b : UInt8} (hb : b = 0x88 ∨ b = 0x80) (t : List UInt8) (ms : List ClientMessage) :
    received (b :: t) ≠ some (ms.map message) := by
  intro h
  obtain ⟨fs, hfs, hre⟩ := Option.bind_eq_some_iff.1 h
  obtain ⟨p, fs', rfl⟩ := decodeFrames_cons_head hfs
  rcases hb with rfl | rfl
  · have h88 : frameOf 0x88 p = ⟨true, 0, 8, p⟩ := rfl
    simp only [h88, reassemble, ne_eq, not_true_eq_false, ↓reduceIte] at hre
    obtain ⟨l, -, hl⟩ := Option.map_eq_some_iff.1 hre
    cases ms with
    | nil => cases hl
    | cons m ms =>
      rw [List.map_cons, List.cons.injEq] at hl
      have hop : 8 = m.opcode := congrArg Message.opcode hl.1
      rcases m.opcode_data with h1 | h1 <;> rw [h1] at hop <;> exact absurd hop (by decide)
  · have h80 : frameOf 0x80 p = ⟨true, 0, 0, p⟩ := rfl
    rw [h80] at hre
    simp [reassemble] at hre

/-- A message in one piece is received as itself, before the messages of the rest. -/
private theorem received_cons_of_inOnePiece {ri : RequestInfo} (hri : ri.IsEcho) {m : ClientMessage}
    (hm : m.InOnePiece) (cs : List Call) :
    received (serveCalls ri (m.calls ++ cs)) = (received (serveCalls ri cs)).map (m.message :: ·) := by
  obtain ⟨c, hcalls, hc, hlen, hframe⟩ := calls_of_inOnePiece hm
  rw [hcalls, List.singleton_append, received, decodeFrames_serveCalls_cons hri hc hlen, received]
  cases decodeFrames (serveCalls ri cs) with
  | none => rfl
  | some fs =>
    have h := reassemble_split m.opcode_data m.message.payload [] fs
    rw [← hframe] at h
    simpa [message] using h

/-- The reply to the first frame of a cut message is a whole message, and the reply to the second cannot follow it. -/
private theorem received_cut_ne {ri : RequestInfo} (hri : ri.IsEcho) {m : ClientMessage} {c c₂ : Call} (hc : ¬ c.Closes)
    (hlen : c.data.len < 65536) (hflags : c.flags &&& 0x0f = m.opcode) (hflags₂ : c₂.flags &&& 0x0f = 0)
    (cs : List Call) (ms : List ClientMessage) :
    received (serveCalls ri (c :: c₂ :: cs)) ≠ some (m.message :: ms.map message) := by
  obtain ⟨b, t, hbt, hb, hb'⟩ := serveCalls_cons_head hri c₂ cs
  have hb80 : b = 0x88 ∨ b = 0x80 := by
    by_cases h2 : c₂.Closes
    · exact Or.inl (hb h2)
    · right
      rw [hb' h2, hflags₂]
      rfl
  intro h
  rw [received, decodeFrames_serveCalls_cons hri hc hlen, hbt] at h
  obtain ⟨fs, hfs, hre⟩ := Option.bind_eq_some_iff.1 h
  obtain ⟨fs', hfs', rfl⟩ := Option.map_eq_some_iff.1 hfs
  have hsplit := reassemble_split m.opcode_data (c.data.bytes.take 65536) [] fs'
  have hframe : echoFrame c :: fs' = split m.opcode (c.data.bytes.take 65536) [] ++ fs' := by
    rw [split, echoFrame, hflags, List.singleton_append]
  rw [hframe, hsplit] at hre
  obtain ⟨l, hl, he⟩ := Option.map_eq_some_iff.1 hre
  rw [List.cons.injEq] at he
  apply received_ne_of_head hb80 t ms
  rw [received, hfs', Option.bind_some, hl, he.2]

/-- A message that is not in one piece is not received as itself, whatever follows. -/
private theorem received_cons_ne {ri : RequestInfo} (hri : ri.IsEcho) {m : ClientMessage} (hm : ¬ m.InOnePiece)
    (cs : List Call) (ms : List ClientMessage) :
    received (serveCalls ri (m.calls ++ cs)) ≠ some (m.message :: ms.map message) := by
  have hop := opcode_pieceCalls (Or.inr m.opcode_data)
  obtain ⟨c, cs', hcalls, hdata, hflags⟩ : ∃ c cs', m.calls = c :: cs' ∧ c.data = m.first ∧
      c.flags &&& 0x0f = m.opcode := by
    rw [calls]
    cases m.rest with
    | nil => exact ⟨_, _, rfl, rfl, hop.1⟩
    | cons q ps => exact ⟨_, _, rfl, rfl, hop.2⟩
  by_cases hc : c.Closes
  · -- the first frame is taken for a close request
    obtain ⟨b, t, hbt, hb, -⟩ := serveCalls_cons_head hri c (cs' ++ cs)
    have hms : m.message :: ms.map message = (m :: ms).map message := rfl
    rw [hcalls, List.cons_append, hbt, hms]
    exact received_ne_of_head (Or.inl (hb hc)) t _
  · cases hrest : m.rest with
    | nil =>
      exfalso
      apply hm
      refine ⟨hrest, fun _ hmem => hc (Or.inr ?_)⟩
      rw [hdata]
      exact hmem
    | cons q ps =>
      have hlen := m.len_le m.first (List.mem_cons_self ..)
      obtain ⟨c₂, cs₂, hcs', hflags₂⟩ : ∃ c₂ cs₂, cs' = c₂ :: cs₂ ∧ c₂.flags &&& 0x0f = 0 := by
        rw [calls, hrest, pieceCalls, List.cons.injEq] at hcalls
        rw [← hcalls.2]
        cases ps with
        | nil => exact ⟨_, _, rfl, (opcode_pieceCalls (Or.inl rfl)).1⟩
        | cons q' ps => exact ⟨_, _, rfl, (opcode_pieceCalls (Or.inl rfl)).2⟩
      rw [hcalls, hcs', List.cons_append, List.cons_append]
      exact received_cut_ne hri hc (by rw [hdata]; omega) hflags hflags₂ _ ms

/-- The frames written for a sequence of messages are reassembled to exactly these messages if and only if every message
came in one frame and no payload of fewer than six bytes stood before bytes that complete it to `.close`. -/
theorem received_serveCalls_iff {ri : RequestInfo} (hri : ri.IsEcho) (ms : List ClientMessage) :
    received (serveCalls ri (ms.flatMap calls)) = some (ms.map message) ↔ ∀ m ∈ ms, m.InOnePiece := by
  induction ms with
  | nil => simp [serveCalls, received, decodeFrames, reassemble]
  | cons m ms ih =>
    rw [List.flatMap_cons, List.map_cons, List.forall_mem_cons, ← ih]
    by_cases hm : m.InOnePiece
    · rw [received_cons_of_inOnePiece hri hm]
      constructor
      · intro h
        obtain ⟨l, hl, he⟩ := Option.map_eq_some_iff.1 h
        rw [List.cons.injEq] at he
        exact ⟨hm, by rw [hl, he.2]⟩
      · rintro ⟨-, h⟩
        rw [h]
        rfl
    · constructor
      · intro h
        exact absurd h (received_cons_ne hri hm _ _)
      · rintro ⟨h, -⟩
        exact absurd h hm

def helloMessage : ClientMessage where
  opcode := 1
  first := helloCall.data
  rest := []
  opcode_data := Or.inl rfl
  len_le := by decide
  not_close := by decide

theorem received_serveCalls_iff_hello :
    received (serveCalls rootRequest ([helloMessage, helloMessage].flatMap calls)) =
      some ([helloMessage, helloMessage].map message) :=
  (received_serveCalls_iff rootRequest_isEcho _).2 (by
    intro m hm
    have h : m = helloMessage := by simpa using hm
    rw [h]
    exact ⟨rfl, fun _ => by decide⟩)

/-- The text `hellohello` in two frames. -/
def cutMessage : ClientMessage where
  opcode := 1
  first := helloCall.data
  rest := [helloCall.data]
  opcode_data := Or.inl rfl
  len_le := by decide
  not_close := by decide

/-- A message in two frames is not echoed as one message. -/
theorem received_cutMessage_ne : rootRequest.IsEcho ∧
    received (serveCalls rootRequest ([cutMessage].flatMap calls)) ≠ some ([cutMessage].map message) := by
  refine ⟨rootRequest_isEcho, ?_⟩
  have hm : ¬ cutMessage.InOnePiece := fun h => absurd h.1 (by decide)
  exact received_cons_ne rootRequest_isEcho hm [] []

end Tinyweb
