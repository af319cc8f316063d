import Tinyweb.Lib.Frames
import Tinyweb.Websocket

/-!
# The close reply

A frame with opcode 8, or with a payload that begins with `.close`, is answered by one close frame, and nothing is
written after it.  The reply has the payload length in one byte and the whole payload behind it, also where the payload
has one byte only or does not fit a control frame; and the status code it was given is the beginning of the payload.
So the reply is a legal close frame exactly if the payload has at most 125 bytes and not just one, and, for a frame that
is not a close frame itself, if `.c` passes for a status code (`closesProperly_iff`).
-/

namespace Tinyweb

open Clib Rfc6455

/-- A frame that asks for the end of the conversation: a close frame, or a payload that begins with `.close`. -/
def Call.AsksClose (c : Call) : Prop := c.flags &&& 0x0f = 8 ∨ dotClose <+: c.data.bytes

theorem Call.AsksClose.closes {c : Call} (h : c.AsksClose) : c.Closes := by
  rcases h with h | h
  · exact Or.inl h
  · exact Or.inr (h.trans (List.take_prefix ..))

/-- The payload `p` of the reply to `c` is empty or starts with a status code, the client's own if it has sent a close
frame with one.  Which pairs of bytes count as a status code is left open. -/
def HasStatus (code : UInt8 → UInt8 → Prop) (c : Call) (p : List UInt8) : Prop :=
  p = [] ∨ ∃ hi lo rest, p = hi :: lo :: rest ∧
    if c.flags &&& 0x0f = 8 ∧ 2 ≤ c.data.len then c.data.bytes.take 2 = [hi, lo] else code hi lo

/-- The purpose of the close branch: the reply is one close frame in the 7-bit length form, and the last thing written,
whatever frames the client has sent after it. -/
def ClosesProperly (code : UInt8 → UInt8 → Prop) (ri : RequestInfo) (c : Call) : Prop :=
  (∃ p, decodeFrames (websocketDataHandler ri c.flags c.data).written = some [⟨true, 0, 8, p⟩] ∧
      ((websocketDataHandler ri c.flags c.data).written.getD 1 0).toNat ≤ 125 ∧ HasStatus code c p) ∧
    (websocketDataHandler ri c.flags c.data).ret = 0 ∧
    ∀ cs, serveCalls ri (c :: cs) = (websocketDataHandler ri c.flags c.data).written

variable {code : UInt8 → UInt8 → Prop}

private theorem frameOf_close (p : List UInt8) : frameOf 0x88 p = ⟨true, 0, 8, p⟩ := rfl

private theorem length_bytes (d : Payload) : d.bytes.length = d.len := by
  rw [Payload.bytes, List.length_take, Nat.min_eq_left d.len_le]

/-- A two-byte header read in the 7-bit form leaves nothing over only if it gives the whole length. -/
private theorem close_payload {m : Nat} {t p : List UInt8} (ht : t.length = m)
    (h : decodeFrames ([0x88, m.toUInt8] ++ t) = some [⟨true, 0, 8, p⟩]) (hm : m.toUInt8.toNat ≤ 125) :
    m ≤ 125 ∧ p = t := by
  have hmod : m.toUInt8.toNat = m % 256 := by simp
  have hframe : decodeFrame ([0x88, m.toUInt8] ++ t) =
      some (frameOf 0x88 (t.take (m % 256)), t.drop (m % 256)) := by
    have hlt : m % 256 < 126 := by omega
    have hle : m % 256 ≤ t.length := by
      rw [ht]
      exact Nat.mod_le m 256
    simp only [decodeFrame, decodeLength, List.cons_append, List.nil_append, hmod, hlt, ↓reduceIte, hle]
  rw [decodeFrames_of_decodeFrame hframe] at h
  obtain ⟨fs, hrest, hcons⟩ := Option.map_eq_some_iff.1 h
  obtain ⟨hfirst, rfl⟩ := List.cons.inj hcons
  have hdrop : t.drop (m % 256) = [] := eq_nil_of_decodeFrames hrest
  have hall : t.length ≤ m % 256 := List.drop_eq_nil_iff.1 hdrop
  have hp : t.take (m % 256) = p := congrArg Frame.payload hfirst
  rw [List.take_of_length_le hall] at hp
  exact ⟨by omega, hp.symm⟩

private theorem hasStatus_bytes_iff {c : Call} (h : c.AsksClose) :
    HasStatus code c c.data.bytes ↔ c.data.len ≠ 1 ∧ (c.flags &&& 0x0f ≠ 8 → code 46 99) := by
  have hlen := length_bytes c.data
  by_cases h8 : c.flags &&& 0x0f = 8
  · constructor
    · rintro (hnil | ⟨hi, lo, rest, hp, -⟩)
      · rw [hnil, List.length_nil] at hlen
        exact ⟨by omega, fun hne => absurd h8 hne⟩
      · rw [hp, List.length_cons, List.length_cons] at hlen
        exact ⟨by omega, fun hne => absurd h8 hne⟩
    · rintro ⟨h1, -⟩
      rcases hb : c.data.bytes with _ | ⟨hi, _ | ⟨lo, rest⟩⟩
      · exact Or.inl rfl
      · rw [hb, List.length_singleton] at hlen
        exact absurd hlen.symm h1
      · right
        refine ⟨hi, lo, rest, rfl, ?_⟩
        rw [hb, List.length_cons, List.length_cons] at hlen
        rw [if_pos ⟨h8, by omega⟩, hb]
        rfl
  · obtain ⟨t, ht⟩ := h.resolve_left h8
    -- the payload begins with the characters `.` and `c`
    have hb : c.data.bytes = 46 :: 99 :: (ascii ['l', 'o', 's', 'e'] ++ t) := ht.symm
    have hcode : HasStatus code c c.data.bytes ↔ code 46 99 := by
      constructor
      · rintro (hnil | ⟨hi, lo, rest, hp, hstatus⟩)
        · rw [hb] at hnil
          cases hnil
        · rw [hb] at hp
          obtain ⟨rfl, hp'⟩ := List.cons.inj hp
          obtain ⟨rfl, -⟩ := List.cons.inj hp'
          rwa [if_neg fun h => h8 h.1] at hstatus
      · intro hstatus
        refine Or.inr ⟨46, 99, _, hb, ?_⟩
        rwa [if_neg fun h => h8 h.1]
    rw [hcode]
    constructor
    · intro hstatus
      refine ⟨?_, fun _ => hstatus⟩
      rw [hb, List.length_cons, List.length_cons] at hlen
      omega
    · rintro ⟨-, hstatus⟩
      exact hstatus h8

/-- After the reply nothing more is written. -/
private theorem serveCalls_cons_of_closes {ri : RequestInfo} (hri : ri.IsEcho) {c : Call} (hc : c.Closes)
    (cs : List Call) : serveCalls ri (c :: cs) = (websocketDataHandler ri c.flags c.data).written := by
  have hret : (websocketDataHandler ri c.flags c.data).ret = 0 := by
    rw [websocketDataHandler_of_isEcho hri, websocketData_of_closes hc]
  rw [serveCalls, if_pos (Or.inl hret), List.append_nil]

/-- The reply to a frame that asks for the end is a proper close frame if and only if its payload has at most 125 bytes
and not exactly one, and the frame is a close frame or `.c` is a status code. -/
theorem closesProperly_iff {ri : RequestInfo} (hri : ri.IsEcho) {c : Call} (h : c.AsksClose) :
    ClosesProperly code ri c ↔
      c.data.len ≤ 125 ∧ c.data.len ≠ 1 ∧ (c.flags &&& 0x0f ≠ 8 → code 46 99) := by
  have hreply := websocketData_of_closes h.closes
  have hmem : (c.data.mem.take (min c.data.len 65536)).length = min c.data.len 65536 := by
    have := c.data.len_le
    rw [List.length_take]
    omega
  have hlast := serveCalls_cons_of_closes hri h.closes
  rw [ClosesProperly, ← hasStatus_bytes_iff h]
  rw [websocketDataHandler_of_isEcho hri, hreply] at hlast ⊢
  constructor
  · rintro ⟨⟨p, hdecode, hform, hstatus⟩, -, -⟩
    obtain ⟨hle, rfl⟩ := close_payload hmem hdecode hform
    have hmin : min c.data.len 65536 = c.data.len := by omega
    rw [hmin] at hstatus
    exact ⟨by omega, hstatus⟩
  · rintro ⟨hle, hstatus⟩
    have hmin : min c.data.len 65536 = c.data.len := by omega
    rw [hmin]
    refine ⟨⟨c.data.bytes, ?_, ?_, hstatus⟩, rfl, ?_⟩
    · have hread := decodeFrames_header 0x88 (p := c.data.bytes) (by rw [length_bytes]; omega) []
      rw [length_bytes, header, if_pos (by omega), List.append_nil, frameOf_close] at hread
      show decodeFrames ([0x88, c.data.len.toUInt8] ++ c.data.bytes) = _
      rw [hread, decodeFrames]
      rfl
    · show c.data.len.toUInt8.toNat ≤ 125
      have hmod : c.data.len.toUInt8.toNat = c.data.len % 256 := by simp
      rw [hmod]
      omega
    · intro cs
      rw [hlast cs, hmin]

/-- The close frame with the status code 1001. -/
def goingAway : Call := ⟨0x88, ⟨[3, 233, 0, 0, 0, 0], 2, by decide, by decide⟩⟩

theorem closesProperly_iff_goingAway : ClosesProperly (fun _ _ => False) rootRequest goingAway :=
  (closesProperly_iff rootRequest_isEcho (Or.inl rfl)).2 (by decide)

/-- A close frame with a payload of one byte. -/
def cutStatus : Call := ⟨0x88, ⟨[3, 0, 0, 0, 0, 0], 1, by decide, by decide⟩⟩

/-- The reply to a close frame with one byte is a close frame with one byte, even if any two bytes are a status code. -/
theorem not_closesProperly_cutStatus : cutStatus.AsksClose ∧ rootRequest.IsEcho ∧
    (websocketData cutStatus.flags cutStatus.data).written = [0x88, 1, 3] ∧
    ¬ ClosesProperly (fun _ _ => True) rootRequest cutStatus := by
  refine ⟨Or.inl rfl, rootRequest_isEcho, by decide, ?_⟩
  rintro ⟨⟨p, hdecode, hform, hstatus⟩, -, -⟩
  have hreply := websocketData_of_closes (c := cutStatus) (Or.inl rfl)
  rw [websocketDataHandler_of_isEcho rootRequest_isEcho, hreply] at hdecode hform
  obtain ⟨-, rfl⟩ := close_payload (by decide) hdecode hform
  rcases hstatus with hnil | ⟨hi, lo, rest, hp, -⟩
  · exact absurd hnil (by decide)
  · have hlen := congrArg List.length hp
    rw [List.length_cons, List.length_cons] at hlen
    have hone : (cutStatus.data.mem.take (min cutStatus.data.len 65536)).length = 1 := by decide
    omega

end Tinyweb
