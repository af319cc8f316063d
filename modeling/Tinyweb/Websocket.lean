import Tinyweb.MgString

/-!
# The WebSocket callbacks (`websocket.c`)

`websocketData` is the echo routine `websocket_data`, `websocketDataHandler` the callback `websocket_data_handler` that
the server installs, with the header lookup of `mongoose.c` it relies on.  A callback receives the memory at `data` and
the payload length; the memory reaches beyond the payload (`Payload`), and `websocket_data` compares its first six bytes
with `.close` whatever the payload length is.  The bytes given to `mg_write` are collected in the order of the calls.

`serveCalls` hands a sequence of frames to the callback the way the loop of `read_websocket` does: it stops when the
callback returns 0 or after a frame with opcode 8.
-/

namespace Tinyweb

open Clib

/-! ### Request data -/

/-- The parts of `struct mg_request_info` the WebSocket code reads. -/
structure RequestInfo where
  uri : CStr
  httpHeaders : List (CStr × CStr)

def mgGetHeader (ri : RequestInfo) (name : List UInt8) : Option CStr :=
  (ri.httpHeaders.find? fun h => mgStrcasecmp name h.1.bytes = 0).map (·.2)

def secWebSocketProtocol : List UInt8 :=
  ascii ['S', 'e', 'c', '-', 'W', 'e', 'b', 'S', 'o', 'c', 'k', 'e', 't', '-', 'P', 'r', 'o', 't', 'o', 'c', 'o', 'l']

def foobar : List UInt8 := ascii ['f', 'o', 'o', 'b', 'a', 'r']

def dotClose : List UInt8 := ascii ['.', 'c', 'l', 'o', 's', 'e']

def rootUri : List UInt8 := ascii ['/']

def echoUri : List UInt8 := ascii ['/', 'e', 'c', 'h', 'o']

/-! ### The callbacks -/

/-- The `data` and `data_len` arguments of the callback: `mem` is the memory at `data`, which holds the payload and may
go on behind it.  Six bytes are always there, since `read_websocket` passes an array of 4096 bytes or a longer one. -/
structure Payload where
  mem : List UInt8
  len : Nat
  len_le : len ≤ mem.length
  six_le : 6 ≤ mem.length
  deriving DecidableEq

def Payload.bytes (d : Payload) : List UInt8 := d.mem.take d.len

/-- What a call of the callback does: the bytes it writes to the connection, and its return value. -/
structure Reply where
  written : List UInt8
  ret : Int
  deriving DecidableEq, Repr

def websocketData (flags : UInt8) (data : Payload) : Reply :=
  -- "Truncate echoed message, to simplify output code."
  let dataLen := if data.len > 65536 then 65536 else data.len
  let opcode := flags &&& 0x0f
  let payload := if dataLen > 0 then data.mem.take dataLen else []
  if opcode = 0x08 ∨ memcmp data.mem dotClose 6 = 0 then
    -- `reply[2]` and `reply[3]` are set but not sent: `offset` is 2
    let status : List UInt8 := if dataLen = 0 then [3, 232] else [data.mem.getD 0 0, data.mem.getD 1 0]
    ⟨([0x88, dataLen.toUInt8] ++ status).take 2 ++ payload, 0⟩
  else if dataLen ≤ 125 then ⟨[0x80 ||| opcode, dataLen.toUInt8] ++ payload, 1⟩
  else ⟨[0x80 ||| opcode, 126, (dataLen / 256).toUInt8, (dataLen % 256).toUInt8] ++ payload, 1⟩

def websocketDataHandler (ri : RequestInfo) (flags : UInt8) (data : Payload) : Reply :=
  match mgGetHeader ri secWebSocketProtocol with
  | some prot => if strncmp prot.bytes foobar 6 = 0 then ⟨[], 0⟩ else byUri
  | none => byUri
where
  byUri : Reply :=
    if strcmp ri.uri.bytes rootUri = 0 ∨ strcmp ri.uri.bytes echoUri = 0 then websocketData flags data else ⟨[], 0⟩

/-- One frame as `read_websocket` hands it to the callback. -/
structure Call where
  flags : UInt8
  data : Payload
  deriving DecidableEq

/-- Everything written while the frames are handed to the callback one after another. -/
def serveCalls (ri : RequestInfo) : List Call → List UInt8
  | [] => []
  | c :: cs =>
    let r := websocketDataHandler ri c.flags c.data
    r.written ++ if r.ret = 0 ∨ c.flags &&& 0x0f = 8 then [] else serveCalls ri cs

/-! ### Which branch is taken -/

/-- A connection served by the echo routine: the URI is `/` or `/echo` and the subprotocol does not start with
`foobar`. -/
def RequestInfo.IsEcho (ri : RequestInfo) : Prop :=
  (ri.uri.bytes = rootUri ∨ ri.uri.bytes = echoUri) ∧
    ∀ prot, mgGetHeader ri secWebSocketProtocol = some prot → ¬ foobar <+: prot.bytes

/-- The call takes the close branch of `websocket_data`. -/
def Call.Closes (c : Call) : Prop := c.flags &&& 0x0f = 8 ∨ dotClose <+: c.data.mem

instance (c : Call) : Decidable c.Closes := inferInstanceAs (Decidable (_ ∨ _))

private theorem memcmp_dotClose (d : Payload) : memcmp d.mem dotClose 6 = 0 ↔ dotClose <+: d.mem :=
  @memcmp_length_eq_zero_iff d.mem dotClose d.six_le

private theorem byUri_eq (ri : RequestInfo) (flags : UInt8) (data : Payload) :
    websocketDataHandler.byUri ri flags data =
      if ri.uri.bytes = rootUri ∨ ri.uri.bytes = echoUri then websocketData flags data else ⟨[], 0⟩ := by
  have h1 : strcmp ri.uri.bytes rootUri = 0 ↔ ri.uri.bytes = rootUri :=
    strcmp_eq_zero_iff ri.uri.nul_free (by decide)
  have h2 : strcmp ri.uri.bytes echoUri = 0 ↔ ri.uri.bytes = echoUri :=
    strcmp_eq_zero_iff ri.uri.nul_free (by decide)
  simp only [websocketDataHandler.byUri, h1, h2]

private theorem strncmp_foobar (s : List UInt8) : strncmp s foobar 6 = 0 ↔ foobar <+: s :=
  @strncmp_length_eq_zero_iff foobar s (by decide)

theorem websocketDataHandler_of_isEcho {ri : RequestInfo} (h : ri.IsEcho) (flags : UInt8) (data : Payload) :
    websocketDataHandler ri flags data = websocketData flags data := by
  obtain ⟨huri, hprot⟩ := h
  have hby : websocketDataHandler.byUri ri flags data = websocketData flags data := by
    rw [byUri_eq, if_pos huri]
  unfold websocketDataHandler
  split
  · rename_i prot hp
    have hne : ¬ strncmp prot.bytes foobar 6 = 0 := by
      rw [strncmp_foobar]
      exact hprot prot hp
    rw [if_neg hne, hby]
  · exact hby

/-- On any other connection the callback writes nothing and ends the conversation. -/
theorem websocketDataHandler_of_not_isEcho {ri : RequestInfo} (h : ¬ ri.IsEcho) (flags : UInt8) (data : Payload) :
    websocketDataHandler ri flags data = ⟨[], 0⟩ := by
  unfold websocketDataHandler
  split
  · rename_i prot hp
    split
    · rfl
    · rename_i hne
      rw [byUri_eq, if_neg]
      intro huri
      apply h
      refine ⟨huri, fun prot' hp' => ?_⟩
      rw [hp, Option.some.injEq] at hp'
      rw [← hp', ← strncmp_foobar]
      exact hne
  · rename_i hp
    rw [byUri_eq, if_neg]
    intro huri
    apply h
    refine ⟨huri, fun prot' hp' => ?_⟩
    rw [hp] at hp'
    cases hp'

private theorem sent_eq (mem : List UInt8) (n : Nat) : (if n > 0 then mem.take n else []) = mem.take n := by
  cases n <;> simp

/-- The close branch: a two-byte header with the length cut to one byte, then the payload. -/
theorem websocketData_of_closes {c : Call} (h : c.Closes) :
    websocketData c.flags c.data =
      ⟨[0x88, (min c.data.len 65536).toUInt8] ++ c.data.mem.take (min c.data.len 65536), 0⟩ := by
  have hbr : c.flags &&& 0x0f = 0x08 ∨ memcmp c.data.mem dotClose 6 = 0 := by
    rw [memcmp_dotClose]
    exact h
  have hmin : (if c.data.len > 65536 then 65536 else c.data.len) = min c.data.len 65536 := by
    split <;> omega
  simp only [websocketData, hmin, sent_eq, if_pos hbr]
  split <;> rfl

/-- The echo branch: FIN and the opcode, the length in one byte or, after 126, in two, then the payload. -/
theorem websocketData_of_not_closes {c : Call} (h : ¬ c.Closes) :
    websocketData c.flags c.data =
      ⟨(if min c.data.len 65536 ≤ 125 then [0x80 ||| (c.flags &&& 0x0f), (min c.data.len 65536).toUInt8]
        else [0x80 ||| (c.flags &&& 0x0f), 126, (min c.data.len 65536 / 256).toUInt8,
          (min c.data.len 65536 % 256).toUInt8]) ++ c.data.mem.take (min c.data.len 65536), 1⟩ := by
  have hbr : ¬ (c.flags &&& 0x0f = 0x08 ∨ memcmp c.data.mem dotClose 6 = 0) := by
    rw [memcmp_dotClose]
    exact h
  have hmin : (if c.data.len > 65536 then 65536 else c.data.len) = min c.data.len 65536 := by
    split <;> omega
  simp only [websocketData, hmin, sent_eq, if_neg hbr]
  split <;> rfl

def rootRequest : RequestInfo := ⟨⟨rootUri, by decide⟩, []⟩

theorem rootRequest_isEcho : rootRequest.IsEcho := by
  refine ⟨Or.inl rfl, ?_⟩
  intro prot h
  cases h

end Tinyweb
