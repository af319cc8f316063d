import Tinyweb.Digest
import Tinyweb.Lib.HeaderBlock
import Tinyweb.MgString
import Tinyweb.Websocket

/-!
# The WebSocket handshake

`handleWebsocketRequest` is `handle_websocket_request` of `mongoose.c` up to the call of `read_websocket`, with
`send_websocket_handshake` and the callback `websocket_ready_handler` of `websocket.c`.  The bytes given to `mg_printf`
are collected in the order of the calls.

The empty line that ends the head of the response is written by the callback, or by the caller if no callback is
installed.  In both cases the head is one header block with the lines `responseLines`, and no line can be cut or opened
by what the client has sent (`handshake_block`).
-/

namespace Tinyweb

open Clib Http

/-! ### The request -/

def secWebSocketKey : List UInt8 := ascii "Sec-WebSocket-Key".toList

def secWebSocketVersion : List UInt8 := ascii "Sec-WebSocket-Version".toList

def isWebsocketRequest (ri : RequestInfo) : Bool :=
  match mgGetHeader ri (ascii "Host".toList), mgGetHeader ri (ascii "Upgrade".toList),
    mgGetHeader ri (ascii "Connection".toList), mgGetHeader ri secWebSocketKey, mgGetHeader ri secWebSocketVersion with
  | some _, some upgrade, some connection, some _, some _ =>
    mgStrcasestr upgrade.bytes (ascii "websocket".toList) && mgStrcasestr connection.bytes (ascii "Upgrade".toList)
  | _, _, _, _, _ => false

/-! ### The response -/

def magic : List UInt8 := ascii "258EAFA5-E914-47DA-95CA-C5AB0DC85B11".toList

/-- The value of `Sec-WebSocket-Accept` for a key. -/
def acceptValue (key : List UInt8) : List UInt8 := base64Encode (sha1 (snprintf 100 (key ++ magic)))

def statusLine : List UInt8 := ascii "HTTP/1.1 101 Switching Protocols".toList

def upgradeLine : List UInt8 := ascii "Upgrade: websocket".toList

def connectionLine : List UInt8 := ascii "Connection: Upgrade".toList

def acceptName : List UInt8 := ascii "Sec-WebSocket-Accept: ".toList

def protocolName : List UInt8 := ascii "Sec-WebSocket-Protocol: ".toList

/-- `send_websocket_handshake`: what it writes.  Without the key the format `%s` gets a null pointer. -/
def sendWebsocketHandshake (ri : RequestInfo) : Option (List UInt8) := do
  let key ← mgGetHeader ri secWebSocketKey
  return mgPrintf (statusLine ++ crlf ++ (upgradeLine ++ crlf) ++ (connectionLine ++ crlf) ++ acceptName ++
    acceptValue key.bytes ++ crlf)

/-- The text that `websocket_ready_handler` has in `buf` when it prints the header line. -/
def acceptedProtocol (prot : List UInt8) : List UInt8 :=
  let buf := snprintf 100 prot
  match strrchr COMMA buf with
  | some p => buf.take p
  | none => buf

def websocketReadyHandler (ri : RequestInfo) : List UInt8 :=
  (match mgGetHeader ri secWebSocketProtocol with
    | some prot => mgPrintf (protocolName ++ acceptedProtocol prot.bytes ++ crlf)
    | none => []) ++ mgPrintf crlf

/-- The members of `struct mg_callbacks` that the handshake calls. -/
structure Callbacks where
  websocketConnect : Option (RequestInfo → Int)
  websocketReady : Option (RequestInfo → List UInt8)

/-- How `handle_websocket_request` answers: a call of `send_http_error`, nothing, or the bytes it has written when it
calls `read_websocket`. -/
inductive WebsocketStart where
  | httpError (status : Nat) (reason text : List UInt8)
  | declined
  | upgraded (written : List UInt8)
  deriving DecidableEq

def handleWebsocketRequest (callbacks : Callbacks) (ri : RequestInfo) : Option WebsocketStart :=
  match mgGetHeader ri secWebSocketVersion with
  | none => some upgradeRequired
  | some version =>
    if strcmp version.bytes (ascii "13".toList) ≠ 0 then some upgradeRequired
    else if callbacks.websocketConnect.any fun connect => connect ri ≠ 0 then some .declined
    else do
      let head ← sendWebsocketHandshake ri
      let ready :=
        match callbacks.websocketReady with
        | some websocketReady => websocketReady ri
        | none => mgPrintf crlf
      return .upgraded (head ++ ready)
where
  upgradeRequired : WebsocketStart :=
    .httpError 426 (ascii "Upgrade Required".toList) (ascii "Upgrade Required".toList)

/-- The callbacks that `start_server` installs. -/
def serverCallbacks : Callbacks := ⟨none, some websocketReadyHandler⟩

def noCallbacks : Callbacks := ⟨none, none⟩

/-! ### The head of the response -/

/-- The line for the subprotocol: there if the callback is installed and the client has sent the header. -/
def protocolLines (callbacks : Callbacks) (ri : RequestInfo) : List (List UInt8) :=
  if callbacks.websocketReady.isSome then
    (mgGetHeader ri secWebSocketProtocol).toList.map fun prot => protocolName ++ acceptedProtocol prot.bytes
  else []

def responseLines (callbacks : Callbacks) (ri : RequestInfo) (key : CStr) : List (List UInt8) :=
  [statusLine, upgradeLine, connectionLine, acceptName ++ acceptValue key.bytes] ++ protocolLines callbacks ri

/-- No header holds the end of a line.  The parser makes sure of that for the values; a name may hold one. -/
def RequestInfo.IsClean (ri : RequestInfo) : Prop :=
  ∀ h ∈ ri.httpHeaders, (CR ∉ h.1.bytes ∧ LF ∉ h.1.bytes) ∧ (CR ∉ h.2.bytes ∧ LF ∉ h.2.bytes)

/-- A line that neither ends the block nor holds the end of a line. -/
def IsLine (l : List UInt8) : Prop := l ≠ [] ∧ CR ∉ l ∧ LF ∉ l

instance (l : List UInt8) : Decidable (IsLine l) := inferInstanceAs (Decidable (_ ∧ _))

theorem IsLine.append {l u : List UInt8} (hl : IsLine l) (hcr : CR ∉ u) (hlf : LF ∉ u) : IsLine (l ++ u) := by
  obtain ⟨hne, hl1, hl2⟩ := hl
  refine ⟨List.append_ne_nil_of_left_ne_nil hne u, ?_, ?_⟩
  · intro h
    rcases List.mem_append.1 h with h | h
    · exact hl1 h
    · exact hcr h
  · intro h
    rcases List.mem_append.1 h with h | h
    · exact hl2 h
    · exact hlf h

private theorem b64_clean : ∀ c ∈ b64, c ≠ CR ∧ c ≠ LF := by decide +kernel

private theorem acceptValue_clean (key : List UInt8) : CR ∉ acceptValue key ∧ LF ∉ acceptValue key := by
  constructor
  · intro h
    rcases mem_base64Encode h with h | h
    · exact (b64_clean _ h).1 rfl
    · exact absurd h (by decide)
  · intro h
    rcases mem_base64Encode h with h | h
    · exact (b64_clean _ h).2 rfl
    · exact absurd h (by decide)

theorem length_acceptValue (key : List UInt8) : (acceptValue key).length = 28 := by
  rw [acceptValue, length_base64Encode, length_sha1]

theorem isPrefix_acceptedProtocol (prot : List UInt8) : acceptedProtocol prot <+: prot.take 99 := by
  unfold acceptedProtocol
  dsimp only
  split
  · exact List.take_prefix ..
  · exact List.prefix_refl _

private theorem length_acceptedProtocol_le (prot : List UInt8) : (acceptedProtocol prot).length ≤ 99 := by
  have h := (isPrefix_acceptedProtocol prot).length_le
  rw [List.length_take] at h
  omega

private theorem mem_of_mem_acceptedProtocol {prot : List UInt8} {c : UInt8}
    (h : c ∈ acceptedProtocol prot) : c ∈ prot :=
  List.mem_of_mem_take ((isPrefix_acceptedProtocol prot).subset h)

theorem mem_of_mgGetHeader {ri : RequestInfo} {name : List UInt8} {value : CStr}
    (h : mgGetHeader ri name = some value) : ∃ header ∈ ri.httpHeaders, header.2 = value := by
  obtain ⟨header, hfind, hvalue⟩ := Option.map_eq_some_iff.1 h
  exact ⟨header, List.mem_of_find?_eq_some hfind, hvalue⟩

instance (ri : RequestInfo) : Decidable ri.IsClean := inferInstanceAs (Decidable (∀ h ∈ ri.httpHeaders, _))

theorem isLine_of_mem_responseLines {callbacks : Callbacks} {ri : RequestInfo} (hri : ri.IsClean) (key : CStr) :
    ∀ l ∈ responseLines callbacks ri key, IsLine l := by
  have haccept : IsLine (acceptName ++ acceptValue key.bytes) :=
    IsLine.append (by decide) (acceptValue_clean _).1 (acceptValue_clean _).2
  have hprotocol : ∀ l ∈ protocolLines callbacks ri, IsLine l := by
    intro l hl
    unfold protocolLines at hl
    split at hl
    · obtain ⟨prot, hprot, rfl⟩ := List.mem_map.1 hl
      obtain ⟨header, hmem, rfl⟩ := mem_of_mgGetHeader (Option.mem_toList.1 hprot)
      obtain ⟨-, hcr, hlf⟩ := hri header hmem
      exact IsLine.append (by decide) (fun h => hcr (mem_of_mem_acceptedProtocol h))
        fun h => hlf (mem_of_mem_acceptedProtocol h)
    · exact absurd hl List.not_mem_nil
  intro l hl
  rcases List.mem_append.1 hl with hl | hl
  · simp only [List.mem_cons, List.not_mem_nil, or_false] at hl
    rcases hl with rfl | rfl | rfl | rfl
    · decide
    · decide
    · decide
    · exact haccept
  · exact hprotocol l hl

/-! ### What is written -/

private theorem sendWebsocketHandshake_eq {ri : RequestInfo} {key : CStr}
    (h : mgGetHeader ri secWebSocketKey = some key) :
    sendWebsocketHandshake ri = some (statusLine ++ crlf ++ (upgradeLine ++ crlf) ++ (connectionLine ++ crlf) ++
      acceptName ++ acceptValue key.bytes ++ crlf) := by
  rw [sendWebsocketHandshake, h]
  show some (mgPrintf _) = _
  rw [mgPrintf_of_lt]
  rw [List.length_append, List.length_append, length_acceptValue]
  decide

theorem websocketReadyHandler_eq (ri : RequestInfo) :
    websocketReadyHandler ri = block (protocolLines serverCallbacks ri) := by
  have hcrlf : mgPrintf crlf = crlf := mgPrintf_of_lt (by decide)
  unfold websocketReadyHandler protocolLines
  rw [hcrlf, if_pos (show serverCallbacks.websocketReady.isSome = true from rfl)]
  cases mgGetHeader ri secWebSocketProtocol with
  | none => rfl
  | some prot =>
    have hlen : (protocolName ++ acceptedProtocol prot.bytes ++ crlf).length < mgBufLen := by
      have h1 := length_acceptedProtocol_le prot.bytes
      have h2 : protocolName.length = 24 := by decide
      have h3 : crlf.length = 2 := rfl
      have h4 : mgBufLen = 8192 := rfl
      rw [List.length_append, List.length_append]
      omega
    show mgPrintf (protocolName ++ acceptedProtocol prot.bytes ++ crlf) ++ crlf = _
    rw [mgPrintf_of_lt hlen, Option.toList_some, List.map_singleton, block, List.flatMap_singleton]

private theorem key_of_isWebsocketRequest {ri : RequestInfo} (h : isWebsocketRequest ri = true) :
    ∃ key, mgGetHeader ri secWebSocketKey = some key := by
  unfold isWebsocketRequest at h
  split at h
  · rename_i hkey _
    exact ⟨_, hkey⟩
  · cases h

/-- A request that reaches the handshake is answered by exactly one header block, with the callback or without it: the
status line, the lines `Upgrade`, `Connection` and `Sec-WebSocket-Accept`, the line for the subprotocol if there is one,
and an empty line.  No line holds CR or LF, and a receiver reads these lines whatever is sent afterwards. -/
theorem handshake_block {ri : RequestInfo} (hri : ri.IsClean) (hreq : isWebsocketRequest ri = true) {version : CStr}
    (hversion : mgGetHeader ri secWebSocketVersion = some version) (h13 : version.bytes = ascii "13".toList)
    {callbacks : Callbacks} (hcallbacks : callbacks = serverCallbacks ∨ callbacks = noCallbacks) :
    ∃ key, mgGetHeader ri secWebSocketKey = some key ∧
      handleWebsocketRequest callbacks ri = some (.upgraded (block (responseLines callbacks ri key))) ∧
      (∀ l ∈ responseLines callbacks ri key, IsLine l) ∧
      ∀ rest, readBlock (block (responseLines callbacks ri key) ++ rest) =
        some (responseLines callbacks ri key, rest) := by
  obtain ⟨key, hkey⟩ := key_of_isWebsocketRequest hreq
  have hlines := @isLine_of_mem_responseLines callbacks ri hri key
  refine ⟨key, hkey, ?_, hlines, fun rest => readBlock_block (fun l hl => ⟨(hlines l hl).1, (hlines l hl).2.1⟩) rest⟩
  have hstrcmp : strcmp version.bytes (ascii "13".toList) = 0 :=
    (strcmp_eq_zero_iff version.nul_free (by decide)).2 h13
  have hhead := sendWebsocketHandshake_eq hkey
  have hcrlf : mgPrintf crlf = crlf := mgPrintf_of_lt (by decide)
  have hblock (rest : List UInt8) : statusLine ++ crlf ++ (upgradeLine ++ crlf) ++ (connectionLine ++ crlf) ++
      acceptName ++ acceptValue key.bytes ++ crlf ++ rest = [statusLine, upgradeLine, connectionLine,
        acceptName ++ acceptValue key.bytes].flatMap (· ++ crlf) ++ rest := by
    simp only [List.flatMap_cons, List.flatMap_nil, List.append_assoc, List.append_nil]
  rcases hcallbacks with rfl | rfl
  · have hready := websocketReadyHandler_eq ri
    have hwritten : handleWebsocketRequest serverCallbacks ri = some (.upgraded (statusLine ++ crlf ++
        (upgradeLine ++ crlf) ++ (connectionLine ++ crlf) ++ acceptName ++ acceptValue key.bytes ++ crlf ++
        websocketReadyHandler ri)) := by
      rw [handleWebsocketRequest, hversion]
      simp only [hstrcmp, ne_eq, not_true_eq_false, ↓reduceIte, hhead]
      rfl
    rw [hwritten, hready, hblock, responseLines, block, block, List.flatMap_append, List.append_assoc]
  · have hwritten : handleWebsocketRequest noCallbacks ri = some (.upgraded (statusLine ++ crlf ++
        (upgradeLine ++ crlf) ++ (connectionLine ++ crlf) ++ acceptName ++ acceptValue key.bytes ++ crlf ++ crlf)) := by
      rw [handleWebsocketRequest, hversion]
      simp only [hstrcmp, ne_eq, not_true_eq_false, ↓reduceIte, hhead]
      show some (WebsocketStart.upgraded (_ ++ mgPrintf crlf)) = _
      rw [hcrlf]
    rw [hwritten, hblock, responseLines, block, show protocolLines noCallbacks ri = [] from rfl, List.append_nil]

def cstr (text : String) (h : NUL ∉ ascii text.toList) : CStr := ⟨ascii text.toList, h⟩

/-- The handshake of RFC 6455, section 1.3. -/
def chatRequest : RequestInfo where
  uri := cstr "/chat" (by decide)
  httpHeaders := [(cstr "Host" (by decide), cstr "server.example.com" (by decide)),
    (cstr "Upgrade" (by decide), cstr "websocket" (by decide)),
    (cstr "Connection" (by decide), cstr "Upgrade" (by decide)),
    (cstr "Sec-WebSocket-Key" (by decide), cstr "dGhlIHNhbXBsZSBub25jZQ==" (by decide)),
    (cstr "Sec-WebSocket-Protocol" (by decide), cstr "chat, superchat" (by decide)),
    (cstr "Sec-WebSocket-Version" (by decide), cstr "13" (by decide))]

theorem handshake_block_chat :
    ∃ key, mgGetHeader chatRequest secWebSocketKey = some key ∧
      handleWebsocketRequest serverCallbacks chatRequest =
        some (.upgraded (block (responseLines serverCallbacks chatRequest key))) ∧
      (∀ l ∈ responseLines serverCallbacks chatRequest key, IsLine l) ∧
      ∀ rest, readBlock (block (responseLines serverCallbacks chatRequest key) ++ rest) =
        some (responseLines serverCallbacks chatRequest key, rest) := by
  have hversion : mgGetHeader chatRequest secWebSocketVersion = some (cstr "13" (by decide)) := by decide +kernel
  exact handshake_block (by decide +kernel) (by decide +kernel) hversion rfl (Or.inl rfl)

example : acceptValue (ascii "dGhlIHNhbXBsZSBub25jZQ==".toList) = ascii "s3pPLMBiTxaQ9kYGzzhZRbK+xOo=".toList := by
  decide +kernel

end Tinyweb
