import Tinyweb.Lib.HeaderBlock
import Tinyweb.FileName
import Tinyweb.RequestLoop

/-!
# Replies (`mongoose.c`)

The replies that the server writes itself: a status line, headers and a body.  The head is written by one `mg_printf`,
the body behind it.  A client that reads the bytes of a reply gets the lines and the body if no line holds a CR and the
head fits the buffer of `mg_printf` (`readBlock_bytes`).
-/

namespace Tinyweb

open Clib Http

structure HttpReply where
  status : Nat
  reason : List UInt8
  headers : List (List UInt8 × List UInt8) := []
  /-- Text in front of the empty line that ends the head, printed beforehand with the line ends in it. -/
  rest : List UInt8 := []
  body : List UInt8 := []
  deriving DecidableEq, Repr

def httpVersion : List UInt8 := ascii ['H', 'T', 'T', 'P', '/', '1', '.', '1', ' ']

namespace HttpReply

variable (reply : HttpReply)

def statusLine : List UInt8 := httpVersion ++ decimal reply.status ++ SPACE :: reply.reason

def lines : List (List UInt8) := reply.statusLine :: reply.headers.map headerLine

def head : List UInt8 := reply.lines.flatMap (· ++ crlf) ++ reply.rest ++ crlf

def bytes : List UInt8 := mgPrintf reply.head ++ reply.body

variable {reply}

private theorem ne_nil_of_mem_lines {l : List UInt8} (h : l ∈ reply.lines) : l ≠ [] := by
  rcases List.mem_cons.1 h with rfl | h
  · simp [statusLine]
  · obtain ⟨header, -, rfl⟩ := List.mem_map.1 h
    simp [headerLine]

/-- What a client reads: `more` are the lines of the text that was printed beforehand. -/
theorem readBlock_bytes {more : List (List UInt8)} (hrest : reply.rest = more.flatMap (· ++ crlf))
    (hmore : ∀ l ∈ more, l ≠ [] ∧ CR ∉ l) (hlines : ∀ l ∈ reply.lines, CR ∉ l) (hlen : reply.head.length < mgBufLen) :
    readBlock reply.bytes = some (reply.lines ++ more, reply.body) := by
  have hhead : reply.head = block (reply.lines ++ more) := by
    rw [head, hrest, block, List.flatMap_append]
  rw [bytes, mgPrintf_of_lt hlen, hhead]
  refine readBlock_block ?_ reply.body
  intro l hl
  rcases List.mem_append.1 hl with hl | hl
  · exact ⟨ne_nil_of_mem_lines hl, hlines l hl⟩
  · exact hmore l hl

/-- The client finds no end of the head if the text that was printed beforehand has been cut. -/
theorem readBlock_bytes_cut (hne : reply.rest ≠ []) (hrest : LF ∉ reply.rest) (hlines : ∀ l ∈ reply.lines, CR ∉ l)
    (hlen : reply.head.length < mgBufLen) (hbody : CR ∉ reply.body) : readBlock reply.bytes = none := by
  rw [bytes, mgPrintf_of_lt hlen, head]
  exact readBlock_unended (fun l hl => ⟨ne_nil_of_mem_lines hl, hlines l hl⟩) hne hrest hbody

end HttpReply

/-! ### A client -/

/-- What a client finds in a reply: the number in the status line, the length in the head and the bytes behind it. -/
structure Received where
  status : Int
  announced : Int
  body : List UInt8
  deriving DecidableEq, Repr

def contentLengthField : List UInt8 := contentLength ++ [COLON, SPACE]

def readReply (bytes : List UInt8) : Option Received :=
  match readBlock bytes with
  | some (status :: headers, body) =>
    (headers.find? contentLengthField.isPrefixOf).map fun line =>
      ⟨strtoll (status.drop httpVersion.length), strtoll (line.drop contentLengthField.length), body⟩
  | _ => none

/-! ### Errors -/

def connectionName : List UInt8 := ascii ['C', 'o', 'n', 'n', 'e', 'c', 't', 'i', 'o', 'n']

/-- `mustClose` says that the connection is closed in any case (`must_close`, or status 401). -/
def suggestConnectionHeader (config : HandlerConfig) (mustClose : Bool) (r : HttpRequest) : List UInt8 :=
  if shouldKeepAlive config.enableKeepAlive mustClose r then ascii ['k', 'e', 'e', 'p', '-', 'a', 'l', 'i', 'v', 'e']
  else ascii ['c', 'l', 'o', 's', 'e']

/-- The text `Error <status>: <reason>`, cut off at the end of an array of `MG_BUF_LEN` bytes, and the message behind
it. -/
def errorText (status : Nat) (reason message : List UInt8) : List UInt8 :=
  let text :=
    snprintf mgBufLen (ascii ['E', 'r', 'r', 'o', 'r', ' '] ++ decimal status ++ ascii [':', ' '] ++ reason) ++ [LF]
  text ++ snprintf (mgBufLen - text.length) message

/-- `send_http_error`; the replies 1xx, 204 and 304 have no body. -/
def sendHttpError (config : HandlerConfig) (r : HttpRequest) (status : Nat) (reason message : List UInt8) : HttpReply :=
  let body := if status > 199 ∧ status ≠ 204 ∧ status ≠ 304 then errorText status reason message else []
  { status := status
    reason := reason
    headers := [(contentLength, decimal body.length), (connectionName, suggestConnectionHeader config false r)]
    body := body }

def ok : List UInt8 := ascii ['O', 'K']

def internalServerError : List UInt8 :=
  ascii ['I', 'n', 't', 'e', 'r', 'n', 'a', 'l', ' ', 'S', 'e', 'r', 'v', 'e', 'r', ' ', 'E', 'r', 'r', 'o', 'r']

end Tinyweb
