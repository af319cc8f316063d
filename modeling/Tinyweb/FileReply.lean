import Tinyweb.HttpDate
import Tinyweb.PutFile

/-!
# Files in replies (`mongoose.c`)

`handle_file_request` sends a file or the part of it that the `Range` header asks for, `is_not_modified` decides whether
the client's copy can be used instead.

The results are about what a client reads from the bytes of a reply (`readReply`).  It finds as many bytes as the head
announces for some `Range` headers only (`announced_iff`); a client that asks for the parts of a file in turn gets them
(`ranges_reassemble`).  The line `Content-Range` is printed into an array of 64 bytes: if it is longer, the head is not
ended and the client takes the file for a part of it (`readBlock_cut`).
-/

namespace Tinyweb

open Clib Http

/-! ### The type of a file -/

def builtinMimeTypes : List (List UInt8 × List UInt8) :=
  ([(".html", "text/html"), (".htm", "text/html"), (".shtm", "text/html"), (".shtml", "text/html"),
    (".css", "text/css"), (".js", "application/x-javascript"), (".ico", "image/x-icon"), (".gif", "image/gif"),
    (".jpg", "image/jpeg"), (".jpeg", "image/jpeg"), (".png", "image/png"), (".svg", "image/svg+xml"),
    (".txt", "text/plain"), (".torrent", "application/x-bittorrent"), (".wav", "audio/x-wav"),
    (".mp3", "audio/x-mp3"), (".mid", "audio/mid"), (".m3u", "audio/x-mpegurl"), (".ogg", "audio/ogg"),
    (".ram", "audio/x-pn-realaudio"), (".xml", "text/xml"), (".json", "text/json"), (".xslt", "application/xml"),
    (".xsl", "application/xml"), (".ra", "audio/x-pn-realaudio"), (".doc", "application/msword"),
    (".exe", "application/octet-stream"), (".zip", "application/x-zip-compressed"), (".xls", "application/excel"),
    (".tgz", "application/x-tar-gz"), (".tar", "application/x-tar"), (".gz", "application/x-gunzip"),
    (".arj", "application/x-arj-compressed"), (".rar", "application/x-arj-compressed"), (".rtf", "application/rtf"),
    (".pdf", "application/pdf"), (".swf", "application/x-shockwave-flash"), (".mpg", "video/mpeg"),
    (".webm", "video/webm"), (".mpeg", "video/mpeg"), (".mov", "video/quicktime"), (".mp4", "video/mp4"),
    (".m4v", "video/x-m4v"), (".asf", "video/x-ms-asf"), (".avi", "video/x-msvideo"), (".bmp", "image/bmp"),
    (".ttf", "application/x-font-ttf")] : List (String × String)).map
    fun e => (ascii e.1.toList, ascii e.2.toList)

/-- The end of a path, as long as an extension. -/
def pathEnd (path ext : List UInt8) : List UInt8 := path.drop (path.length - ext.length)

def mgGetBuiltinMimeType (path : List UInt8) : List UInt8 :=
  ((builtinMimeTypes.find? fun e => path.length > e.1.length ∧ mgStrcasecmp (pathEnd path e.1) e.1 = 0).map (·.2)).getD
    (ascii ['t', 'e', 'x', 't', '/', 'p', 'l', 'a', 'i', 'n'])

def getMimeType (config : HandlerConfig) (path : List UInt8) : List UInt8 :=
  match (optionValues config.extraMimeTypes).find? fun v =>
      mgStrncasecmp (pathEnd path (eqVal v).1) (eqVal v).1 (eqVal v).1.length = 0 with
  | some v => (eqVal v).2
  | none => mgGetBuiltinMimeType path

/-! ### The client's copy -/

def hexText (n : Nat) : List UInt8 := (Nat.toDigits 16 n).map Char.toUInt8

def constructEtag (file : FileInfo) : List UInt8 :=
  DQUOTE :: (hexText file.modificationTime ++ DOT :: (decimal file.size ++ [DQUOTE]))

def ifModifiedSince : List UInt8 :=
  ascii ['I', 'f', '-', 'M', 'o', 'd', 'i', 'f', 'i', 'e', 'd', '-', 'S', 'i', 'n', 'c', 'e']

def ifNoneMatch : List UInt8 := ascii ['I', 'f', '-', 'N', 'o', 'n', 'e', '-', 'M', 'a', 't', 'c', 'h']

/-- One of the two headers is enough. -/
def isNotModified (r : HttpRequest) (file : FileInfo) : Bool :=
  (getHeader r ifNoneMatch).any (mgStrcasecmp (constructEtag file) · = 0) ||
    (getHeader r ifModifiedSince).any fun ims => (file.modificationTime : Int) ≤ parseDateString ims

/-! ### The content -/

/-- The loop of `send_file_data`: blocks of at most `MG_BUF_LEN` bytes are read and sent. -/
def sendFrom : Nat → List UInt8 → Nat → List UInt8
  | 0, _, _ => []
  | fuel + 1, content, len =>
    if 0 < len then
      let toRead := if mgBufLen > len then len else mgBufLen
      let buf := content.take toRead
      if buf = [] then [] else buf ++ sendFrom fuel (content.drop buf.length) (len - buf.length)
    else []

/-- What `send_file_data` sends of a file. -/
def sendFileData (content : List UInt8) (offset len : Int) : List UInt8 :=
  let offset := if offset < 0 then 0 else if offset > content.length then (content.length : Int) else offset
  sendFrom len.toNat (content.drop offset.toNat) len.toNat

/-- The numbers that `handle_file_request` gets from the `Range` header: the status, where it sends from, and how much
it announces.  A header whose second number is negative is not used, but its first number is. -/
structure FileRange where
  partially : Bool
  r1 : Int
  cl : Int
  deriving DecidableEq, Repr

def rangeOf (size : Nat) (numbers : List Int) : FileRange :=
  let r1 := numbers.headD 0
  let r2 := numbers.tail.headD 0
  if numbers ≠ [] ∧ r1 ≥ 0 ∧ r2 ≥ 0 then
    ⟨true, r1, if numbers.length = 2 then (if r2 > size then (size : Int) else r2) - r1 + 1 else size - r1⟩
  else ⟨false, r1, size⟩

def fileRange (range : Option (List UInt8)) (size : Nat) : FileRange := rangeOf size (range.elim [] parseRangeHeader)

def contentRangeValue (range : FileRange) (size : Nat) : List UInt8 :=
  ascii ['b', 'y', 't', 'e', 's', ' '] ++ decimalInt range.r1 ++ MINUS :: decimalInt (range.r1 + range.cl - 1) ++
    SLASH :: decimal size

/-- The line `Content-Range` with its end, printed into an array of 64 bytes. -/
def contentRangeLine (range : FileRange) (size : Nat) : List UInt8 :=
  snprintf 64 (headerLine (contentRange, contentRangeValue range size) ++ crlf)

variable (config : HandlerConfig) (env : Surroundings) (r : HttpRequest)

def headMethod : List UInt8 := ascii ['H', 'E', 'A', 'D']

def rangeName : List UInt8 := ascii ['R', 'a', 'n', 'g', 'e']

def lastModified : List UInt8 := ascii ['L', 'a', 's', 't', '-', 'M', 'o', 'd', 'i', 'f', 'i', 'e', 'd']

def contentType : List UInt8 := ascii ['C', 'o', 'n', 't', 'e', 'n', 't', '-', 'T', 'y', 'p', 'e']

def acceptRanges : List UInt8 := ascii ['A', 'c', 'c', 'e', 'p', 't', '-', 'R', 'a', 'n', 'g', 'e', 's']

def fileHeaders (path : List UInt8) (file : FileInfo) (range : FileRange) : List (List UInt8 × List UInt8) :=
  [(ascii ['D', 'a', 't', 'e'], gmtTimeString env.now), (lastModified, gmtTimeString file.modificationTime),
    (ascii ['E', 't', 'a', 'g'], constructEtag file), (contentType, getMimeType config path),
    (contentLength, decimalInt range.cl), (connectionName, suggestConnectionHeader config false r),
    (acceptRanges, ascii ['b', 'y', 't', 'e', 's'])]

def partialContent : List UInt8 :=
  ascii ['P', 'a', 'r', 't', 'i', 'a', 'l', ' ', 'C', 'o', 'n', 't', 'e', 'n', 't']

/-- The reply of `handle_file_request`. -/
def handleFileRequest (fs : FileSystem) (path : List UInt8) (file : FileInfo) : HttpReply :=
  match openFile fs path with
  | none => sendHttpError config r 500 internalServerError
      (ascii ['f', 'o', 'p', 'e', 'n', '('] ++ path ++ ascii [')', ':', ' '] ++ env.strerror)
  | some content =>
    let range := fileRange (getHeader r rangeName) file.size
    { status := if range.partially then 206 else 200
      reason := if range.partially then partialContent else ok
      headers := fileHeaders config env r path file range
      rest := if range.partially then contentRangeLine range file.size else []
      body := if strcmp r.method headMethod ≠ 0 then sendFileData content range.r1 range.cl else [] }

/-! ### How much is sent -/

private theorem sendFrom_eq (fuel : Nat) : ∀ (content : List UInt8) (len : Nat), len ≤ fuel →
    sendFrom fuel content len = content.take len := by
  induction fuel with
  | zero =>
    intro content len hlen
    obtain rfl : len = 0 := by omega
    rfl
  | succ fuel ih =>
    intro content len hlen
    rw [sendFrom]
    split
    next hpos =>
      have hbuf : mgBufLen = 8192 := rfl
      have hread : (if mgBufLen > len then len else mgBufLen) = min mgBufLen len := by split <;> omega
      dsimp only
      rw [hread]
      generalize hm : min mgBufLen len = m
      split
      next hnil =>
        rcases List.take_eq_nil_iff.1 hnil with hzero | rfl
        · omega
        · rw [List.take_nil]
      next hne =>
        have hlength : (content.take m).length = min m content.length := List.length_take
        have hpos' := List.length_pos_iff.2 hne
        rw [ih _ _ (by omega), hlength]
        -- a short read is the last one
        by_cases hshort : content.length ≤ m
        · rw [Nat.min_eq_right hshort, List.drop_length, List.take_nil, List.append_nil, List.take_of_length_le hshort,
            List.take_of_length_le (by omega)]
        · rw [Nat.min_eq_left (by omega), ← List.take_add]
          congr 1
          omega
    next hzero =>
      obtain rfl : len = 0 := by omega
      rfl

private theorem sendFileData_eq (content : List UInt8) (offset len : Int) :
    sendFileData content offset len = (content.drop offset.toNat).take len.toNat := by
  unfold sendFileData
  dsimp only
  rw [sendFrom_eq _ _ _ (Nat.le_refl _)]
  congr 1
  by_cases hneg : offset < 0
  · rw [if_pos hneg, Int.toNat_of_nonpos (show offset ≤ 0 by omega)]
    rfl
  · rw [if_neg hneg]
    by_cases hbig : offset > content.length
    · rw [if_pos hbig, Int.toNat_natCast, List.drop_length, List.drop_of_length_le (by omega)]
    · rw [if_neg hbig]

/-- The numbers of a `Range` header for which as much is sent as is announced. -/
def RangeFits (size : Nat) : List Int → Prop
  | [a] => a ≤ size
  | [a, b] => a < 0 ∨ (b < 0 ∧ (a = 0 ∨ size = 0)) ∨ (0 ≤ b ∧ b < size ∧ a ≤ b + 1) ∨ (size ≤ b ∧ a = size + 1)
  | _ => True

private theorem length_sendFileData (content : List UInt8) (offset len : Int) :
    (sendFileData content offset len).length = min len.toNat (content.length - offset.toNat) := by
  rw [sendFileData_eq, List.length_take, List.length_drop]

private theorem rangeOf_one (size : Nat) (a : Int) :
    rangeOf size [a] = if a ≥ 0 then ⟨true, a, size - a⟩ else ⟨false, a, size⟩ := by
  unfold rangeOf
  simp

private theorem rangeOf_two (size : Nat) (a b : Int) :
    rangeOf size [a, b] = if a ≥ 0 ∧ b ≥ 0 then ⟨true, a, min b size - a + 1⟩ else ⟨false, a, size⟩ := by
  have hmin : (if b > size then (size : Int) else b) = min b size := by split <;> omega
  unfold rangeOf
  simp [hmin]

private theorem length_parseRangeHeader (header : List UInt8) : (parseRangeHeader header).length ≤ 2 :=
  (List.length_filterMap_le _ _).trans (length_sscanf_le rangeFormat header)

private theorem length_sent_iff (content : List UInt8) {numbers : List Int} (hlen : numbers.length ≤ 2) :
    ((sendFileData content (rangeOf content.length numbers).r1 (rangeOf content.length numbers).cl).length : Int) =
        (rangeOf content.length numbers).cl ↔ RangeFits content.length numbers := by
  rw [length_sendFileData]
  generalize content.length = size
  match numbers with
  | [] => simp [RangeFits, rangeOf]
  | [a] =>
    rw [rangeOf_one, RangeFits]
    by_cases ha : a ≥ 0
    · rw [if_pos ha]
      dsimp only
      omega
    · rw [if_neg ha]
      dsimp only
      omega
  | [a, b] =>
    rw [rangeOf_two, RangeFits]
    by_cases hab : a ≥ 0 ∧ b ≥ 0
    · rw [if_pos hab]
      dsimp only
      omega
    · rw [if_neg hab]
      dsimp only
      omega
  | _ :: _ :: _ :: _ => simp at hlen

/-! ### The head of a reply -/

/-- The types that the configuration adds make no trouble in a head. -/
def PlainMimeTypes (config : HandlerConfig) : Prop := ∀ list ∈ config.extraMimeTypes, CR ∉ list ∧ list.length ≤ 4000

private theorem mem_optionsFrom {fuel : Nat} {list val : List UInt8} (h : val ∈ optionsFrom fuel list) :
    val <:+: list := by
  induction fuel generalizing list with
  | zero => cases h
  | succ fuel ih =>
    by_cases hnil : list = []
    · rw [optionsFrom, nextOption, if_pos hnil] at h
      cases h
    · rw [optionsFrom, nextOption, if_neg hnil] at h
      rcases List.mem_cons.1 h with rfl | h
      · exact (List.takeWhile_prefix _).isInfix
      · exact (ih h).trans ((List.tail_suffix _).trans (List.dropWhile_suffix _)).isInfix

private theorem builtinMimeTypes_plain : ∀ e ∈ builtinMimeTypes, CR ∉ e.2 ∧ e.2.length ≤ 4000 := by decide +kernel

private theorem mgGetBuiltinMimeType_plain (path : List UInt8) :
    CR ∉ mgGetBuiltinMimeType path ∧ (mgGetBuiltinMimeType path).length ≤ 4000 := by
  unfold mgGetBuiltinMimeType
  cases hfind : builtinMimeTypes.find? fun e => path.length > e.1.length ∧ mgStrcasecmp (pathEnd path e.1) e.1 = 0 with
  | none => exact ⟨by decide, by decide⟩
  | some e => exact builtinMimeTypes_plain e (List.mem_of_find?_eq_some hfind)

variable {config env r} {fs : FileSystem} {path content : List UInt8} {time : Nat}

private theorem getMimeType_plain (h : PlainMimeTypes config) (path : List UInt8) :
    CR ∉ getMimeType config path ∧ (getMimeType config path).length ≤ 4000 := by
  unfold getMimeType
  split
  next v hfind =>
    have hmem := List.mem_of_find?_eq_some hfind
    cases hextra : config.extraMimeTypes with
    | none =>
      rw [hextra] at hmem
      cases hmem
    | some list =>
      obtain ⟨hcr, hlen⟩ := h list hextra
      rw [hextra] at hmem
      have hpart : (eqVal v).2 <:+: list :=
        ((List.tail_suffix _).trans (List.dropWhile_suffix _)).isInfix.trans (mem_optionsFrom hmem)
      exact ⟨fun hc => hcr (hpart.subset hc), hpart.length_le.trans hlen⟩
  next => exact mgGetBuiltinMimeType_plain path

private theorem suggestConnectionHeader_plain (mustClose : Bool) :
    CR ∉ suggestConnectionHeader config mustClose r ∧ (suggestConnectionHeader config mustClose r).length ≤ 10 := by
  unfold suggestConnectionHeader
  split <;> exact ⟨by decide, by decide⟩

private theorem hexChar_spec : ∀ d : Fin 16, (Nat.digitChar d).toUInt8 ≠ NUL ∧ (Nat.digitChar d).toUInt8 ≠ DOT ∧
    (Nat.digitChar d).toUInt8 ≠ CR ∧ tolower (Nat.digitChar d).toUInt8 = (Nat.digitChar d).toUInt8 := by
  decide

private theorem mem_hexText {n : Nat} {c : UInt8} (h : c ∈ hexText n) : c ≠ NUL ∧ c ≠ DOT ∧ c ≠ CR ∧ tolower c = c := by
  unfold hexText at h
  induction n using Nat.strongRecOn with
  | ind n ih =>
    by_cases hn : n < 16
    · rw [Nat.toDigits_of_lt_base hn, List.map_singleton, List.mem_singleton] at h
      rw [h]
      exact hexChar_spec ⟨n, hn⟩
    · rw [Nat.toDigits_of_base_le (by decide) (Nat.not_lt.1 hn), List.map_append, List.mem_append] at h
      rcases h with h | h
      · exact ih (n / 16) (by omega) h
      · rw [List.map_singleton, List.mem_singleton] at h
        rw [h]
        exact hexChar_spec ⟨n % 16, Nat.mod_lt n (by decide)⟩

private theorem constructEtag_plain {file : FileInfo} (hsize : file.size < 9223372036854775808)
    (htime : file.modificationTime < 9223372036854775808) :
    CR ∉ constructEtag file ∧ (constructEtag file).length ≤ 40 := by
  have hhex : (hexText file.modificationTime).length ≤ 16 := by
    rw [hexText, List.length_map]
    exact (Nat.length_toDigits_le_iff (by decide) (by decide)).2 (by omega)
  have hdecimal : (decimal file.size).length ≤ 19 := length_decimal_le (by decide) (by omega)
  unfold constructEtag
  constructor
  · simp only [List.mem_append, List.mem_cons, not_or]
    exact ⟨by decide, fun h => (mem_hexText h).2.2.1 rfl, by decide, not_mem_decimal (by decide) _, by decide,
      by decide⟩
  · simp only [List.length_append, List.length_cons, List.length_nil]
    omega

private theorem cr_not_mem_headerLine {name value : List UInt8} (hname : CR ∉ name) (hvalue : CR ∉ value) :
    CR ∉ headerLine (name, value) := by
  simp only [headerLine, List.mem_append, List.mem_cons, not_or]
  exact ⟨hname, by decide, by decide, hvalue⟩

/-- The headers are lines, and they are short. -/
private theorem fileHeaders_plain (hmime : PlainMimeTypes config) {file : FileInfo} {range : FileRange}
    (hsize : file.size < 9223372036854775808) (htime : file.modificationTime < 9223372036854775808)
    (hcl : range.cl.natAbs < 10 ^ 19) :
    (∀ l ∈ (fileHeaders config env r path file range).map headerLine, CR ∉ l) ∧
      (((fileHeaders config env r path file range).map headerLine).flatMap (· ++ crlf)).length ≤ 5000 := by
  obtain ⟨hnow, hnow40⟩ := gmtTimeString_line env.now_lt
  obtain ⟨hlast, hlast40⟩ := gmtTimeString_line htime
  obtain ⟨htag, htag40⟩ := constructEtag_plain hsize htime
  obtain ⟨htype, htype4000⟩ := getMimeType_plain hmime path
  obtain ⟨hconnection, hconnection10⟩ := @suggestConnectionHeader_plain config r false
  have hcl20 := length_decimalInt_le (by decide) hcl
  unfold fileHeaders
  constructor
  · simp only [List.map_cons, List.map_nil, List.forall_mem_cons]
    exact ⟨cr_not_mem_headerLine (by decide) hnow, cr_not_mem_headerLine (by decide) hlast,
      cr_not_mem_headerLine (by decide) htag, cr_not_mem_headerLine (by decide) htype,
      cr_not_mem_headerLine (by decide) (not_mem_decimalInt (by decide) (by decide) _),
      cr_not_mem_headerLine (by decide) hconnection, cr_not_mem_headerLine (by decide) (by decide), nofun⟩
  · simp only [List.map_cons, List.map_nil, List.flatMap_cons, List.flatMap_nil, headerLine, crlf, List.length_append,
      List.length_cons, List.length_nil, lastModified, contentType, contentLength, connectionName, acceptRanges, ascii]
    omega

/-- The array holds the whole line `Content-Range`. -/
def RangeLineFits (range : FileRange) (size : Nat) : Prop :=
  range.partially = true → (contentRangeValue range size).length ≤ 46

private theorem length_headerLine_contentRange (range : FileRange) (size : Nat) :
    (headerLine (contentRange, contentRangeValue range size)).length = 15 + (contentRangeValue range size).length := by
  simp only [headerLine, contentRange, ascii, List.map_cons, List.map_nil, List.length_append, List.length_cons,
    List.length_nil]
  omega

private theorem contentRangeLine_of_fits {range : FileRange} {size : Nat}
    (h : (contentRangeValue range size).length ≤ 46) :
    contentRangeLine range size = headerLine (contentRange, contentRangeValue range size) ++ crlf := by
  apply List.take_of_length_le
  rw [List.length_append, length_headerLine_contentRange]
  show _ + 2 ≤ 63
  omega

private theorem cr_not_mem_contentRange (range : FileRange) (size : Nat) :
    CR ∉ headerLine (contentRange, contentRangeValue range size) := by
  apply cr_not_mem_headerLine (by decide)
  simp only [contentRangeValue, List.mem_append, List.mem_cons, not_or]
  exact ⟨⟨⟨by decide, not_mem_decimalInt (by decide) (by decide) _⟩, by decide,
    not_mem_decimalInt (by decide) (by decide) _⟩, by decide, not_mem_decimal (by decide) _⟩

/-! ### How much is announced -/

private theorem handleFileRequest_file (hfile : fs path = some (.file content time))
    (hmethod : strcmp r.method headMethod ≠ 0) :
    let range := rangeOf content.length ((getHeader r rangeName).elim [] parseRangeHeader)
    handleFileRequest config env r fs path ⟨content.length, time, false⟩ =
      { status := if range.partially then 206 else 200
        reason := if range.partially then partialContent else ok
        headers := fileHeaders config env r path ⟨content.length, time, false⟩ range
        rest := if range.partially then contentRangeLine range content.length else []
        body := sendFileData content range.r1 range.cl } := by
  unfold handleFileRequest openFile
  rw [hfile]
  dsimp only
  rw [if_pos hmethod]
  rfl

/-- The status line is a line, and it is short. -/
private theorem statusLine_plain (reply : HttpReply) {b : Bool} (hstatus : reply.status = if b then 206 else 200)
    (hreason : reply.reason = if b then partialContent else ok) :
    CR ∉ reply.statusLine ∧ (reply.statusLine ++ crlf).length ≤ 30 ∧
      strtoll (reply.statusLine.drop httpVersion.length) = if b then 206 else 200 := by
  rw [HttpReply.statusLine, hstatus, hreason]
  cases b <;> exact ⟨by decide +kernel, by decide +kernel, by decide +kernel⟩

/-- The lines of the head, and the length of the head. -/
private theorem head_plain (hmime : PlainMimeTypes config) (htime : time < 9223372036854775808)
    (hsize : content.length < 9223372036854775808) {range : FileRange} (hcl : range.cl.natAbs < 10 ^ 19)
    {reply : HttpReply}
    (hstatus : reply.status = if range.partially then 206 else 200)
    (hreason : reply.reason = if range.partially then partialContent else ok)
    (hheaders : reply.headers = fileHeaders config env r path ⟨content.length, time, false⟩ range)
    (hrest : reply.rest = if range.partially then contentRangeLine range content.length else []) :
    (∀ l ∈ reply.lines, CR ∉ l) ∧ reply.head.length < mgBufLen := by
  obtain ⟨hline, hline30, -⟩ := statusLine_plain reply hstatus hreason
  obtain ⟨hlines, hlines5000⟩ :=
    @fileHeaders_plain config env r path hmime ⟨content.length, time, false⟩ range hsize htime hcl
  have hrest63 : reply.rest.length ≤ 63 := by
    rw [hrest]
    split
    next => exact (List.length_take_le _ _)
    next => exact Nat.zero_le _
  rw [HttpReply.head, HttpReply.lines, hheaders]
  refine ⟨List.forall_mem_cons.2 ⟨hline, hlines⟩, ?_⟩
  rw [List.flatMap_cons, List.length_append, List.length_append, List.length_append]
  show _ + _ + _ + 2 < 8192
  omega

/-- What the client reads is what the server has computed, if the array holds the line. -/
private theorem readReply_file (hmime : PlainMimeTypes config) (htime : time < 9223372036854775808)
    (hsize : content.length < 9223372036854775808) {range : FileRange} (hfits : RangeLineFits range content.length)
    (hlow : -9223372036854775808 ≤ range.cl) (hhigh : range.cl ≤ 9223372036854775807) {reply : HttpReply}
    (hstatus : reply.status = if range.partially then 206 else 200)
    (hreason : reply.reason = if range.partially then partialContent else ok)
    (hheaders : reply.headers = fileHeaders config env r path ⟨content.length, time, false⟩ range)
    (hrest : reply.rest = if range.partially then contentRangeLine range content.length else []) :
    readReply reply.bytes = some ⟨if range.partially then 206 else 200, range.cl, reply.body⟩ := by
  obtain ⟨hlines, hlen⟩ :=
    @head_plain config env r path content time hmime htime hsize range (by omega) reply hstatus hreason hheaders hrest
  obtain ⟨more, hmore, hrest⟩ : ∃ more : List (List UInt8), (∀ l ∈ more, l ≠ [] ∧ CR ∉ l) ∧
      reply.rest = more.flatMap (· ++ crlf) := by
    rw [hrest]
    split
    next hpart =>
      refine ⟨[headerLine (contentRange, contentRangeValue range content.length)], ?_, ?_⟩
      · exact List.forall_mem_singleton.2 ⟨List.cons_ne_nil _ _, cr_not_mem_contentRange range content.length⟩
      · rw [contentRangeLine_of_fits (hfits hpart), List.flatMap_singleton]
    next => exact ⟨[], nofun, rfl⟩
  have hfind : (reply.headers.map headerLine ++ more).find? contentLengthField.isPrefixOf =
      some (contentLengthField ++ decimalInt range.cl) := by
    rw [hheaders]
    rfl
  obtain ⟨-, -, hnumber⟩ := statusLine_plain reply hstatus hreason
  have hread := HttpReply.readBlock_bytes hrest hmore hlines hlen
  rw [HttpReply.lines, List.cons_append] at hread
  unfold readReply
  rw [hread]
  dsimp only
  rw [hfind, Option.map_some, List.drop_left, strtoll_decimalInt hlow hhigh, hnumber]

private theorem parseRangeHeader_bounds {header : List UInt8} {n : Int} (h : n ∈ parseRangeHeader header) :
    -9223372036854775808 ≤ n ∧ n ≤ 9223372036854775807 := by
  obtain ⟨v, hv, hn⟩ := List.mem_filterMap.1 h
  cases v with
  | number m =>
    cases hn
    exact sscanf_bounds hv
  | word w => cases hn

private theorem rangeOf_bounds {size : Nat} (hsize : size < 9223372036854775807) {numbers : List Int}
    (hnumbers : ∀ n ∈ numbers, -9223372036854775808 ≤ n ∧ n ≤ 9223372036854775807) (hlen : numbers.length ≤ 2) :
    -9223372036854775808 ≤ (rangeOf size numbers).cl ∧ (rangeOf size numbers).cl ≤ 9223372036854775807 := by
  match numbers with
  | [] =>
    show -9223372036854775808 ≤ (size : Int) ∧ (size : Int) ≤ 9223372036854775807
    omega
  | [a] =>
    have ha := hnumbers a List.mem_cons_self
    rw [rangeOf_one]
    split <;> dsimp only <;> omega
  | [a, b] =>
    have ha := hnumbers a List.mem_cons_self
    rw [rangeOf_two]
    split <;> dsimp only <;> omega
  | _ :: _ :: _ :: _ => simp at hlen

private theorem range_numbers (range : Option (List UInt8)) : (range.elim [] parseRangeHeader).length ≤ 2 ∧
    ∀ n ∈ range.elim [] parseRangeHeader, -9223372036854775808 ≤ n ∧ n ≤ 9223372036854775807 := by
  cases range with
  | none => exact ⟨Nat.zero_le 2, nofun⟩
  | some header => exact ⟨length_parseRangeHeader header, fun n => parseRangeHeader_bounds⟩

/-- For which `Range` headers a client finds as many bytes behind the head as the head announces.  If the range goes to
the end of the file or beyond, one byte too many is announced. -/
theorem announced_iff (hmime : PlainMimeTypes config) (htime : time < 9223372036854775808)
    (hsize : content.length < 9223372036854775807) (hfile : fs path = some (.file content time))
    (hmethod : strcmp r.method headMethod ≠ 0)
    (hfits : RangeLineFits (fileRange (getHeader r rangeName) content.length) content.length) :
    (∃ received, readReply (handleFileRequest config env r fs path ⟨content.length, time, false⟩).bytes =
        some received ∧ received.announced = received.body.length) ↔
      RangeFits content.length ((getHeader r rangeName).elim [] parseRangeHeader) := by
  obtain ⟨hcount, hnumbers⟩ := range_numbers (getHeader r rangeName)
  have hreply := @handleFileRequest_file config env r fs path content time hfile hmethod
  unfold fileRange at hfits
  generalize (getHeader r rangeName).elim [] parseRangeHeader = numbers at hcount hnumbers hreply hfits ⊢
  obtain ⟨hlow, hhigh⟩ := rangeOf_bounds hsize hnumbers hcount
  dsimp only at hreply
  rw [hreply, @readReply_file config env r path content time hmime htime (by omega) _ hfits hlow hhigh _ rfl
    rfl rfl rfl, ← length_sent_iff content hcount]
  constructor
  · rintro ⟨received, heq, hlen⟩
    cases heq
    exact hlen.symm
  · intro h
    exact ⟨_, rfl, h.symm⟩

def getRequest (headers : List (List UInt8 × List UInt8)) : HttpRequest :=
  ⟨ascii ['G', 'E', 'T'], ascii ['/', 'x'], ascii ['1', '.', '1'], headers⟩

/-- The request `bytes=0-9` for a file of three bytes. -/
theorem announced_iff_short :
    ¬ ∃ received, readReply (handleFileRequest (wwwConfig none) wwwSurroundings
        (getRequest [(rangeName, ascii ['b', 'y', 't', 'e', 's', '=', '0', '-', '9'])])
        (fun _ => some (.file (ascii ['a', 'b', 'c']) 1)) (ascii ['x']) ⟨3, 1, false⟩).bytes = some received ∧
      received.announced = received.body.length := by
  have hiff := @announced_iff (wwwConfig none) wwwSurroundings
    (getRequest [(rangeName, ascii ['b', 'y', 't', 'e', 's', '=', '0', '-', '9'])])
    (fun _ => some (.file (ascii ['a', 'b', 'c']) 1)) (ascii ['x']) (ascii ['a', 'b', 'c']) 1 nofun (by decide)
    (by decide) rfl
    (by decide) (fun _ => by decide +kernel)
  have hnumbers : (getHeader (getRequest [(rangeName, ascii ['b', 'y', 't', 'e', 's', '=', '0', '-', '9'])])
      rangeName).elim [] parseRangeHeader = [0, 9] := by decide +kernel
  rw [hnumbers] at hiff
  exact mt hiff.1 (by unfold RangeFits; decide)

private theorem not_mem_take_append {c : UInt8} {s t : List UInt8} {n : Nat} (hs : c ∉ s) (hn : n ≤ s.length) :
    c ∉ (s ++ t).take n := by
  rw [List.take_append_of_le_length hn]
  exact fun h => hs (List.mem_of_mem_take h)

/-- The line without its LF. -/
private theorem contentRangeLine_cut {range : FileRange} {size : Nat} (h : 46 < (contentRangeValue range size).length) :
    contentRangeLine range size ≠ [] ∧ LF ∉ contentRangeLine range size := by
  have hlen := length_headerLine_contentRange range size
  have hlf : LF ∉ headerLine (contentRange, contentRangeValue range size) := by
    simp only [headerLine, contentRangeValue, List.mem_append, List.mem_cons, not_or]
    exact ⟨by decide, by decide, by decide, ⟨⟨by decide, not_mem_decimalInt (by decide) (by decide) _⟩, by decide,
      not_mem_decimalInt (by decide) (by decide) _⟩, by decide, not_mem_decimal (by decide) _⟩
  have hsplit : headerLine (contentRange, contentRangeValue range size) ++ crlf =
      (headerLine (contentRange, contentRangeValue range size) ++ [CR]) ++ [LF] := by
    rw [List.append_assoc]
    rfl
  unfold contentRangeLine snprintf
  rw [hsplit]
  refine ⟨List.cons_ne_nil _ _, not_mem_take_append ?_ ?_⟩
  · rw [List.mem_append, not_or]
    exact ⟨hlf, by decide⟩
  · rw [List.length_append, hlen]
    show 63 ≤ _ + 1
    omega

/-- If the array does not hold the line, the head of the reply has no end: a client looks for it in the file. -/
theorem readBlock_cut (hmime : PlainMimeTypes config) (htime : time < 9223372036854775808)
    (hsize : content.length < 9223372036854775807) (hfile : fs path = some (.file content time))
    (hmethod : strcmp r.method headMethod ≠ 0)
    (hcut : ¬ RangeLineFits (fileRange (getHeader r rangeName) content.length) content.length) (hcr : CR ∉ content) :
    readBlock (handleFileRequest config env r fs path ⟨content.length, time, false⟩).bytes = none := by
  obtain ⟨hcount, hnumbers⟩ := range_numbers (getHeader r rangeName)
  have hreply := @handleFileRequest_file config env r fs path content time hfile hmethod
  unfold fileRange RangeLineFits at hcut
  generalize (getHeader r rangeName).elim [] parseRangeHeader = numbers at hcount hnumbers hreply hcut
  obtain ⟨hlow, hhigh⟩ := rangeOf_bounds hsize hnumbers hcount
  obtain ⟨hpart, hlong⟩ := Classical.not_imp.1 hcut
  dsimp only at hreply
  rw [hreply]
  have hplain := @head_plain config env r path content time hmime htime (by omega)
    (rangeOf content.length numbers) (by omega)
  obtain ⟨hne, hlf⟩ := contentRangeLine_cut (Nat.not_le.1 hlong)
  apply HttpReply.readBlock_bytes_cut
  · dsimp only
    rwa [if_pos hpart]
  · dsimp only
    rwa [if_pos hpart]
  · exact (hplain rfl rfl rfl rfl).1
  · exact (hplain rfl rfl rfl rfl).2
  · dsimp only
    rw [sendFileData_eq]
    exact fun h => hcr (List.mem_of_mem_drop (List.mem_of_mem_take h))

/-- The last ten bytes of a file of 10¹³ bytes. -/
theorem readBlock_cut_large :
    readBlock (handleFileRequest (wwwConfig none) wwwSurroundings
      (getRequest [(rangeName, ascii "bytes=9999999999990-".toList)])
      (fun _ => some (.file (List.replicate 10000000000000 65) 1))
      (ascii ['x']) ⟨10000000000000, 1, false⟩).bytes = none := by
  have hlength : (List.replicate 10000000000000 (65 : UInt8)).length = 10000000000000 := List.length_replicate
  have hcut := @readBlock_cut (wwwConfig none) wwwSurroundings
    (getRequest [(rangeName, ascii "bytes=9999999999990-".toList)])
    (fun _ => some (.file (List.replicate 10000000000000 65) 1)) (ascii ['x'])
    (List.replicate 10000000000000 65) 1 nofun
    (by decide)
  rw [hlength] at hcut
  refine hcut (by decide) rfl (by decide) ?_ ?_
  · exact fun h => absurd (h (by decide +kernel)) (by decide +kernel)
  · exact fun h => absurd (List.eq_of_mem_replicate h) (by decide)

/-! ### A file in parts -/

/-- The header for the bytes from `first` to `last`. -/
def rangeText (first last : Nat) : List UInt8 :=
  ascii ['b', 'y', 't', 'e', 's', '='] ++ (decimal first ++ MINUS :: decimal last)

private theorem parseRangeHeader_rangeText {first last : Nat} (hfirst : first ≤ 9223372036854775807)
    (hlast : last ≤ 9223372036854775807) : parseRangeHeader (rangeText first last) = [(first : Int), (last : Int)] := by
  have hsecond : scanNumber (decimal last) = some ((last : Int), []) := by
    have := @scanNumber_decimal [] last hlast nofun
    rwa [List.append_nil] at this
  rw [parseRangeHeader, rangeText, rangeFormat, sscanf_literals,
    sscanf_number (scanNumber_decimal hfirst fun c hc => by cases hc; rfl), sscanf_literal, sscanf_number hsecond]
  rfl

/-- The headers for pieces of a file that follow each other from `offset` on. -/
def rangesFrom : Nat → List (List UInt8) → List (List UInt8)
  | _, [] => []
  | offset, piece :: pieces => rangeText offset (offset + piece.length - 1) :: rangesFrom (offset + piece.length) pieces

private theorem decimalInt_natCast (n : Nat) : decimalInt n = decimal n := by
  rw [decimalInt, if_neg (by omega), Int.natAbs_natCast]

/-- A range within a file of at most 10¹² bytes fits the array. -/
private theorem rangeLineFits {first count size : Nat} (hpos : 0 < count) (hle : first + count ≤ size)
    (hsize : size ≤ 10 ^ 12) : RangeLineFits ⟨true, first, count⟩ size := by
  intro _
  have hlast : (first : Int) + count - 1 = ((first + count - 1 : Nat) : Int) := by omega
  have h1 : (decimal first).length ≤ 12 := length_decimal_le (by decide) (by omega)
  have h2 : (decimal (first + count - 1)).length ≤ 12 := length_decimal_le (by decide) (by omega)
  have h3 : (decimal size).length ≤ 13 := length_decimal_le (by decide) (by omega)
  unfold contentRangeValue
  dsimp only
  rw [hlast, decimalInt_natCast, decimalInt_natCast]
  simp only [List.length_append, List.length_cons, ascii, List.map_cons, List.map_nil, List.length_nil]
  omega

/-- One piece: it is sent, with its length. -/
private theorem readReply_piece (hmime : PlainMimeTypes config) (htime : time < 9223372036854775808)
    {pre piece post : List UInt8} (hfile : fs path = some (.file (pre ++ (piece ++ post)) time))
    (hmethod : strcmp r.method headMethod ≠ 0) (hne : piece ≠ []) (hsize : (pre ++ (piece ++ post)).length ≤ 10 ^ 12)
    (hrange : getHeader r rangeName = some (rangeText pre.length (pre.length + piece.length - 1))) :
    readReply (handleFileRequest config env r fs path ⟨(pre ++ (piece ++ post)).length, time, false⟩).bytes =
      some ⟨206, piece.length, piece⟩ := by
  have hpos := List.length_pos_iff.2 hne
  have hlength : (pre ++ (piece ++ post)).length = pre.length + (piece.length + post.length) := by
    rw [List.length_append, List.length_append]
  have hnumbers : (getHeader r rangeName).elim [] parseRangeHeader =
      [(pre.length : Int), ((pre.length + piece.length - 1 : Nat) : Int)] := by
    rw [hrange]
    exact parseRangeHeader_rangeText (by omega) (by omega)
  have hrangeOf : rangeOf (pre ++ (piece ++ post)).length ((getHeader r rangeName).elim [] parseRangeHeader) =
      ⟨true, pre.length, piece.length⟩ := by
    rw [hnumbers, rangeOf_two, if_pos ⟨by omega, by omega⟩, FileRange.mk.injEq]
    exact ⟨rfl, rfl, by omega⟩
  have hreply := @handleFileRequest_file config env r fs path _ time hfile hmethod
  dsimp only at hreply
  rw [hrangeOf] at hreply
  rw [hreply, @readReply_file config env r path (pre ++ (piece ++ post)) time hmime htime (by omega)
    ⟨true, pre.length, piece.length⟩
    (rangeLineFits hpos (by omega) hsize) (by dsimp only; omega) (by dsimp only; omega) _ rfl rfl rfl rfl]
  dsimp only
  rw [sendFileData_eq, Int.toNat_natCast, Int.toNat_natCast, List.drop_left, List.take_left]
  rfl

/-- A client that asks for a file of at most 10¹² bytes piece by piece gets the pieces, each with the status 206 and its
length, however it cuts the file. -/
theorem ranges_reassemble (hmime : PlainMimeTypes config) (htime : time < 9223372036854775808)
    {pieces : List (List UInt8)} (hne : ∀ piece ∈ pieces, piece ≠ []) (hsize : pieces.flatten.length ≤ 10 ^ 12)
    (hfile : fs path = some (.file pieces.flatten time)) {requests : List HttpRequest}
    (hrequests : List.Forall₂ (fun r range => strcmp r.method headMethod ≠ 0 ∧
      getHeader r rangeName = some range) requests (rangesFrom 0 pieces)) :
    (requests.map fun r => readReply (handleFileRequest config env r fs path
      ⟨pieces.flatten.length, time, false⟩).bytes) = pieces.map fun piece => some ⟨206, piece.length, piece⟩ := by
  have hfrom : ∀ (pre : List UInt8) (rest : List (List UInt8)) (requests : List HttpRequest),
      (∀ piece ∈ rest, piece ≠ []) → pieces.flatten = pre ++ rest.flatten →
      List.Forall₂ (fun r range => strcmp r.method headMethod ≠ 0 ∧ getHeader r rangeName = some range) requests
        (rangesFrom pre.length rest) →
      (requests.map fun r => readReply (handleFileRequest config env r fs path
        ⟨pieces.flatten.length, time, false⟩).bytes) = rest.map fun piece => some ⟨206, piece.length, piece⟩ := by
    intro pre rest
    induction rest generalizing pre with
    | nil =>
      intro requests _ _ hreq
      cases hreq
      rfl
    | cons piece rest ih =>
      intro requests hrest hsplit hreq
      rw [List.forall_mem_cons] at hrest
      rw [List.flatten_cons] at hsplit
      rw [rangesFrom] at hreq
      cases hreq with
      | cons hr hreq =>
        rename_i r requests
        have hpiece := @readReply_piece config env r fs path time hmime htime pre piece rest.flatten
          (hsplit ▸ hfile) hr.1 hrest.1 (hsplit ▸ hsize) hr.2
        rw [← hsplit] at hpiece
        have htail := ih (pre ++ piece) requests hrest.2 (by rw [hsplit, List.append_assoc])
          (by rw [List.length_append]; exact hreq)
        rw [List.map_cons, List.map_cons, hpiece, htail]
  exact hfrom [] pieces requests hne rfl hrequests

theorem ranges_reassemble_two :
    ([rangeText 0 0, rangeText 1 2].map fun range => readReply (handleFileRequest (wwwConfig none) wwwSurroundings
      (getRequest [(rangeName, range)]) (fun _ => some (.file (ascii ['a', 'b', 'c']) 1))
      (ascii ['x']) ⟨3, 1, false⟩).bytes) =
      [some ⟨206, 1, ascii ['a']⟩, some ⟨206, 2, ascii ['b', 'c']⟩] :=
  @ranges_reassemble (wwwConfig none) wwwSurroundings (fun _ => some (.file (ascii ['a', 'b', 'c']) 1))
    (ascii ['x']) 1 nofun (by decide) [ascii ['a'], ascii ['b', 'c']]
    (List.forall_mem_cons.2 ⟨by decide, List.forall_mem_singleton.2 (by decide)⟩) (by decide) rfl
    [getRequest [(rangeName, rangeText 0 0)], getRequest [(rangeName, rangeText 1 2)]]
    (.cons ⟨by decide, rfl⟩ (.cons ⟨by decide, rfl⟩ .nil))

/-! ### Asking again -/

private theorem hexChar_fin : ∀ a b : Fin 16, (Nat.digitChar a).toUInt8 = (Nat.digitChar b).toUInt8 → a = b := by decide

private theorem hexText_inj {m n : Nat} (h : hexText m = hexText n) : m = n := by
  unfold hexText at h
  induction m using Nat.strongRecOn generalizing n with
  | ind m ih =>
    have hchar : ∀ {a b : Nat}, a < 16 → b < 16 → (Nat.digitChar a).toUInt8 = (Nat.digitChar b).toUInt8 → a = b :=
      fun ha hb h => congrArg Fin.val (hexChar_fin ⟨_, ha⟩ ⟨_, hb⟩ h)
    have hlen : ∀ {a : Nat}, 16 ≤ a → 2 ≤ ((Nat.toDigits 16 a).map Char.toUInt8).length := fun {a} ha => by
      rw [Nat.toDigits_of_base_le (by decide) ha, List.length_map, List.length_append]
      exact Nat.succ_le_succ Nat.length_toDigits_pos
    by_cases hm : m < 16
    · by_cases hn : n < 16
      · rw [Nat.toDigits_of_lt_base hm, Nat.toDigits_of_lt_base hn] at h
        exact hchar hm hn (List.cons.inj h).1
      · have := hlen (Nat.not_lt.1 hn)
        rw [← h, Nat.toDigits_of_lt_base hm] at this
        simp at this
    · by_cases hn : n < 16
      · have := hlen (Nat.not_lt.1 hm)
        rw [h, Nat.toDigits_of_lt_base hn] at this
        simp at this
      · rw [Nat.toDigits_of_base_le (by decide) (Nat.not_lt.1 hm),
          Nat.toDigits_of_base_le (by decide) (Nat.not_lt.1 hn), List.map_append, List.map_append] at h
        obtain ⟨hfirst, hlast⟩ := List.append_inj' h rfl
        have hdiv := ih (m / 16) (by omega) hfirst
        have hmod := hchar (Nat.mod_lt m (by decide)) (Nat.mod_lt n (by decide)) (List.cons.inj hlast).1
        omega

private theorem mem_constructEtag {file : FileInfo} {c : UInt8} (h : c ∈ constructEtag file) :
    c ≠ NUL ∧ tolower c = c := by
  have hdigit : ∀ {d : UInt8}, isdigit d = true → d ≠ NUL ∧ tolower d = d := by
    intro d hd
    simp only [isdigit, Bool.and_eq_true, decide_eq_true_eq, UInt8.le_iff_toNat_le] at hd
    have h48 : (48 : UInt8).toNat = 48 := rfl
    have h57 : (57 : UInt8).toNat = 57 := rfl
    have h65 : (65 : UInt8).toNat = 65 := rfl
    refine ⟨?_, if_neg ?_⟩
    · rintro rfl
      exact absurd hd.1 (by decide)
    · simp only [Bool.and_eq_true, decide_eq_true_eq, UInt8.le_iff_toNat_le]
      omega
  simp only [constructEtag, List.mem_cons, List.mem_append, List.not_mem_nil, or_false] at h
  rcases h with rfl | h | rfl | h | rfl
  · exact ⟨by decide, by decide⟩
  · exact ⟨(mem_hexText h).1, (mem_hexText h).2.2.2⟩
  · exact ⟨by decide, by decide⟩
  · exact hdigit ((decimal_spec _).2.1 c h)
  · exact ⟨by decide, by decide⟩

/-- Equal tags are of the same time. -/
private theorem time_of_constructEtag {file file' : FileInfo}
    (h : mgStrcasecmp (constructEtag file) (constructEtag file') = 0) :
    file.modificationTime = file'.modificationTime := by
  have hlower : ∀ f : FileInfo, (constructEtag f).map tolower = constructEtag f := fun f =>
    (List.map_congr_left fun c hc => (mem_constructEtag hc).2).trans (List.map_id _)
  rw [mgStrcasecmp_eq_zero_iff (fun hnul => (mem_constructEtag hnul).1 rfl) fun hnul =>
    (mem_constructEtag hnul).1 rfl, hlower, hlower] at h
  have htail := (List.cons.inj h).2
  have hdot : ∀ n, DOT ∉ hexText n := fun n hmem => (mem_hexText hmem).2.1 rfl
  have htake := congrArg (List.takeWhile (· != DOT)) htail
  rw [(span_ne (hdot _) _).1, (span_ne (hdot _) _).1] at htake
  exact hexText_inj htake

/-- A client has the version of the time `m`, and asks with its date, and perhaps with its tag.  Its copy is declared to
be good unless the file is newer than the date that `parse_date_string` reads; the tag does not matter. -/
theorem isNotModified_iff {m size : Nat} (hyear : 1970 < (gmtime m).year) (hm : m + leapError m < 2147483648)
    (hims : getHeader r ifModifiedSince = some (gmtTimeString m))
    (hinm : ∀ tag ∈ getHeader r ifNoneMatch, tag = constructEtag ⟨size, m, false⟩) (file : FileInfo) :
    isNotModified r file = true ↔ file.modificationTime ≤ m + leapError m := by
  unfold isNotModified
  rw [hims, Bool.or_eq_true, Option.any_some, decide_eq_true_eq, parseDateString_gmtTimeString hyear hm]
  constructor
  · rintro (htag | hdate)
    · cases hheader : getHeader r ifNoneMatch with
      | none =>
        rw [hheader] at htag
        cases htag
      | some tag =>
        rw [hheader, Option.any_some, decide_eq_true_eq, hinm tag hheader] at htag
        have := time_of_constructEtag htag
        dsimp only at this
        omega
    · omega
  · intro hle
    right
    omega

theorem isNotModified_iff_leap :
    let r := getRequest [(ifModifiedSince, gmtTimeString 1705276800),
      (ifNoneMatch, constructEtag ⟨3, 1705276800, false⟩)]
    isNotModified r ⟨4, 1705276900, false⟩ = true ∧ isNotModified r ⟨4, 1705363201, false⟩ = false := by
  have hiff := @isNotModified_iff
    (getRequest [(ifModifiedSince, gmtTimeString 1705276800), (ifNoneMatch, constructEtag ⟨3, 1705276800, false⟩)])
      1705276800 3
    (by decide +kernel) (by decide +kernel) rfl (fun tag h => (Option.some.inj h).symm)
  have herror : leapError 1705276800 = 86400 := by decide +kernel
  rw [herror] at hiff
  exact ⟨(hiff _).2 (by decide), Bool.eq_false_iff.2 fun h => absurd ((hiff _).1 h) (by decide)⟩

end Tinyweb
