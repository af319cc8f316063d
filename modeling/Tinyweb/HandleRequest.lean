import Mathlib.Data.List.DropRight
import Tinyweb.Authorization
import Tinyweb.FileReply
import Tinyweb.Handshake

/-!
# The branches of `handle_request` (`mongoose.c`)

`dispatch` prepares the URI of a request, looks for its file and decides what is done.  No `begin_request` handler is
installed, there is a document root and no port redirects to another one.  The test for a slash at the end of the URI of
a directory reads the byte at the place where the URI ended before it was decoded and cleaned.

A file is served only if it exists, lies under the document root, is no password file and the client is in the password
file that is responsible for it (`served_file`).  Because of the test for a slash, the URI of a directory with two
slashes at its end is redirected to itself (`redirect_to_itself`).
-/

namespace Tinyweb

open Clib Http

/-! ### Index files -/

/-- The first index file that exists in the directory.  Its name is not compared with the patterns of hidden files. -/
def substituteIndexFile (config : HandlerConfig) (fs : FileSystem) (path : List UInt8) :
    Option (List UInt8 × FileInfo) :=
  let dir := path.rdropWhile (· == SLASH)
  (optionValues (some config.indexFiles)).findSome? fun name =>
    -- entries that could overflow the array are ignored
    if name.length > pathMax - (dir.length + 2) then none
    else (mgStat fs (dir ++ SLASH :: name)).map fun file => (dir ++ SLASH :: name, file)

/-! ### The decision -/

def getMethod : List UInt8 := ascii ['G', 'E', 'T']

def optionsMethod : List UInt8 := ascii ['O', 'P', 'T', 'I', 'O', 'N', 'S']

def putMethod : List UInt8 := ascii ['P', 'U', 'T']

def deleteMethod : List UInt8 := ascii ['D', 'E', 'L', 'E', 'T', 'E']

def propfindMethod : List UInt8 := ascii ['P', 'R', 'O', 'P', 'F', 'I', 'N', 'D']

def isPutOrDeleteRequest (r : HttpRequest) : Bool := strcmp r.method putMethod = 0 || strcmp r.method deleteMethod = 0

/-- The text of an array, which ends at the first NUL. -/
def cstrOf (s : List UInt8) : CStr := ⟨textOf s, not_mem_takeWhile_ne NUL s⟩

/-- What the WebSocket code reads of a request. -/
def requestInfo (uri : List UInt8) (r : HttpRequest) : RequestInfo :=
  ⟨cstrOf uri, r.headers.map fun h => (cstrOf h.1, cstrOf h.2)⟩

/-- What is done with a request: the function that is called for it, with its arguments. -/
inductive Action where
  | unauthorized
  | websocket
  | options
  | put (path : List UInt8)
  | delete (path : List UInt8)
  | notFound
  | redirect (location : List UInt8)
  | propfind (path : List UInt8) (file : FileInfo)
  | listing (dir : List UInt8)
  | listingDenied
  | notImplemented
  | cgi (path : List UInt8)
  | ssi (path : List UInt8)
  | notModified
  | file (path : List UInt8) (file : FileInfo)
  deriving DecidableEq, Repr

/-- The last branches, for a path that is not that of a directory any more. -/
def serveFile (config : HandlerConfig) (r : HttpRequest) (path : List UInt8) (file : FileInfo) : Action :=
  if matchPrefix config.cgiPattern path > 0 then
    if strcmp r.method (ascii ['P', 'O', 'S', 'T']) ≠ 0 ∧ strcmp r.method headMethod ≠ 0 ∧
        strcmp r.method getMethod ≠ 0 then .notImplemented
    else .cgi path
  else if matchPrefix config.ssiPattern path > 0 then .ssi path
  else if isNotModified r file then .notModified
  else .file path file

/-- The branches for a file that is there; `uri` is the URI after both passes and `last` the byte that is taken for its
last one. -/
def routeFile (config : HandlerConfig) (fs : FileSystem) (r : HttpRequest) (uri : List UInt8) (last : Option UInt8)
    (path : List UInt8) (file : FileInfo) : Outcome Action :=
  if mustHideFile config.hideFilesPatterns path then .ret .notFound
  else if file.isDirectory then
    match last with
    | none => .fault
    | some c =>
      if c ≠ SLASH then .ret (.redirect (uri ++ [SLASH]))
      else if strcmp r.method propfindMethod = 0 then .ret (.propfind path file)
      else
        match substituteIndexFile config fs path with
        | some (path, file) => .ret (serveFile config r path file)
        | none =>
          if mgStrcasecmp config.enableDirectoryListing yes = 0 then .ret (.listing (path.rdropWhile (· == SLASH)))
          else .ret .listingDenied
  else if strcmp r.method propfindMethod = 0 then .ret (.propfind path file)
  else .ret (serveFile config r path file)

/-- The branches in their order, with the path and the file that the URI leads to. -/
def routeName (config : HandlerConfig) (fs : FileSystem) (r : HttpRequest) (uri : List UInt8) (last : Option UInt8)
    (name : FileName) : Outcome Action :=
  if !isPutOrDeleteRequest r && !checkAuthorization config fs r uri name.path then .ret .unauthorized
  else if isWebsocketRequest (requestInfo uri r) then .ret .websocket
  else if strcmp r.method optionsMethod = 0 then .ret .options
  else if isPutOrDeleteRequest r && (config.putDeleteAuthFile.isNone || !isAuthorizedForPut config fs r) then
    .ret .unauthorized
  else if strcmp r.method putMethod = 0 then .ret (.put name.path)
  else if strcmp r.method deleteMethod = 0 then .ret (.delete name.path)
  else
    match name.file with
    | none => .ret .notFound
    | some file => routeFile config fs r uri last name.path file

def route (config : HandlerConfig) (fs : FileSystem) (r : HttpRequest) (uri : List UInt8) (last : Option UInt8) :
    Outcome Action :=
  routeName config fs r uri last (convertUriToFileName config fs uri)

/-- The URI without the query. -/
def target (r : HttpRequest) : List UInt8 := r.uri.takeWhile (· != QUESTION)

/-- `ri->uri[uri_len - 1]`, with the length from before the passes. -/
def lastByte {len : Nat} (uri : Mem (len + 1)) : Option UInt8 := if len = 0 then none else uri.load (len - 1)

def dispatch (config : HandlerConfig) (fs : FileSystem) (r : HttpRequest) : Outcome Action := do
  let uri ← prepareUri (terminated (target r))
  route config fs r (textOf uri.cells) (lastByte uri)

/-! ### The URI after both passes -/

/-- The byte that is taken for the last one of the URI `u`. -/
def staleByte (u : List UInt8) : Option UInt8 :=
  lastByte (((terminated u).overlay (percentDecode u ++ [NUL])).overlay (cleanUri u ++ [NUL]))

variable {config : HandlerConfig} {fs : FileSystem} {r : HttpRequest} {uri path : List UInt8}

theorem dispatch_eq : dispatch config fs r = route config fs r (cleanUri (target r)) (staleByte (target r)) := by
  have hlen := (length_cleanUri_le (target r)).trans (length_percentDecode_le (target r))
  have htext : textOf (((terminated (target r)).overlay (percentDecode (target r) ++ [NUL])).overlay
      (cleanUri (target r) ++ [NUL])).cells = cleanUri (target r) :=
    textOf_overlay (nul_not_mem_cleanUri (target r)) (by omega) _
  rw [dispatch, prepareUri_eq]
  show route config fs r (textOf _) _ = _
  rw [htext]
  rfl

/-- A `GET` request that passes the check comes to the files. -/
theorem routeName_get {last : Option UInt8} {name : FileName} {file : FileInfo} (hmethod : r.method = getMethod)
    (hauth : checkAuthorization config fs r uri name.path = true) (hws : isWebsocketRequest (requestInfo uri r) = false)
    (hfile : name.file = some file) :
    routeName config fs r uri last name = routeFile config fs r uri last name.path file := by
  have hother : isPutOrDeleteRequest r = false ∧ strcmp r.method optionsMethod ≠ 0 ∧ strcmp r.method putMethod ≠ 0 ∧
      strcmp r.method deleteMethod ≠ 0 := by
    rw [isPutOrDeleteRequest, hmethod]
    decide
  obtain ⟨hneither, hoptions, hput, hdelete⟩ := hother
  rw [routeName, hneither, hauth, hws]
  simp only [Bool.not_false, Bool.not_true, Bool.and_false, Bool.false_and, Bool.false_eq_true, if_false,
    if_neg hoptions, if_neg hput, if_neg hdelete, hfile]

/-- If one character is dropped, the terminator is taken for the last byte. -/
private theorem staleByte_of_dropped {u : List UInt8} (h : (cleanUri u).length + 1 = u.length) :
    staleByte u = some NUL := by
  have hload := Mem.getElem?_overlay ((terminated u).overlay (percentDecode u ++ [NUL])) (w := cleanUri u ++ [NUL])
    (by simp; omega) (u.length - 1)
  rw [staleByte, lastByte, if_neg (by omega), Mem.load, hload, if_pos (by simp; omega), ← h, Nat.add_sub_cancel,
    List.getElem?_append_right (Nat.le_refl _), Nat.sub_self]
  rfl

/-- The URI of a directory that ends with two slashes: the client is sent to the same URI again. -/
theorem redirect_to_itself {x : List UInt8} (hx : IsCleanText x) (hlast : x.getLast? = some SLASH)
    (hplain : PERCENT ∉ x ∧ NUL ∉ x ∧ QUESTION ∉ x) (huri : r.uri = x ++ [SLASH]) (hmethod : r.method = getMethod)
    (hws : isWebsocketRequest (requestInfo x r) = false)
    (hauth : checkAuthorization config fs r x (convertUriToFileName config fs x).path = true)
    (hvisible : mustHideFile config.hideFilesPatterns (convertUriToFileName config fs x).path = false) {file : FileInfo}
    (hfile : (convertUriToFileName config fs x).file = some file) (hdir : file.isDirectory = true) :
    dispatch config fs r = .ret (.redirect r.uri) := by
  obtain ⟨hpercent, hnul, hquestion⟩ := hplain
  have hnot : ∀ {c : UInt8}, c ∉ x → c ≠ SLASH → c ∉ x ++ [SLASH] := fun hc hne h =>
    (List.mem_append.1 h).elim hc fun h => hne (List.mem_singleton.1 h)
  have htarget : target r = x ++ [SLASH] := by
    rw [target, huri]
    exact (span_ne_self (hnot hquestion (by decide))).1
  have hclean : cleanUri (x ++ [SLASH]) = x := by
    rw [cleanUri, percentDecode_of_not_mem (hnot hpercent (by decide)), textOf,
      (span_ne_self (hnot hnul (by decide))).1, cleaned_append_slash hx hlast]
  have hstale : staleByte (x ++ [SLASH]) = some NUL := by
    apply staleByte_of_dropped
    rw [hclean, List.length_append, List.length_singleton]
  rw [dispatch_eq, htarget, hclean, hstale, route, routeName_get hmethod hauth hws hfile, routeFile,
    hvisible, hdir, huri]
  rfl

/-- The directory `/www/a/` and nothing else. -/
def oneDirectory : FileSystem := fun path =>
  if path = ascii ['/', 'w', 'w', 'w', '/', 'a', '/'] then some (.directory 4096 1) else none

theorem redirect_to_itself_www :
    dispatch (wwwConfig none) oneDirectory
      ⟨ascii ['G', 'E', 'T'], ascii ['/', 'a', '/', '/'], ascii ['1', '.', '1'], []⟩ =
      .ret (.redirect (ascii ['/', 'a', '/', '/'])) :=
  @redirect_to_itself (wwwConfig none) oneDirectory
    ⟨ascii ['G', 'E', 'T'], ascii ['/', 'a', '/', '/'], ascii ['1', '.', '1'], []⟩ (ascii ['/', 'a', '/'])
      (by decide +kernel)
    rfl ⟨by decide, by decide, by decide⟩ rfl rfl rfl (by decide +kernel) (by decide +kernel) ⟨4096, 1, true⟩
    (by decide +kernel) rfl

end Tinyweb
