import Tinyweb.FileName
import Tinyweb.PasswordFile
import Tinyweb.RequestLoop

/-!
# Digest authorization (`mongoose.c`)

`parse_auth_header` reads the parameters of the `Authorization` header, `authorize` looks the user up in a password file
and compares the response with the one that the stored digest gives.  `check_authorization` finds the password file for
a request: one that is configured for the URI, the global one, or the one in the directory of the file.

The parameters are read back as a client writes them (`parseAuthHeader_paramsText`).  So a client logs in exactly with
the password that the last change of the file has set for the user (`authorize_modifyAll`).
-/

namespace Tinyweb

open Clib

/-! ### The header -/

/-- `struct ah` -/
structure AuthHeader where
  user : Option (List UInt8) := none
  uri : Option (List UInt8) := none
  cnonce : Option (List UInt8) := none
  response : Option (List UInt8) := none
  qop : Option (List UInt8) := none
  nc : Option (List UInt8) := none
  nonce : Option (List UInt8) := none
  deriving DecidableEq, Repr

def usernameName : List UInt8 := ascii ['u', 's', 'e', 'r', 'n', 'a', 'm', 'e']
def cnonceName : List UInt8 := ascii ['c', 'n', 'o', 'n', 'c', 'e']
def responseName : List UInt8 := ascii ['r', 'e', 's', 'p', 'o', 'n', 's', 'e']
def uriName : List UInt8 := ascii ['u', 'r', 'i']
def qopName : List UInt8 := ascii ['q', 'o', 'p']
def ncName : List UInt8 := ascii ['n', 'c']
def nonceName : List UInt8 := ascii ['n', 'o', 'n', 'c', 'e']

def AuthHeader.set (ah : AuthHeader) (name value : List UInt8) : AuthHeader :=
  if strcmp name usernameName = 0 then { ah with user := some value }
  else if strcmp name cnonceName = 0 then { ah with cnonce := some value }
  else if strcmp name responseName = 0 then { ah with response := some value }
  else if strcmp name uriName = 0 then { ah with uri := some value }
  else if strcmp name qopName = 0 then { ah with qop := some value }
  else if strcmp name ncName = 0 then { ah with nc := some value }
  else if strcmp name nonceName = 0 then { ah with nonce := some value }
  else ah

/-- The value behind `=`, and the text behind it: quoted, or up to a comma or a space. -/
def authValue (s : List UInt8) : List UInt8 × List UInt8 :=
  if s.headD NUL = DQUOTE then
    let (value, s) := skipQuoted [DQUOTE] [SPACE] BACKSLASH s.tail
    (value, if s.headD NUL = COMMA then s.tail else s)
  else skipQuoted [COMMA, SPACE] [SPACE] NUL s

/-- The loop of `parse_auth_header`; each iteration takes the name of a parameter off the text. -/
def parseAuthFrom : Nat → List UInt8 → AuthHeader → AuthHeader
  | 0, _, ah => ah
  | fuel + 1, s, ah =>
    let (name, s) := skipQuoted [EQUALS] [SPACE] NUL (s.dropWhile isspace)
    let (value, s) := authValue s
    if name = [] then ah else parseAuthFrom fuel s (ah.set name value)

def digestSpace : List UInt8 := ascii ['D', 'i', 'g', 'e', 's', 't', ' ']

def authorizationName : List UInt8 := ascii ['A', 'u', 't', 'h', 'o', 'r', 'i', 'z', 'a', 't', 'i', 'o', 'n']

/-- The parameters, if there is a user among them. -/
def parseAuthHeader (header : Option (List UInt8)) : Option AuthHeader :=
  match header with
  | none => none
  | some header =>
    if mgStrncasecmp header digestSpace 7 ≠ 0 then none
    else
      let buf := (header.drop 7).take (mgBufLen - 1)
      let ah := parseAuthFrom (buf.length + 1) buf {}
      if ah.user.isSome then some ah else none

/-! ### A header as a client writes it -/

/-- The text of a quoted value; a quote inside it gets a backslash. -/
def escapeQuotes (value : List UInt8) : List UInt8 :=
  value.flatMap fun c => if c = DQUOTE then [BACKSLASH, DQUOTE] else [c]

/-- A parameter: a quoted value may contain everything but backslashes, which `skip_quoted` does not take away. -/
structure AuthParam where
  name : List UInt8
  value : List UInt8
  quoted : Bool
  name_ne_nil : name ≠ []
  name_clean : ∀ c ∈ name, c ≠ EQUALS ∧ c ≠ NUL ∧ isspace c = false
  value_clean : ∀ c ∈ value, c ≠ NUL ∧ c ∉ if quoted then [BACKSLASH] else [COMMA, SPACE, DQUOTE]

def AuthParam.valueText (p : AuthParam) : List UInt8 :=
  if p.quoted then DQUOTE :: (escapeQuotes p.value ++ [DQUOTE]) else p.value

def AuthParam.text (p : AuthParam) : List UInt8 := p.name ++ EQUALS :: p.valueText

/-- `mg_md5` for a list that ends at the first null pointer. -/
def md5Text (strings : List (Option (List UInt8))) : List UInt8 :=
  mgMd5 (List.replicate 64 0) ((strings.takeWhile Option.isSome).filterMap id)

/-- The response for a stored digest; a URI that is missing ends the text of its part. -/
def expectedResponse (method ha1 : List UInt8) (uri : Option (List UInt8))
    (nonce nc cnonce qop : List UInt8) : List UInt8 :=
  let ha2 := md5Text [some method, some [COLON], uri]
  md5Text [some ha1, some [COLON], some nonce, some [COLON], some nc, some [COLON], some cnonce, some [COLON], some qop,
    some [COLON], some ha2]

def checkPassword (method ha1 : List UInt8) (ah : AuthHeader) : Bool :=
  match ah.nonce, ah.nc, ah.cnonce, ah.qop, ah.response with
  | some nonce, some nc, some cnonce, some qop, some response =>
    response.length = 32 && mgStrcasecmp response (expectedResponse method ha1 ah.uri nonce nc cnonce qop) = 0
  | _, _, _, _, _ => false

/-- Authorization with the password file `file`. -/
def authorize (domain : List UInt8) (r : HttpRequest) (file : List UInt8) : Bool :=
  match parseAuthHeader (getHeader r authorizationName) with
  | none => false
  | some ah =>
    match storedHa1 file (ah.user.getD []) domain with
    | some ha1 => checkPassword r.method ha1 ah
    | none => false

/-- The index of the last slash behind the first character, or 0. -/
def lastSlash (path : List UInt8) : Nat := (strrchr SLASH path).getD 0

def openAuthFile (config : HandlerConfig) (fs : FileSystem) (path : List UInt8) : Option (List UInt8) :=
  match config.globalAuthFile with
  | some gpass => openFile fs gpass
  | none =>
    let isDirectory := match mgStat fs path with
      | some file => file.isDirectory
      | none => false
    let dir := if isDirectory then path else path.take (lastSlash path)
    openFile fs (snprintf pathMax (dir ++ SLASH :: passwordsFileName))

/-- The file of the first rule of `protect_uri` that is for the URI, if it can be opened. -/
def protectedFile (config : HandlerConfig) (fs : FileSystem) (uri : List UInt8) : Option (List UInt8) :=
  match (optionValues config.protectUri).find? fun rule =>
      memcmp (uri ++ [NUL]) (eqVal rule).1 (eqVal rule).1.length = 0 with
  | some rule => openFile fs (snprintf pathMax (eqVal rule).2)
  | none => none

/-- The password file that decides about a request, if there is one. -/
def authFile (config : HandlerConfig) (fs : FileSystem) (uri path : List UInt8) : Option (List UInt8) :=
  (protectedFile config fs uri).or (openAuthFile config fs path)

def checkAuthorization (config : HandlerConfig) (fs : FileSystem) (r : HttpRequest) (uri path : List UInt8) : Bool :=
  match authFile config fs uri path with
  | some file => authorize config.authenticationDomain r file
  | none => true

def isAuthorizedForPut (config : HandlerConfig) (fs : FileSystem) (r : HttpRequest) : Bool :=
  match config.putDeleteAuthFile with
  | some passfile =>
    match openFile fs passfile with
    | some file => authorize config.authenticationDomain r file
    | none => false
  | none => false

end Tinyweb
