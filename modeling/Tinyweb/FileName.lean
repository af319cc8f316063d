import Tinyweb.Lib.FileTree
import Tinyweb.MatchPrefix
import Tinyweb.Options
import Tinyweb.RequestUri

/-!
# From a URI to a file (`mongoose.c`)

`convert_uri_to_file_name` puts the document root in front of the URI, or replaces its beginning by a rewrite rule.  If
there is no such file, it looks for a CGI script whose path is a beginning of that path; the rest is the path info.

Whatever the client has sent, the path lies under the document root, unless a rewrite rule applies or an ancestor of the
root is itself taken for a CGI script (`convertUriToFileName_confined`).  A rewrite rule keeps the path under its own
directory if it is cut at slashes (`rewrite_confined`), and only then: with a rule for `/a` that names a directory `d/`,
the URI `/a../x` leads to the parent of `d` (`rewrite_escapes`).
-/

namespace Tinyweb

open Clib

/-! ### Lists of options -/

/-- `next_option`: the first value of a comma-separated list, and the rest of the list. -/
def nextOption (list : List UInt8) : Option (List UInt8 × List UInt8) :=
  if list = [] then none else some (list.takeWhile (· != COMMA), (list.dropWhile (· != COMMA)).tail)

/-- All values, with `fuel` for the length of the list. -/
def optionsFrom : Nat → List UInt8 → List (List UInt8)
  | 0, _ => []
  | fuel + 1, list =>
    match nextOption list with
    | none => []
    | some (val, rest) => val :: optionsFrom fuel rest

def optionValues (list : Option (List UInt8)) : List (List UInt8) :=
  match list with
  | none => []
  | some list => optionsFrom list.length list

/-- The part before the first `=` and the part behind it. -/
def eqVal (val : List UInt8) : List UInt8 × List UInt8 :=
  (val.takeWhile (· != EQUALS), (val.dropWhile (· != EQUALS)).tail)

/-! ### Files -/

/-- What there is under a path. -/
abbrev FileSystem := List UInt8 → Option Node

/-- `struct file`, as `mg_stat` fills it. -/
structure FileInfo where
  size : Nat
  modificationTime : Nat
  isDirectory : Bool
  deriving DecidableEq, Repr

/-- A modification time of 0 stands for a file that is not there. -/
def mgStat (fs : FileSystem) (path : List UInt8) : Option FileInfo :=
  match fs path with
  | some (.file content time) => if time ≠ 0 then some ⟨content.length, time, false⟩ else none
  | some (.directory size time) => if time ≠ 0 then some ⟨size, time, true⟩ else none
  | none => none

/-- What is read from an opened file; a directory can be opened, but not be read. -/
def openFile (fs : FileSystem) (path : List UInt8) : Option (List UInt8) :=
  match fs path with
  | some (.file content _) => some content
  | some (.directory ..) => some []
  | none => none

/-! ### The path -/

/-- The options that `handle_request` reads; those without a default value may be null. -/
structure HandlerConfig where
  documentRoot : List UInt8
  urlRewritePatterns : Option (List UInt8)
  cgiPattern : List UInt8
  ssiPattern : List UInt8
  hideFilesPatterns : Option (List UInt8)
  indexFiles : List UInt8
  protectUri : Option (List UInt8)
  globalAuthFile : Option (List UInt8)
  putDeleteAuthFile : Option (List UInt8)
  authenticationDomain : List UInt8
  enableDirectoryListing : List UInt8
  enableKeepAlive : List UInt8
  extraMimeTypes : Option (List UInt8)

/-- The path that the first matching rewrite rule gives. -/
def rewriteUri (rewrite : Option (List UInt8)) (uri : List UInt8) : Option (List UInt8) :=
  (optionValues rewrite).findSome? fun rule =>
    let (a, b) := eqVal rule
    let matchLen := matchPrefix a uri
    if matchLen > 0 then some (b ++ uri.drop matchLen.toNat) else none

/-- The loop from index `p` down to 2: the length of the path of a CGI script. -/
def findCgi (cgiPattern : List UInt8) (fs : FileSystem) (path : List UInt8) : Nat → Option Nat
  | 0 => none
  | p + 1 =>
    if p = 0 then none
    else if path[p + 1]? = some SLASH ∧ matchPrefix cgiPattern (path.take (p + 1)) > 0 ∧
        (mgStat fs (path.take (p + 1))).isSome then some (p + 1)
    else findCgi cgiPattern fs path p

/-- The path, the path info and what is there. -/
structure FileName where
  path : List UInt8
  pathInfo : Option (List UInt8)
  file : Option FileInfo
  deriving DecidableEq, Repr

/-- Only `sizeof(path) - 1` bytes are used, since the path info may be moved by one byte. -/
def convertUriToFileName (config : HandlerConfig) (fs : FileSystem) (uri : List UInt8) : FileName :=
  let path := snprintf (pathMax - 1) ((rewriteUri config.urlRewritePatterns uri).getD (config.documentRoot ++ uri))
  match mgStat fs path with
  | some file => ⟨path, none, some file⟩
  | none =>
    match findCgi config.cgiPattern fs path path.length with
    | some p => ⟨path.take p, some (path.drop p), mgStat fs (path.take p)⟩
    | none => ⟨path, none, none⟩

/-! ### Staying under a directory -/

variable {config : HandlerConfig} {fs : FileSystem} {uri : List UInt8}

private theorem findCgi_some {cgi path : List UInt8} {fs : FileSystem} {p k : Nat}
    (h : findCgi cgi fs path p = some k) :
    0 < matchPrefix cgi (path.take k) ∧ path[k]? = some SLASH ∧ (mgStat fs (path.take k)).isSome := by
  induction p with
  | zero => cases h
  | succ p ih =>
    rw [findCgi] at h
    split at h
    next => cases h
    next =>
      split at h
      next hfound =>
        cases h
        exact ⟨hfound.2.1, hfound.1, hfound.2.2⟩
      next => exact ih h

/-- The path is the one that the URI gives, or a part of it that is taken for a CGI script. -/
private theorem convertUriToFileName_cases (config : HandlerConfig) (fs : FileSystem) (uri : List UInt8) :
    let path := snprintf (pathMax - 1) ((rewriteUri config.urlRewritePatterns uri).getD (config.documentRoot ++ uri))
    (convertUriToFileName config fs uri).path = path ∨
      ∃ k, (convertUriToFileName config fs uri).path = path.take k ∧
        0 < matchPrefix config.cgiPattern (path.take k) := by
  intro path
  unfold convertUriToFileName
  dsimp only
  split
  next => exact Or.inl rfl
  next =>
    split
    next k hk => exact Or.inr ⟨k, rfl, (findCgi_some hk).1⟩
    next => exact Or.inl rfl

/-- The text behind a directory goes on at a slash, and never up. -/
def ContinuesAtSlash (dir tail : List UInt8) : Prop :=
  ¬ [SLASH, DOT, DOT] <:+: tail ∧ (tail = [] ∨ tail.head? = some SLASH ∨
    (dir.getLast? = some SLASH ∧ ¬ [SLASH, DOT, DOT] <:+: SLASH :: tail))

/-- A directory that ends with a slash. -/
private theorem resolve_slash (cwd : List (List UInt8)) (d : List UInt8) {tail : List UInt8}
    (hdots : ¬ [SLASH, DOT, DOT] <:+: SLASH :: tail) :
    resolve cwd (d ++ [SLASH]) <+: resolve cwd (d ++ SLASH :: tail) := by
  cases d with
  | nil =>
    have hroot : resolve cwd [SLASH] = [] := rfl
    rw [List.nil_append, hroot]
    exact List.nil_prefix
  | cons c d =>
    rw [resolve_append_slash cwd (List.cons_ne_nil c d)]
    exact prefix_resolve_append cwd (List.cons_ne_nil c d) (Or.inr rfl) hdots

/-- A beginning of `dir ++ tail` lies under `dir`, or is a beginning of `dir` itself. -/
private theorem resolve_take (cwd : List (List UInt8)) {dir tail : List UInt8} (hne : dir ≠ [])
    (htail : ContinuesAtSlash dir tail) (k : Nat) :
    (dir ++ tail).take k <+: dir ∨ resolve cwd dir <+: resolve cwd ((dir ++ tail).take k) := by
  by_cases hk : k ≤ dir.length
  · rw [List.take_append_of_le_length hk]
    exact Or.inl (List.take_prefix ..)
  obtain ⟨m, rfl⟩ := Nat.exists_eq_add_of_lt (Nat.not_le.1 hk)
  rw [Nat.add_assoc, List.take_length_add_append]
  obtain ⟨hdots, hcut⟩ := htail
  have hdots' : ¬ [SLASH, DOT, DOT] <:+: tail.take (m + 1) := fun h => hdots (h.trans (List.take_prefix ..).isInfix)
  right
  rcases hcut with rfl | hhead | ⟨hlast, hslash⟩
  · exact prefix_resolve_append cwd hne (Or.inl List.take_nil) hdots'
  · refine prefix_resolve_append cwd hne (Or.inr ?_) hdots'
    cases tail with
    | nil => cases hhead
    | cons c tail => exact hhead
  · obtain ⟨d, rfl⟩ := List.getLast?_eq_some_iff.1 hlast
    rw [List.append_assoc, List.singleton_append]
    exact resolve_slash cwd d fun h => hslash (h.trans (List.cons_prefix_cons.2 ⟨rfl, List.take_prefix ..⟩).isInfix)

/-- The path under the directory `dir` that has been put in front of `tail`. -/
private theorem confined_of_continues {dir tail : List UInt8} (hne : dir ≠ [])
    (hlen : dir.length ≤ pathMax - 2) (htail : ContinuesAtSlash dir tail)
    (hpath : (rewriteUri config.urlRewritePatterns uri).getD (config.documentRoot ++ uri) = dir ++ tail)
    (cwd : List (List UInt8)) :
    let path := (convertUriToFileName config fs uri).path
    resolve cwd dir <+: resolve cwd path ∨ path <+: dir ∧ 0 < matchPrefix config.cgiPattern path := by
  have hcases := convertUriToFileName_cases config fs uri
  rw [hpath] at hcases
  rcases hcases with hpath | ⟨k, hpath, hcgi⟩
  · rw [hpath]
    -- the text is cut behind the directory
    refine Or.inl ((resolve_take cwd hne htail (pathMax - 1 - 1)).elim (fun hprefix => ?_) id)
    have hwhole : (dir ++ tail).take (pathMax - 1 - 1) = dir := by
      refine hprefix.eq_of_length_le ?_
      rw [List.length_take, List.length_append]
      omega
    rw [show snprintf (pathMax - 1) (dir ++ tail) = dir from hwhole]
  · rw [hpath]
    have htake : (snprintf (pathMax - 1) (dir ++ tail)).take k = (dir ++ tail).take (min k (pathMax - 1 - 1)) :=
      List.take_take
    rw [htake] at hcgi ⊢
    exact (resolve_take cwd hne htail _).symm.imp_right fun h => ⟨h, hcgi⟩

/-- Whatever the client has sent: the path leads to something under the document root.  The exception is a document root
in a directory whose path looks like that of a CGI script. -/
theorem convertUriToFileName_confined (config : HandlerConfig) (fs : FileSystem) {u : List UInt8}
    (hroot : config.documentRoot ≠ []) (hlen : config.documentRoot.length ≤ pathMax - 2) (hu : u.head? = some SLASH)
    (hrewrite : rewriteUri config.urlRewritePatterns (cleanUri u) = none) (cwd : List (List UInt8)) :
    let path := (convertUriToFileName config fs (cleanUri u)).path
    resolve cwd config.documentRoot <+: resolve cwd path ∨
      path <+: config.documentRoot ∧ 0 < matchPrefix config.cgiPattern path :=
  confined_of_continues hroot hlen ⟨cleaned_no_dots _, Or.inr (Or.inl (head?_cleanUri hu))⟩ (by rw [hrewrite]; rfl) cwd

/-- The files of `/www`, with one rewrite rule. -/
def wwwConfig (rewrite : Option (List UInt8)) : HandlerConfig where
  documentRoot := ascii ['/', 'w', 'w', 'w']
  urlRewritePatterns := rewrite
  cgiPattern := ascii ['*', '*', '.', 'c', 'g', 'i', '$']
  ssiPattern := ascii ['*', '*', '.', 's', 'h', 't', 'm', '$']
  hideFilesPatterns := none
  indexFiles := ascii ['i', 'n', 'd', 'e', 'x']
  protectUri := none
  globalAuthFile := none
  putDeleteAuthFile := none
  authenticationDomain := ascii ['d']
  enableDirectoryListing := ascii ['y', 'e', 's']
  enableKeepAlive := ascii ['n', 'o']
  extraMimeTypes := none

theorem convertUriToFileName_confined_www :
    cleanUri (ascii ['/', '%', '2', 'E', '.', '/', '.', '.', '/', 'x']) = ascii ['/', 'x'] ∧
      resolve [] (ascii ['/', 'w', 'w', 'w']) <+: resolve [] (convertUriToFileName (wwwConfig none) (fun _ => none)
        (cleanUri (ascii ['/', '%', '2', 'E', '.', '/', '.', '.', '/', 'x']))).path :=
  ⟨by decide +kernel,
    (convertUriToFileName_confined (wwwConfig none) (fun _ => none) (by decide) (by decide) rfl rfl []).elim id
      fun h => absurd h.2 (by decide +kernel)⟩

/-! ### Rewrite rules -/

/-- The first rule that matches. -/
def matchingRule (config : HandlerConfig) (uri : List UInt8) : Option (List UInt8) :=
  (optionValues config.urlRewritePatterns).find? fun rule => matchPrefix (eqVal rule).1 uri > 0

/-- What is left of the URI behind the text that the rule matches. -/
def behindMatch (rule uri : List UInt8) : List UInt8 := uri.drop (matchPrefix (eqVal rule).1 uri).toNat

private theorem rewriteUri_eq (config : HandlerConfig) (uri : List UInt8) : rewriteUri config.urlRewritePatterns uri =
    (matchingRule config uri).map fun rule => (eqVal rule).2 ++ behindMatch rule uri := by
  unfold rewriteUri matchingRule
  induction optionValues config.urlRewritePatterns with
  | nil => rfl
  | cons rule rules ih =>
    rw [List.findSome?_cons, List.find?_cons]
    by_cases h : matchPrefix (eqVal rule).1 uri > 0
    · simp [h, behindMatch]
    · simp only [if_neg h, decide_eq_false h]
      exact ih

/-- A rule keeps the path under its own directory if it replaces whole segments: what is left of the URI begins with a
slash, or the directory and the matched text both end with one. -/
theorem rewrite_confined (config : HandlerConfig) (fs : FileSystem) {u rule : List UInt8}
    (hrule : matchingRule config (cleanUri u) = some rule) (hne : (eqVal rule).2 ≠ [])
    (hlen : (eqVal rule).2.length ≤ pathMax - 2)
    (hcut : behindMatch rule (cleanUri u) = [] ∨ (behindMatch rule (cleanUri u)).head? = some SLASH ∨
      ((eqVal rule).2.getLast? = some SLASH ∧ SLASH :: behindMatch rule (cleanUri u) <:+ cleanUri u))
    (cwd : List (List UInt8)) :
    let path := (convertUriToFileName config fs (cleanUri u)).path
    resolve cwd (eqVal rule).2 <+: resolve cwd path ∨ path <+: (eqVal rule).2 ∧
      0 < matchPrefix config.cgiPattern path := by
  have hdots : ¬ [SLASH, DOT, DOT] <:+: cleanUri u := cleaned_no_dots _
  have htail : ContinuesAtSlash (eqVal rule).2 (behindMatch rule (cleanUri u)) :=
    ⟨fun h => hdots (h.trans (List.drop_suffix ..).isInfix),
      hcut.imp_right (Or.imp_right (And.imp_right fun hsuffix h => hdots (h.trans hsuffix.isInfix)))⟩
  exact confined_of_continues hne hlen htail (by rw [rewriteUri_eq, hrule]; rfl) cwd

theorem rewrite_confined_www :
    resolve [] (ascii ['/', 'd']) <+: resolve []
      (convertUriToFileName (wwwConfig (some (ascii ['/', 'a', '=', '/', 'd'])))
      (fun _ => none) (cleanUri (ascii ['/', 'a', '/', 'x']))).path :=
  (rewrite_confined (wwwConfig (some (ascii ['/', 'a', '=', '/', 'd']))) (fun _ => none)
    (show matchingRule _ _ = some (ascii ['/', 'a', '=', '/', 'd']) by decide +kernel) (by decide) (by decide)
    (Or.inr (Or.inl (by decide +kernel))) []).elim id fun h => absurd h.2 (by decide +kernel)

private theorem optionValues_singleton {val : List UInt8} (hne : val ≠ []) (hval : COMMA ∉ val) :
    optionValues (some val) = [val] := by
  obtain ⟨k, hk⟩ := Nat.exists_eq_succ_of_ne_zero (List.length_pos_iff.2 hne).ne'
  obtain ⟨htake, hdrop⟩ := span_ne_self hval
  have hnext : nextOption val = some (val, []) := by rw [nextOption, if_neg hne, htake, hdrop]; rfl
  show optionsFrom val.length val = [val]
  rw [hk, optionsFrom, hnext]
  cases k <;> rfl

private theorem eqVal_append {p : List UInt8} (hp : EQUALS ∉ p) (b : List UInt8) :
    eqVal (p ++ EQUALS :: b) = (p, b) := by
  obtain ⟨htake, hdrop⟩ := span_ne hp b
  rw [eqVal, htake, hdrop]
  rfl

/-- The URI `p../x` is used as it was sent. -/
private theorem cleanUri_dots {p x : List UInt8} (hp : IsCleanText p) (hx : IsCleanText (SLASH :: x))
    (hlast : ∀ c ∈ p.getLast?, isSeparator c = false ∧ c ≠ DOT) (hpercent : PERCENT ∉ p ++ x) (hnul : NUL ∉ p ++ x) :
    cleanUri (p ++ DOT :: DOT :: SLASH :: x) = p ++ DOT :: DOT :: SLASH :: x := by
  rw [List.mem_append, not_or] at hpercent hnul
  apply cleanUri_of_isCleanText
  · exact hp.append ((hx.cons (by decide)).cons (by decide)) hlast
  · simp only [List.mem_append, List.mem_cons, not_or]
    exact ⟨hpercent.1, by decide, by decide, by decide, hpercent.2⟩
  · simp only [List.mem_append, List.mem_cons, not_or]
    exact ⟨hnul.1, by decide, by decide, by decide, hnul.2⟩

/-- A rule that replaces `p`, without a slash or a dot at its end, by a directory `d/`: for plain texts `p` and `x` the
URI `p../x` is not changed by decoding and cleaning, and is looked for from the parent of `d` on. -/
theorem rewrite_escapes (config : HandlerConfig) (fs : FileSystem) {p d x : List UInt8} (hd : d ≠ [])
    (hrule : config.urlRewritePatterns = some (p ++ EQUALS :: (d ++ [SLASH])))
    (hp : IsLiteral p ∧ p ≠ [] ∧ EQUALS ∉ p ∧ COMMA ∉ p) (hcomma : COMMA ∉ d)
    (hclean : IsCleanText p ∧ IsCleanText (SLASH :: x)) (hlast : ∀ c ∈ p.getLast?, isSeparator c = false ∧ c ≠ DOT)
    (hpercent : PERCENT ∉ p ++ x) (hnul : NUL ∉ p ++ x) (hlen : d.length + x.length + 4 ≤ pathMax - 2)
    (hexists : (mgStat fs (d ++ SLASH :: DOT :: DOT :: SLASH :: x)).isSome) (cwd : List (List UInt8)) :
    resolve cwd (convertUriToFileName config fs (cleanUri (p ++ DOT :: DOT :: SLASH :: x))).path =
      (x.splitOn SLASH).foldl walk (resolve cwd d).dropLast := by
  obtain ⟨hlit, hne, hequals, hcomma'⟩ := hp
  rw [cleanUri_dots hclean.1 hclean.2 hlast hpercent hnul]
  have hval : optionValues config.urlRewritePatterns = [p ++ EQUALS :: (d ++ [SLASH])] := by
    rw [hrule]
    apply optionValues_singleton (List.append_ne_nil_of_left_ne_nil hne _)
    simp only [List.mem_append, List.mem_cons, List.not_mem_nil, not_or, or_false]
    exact ⟨hcomma', by decide, hcomma, by decide⟩
  have hmatch : matchPrefix p (p ++ (DOT :: DOT :: SLASH :: x)) = p.length := matchPrefix_literal hlit hne _
  have hpath : rewriteUri config.urlRewritePatterns (p ++ DOT :: DOT :: SLASH :: x) =
      some (d ++ SLASH :: DOT :: DOT :: SLASH :: x) := by
    have hpos : (p.length : Int) > 0 := by
      have := List.length_pos_iff.2 hne
      omega
    rw [rewriteUri, hval]
    simp only [List.findSome?_cons, eqVal_append hequals, hmatch, if_pos hpos, Int.toNat_natCast, List.drop_left]
    rw [List.append_assoc, List.singleton_append]
  have hfits : snprintf (pathMax - 1) (d ++ SLASH :: DOT :: DOT :: SLASH :: x) =
      d ++ SLASH :: DOT :: DOT :: SLASH :: x := by
    apply List.take_of_length_le
    simp only [List.length_append, List.length_cons]
    omega
  obtain ⟨info, hinfo⟩ := Option.isSome_iff_exists.1 hexists
  have hname : (convertUriToFileName config fs (p ++ DOT :: DOT :: SLASH :: x)).path =
      d ++ SLASH :: (DOT :: DOT :: SLASH :: x) := by
    unfold convertUriToFileName
    dsimp only
    rw [hpath, Option.getD_some, hfits, hinfo]
  have hsegments : (DOT :: DOT :: SLASH :: x).splitOn SLASH = [DOT, DOT] :: x.splitOn SLASH :=
    splitOn_append_cons SLASH [DOT, DOT] x
  rw [hname, resolve_append_cons cwd hd, hsegments]
  rfl

theorem rewrite_escapes_www :
    resolve [] (convertUriToFileName (wwwConfig (some (ascii ['/', 'a', '=', '/', 'd', '/'])))
      (fun _ => some (.file [] 1)) (cleanUri (ascii ['/', 'a', '.', '.', '/', 'x']))).path = [ascii ['x']] :=
  @rewrite_escapes (wwwConfig (some (ascii ['/', 'a', '=', '/', 'd', '/']))) (fun _ => some (.file [] 1))
    (ascii ['/', 'a']) (ascii ['/', 'd']) (ascii ['x']) (by decide) rfl
    ⟨by unfold IsLiteral; decide +kernel, by decide, by decide, by decide⟩ (by decide)
    ⟨by decide +kernel, by decide +kernel⟩ (fun c hc => by cases hc; decide) (by decide) (by decide) (by decide) rfl []

end Tinyweb
