import Tinyweb.Lib.CString
import Tinyweb.Lib.Pointers

/-!
# Options

`tinyweb.c` collects its options in an array of 40 pointers, names and values alternating and a null pointer behind
them, and hands the array to `mg_start` of `mongoose.c`.  `setOption` is `set_option`, which adds a pair; `optionBody`
is one iteration of the loop of `mg_start` over the pairs.

Nineteen pairs fit.  Up to there the array holds the pairs that were set, in order, and the loop of `mg_start` reads
exactly these pairs (`loop_optionBody`); the loop of `start_server` that frees the strings meets each of them once
(`options_invariant`).
-/

namespace Tinyweb

open Clib

/-! ### The table of options -/

/-- The names of the options and their default values. -/
def configOptions : List (List UInt8 × Option (List UInt8)) := [
  (ascii "cgi_pattern".toList, some (ascii "**.cgi$|**.pl$|**.php$".toList)),
  (ascii "cgi_environment".toList, none),
  (ascii "put_delete_auth_file".toList, none),
  (ascii "cgi_interpreter".toList, none),
  (ascii "protect_uri".toList, none),
  (ascii "authentication_domain".toList, some (ascii "mydomain.com".toList)),
  (ascii "ssi_pattern".toList, some (ascii "**.shtml$|**.shtm$".toList)),
  (ascii "throttle".toList, none),
  (ascii "access_log_file".toList, none),
  (ascii "enable_directory_listing".toList, some (ascii "yes".toList)),
  (ascii "error_log_file".toList, none),
  (ascii "global_auth_file".toList, none),
  (ascii "index_files".toList, some (ascii "index.html,index.htm,index.cgi,index.shtml,index.php,index.lp".toList)),
  (ascii "enable_keep_alive".toList, some (ascii "no".toList)),
  (ascii "access_control_list".toList, none),
  (ascii "extra_mime_types".toList, none),
  (ascii "listening_ports".toList, some (ascii "8080".toList)),
  (ascii "document_root".toList, some (ascii ".".toList)),
  (ascii "ssl_certificate".toList, none),
  (ascii "num_threads".toList, some (ascii "50".toList)),
  (ascii "run_as_user".toList, none),
  (ascii "url_rewrite_patterns".toList, none),
  (ascii "hide_files_patterns".toList, none),
  (ascii "request_timeout_ms".toList, some (ascii "30000".toList)),
  (ascii "pidfile".toList, none)]

def getOptionIndex (name : List UInt8) : Option Nat := configOptions.findIdx? fun option => strcmp option.1 name = 0

/-- `ctx->config`: for each option of the table its value, or null. -/
abbrev Config := List (Option (List UInt8))

def mgGetOption (config : Config) (name : List UInt8) : Option (List UInt8) :=
  (getOptionIndex name).map fun i => (config[i]?).join.getD []

/-! ### Setting an option -/

def maxOptions : Nat := 40

def pathMax : Nat := 4096

/-- The array `options`. -/
abbrev OptionArray := Ptrs (List UInt8) maxOptions

/-- What the program asks of the system: whether a path is that of a directory, the text for the error of the last
call on a path, the content of a file it may read, and whether the rest of `mg_start` accepts the configuration. -/
structure Env where
  isDirectory : List UInt8 → Bool
  strerror : List UInt8 → List UInt8
  fopen : List UInt8 → Option (List UInt8)
  validates : Config → Bool

/-- Ways to leave the program. -/
inductive Exit where
  | usage
  | passwords
  | died (msg : List UInt8)
  deriving DecidableEq

def die (text : List UInt8) : Exit := .died (snprintf 200 text)

def tooManyOptions : Exit := die (ascii "Too many options specified".toList)

/-- The directory in a document root: the text before the first comma, if it fits the array. -/
def documentRootPath (root : List UInt8) : List UInt8 :=
  let path := root.takeWhile (· != COMMA)
  if path.length < root.length ∧ path.length < pathMax then path else root

def invalidRoot (env : Env) (root : List UInt8) : Exit :=
  die (ascii "Invalid root directory: [".toList ++ root ++ ascii "]: ".toList ++ env.strerror (documentRootPath root))

def verifyDocumentRoot (env : Env) (root : List UInt8) : Option Exit :=
  if env.isDirectory (documentRootPath root) then none else some (invalidRoot env root)

def documentRoot : List UInt8 := ascii "document_root".toList

/-- `set_option`: the array after the call, and the way the program is left if it is. -/
def setOption (env : Env) (options : OptionArray) (name value : List UInt8) : Option (OptionArray × Option Exit) :=
  match if strcmp name documentRoot = 0 ∨ strcmp name (ascii ['r']) = 0 then verifyDocumentRoot env value else none with
  | some exit => some (options, some exit)
  | none =>
    match (List.range (maxOptions - 3)).find? fun i => options.load i == some none with
    | some i => do
      let options ← options.store i (some name)
      let options ← options.store (i + 1) (some value)
      let options ← options.store (i + 2) none
      return (options, none)
    | none => some (options, some tooManyOptions)

/-- One call after another, as long as the program is not left. -/
def setOptions (env : Env) (options : OptionArray) : List (List UInt8 × List UInt8) → Option (OptionArray × Option Exit)
  | [] => some (options, none)
  | (name, value) :: settings => do
    match ← setOption env options name value with
    | (options, none) => setOptions env options settings
    | (options, some exit) => return (options, some exit)

/-! ### Reading the options -/

/-- The messages of the loop. -/
inductive Cry where
  | invalidOption (name : List UInt8)
  | nullValue (name : List UInt8)
  | duplicateOption (name : List UInt8)
  deriving DecidableEq

def Cry.text : Cry → List UInt8
  | .invalidOption name => ascii "Invalid option: ".toList ++ name
  | .nullValue name => name ++ ascii ": option value cannot be NULL".toList
  | .duplicateOption name => ascii "warning: ".toList ++ name ++ ascii ": duplicate option".toList

structure StartState where
  i : Nat
  config : Config
  log : List Cry

/-- `ctx->config[i] = value`, with the warning if it has been set before. -/
def StartState.assign (s : StartState) (name value : List UInt8) (k : Nat) : StartState where
  i := s.i + 2
  config := s.config.set k (some value)
  log := if (s.config[k]?).join.isSome then s.log ++ [.duplicateOption name] else s.log

/-- One iteration of the loop of `mg_start`.  It ends with the configuration, or with null after an error. -/
def optionBody (options : OptionArray) (s : StartState) : Option (Step StartState (Option Config × List Cry)) := do
  match ← options.load s.i with
  | none => return .exit (some s.config, s.log)
  | some name =>
    match getOptionIndex name with
    | none => return .exit (none, s.log ++ [.invalidOption name])
    | some k =>
      match ← options.load (s.i + 1) with
      | none => return .exit (none, s.log ++ [.nullValue name])
      | some value => return .next (s.assign name value k)

/-! ### The array holds the pairs that were set -/

def flatPairs (settings : List (List UInt8 × List UInt8)) : List (List UInt8) :=
  settings.flatMap fun s => [s.1, s.2]

theorem length_flatPairs (settings : List (List UInt8 × List UInt8)) :
    (flatPairs settings).length = 2 * settings.length := by
  induction settings with
  | nil => rfl
  | cons s settings ih =>
    have hcons : flatPairs (s :: settings) = [s.1, s.2] ++ flatPairs settings := List.flatMap_cons ..
    rw [hcons, List.length_append, ih, List.length_cons]
    simp only [List.length_cons, List.length_nil]
    omega

theorem flatPairs_append (ps qs : List (List UInt8 × List UInt8)) :
    flatPairs (ps ++ qs) = flatPairs ps ++ flatPairs qs := List.flatMap_append

/-- The value passes the check that a document root gets. -/
def RootOk (env : Env) (name value : List UInt8) : Prop :=
  strcmp name documentRoot = 0 ∨ strcmp name (ascii ['r']) = 0 → env.isDirectory (documentRootPath value) = true

section

variable {env : Env} {a : OptionArray} {ps : List (List UInt8 × List UInt8)} {name value : List UInt8}

private theorem find_free {l : List (List UInt8)} (h : a.Holds l) :
    (List.range (maxOptions - 3)).find? (fun i => a.load i == some none) =
      if l.length < maxOptions - 3 then some l.length else none := by
  have hbefore : ∀ i < l.length, (a.load i == some none) = false := by
    intro i hi
    rw [h.load_of_lt hi]
    rfl
  split
  · rename_i hlt
    rw [List.find?_range_eq_some]
    refine ⟨by rw [h.load_length]; rfl, List.mem_range.2 hlt, ?_⟩
    intro i hi
    rw [hbefore i hi]
    rfl
  · rename_i hge
    rw [List.find?_range_eq_none]
    intro i hi
    rw [hbefore i (by omega)]
    rfl

private theorem check_of_rootOk (h : RootOk env name value) :
    (if strcmp name documentRoot = 0 ∨ strcmp name (ascii ['r']) = 0 then verifyDocumentRoot env value else none) =
      none := by
  split
  · rename_i hname
    rw [verifyDocumentRoot, if_pos (h hname)]
  · rfl

theorem setOption_of_lt (h : a.Holds (flatPairs ps)) (hlen : ps.length < 19) (hroot : RootOk env name value) :
    ∃ a', setOption env a name value = some (a', none) ∧ a'.Holds (flatPairs (ps ++ [(name, value)])) := by
  have hcount := length_flatPairs ps
  have hmax : maxOptions = 40 := rfl
  obtain ⟨a₁, a₂, a₃, h₁, h₂, h₃, hholds⟩ := h.push_two (by omega) name value
  have hfind := find_free h
  rw [if_pos (by omega)] at hfind
  refine ⟨a₃, ?_, ?_⟩
  · rw [setOption, check_of_rootOk hroot, hfind]
    simp only [h₁, h₂, h₃, Option.bind_eq_bind, Option.bind_some]
    rfl
  · rw [flatPairs_append]
    exact hholds

theorem setOption_of_full (h : a.Holds (flatPairs ps)) (hlen : ps.length = 19) (hroot : RootOk env name value) :
    setOption env a name value = some (a, some tooManyOptions) := by
  have hcount := length_flatPairs ps
  have hmax : maxOptions = 40 := rfl
  have hfind := find_free h
  rw [if_neg (by omega)] at hfind
  rw [setOption, check_of_rootOk hroot, hfind]

theorem setOption_of_not_rootOk (h : ¬ RootOk env name value) :
    setOption env a name value = some (a, some (invalidRoot env value)) := by
  have hname : strcmp name documentRoot = 0 ∨ strcmp name (ascii ['r']) = 0 := by
    by_contra hne
    exact h fun hname => absurd hname hne
  have hdir : ¬ env.isDirectory (documentRootPath value) = true := fun hdir => h fun _ => hdir
  rw [setOption, if_pos hname, verifyDocumentRoot, if_neg hdir]

private theorem length_le_of_holds (h : a.Holds (flatPairs ps)) : ps.length ≤ 19 := by
  have hlt := h.length_lt
  have hmax : maxOptions = 40 := rfl
  rw [length_flatPairs] at hlt
  omega

private theorem invalidRoot_ne (env : Env) (root : List UInt8) : invalidRoot env root ≠ tooManyOptions := by
  intro h
  have hmsg := Exit.died.inj h
  have hhead := congrArg List.head? hmsg
  have hleft : (snprintf 200 (ascii "Invalid root directory: [".toList ++ root ++ ascii "]: ".toList ++
      env.strerror (documentRootPath root))).head? = some 73 := rfl
  rw [hleft] at hhead
  exact absurd hhead (by decide)

/-- The step of the invariant: what the next call does. -/
theorem setOption_cases (h : a.Holds (flatPairs ps)) (name value : List UInt8) :
    ∃ a' died, setOption env a name value = some (a', died) ∧
      (died = none → a'.Holds (flatPairs (ps ++ [(name, value)]))) ∧ (died ≠ none → a' = a) ∧
      (died = none ↔ ps.length < 19 ∧ RootOk env name value) ∧
      (died = some tooManyOptions ↔ ps.length = 19 ∧ RootOk env name value) := by
  have hle := length_le_of_holds h
  by_cases hroot : RootOk env name value
  · by_cases hlen : ps.length = 19
    · refine ⟨a, some tooManyOptions, setOption_of_full h hlen hroot, nofun, fun _ => rfl, ⟨nofun, fun h => ?_⟩, ?_⟩
      · have := h.1
        omega
      · exact ⟨fun _ => ⟨hlen, hroot⟩, fun _ => rfl⟩
    · obtain ⟨a', hset, hholds⟩ := setOption_of_lt h (by omega) hroot
      refine ⟨a', none, hset, fun _ => hholds, fun hne => absurd rfl hne,
        ⟨fun _ => ⟨by omega, hroot⟩, fun _ => rfl⟩, ?_⟩
      exact ⟨nofun, fun h => absurd h.1 hlen⟩
  · refine ⟨a, some (invalidRoot env value), setOption_of_not_rootOk hroot, nofun, fun _ => rfl,
      ⟨nofun, fun h => absurd h.2 hroot⟩, ?_⟩
    constructor
    · intro heq
      exact absurd (Option.some.inj heq) (invalidRoot_ne env value)
    · intro h
      exact absurd h.2 hroot

/-- The run of the invariant.  The settings are all stored exactly if there is room for them and the document roots
among them are valid. -/
theorem setOptions_holds (settings : List (List UInt8 × List UInt8)) :
    ∀ {a : OptionArray} {ps : List (List UInt8 × List UInt8)}, a.Holds (flatPairs ps) →
      ∃ a' died, setOptions env a settings = some (a', died) ∧
        (died = none → a'.Holds (flatPairs (ps ++ settings))) ∧
        (died = none ↔ ps.length + settings.length ≤ 19 ∧ ∀ s ∈ settings, RootOk env s.1 s.2) := by
  induction settings with
  | nil =>
    intro a ps h
    refine ⟨a, none, rfl, fun _ => ?_, ?_⟩
    · rw [List.append_nil]
      exact h
    · exact ⟨fun _ => ⟨length_le_of_holds h, List.forall_mem_nil _⟩, fun _ => rfl⟩
  | cons s settings ih =>
    intro a ps h
    obtain ⟨name, value⟩ := s
    obtain ⟨a₁, died, hset, hholds, -, hroom, -⟩ := @setOption_cases env a ps h name value
    cases died with
    | some exit =>
      refine ⟨a₁, some exit, ?_, nofun, nofun, ?_⟩
      · rw [setOptions, hset]
        rfl
      · rintro ⟨hlen, hroot⟩
        rw [List.length_cons] at hlen
        exact hroom.2 ⟨by omega, hroot (name, value) (List.mem_cons_self ..)⟩
    | none =>
      obtain ⟨a₂, died, hrest, hholds₂, hroom₂⟩ := ih (hholds rfl)
      rw [List.append_assoc] at hholds₂
      refine ⟨a₂, died, ?_, hholds₂, ?_⟩
      · rw [setOptions, hset]
        exact hrest
      · have hlen : (ps ++ [(name, value)]).length + settings.length =
          ps.length + ((name, value) :: settings).length := by
          rw [List.length_append, List.length_singleton, List.length_cons]
          omega
        rw [hroom₂, hlen, List.forall_mem_cons]
        exact and_congr_right fun _ => ⟨fun hroot => ⟨(hroom.1 rfl).2, hroot⟩, fun hroot => hroot.2⟩

end

/-! ### The loop of `mg_start` -/

/-- The loop on the level of settings. -/
def applySettings : List (List UInt8 × List UInt8) → StartState → Option Config × List Cry
  | [], s => (some s.config, s.log)
  | (name, value) :: settings, s =>
    match getOptionIndex name with
    | none => (none, s.log ++ [.invalidOption name])
    | some k => applySettings settings (s.assign name value k)

/-- The loop reads the pairs that the array holds. -/
theorem loop_optionBody {a : OptionArray} (settings : List (List UInt8 × List UInt8)) :
    ∀ {pre : List (List UInt8 × List UInt8)} {s : StartState} {fuel : Nat}, a.Holds (flatPairs (pre ++ settings)) →
      s.i = 2 * pre.length → settings.length < fuel → loop (optionBody a) fuel s = .ret (applySettings settings s) := by
  induction settings with
  | nil =>
    intro pre s fuel h hi hfuel
    obtain ⟨fuel, rfl⟩ : ∃ f, fuel = f + 1 := ⟨fuel - 1, by rw [List.length_nil] at hfuel; omega⟩
    rw [List.append_nil] at h
    have hload : a.load s.i = some none := by
      rw [hi, ← length_flatPairs]
      exact h.load_length
    apply loop_exit
    rw [optionBody, hload]
    rfl
  | cons setting settings ih =>
    intro pre s fuel h hi hfuel
    obtain ⟨name, value⟩ := setting
    rw [List.length_cons] at hfuel
    obtain ⟨fuel, rfl⟩ : ∃ f, fuel = f + 1 := ⟨fuel - 1, by omega⟩
    have hflat : flatPairs (pre ++ (name, value) :: settings) =
        flatPairs pre ++ name :: value :: flatPairs settings := by
      rw [flatPairs_append]
      rfl
    have hlen := length_flatPairs pre
    -- the name and the value stand at two neighbouring indices, the first of them even
    have hname : a.load s.i = some (some name) := by
      have hlt : s.i < (flatPairs (pre ++ (name, value) :: settings)).length := by
        rw [hflat, List.length_append, List.length_cons]
        omega
      rw [h.load_of_lt hlt]
      simp [hflat, hi, ← hlen]
    have hvalue : a.load (s.i + 1) = some (some value) := by
      have hlt : s.i + 1 < (flatPairs (pre ++ (name, value) :: settings)).length := by
        rw [hflat, List.length_append, List.length_cons, List.length_cons]
        omega
      rw [h.load_of_lt hlt]
      simp [hflat, hi, ← hlen]
    rw [applySettings]
    cases hk : getOptionIndex name with
    | none =>
      apply loop_exit
      simp only [optionBody, hname, hk, Option.bind_eq_bind, Option.bind_some]
      rfl
    | some k =>
      have hnext : optionBody a s = some (.next (s.assign name value k)) := by
        simp only [optionBody, hname, hvalue, hk, Option.bind_eq_bind, Option.bind_some]
        rfl
      rw [loop_next hnext]
      apply @ih (pre ++ [(name, value)])
      · rw [List.append_assoc]
        exact h
      · rw [List.length_append, List.length_singleton]
        show s.i + 2 = _
        omega
      · omega

private theorem nullValue_not_mem (settings : List (List UInt8 × List UInt8)) (name : List UInt8) :
    ∀ {s : StartState}, Cry.nullValue name ∉ s.log → Cry.nullValue name ∉ (applySettings settings s).2 := by
  induction settings with
  | nil =>
    intro s h
    exact h
  | cons setting settings ih =>
    intro s h
    rw [applySettings]
    split
    · intro hmem
      rcases List.mem_append.1 hmem with hmem | hmem
      · exact h hmem
      · cases List.mem_singleton.1 hmem
    · apply ih
      intro hmem
      unfold StartState.assign at hmem
      dsimp only at hmem
      split at hmem
      · rcases List.mem_append.1 hmem with hmem | hmem
        · exact h hmem
        · cases List.mem_singleton.1 hmem
      · exact h hmem

/-! ### The invariant of the array -/

/-- Whatever options are set, starting with a null pointer in the first slot, no access leaves the array.  The program
is not left exactly if there are at most 19 calls and every document root among them is a directory; then the array
holds the names and values that were set, in order, and a null pointer behind them.  The next call adds its pair if
there is room and the value passes the check of a document root.  It is refused for lack of room exactly if there are 19
pairs and the value passes this check, and a call that is refused changes no slot.  The loop of `mg_start` meets no name
without a value, and the loop that frees the strings meets each of them once. -/
theorem options_invariant (env : Env) {a₀ : OptionArray} (h₀ : a₀.load 0 = some none)
    (calls : List (List UInt8 × List UInt8)) :
    ∃ a died, setOptions env a₀ calls = some (a, died) ∧
      (died = none ↔ calls.length ≤ 19 ∧ ∀ s ∈ calls, RootOk env s.1 s.2) ∧
      (died = none →
        a.Holds (flatPairs calls) ∧
        (∀ name value, ∃ a' died', setOption env a name value = some (a', died') ∧
          (died' = none ↔ calls.length < 19 ∧ RootOk env name value) ∧
          (died' = none → a'.Holds (flatPairs (calls ++ [(name, value)]))) ∧
          (died' = some tooManyOptions ↔ calls.length = 19 ∧ RootOk env name value) ∧ (died' ≠ none → a' = a)) ∧
        (∀ config, ∃ r log, loop (optionBody a) maxOptions ⟨0, config, []⟩ = .ret (r, log) ∧
          ∀ name, Cry.nullValue name ∉ log) ∧
        loop a.walkBody maxOptions 0 = .ret () ∧
        visited a.walkBody maxOptions 0 = List.range (2 * calls.length + 1) ∧
        (visited a.walkBody maxOptions 0).filterMap (fun i => (a.load i).join) = flatPairs calls) := by
  have hempty : a₀.Holds (flatPairs []) := Ptrs.holds_nil_iff.2 h₀
  obtain ⟨a, died, hrun, hholds, hroom⟩ := @setOptions_holds env calls a₀ [] hempty
  rw [List.length_nil, Nat.zero_add] at hroom
  refine ⟨a, died, hrun, hroom, fun hnone => ?_⟩
  have h : a.Holds (flatPairs calls) := hholds hnone
  have hle := length_le_of_holds h
  have hcount := length_flatPairs calls
  have hmax : maxOptions = 40 := rfl
  obtain ⟨hwalk, hvisited, hentries⟩ := h.walk (show (flatPairs calls).length < maxOptions by omega)
  rw [hcount] at hvisited
  refine ⟨h, ?_, ?_, hwalk, hvisited, hentries⟩
  · intro name value
    obtain ⟨a', died', hset, hadd, hkeep, hfree, hfull⟩ := @setOption_cases env a calls h name value
    exact ⟨a', died', hset, hfree, hadd, hfull, hkeep⟩
  · intro config
    have hloop := @loop_optionBody a calls [] ⟨0, config, []⟩ maxOptions h rfl (by omega)
    refine ⟨_, _, hloop, ?_⟩
    intro name
    exact nullValue_not_mem calls name List.not_mem_nil

/-- A system without directories. -/
def bareEnv : Env := ⟨fun _ => false, fun _ => [], fun _ => none, fun _ => true⟩

def emptyOptions : OptionArray := ⟨List.replicate 40 none, rfl⟩

/-- The pair `listening_ports` and `80` is stored. -/
theorem options_invariant_port :
    ∃ a, setOptions bareEnv emptyOptions [(ascii "listening_ports".toList, ascii "80".toList)] = some (a, none) ∧
      a.Holds [ascii "listening_ports".toList, ascii "80".toList] := by
  obtain ⟨a, died, hrun, hroom, h⟩ :=
    @options_invariant bareEnv emptyOptions rfl [(ascii "listening_ports".toList, ascii "80".toList)]
  have hnone : died = none :=
    hroom.2 ⟨by decide, List.forall_mem_singleton.2 fun hname => absurd hname (by decide +kernel)⟩
  subst hnone
  exact ⟨a, hrun, (h rfl).1⟩

def fullOptions : OptionArray := ⟨List.replicate 38 (some (ascii ['x'])) ++ [none, none], rfl⟩

/-- With 19 pairs stored, a document root that is not a directory is refused for that reason, not for lack of room. -/
theorem setOption_full_invalidRoot :
    setOptions bareEnv emptyOptions (List.replicate 19 (ascii ['x'], ascii ['x'])) = some (fullOptions, none) ∧
      setOption bareEnv fullOptions documentRoot (ascii "/nowhere".toList) =
        some (fullOptions, some (invalidRoot bareEnv (ascii "/nowhere".toList))) ∧
      invalidRoot bareEnv (ascii "/nowhere".toList) ≠ tooManyOptions := by
  refine ⟨by decide +kernel, by decide +kernel, invalidRoot_ne bareEnv _⟩

end Tinyweb
