import Tinyweb.ConfigFile
import Tinyweb.Lib.FormEncoding

/-!
# Starting the server

`startServer` is `start_server` of `tinyweb.c`, with `process_command_line_arguments` and the part of `mg_start` that
fills the configuration.  No function compares the sources of an option.  Which value an option gets follows from the
order in which the settings come into the array, those of the file before those of the command line, and from
`mg_start`, where a later setting replaces an earlier one and the defaults fill what is left (`startServer_precedence`).
-/

namespace Tinyweb

open Clib

/-! ### The command line -/

def configFileName : List UInt8 := ascii "mongoose.conf".toList

/-- The path of the configuration file, whether it was given on the command line, and the arguments behind it. -/
def configFile (prog : CStr) (args : List CStr) : List UInt8 × Bool × List CStr :=
  match args with
  | arg :: rest => if arg.bytes.head? ≠ some MINUS then (snprintf pathMax arg.bytes, true, rest) else beside
  | [] => beside
where
  /-- The file next to the program. -/
  beside : List UInt8 × Bool × List CStr :=
    match strrchr SLASH prog.bytes with
    | none => (snprintf pathMax configFileName, false, args)
    | some p => (snprintf pathMax (prog.bytes.take p ++ SLASH :: configFileName), false, args)

/-- The loop over the flags and their values. -/
def processFlags (env : Env) (options : OptionArray) : List CStr → Option (OptionArray × Option Exit)
  | [] => some (options, none)
  | [_] => some (options, some .usage)
  | flag :: value :: args =>
    if flag.bytes.head? ≠ some MINUS then some (options, some .usage)
    else do
      match ← setOption env options flag.bytes.tail value.bytes with
      | (options, none) => processFlags env options args
      | (options, some exit) => return (options, some exit)

def processCommandLineArguments (env : Env) (prog : CStr) (args : List CStr) (options : OptionArray) :
    Outcome (OptionArray × Option Exit) := do
  let options ← Outcome.ofOption (options.store 0 none)
  let (path, given, flags) := configFile prog args
  let (options, exit) ←
    match env.fopen path with
    | some file => loop (confBody env) (file.length + 1) (file, options)
    | none =>
      pure (options, if given then
        some (die (ascii "Cannot open config file ".toList ++ path ++ ascii ": ".toList ++ env.strerror path))
        else none)
  if exit.isSome then return (options, exit)
  -- the comparison stops at the terminator of a shorter argument
  if args.head?.all fun arg => memcmp (arg.bytes ++ [NUL]) (ascii "-psn_".toList) 5 ≠ 0 then
    Outcome.ofOption (processFlags env options flags)
  else return (options, none)

/-! ### The configuration -/

/-- A default for every option that has none yet. -/
def setDefaults (config : Config) : Config := List.zipWith (fun option value => value.or option.2) configOptions config

/-- `mg_start` up to the threads: the configuration or null, and the messages. -/
def mgStart (env : Env) (options : OptionArray) : Outcome (Option Config × List Cry) := do
  let (config, log) ←
    loop (optionBody options) maxOptions ⟨0, List.replicate configOptions.length none, []⟩
  match config with
  | none => return (none, log)
  | some config =>
    return (if env.validates (setDefaults config) then some (setDefaults config) else none, log)

/-- `start_server`: the configuration of the server it starts, or the way the program is left. -/
def startServer (env : Env) (prog : CStr) (args : List CStr) (options : OptionArray) :
    Outcome (Except Exit Config) := do
  if args.head?.any fun arg => strcmp arg.bytes (ascii "-A".toList) = 0 then
    return .error (if args.length ≠ 5 then .usage else .passwords)
  if args.length = 1 ∧ args.head?.any fun arg =>
      strcmp arg.bytes (ascii "-h".toList) = 0 ∨ strcmp arg.bytes (ascii "--help".toList) = 0 then
    return .error .usage
  let (options, exit) ← processCommandLineArguments env prog args options
  match exit with
  | some exit => return .error exit
  | none =>
    let (config, _) ← mgStart env options
    -- the strings of the array are freed
    loop options.walkBody maxOptions 0
    match config with
    | none => return .error (die (ascii "Failed to start Tinyweb.".toList))
    | some config => return .ok config

/-! ### Which value an option has -/

def optionNames : List (List UInt8) := configOptions.map (·.1)

/-- The last of the values that the settings give to an option. -/
def lastValue (name : List UInt8) (settings : List (List UInt8 × List UInt8)) : Option (List UInt8) :=
  ((settings.filter fun s => s.1 == name).getLast?).map (·.2)

def defaultValue (name : List UInt8) : Option (List UInt8) :=
  (configOptions.find? fun option => option.1 == name).bind (·.2)

theorem lastValue_cons (name m v : List UInt8) (settings : List (List UInt8 × List UInt8)) :
    lastValue name ((m, v) :: settings) = (lastValue name settings).or (if m = name then some v else none) := by
  unfold lastValue
  by_cases hm : m = name
  · rw [List.filter_cons_of_pos (by simp [hm]), if_pos hm, List.getLast?_cons]
    cases (settings.filter fun s => s.1 == name).getLast? with
    | none => rfl
    | some s => rfl
  · rw [List.filter_cons_of_neg (by simp [hm]), if_neg hm, Option.or_none]

theorem lastValue_append (name : List UInt8) (first second : List (List UInt8 × List UInt8)) :
    lastValue name (first ++ second) = (lastValue name second).or (lastValue name first) := by
  induction first with
  | nil =>
    show lastValue name second = (lastValue name second).or none
    rw [Option.or_none]
  | cons s first ih =>
    obtain ⟨m, v⟩ := s
    rw [List.cons_append, lastValue_cons, ih, lastValue_cons, Option.or_assoc]

/-- The place of an option in the table. -/
private theorem index_of_name : ∀ name ∈ optionNames,
    ((getOptionIndex name).bind fun k => configOptions[k]?) = some (name, defaultValue name) := by
  decide +kernel

private theorem exists_index {name : List UInt8} (h : name ∈ optionNames) :
    ∃ k, getOptionIndex name = some k ∧ configOptions[k]? = some (name, defaultValue name) :=
  Option.bind_eq_some_iff.1 (index_of_name name h)

private theorem index_inj {name m : List UInt8} (h : name ∈ optionNames) (hm : m ∈ optionNames) {k : Nat}
    (hk : getOptionIndex name = some k) (hkm : getOptionIndex m = some k) : m = name := by
  obtain ⟨k₁, h₁, hn⟩ := exists_index h
  obtain ⟨k₂, h₂, hn'⟩ := exists_index hm
  rw [hk] at h₁
  rw [hkm] at h₂
  cases h₁
  cases h₂
  rw [hn] at hn'
  exact (Prod.mk.inj (Option.some.inj hn')).1.symm

/-- The loop of `mg_start` on valid options: the last setting of an option counts. -/
private theorem applySettings_valid (settings : List (List UInt8 × List UInt8)) :
    ∀ {s : StartState}, (∀ setting ∈ settings, setting.1 ∈ optionNames) → s.config.length = configOptions.length →
      ∃ config, (applySettings settings s).1 = some config ∧ config.length = configOptions.length ∧
        ∀ name ∈ optionNames, ∀ k, getOptionIndex name = some k →
          (config[k]?).join = (lastValue name settings).or (s.config[k]?).join := by
  induction settings with
  | nil =>
    intro s _ hlen
    exact ⟨s.config, rfl, hlen, fun name _ k _ => rfl⟩
  | cons setting settings ih =>
    intro s hvalid hlen
    obtain ⟨m, v⟩ := setting
    have hm : m ∈ optionNames := hvalid (m, v) (List.mem_cons_self ..)
    obtain ⟨j, hj, hentry⟩ := exists_index hm
    have hset : (s.assign m v j).config = s.config.set j (some v) := rfl
    have hlen' : (s.assign m v j).config.length = configOptions.length := by
      rw [hset, List.length_set, hlen]
    have hjlt : j < s.config.length := by
      rw [hlen]
      exact (List.getElem?_eq_some_iff.1 hentry).1
    obtain ⟨config, hconfig, hlength, hvalues⟩ := ih (fun x hx => hvalid x (List.mem_cons_of_mem _ hx)) hlen'
    refine ⟨config, ?_, hlength, ?_⟩
    · rw [applySettings, hj]
      exact hconfig
    · intro name hname k hk
      rw [hvalues name hname k hk, lastValue_cons, Option.or_assoc, hset]
      congr 1
      by_cases hmn : m = name
      · subst hmn
        rw [hj] at hk
        cases hk
        rw [if_pos rfl, List.getElem?_set_self hjlt]
        rfl
      · have hjk : j ≠ k := by
          rintro rfl
          exact hmn (index_inj hname hm hk hj)
        rw [if_neg hmn, List.getElem?_set_ne hjk, Option.none_or]

/-- The value of an option, for the settings of the file and those of the command line. -/
def effectiveValue (file cmd : List (List UInt8 × List UInt8)) (name : List UInt8) : List UInt8 :=
  ((lastValue name cmd).or ((lastValue name file).or (defaultValue name))).getD []

/-- Each option has the value that `value` gives it. -/
def Config.HasValues (config : Config) (value : List UInt8 → List UInt8) : Prop :=
  ∀ name ∈ optionNames, mgGetOption config name = some (value name)

private theorem mgStart_valid {env : Env} {a : OptionArray} {settings : List (List UInt8 × List UInt8)}
    (h : a.Holds (flatPairs settings)) (hlen : settings.length ≤ 19) (hvalid : ∀ s ∈ settings, s.1 ∈ optionNames)
    (henv : ∀ config : Config, config.HasValues
      (fun name => ((lastValue name settings).or (defaultValue name)).getD []) → env.validates config = true) :
    ∃ config log, mgStart env a = .ret (some config, log) ∧
      config.HasValues fun name => ((lastValue name settings).or (defaultValue name)).getD [] := by
  have hmax : maxOptions = 40 := rfl
  have hloop := @loop_optionBody a settings [] ⟨0, List.replicate configOptions.length none, []⟩ maxOptions h
    rfl (by omega)
  obtain ⟨config, hconfig, hlength, hvalues⟩ := applySettings_valid settings
    (s := ⟨0, List.replicate configOptions.length none, []⟩) hvalid List.length_replicate
  have hdefaults : (setDefaults config).HasValues fun name =>
      ((lastValue name settings).or (defaultValue name)).getD [] := by
    intro name hname
    obtain ⟨k, hk, hentry⟩ := exists_index hname
    have hlt : k < configOptions.length := (List.getElem?_eq_some_iff.1 hentry).1
    have hnone : ((List.replicate configOptions.length (none : Option (List UInt8)))[k]?).join = none := by
      rw [List.getElem?_replicate, if_pos hlt]
      rfl
    have hvalue := hvalues name hname k hk
    rw [hnone, Option.or_none] at hvalue
    have hconf : config[k]? = some (lastValue name settings) := by
      rw [List.getElem?_eq_getElem (by rw [hlength]; exact hlt)] at hvalue ⊢
      exact congrArg some hvalue
    rw [mgGetOption, hk, Option.map_some, setDefaults, List.getElem?_zipWith, hentry, hconf]
    rfl
  refine ⟨setDefaults config, (applySettings settings ⟨0, List.replicate configOptions.length none, []⟩).2,
    ?_, hdefaults⟩
  have hpair : applySettings settings ⟨0, List.replicate configOptions.length none, []⟩ =
      (some config, (applySettings settings ⟨0, List.replicate configOptions.length none, []⟩).2) :=
    Prod.ext hconfig rfl
  rw [hpair] at hloop
  rw [mgStart, hloop]
  show Outcome.ret (if env.validates (setDefaults config) then some (setDefaults config) else none, _) = _
  rw [if_pos (henv _ hdefaults)]

/-! ### The settings of a command line -/

def flag (name : CStr) : CStr where
  bytes := MINUS :: name.bytes
  nul_free := by
    simp only [List.mem_cons, not_or]
    exact ⟨by decide, name.nul_free⟩

/-- The arguments that give the configuration file, if it is given, and the settings `cmd`. -/
def commandLine (path : Option CStr) (cmd : List (CStr × CStr)) : List CStr :=
  path.toList ++ cmd.flatMap fun s => [flag s.1, s.2]

def cmdSettings (cmd : List (CStr × CStr)) : List (List UInt8 × List UInt8) := cmd.map fun s => (s.1.bytes, s.2.bytes)

private theorem processFlags_eq {env : Env} (cmd : List (CStr × CStr)) :
    ∀ {options : OptionArray}, processFlags env options (cmd.flatMap fun s => [flag s.1, s.2]) =
      setOptions env options (cmdSettings cmd) := by
  induction cmd with
  | nil =>
    intro options
    rfl
  | cons s cmd ih =>
    intro options
    have hcons : ((s :: cmd).flatMap fun s => [flag s.1, s.2]) =
        flag s.1 :: s.2 :: cmd.flatMap fun s => [flag s.1, s.2] := rfl
    have hhead : ¬ (flag s.1).bytes.head? ≠ some MINUS := fun h => h rfl
    rw [hcons, processFlags, if_neg hhead]
    show (setOption env options s.1.bytes s.2.bytes >>= _) = _
    rw [cmdSettings, List.map_cons, setOptions]
    cases setOption env options s.1.bytes s.2.bytes with
    | none => rfl
    | some r =>
      obtain ⟨options, died⟩ := r
      cases died with
      | none => exact ih
      | some exit => rfl

private theorem configFile_flags (prog : CStr) {path : Option CStr} (hpath : ∀ p ∈ path, p.bytes.head? ≠ some MINUS)
    (cmd : List (CStr × CStr)) :
    (configFile prog (commandLine path cmd)).2.2 = cmd.flatMap fun s => [flag s.1, s.2] := by
  have hbeside (args : List CStr) : (configFile.beside prog args).2.2 = args := by
    unfold configFile.beside
    split <;> rfl
  cases path with
  | some p =>
    have hp := hpath p rfl
    show (configFile prog (p :: cmd.flatMap fun s => [flag s.1, s.2])).2.2 = _
    rw [configFile, if_pos hp]
  | none =>
    show (configFile prog (cmd.flatMap fun s => [flag s.1, s.2])).2.2 = _
    cases cmd with
    | nil => exact hbeside []
    | cons s cmd =>
      have hhead : ¬ (flag s.1).bytes.head? ≠ some MINUS := fun h => h rfl
      show (configFile prog (flag s.1 :: s.2 :: cmd.flatMap fun s => [flag s.1, s.2])).2.2 = _
      rw [configFile, if_neg hhead]
      exact hbeside _

private theorem optionNames_spec : ∀ name ∈ optionNames,
    NUL ∉ name ∧ name ≠ ascii ['A'] ∧ name ≠ ascii ['h'] ∧ name ≠ ascii "-help".toList ∧
      ¬ ascii "psn_".toList <+: name ∧ name ≠ ascii ['r'] := by
  decide +kernel

/-- The first argument is the path of the file or the flag of a valid option. -/
private theorem head_commandLine {path : Option CStr} {cmd : List (CStr × CStr)}
    (hpath : ∀ p ∈ path, p.bytes.head? ≠ some MINUS) (hcmd : ∀ s ∈ cmdSettings cmd, s.1 ∈ optionNames) {arg : CStr}
    (h : (commandLine path cmd).head? = some arg) :
    arg.bytes.head? ≠ some MINUS ∨ ∃ name ∈ optionNames, arg.bytes = MINUS :: name := by
  cases path with
  | some p =>
    have harg : p = arg := Option.some.inj h
    exact Or.inl (harg ▸ hpath p rfl)
  | none =>
    cases cmd with
    | nil => cases h
    | cons s cmd =>
      cases h
      exact Or.inr ⟨s.1.bytes, hcmd (s.1.bytes, s.2.bytes) (List.mem_cons_self ..), rfl⟩

private theorem strcmp_head_ne {path : Option CStr} {cmd : List (CStr × CStr)}
    (hpath : ∀ p ∈ path, p.bytes.head? ≠ some MINUS) (hcmd : ∀ s ∈ cmdSettings cmd, s.1 ∈ optionNames) {arg : CStr}
    (h : (commandLine path cmd).head? = some arg) {rest : List UInt8} (hnul : NUL ∉ rest) (hrest : rest ∉ optionNames) :
    strcmp arg.bytes (MINUS :: rest) ≠ 0 := by
  intro hcmp
  have hnul' : NUL ∉ MINUS :: rest := by
    simp only [List.mem_cons, not_or]
    exact ⟨by decide, hnul⟩
  have heq := (strcmp_eq_zero_iff arg.nul_free hnul').1 hcmp
  rcases head_commandLine hpath hcmd h with hhead | ⟨name, hname, hbytes⟩
  · rw [heq] at hhead
    exact hhead rfl
  · rw [hbytes] at heq
    exact hrest ((List.cons.inj heq).2 ▸ hname)

private theorem not_psn {path : Option CStr} {cmd : List (CStr × CStr)}
    (hpath : ∀ p ∈ path, p.bytes.head? ≠ some MINUS) (hcmd : ∀ s ∈ cmdSettings cmd, s.1 ∈ optionNames) {arg : CStr}
    (h : (commandLine path cmd).head? = some arg) : memcmp (arg.bytes ++ [NUL]) (ascii "-psn_".toList) 5 ≠ 0 := by
  intro hcmp
  have hprefix : ascii "-psn_".toList <+: arg.bytes := prefix_of_memcmp_nul (by decide) hcmp
  obtain ⟨t, ht⟩ := hprefix
  rcases head_commandLine hpath hcmd h with hhead | ⟨name, hname, hbytes⟩
  · rw [← ht] at hhead
    exact hhead rfl
  · rw [hbytes] at ht
    obtain ⟨-, -, -, -, hpsn, -⟩ := optionNames_spec name hname
    exact hpsn ⟨t, (List.cons.inj ht).2⟩

private theorem rootOk_of_valid {env : Env} {name value : List UInt8} (hname : name ∈ optionNames)
    (hroot : name = documentRoot → env.isDirectory (documentRootPath value) = true) : RootOk env name value := by
  obtain ⟨hnul, -, -, -, -, hr⟩ := optionNames_spec name hname
  rintro (h | h)
  · exact hroot ((strcmp_eq_zero_iff hnul (by decide)).1 h)
  · exact absurd ((strcmp_eq_zero_iff hnul (by decide)).1 h) hr

/-! ### Precedence -/

private theorem processCommandLineArguments_eq {env : Env} {prog : CStr} {path : Option CStr} {cmd : List (CStr × CStr)}
    {file : List UInt8} (hpath : ∀ p ∈ path, p.bytes.head? ≠ some MINUS)
    (hfile : env.fopen (configFile prog (commandLine path cmd)).1 = some file) (hnul : NUL ∉ file)
    (hlines : ∀ l ∈ file.splitOn LF, l.length < 8191)
    (hvalid : ∀ s ∈ fileSettings file ++ cmdSettings cmd, s.1 ∈ optionNames)
    (hcount : (fileSettings file ++ cmdSettings cmd).length ≤ 19)
    (hroot : ∀ s ∈ fileSettings file ++ cmdSettings cmd, RootOk env s.1 s.2) (options : OptionArray) :
    ∃ a : OptionArray, processCommandLineArguments env prog (commandLine path cmd) options = .ret (a, none) ∧
      a.Holds (flatPairs (fileSettings file ++ cmdSettings cmd)) := by
  have hcmd : ∀ s ∈ cmdSettings cmd, s.1 ∈ optionNames := fun s hs => hvalid s (List.mem_append_right _ hs)
  obtain ⟨a₀, hstore, hempty⟩ := options.store_zero (by decide : 0 < maxOptions)
  -- the file
  have hjoin : [LF].intercalate (file.splitOn LF) = file := List.intercalate_splitOn LF
  have hlines' : ∀ l ∈ file.splitOn LF, (LF ∉ l ∧ NUL ∉ l) ∧ l.length + 1 < maxConfFileLineSize := by
    intro l hl
    obtain ⟨hlf, hsub⟩ := mem_splitOn hl
    have hlen := hlines l hl
    have hsize : maxConfFileLineSize = 8192 := rfl
    exact ⟨⟨hlf, fun h => hnul (hsub h)⟩, by omega⟩
  have hloop := @loop_confBody env (file.splitOn LF) a₀ (file.length + 1) hlines' (by rw [hjoin]; omega)
  rw [hjoin] at hloop
  rw [List.length_append] at hcount
  obtain ⟨a₁, died, hset₁, hholds₁, hroom₁⟩ := @setOptions_holds env (fileSettings file) a₀ [] hempty
  obtain rfl : died = none :=
    hroom₁.2 ⟨by rw [List.length_nil]; omega, fun s hs => hroot s (List.mem_append_left _ hs)⟩
  have hread : loop (confBody env) (file.length + 1) (file, a₀) = .ret (a₁, none) := by
    rw [hloop]
    show Outcome.ofOption (setOptions env a₀ (fileSettings file)) = _
    rw [hset₁]
    rfl
  -- the command line
  obtain ⟨a₂, died, hset₂, hholds₂, hroom₂⟩ :=
    @setOptions_holds env (cmdSettings cmd) a₁ (fileSettings file) (hholds₁ rfl)
  obtain rfl : died = none := hroom₂.2 ⟨by omega, fun s hs => hroot s (List.mem_append_right _ hs)⟩
  have hflags : processFlags env a₁ (configFile prog (commandLine path cmd)).2.2 = some (a₂, none) := by
    rw [configFile_flags prog hpath, processFlags_eq, hset₂]
  have hpsn : ((commandLine path cmd).head?.all fun arg =>
      memcmp (arg.bytes ++ [NUL]) (ascii "-psn_".toList) 5 ≠ 0) = true := by
    cases hhead : (commandLine path cmd).head? with
    | none => rfl
    | some arg => exact decide_eq_true (not_psn hpath hcmd hhead)
  refine ⟨a₂, ?_, hholds₂ rfl⟩
  unfold processCommandLineArguments
  rw [hstore]
  generalize configFile prog (commandLine path cmd) = conf at hfile hflags ⊢
  obtain ⟨name, given, flags⟩ := conf
  dsimp only at hfile hflags
  simp only [Outcome.ofOption, Outcome.ret_bind, hfile, hread, hpsn, hflags, Option.isSome_none, Bool.false_eq_true,
    ↓reduceIte]

/-- After a start with valid options, at most 19 settings and a file of lines that fit the array of the reader, every
option has the last value given on the command line, or else the last value given in the file, or else its default, or
else the empty value. -/
theorem startServer_precedence {env : Env} {prog : CStr} {path : Option CStr} {cmd : List (CStr × CStr)}
    {file : List UInt8} (hpath : ∀ p ∈ path, p.bytes.head? ≠ some MINUS)
    (hfile : env.fopen (configFile prog (commandLine path cmd)).1 = some file) (hnul : NUL ∉ file)
    (hlines : ∀ l ∈ file.splitOn LF, l.length < 8191)
    (hvalid : ∀ s ∈ fileSettings file ++ cmdSettings cmd, s.1 ∈ optionNames)
    (hcount : (fileSettings file ++ cmdSettings cmd).length ≤ 19)
    (hroot : ∀ s ∈ fileSettings file ++ cmdSettings cmd, s.1 = documentRoot →
      env.isDirectory (documentRootPath s.2) = true)
    (hvalidates : ∀ config : Config, config.HasValues (effectiveValue (fileSettings file) (cmdSettings cmd)) →
      env.validates config = true) (options : OptionArray) :
    ∃ config : Config, startServer env prog (commandLine path cmd) options = .ret (.ok config) ∧
      config.HasValues (effectiveValue (fileSettings file) (cmdSettings cmd)) := by
  have hcmd : ∀ s ∈ cmdSettings cmd, s.1 ∈ optionNames := fun s hs => hvalid s (List.mem_append_right _ hs)
  obtain ⟨a, hprocess, hholds⟩ := processCommandLineArguments_eq hpath hfile hnul hlines hvalid hcount
    (fun s hs => rootOk_of_valid (hvalid s hs) (hroot s hs)) options
  have heffective (name : List UInt8) : effectiveValue (fileSettings file) (cmdSettings cmd) name =
      ((lastValue name (fileSettings file ++ cmdSettings cmd)).or (defaultValue name)).getD [] := by
    rw [effectiveValue, lastValue_append, Option.or_assoc]
  rw [funext heffective] at hvalidates ⊢
  obtain ⟨config, log, hstart, hvalues⟩ := mgStart_valid hholds hcount hvalid hvalidates
  have hwalk : loop a.walkBody maxOptions 0 = .ret () := by
    have hmax : maxOptions = 40 := rfl
    have hflat := length_flatPairs (fileSettings file ++ cmdSettings cmd)
    exact (hholds.walk (by omega)).1
  have hA : ((commandLine path cmd).head?.any fun arg => strcmp arg.bytes (ascii "-A".toList) = 0) = false := by
    cases hhead : (commandLine path cmd).head? with
    | none => rfl
    | some arg =>
      apply decide_eq_false
      exact strcmp_head_ne hpath hcmd hhead (by decide) fun h => (optionNames_spec _ h).2.1 rfl
  have hhelp : ((commandLine path cmd).head?.any fun arg => strcmp arg.bytes (ascii "-h".toList) = 0 ∨
      strcmp arg.bytes (ascii "--help".toList) = 0) = false := by
    cases hhead : (commandLine path cmd).head? with
    | none => rfl
    | some arg =>
      apply decide_eq_false
      rintro (h | h)
      · exact strcmp_head_ne hpath hcmd hhead (by decide) (fun h => (optionNames_spec _ h).2.2.1 rfl) h
      · exact strcmp_head_ne hpath hcmd hhead (by decide) (fun h => (optionNames_spec _ h).2.2.2.1 rfl) h
  refine ⟨config, ?_, hvalues⟩
  simp only [startServer, hA, hhelp, hprocess, hstart, hwalk, Outcome.ret_bind, Bool.false_eq_true,
    ↓reduceIte, and_false]
  rfl

def webConf : List UInt8 := ascii "# web\nnum_threads 9 # all\nlistening_ports 80\n".toList

/-- A system whose only file is a configuration file. -/
def webEnv : Env where
  isDirectory := fun _ => true
  strerror := fun _ => []
  fopen := fun path => if path = ascii "web.conf".toList then some webConf else none
  validates := fun _ => true

def webCmd : List (CStr × CStr) :=
  [(⟨ascii "listening_ports".toList, by decide⟩, ⟨ascii "8081".toList, by decide⟩),
    (⟨ascii "listening_ports".toList, by decide⟩, ⟨ascii "8082".toList, by decide⟩)]

theorem startServer_precedence_web :
    ∃ config : Config,
      startServer webEnv ⟨ascii "tinyweb".toList, by decide⟩
        (commandLine (some ⟨ascii "web.conf".toList, by decide⟩) webCmd) emptyOptions = .ret (.ok config) ∧
      mgGetOption config (ascii "listening_ports".toList) = some (ascii "8082".toList) ∧
      mgGetOption config (ascii "num_threads".toList) = some (ascii ['9', ' ']) := by
  obtain ⟨config, hstart, hvalues⟩ :=
    @startServer_precedence webEnv ⟨ascii "tinyweb".toList, by decide⟩
      (some ⟨ascii "web.conf".toList, by decide⟩) webCmd
      webConf (fun p hp => Option.some.inj hp ▸ by decide) (by decide +kernel) (by decide +kernel) (by decide +kernel)
      (by decide +kernel) (by decide +kernel) (fun _ _ _ => rfl) (fun _ _ => rfl) emptyOptions
  refine ⟨config, hstart, ?_, ?_⟩
  · exact (hvalues _ (by decide +kernel)).trans (by decide +kernel)
  · exact (hvalues _ (by decide +kernel)).trans (by decide +kernel)

end Tinyweb
