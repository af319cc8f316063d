import Tinyweb.Lib.Transitions
import Mathlib.Algebra.Order.Ring.Nat

/-!
# The Android service

`TinywebService` starts and stops the server through `service.sh` and waits for nothing: `onStartCommand` runs
`service.sh -k`, or creates a thread that runs `service.sh -p`, and goes on.  The script stops a server by the pid in
`tinyweb.pid`, and with `-p` then launches a daemon, which writes its own pid there once it has started.  Service,
threads, scripts and daemons share the pid file and the daemons that run; `step` lets one of them take its next step.

A second of sleep in the script or in the parent of the daemon changes nothing that the others see, so it is not a step.
-/

namespace Tinyweb.Service

open Transitions

/-! ### The processes -/

inductive Intent where
  | start
  | refresh
  | stop
  deriving DecidableEq

/-- The statements of `onStartCommand`: run `service.sh -k`, set `binary_process` to null, create the launch thread. -/
inductive Statement where
  | execStop
  | clear
  | launch
  deriving DecidableEq

/-- The thread of `startTinywebServer`: it has yet to run `service.sh -p`, or only to keep the process in
`binary_process`. -/
inductive LaunchThread where
  | created
  | executed
  deriving DecidableEq

/-- Where `service.sh` is: the test for the pid file, `PID` to be read, the server to be killed, the file to be emptied,
and the test of `STOP` with the launch behind it. -/
inductive Pc where
  | test
  | cat
  | kill (pid : Option Nat)
  | truncate
  | branch
  deriving DecidableEq

structure Script where
  stop : Bool
  pc : Pc
  deriving DecidableEq

/-- Where the daemon is: `start_server`, then with its ports before the pid file is opened, before the pid is written,
and in the loop that waits for `exit_flag`. -/
inductive Phase where
  | starting
  | serving
  | opened
  | published
  deriving DecidableEq

structure Daemon where
  pid : Nat
  phase : Phase
  exitFlag : Bool
  deriving DecidableEq

/-- `pidFile` is the content of `tinyweb.pid`, if there is such a file: a pid, or nothing. -/
structure State where
  last : Option Intent
  main : List Statement
  binaryProcess : Bool
  threads : List LaunchThread
  scripts : List Script
  daemons : List Daemon
  pidFile : Option (Option Nat)
  nextPid : Nat
  deriving DecidableEq

/-- Nothing runs, and the pid file is as an earlier server may have left it. -/
def initial (pidFile : Option (Option Nat)) : State :=
  ⟨none, [], false, [], [], [], pidFile, pidFile.join.getD 0 + 1⟩

/-! ### The steps -/

def State.onStartCommand (s : State) (intent : Intent) : State :=
  { s with
    last := some intent
    main :=
      match intent with
      | .start => if s.binaryProcess then [] else [.launch]
      | .refresh => [.execStop, .clear, .launch]
      | .stop => [.execStop, .clear] }

def State.execute (s : State) : Statement → State
  | .execStop => { s with scripts := s.scripts ++ [⟨true, .test⟩] }
  | .clear => { s with binaryProcess := false }
  | .launch => { s with threads := s.threads ++ [.created] }

def State.threadStep (s : State) (k : Nat) : LaunchThread → State
  | .created => { s with threads := s.threads.set k .executed, scripts := s.scripts ++ [⟨false, .test⟩] }
  | .executed => { s with threads := s.threads.eraseIdx k, binaryProcess := true }

/-- SIGTERM to the process with the given pid. -/
def Daemon.kill (pid : Option Nat) (d : Daemon) : Daemon :=
  if pid = some d.pid then { d with exitFlag := true } else d

def State.scriptStep (s : State) (k : Nat) (x : Script) : State :=
  match x.pc with
  | .test => { s with scripts := s.scripts.set k ⟨x.stop, if s.pidFile.isSome then .cat else .branch⟩ }
  | .cat => { s with scripts := s.scripts.set k ⟨x.stop, .kill s.pidFile.join⟩ }
  | .kill pid => { s with scripts := s.scripts.set k ⟨x.stop, .truncate⟩, daemons := s.daemons.map (·.kill pid) }
  | .truncate => { s with scripts := s.scripts.set k ⟨x.stop, .branch⟩, pidFile := some none }
  | .branch =>
    if x.stop then { s with scripts := s.scripts.eraseIdx k }
    else
      { s with
        scripts := s.scripts.eraseIdx k
        daemons := s.daemons ++ [⟨s.nextPid, .starting, false⟩]
        nextPid := s.nextPid + 1 }

def Daemon.hasPorts (d : Daemon) : Bool := d.phase != .starting

/-- A daemon that finds its ports taken ends; the pid is in the file when the file is closed. -/
def State.daemonStep (s : State) (k : Nat) (d : Daemon) : Option State :=
  match d.phase with
  | .starting =>
    if s.daemons.any (·.hasPorts) then some { s with daemons := s.daemons.eraseIdx k }
    else some { s with daemons := s.daemons.set k { d with phase := .serving } }
  | .serving => some { s with daemons := s.daemons.set k { d with phase := .opened }, pidFile := some none }
  | .opened => some { s with daemons := s.daemons.set k { d with phase := .published }, pidFile := some (some d.pid) }
  | .published => if d.exitFlag then some { s with daemons := s.daemons.eraseIdx k } else none

/-- Who takes the next step. -/
inductive Action where
  | intent (intent : Intent)
  | main
  | thread (k : Nat)
  | script (k : Nat)
  | daemon (k : Nat)
  deriving DecidableEq

def Action.isIntent : Action → Bool
  | .intent _ => true
  | _ => false

def step (s : State) : Action → Option State
  | .intent intent => if s.main = [] then some (s.onStartCommand intent) else none
  | .main =>
    match s.main with
    | [] => none
    | statement :: main => some ({ s with main := main }.execute statement)
  | .thread k => (s.threads[k]?).map (s.threadStep k)
  | .script k => (s.scripts[k]?).map (s.scriptStep k)
  | .daemon k => (s.daemons[k]?).bind (s.daemonStep k)

/-- Everything that was started has come to its end, and the daemons that got the signal have ended. -/
def State.Finished (s : State) : Prop :=
  s.main = [] ∧ s.threads = [] ∧ s.scripts = [] ∧ ∀ d ∈ s.daemons, d.exitFlag = false

instance (s : State) : Decidable s.Finished :=
  inferInstanceAs (Decidable (s.main = [] ∧ s.threads = [] ∧ s.scripts = [] ∧ ∀ d ∈ s.daemons, d.exitFlag = false))

/-! ### What a step can do -/

section

variable {s s' : State} {k : Nat}

theorem intent_cases {intent : Intent} (h : step s (.intent intent) = some s') :
    s.main = [] ∧ s' = s.onStartCommand intent := by
  by_cases hmain : s.main = []
  · rw [step, if_pos hmain] at h
    exact ⟨hmain, (Option.some.inj h).symm⟩
  · rw [step, if_neg hmain] at h
    cases h

theorem main_cases (h : step s .main = some s') :
    ∃ statement main, s.main = statement :: main ∧ s' = { s with main := main }.execute statement := by
  cases hmain : s.main with
  | nil => simp [step, hmain] at h
  | cons statement rest =>
    simp only [step, hmain, Option.some.injEq] at h
    exact ⟨statement, rest, rfl, h.symm⟩

theorem thread_cases (h : step s (.thread k) = some s') :
    ∃ x pre post, s.threads = pre ++ x :: post ∧
      ((x = .created ∧ s' = { s with threads := pre ++ .executed :: post, scripts := s.scripts ++ [⟨false, .test⟩] }) ∨
        (x = .executed ∧ s' = { s with threads := pre ++ post, binaryProcess := true })) := by
  obtain ⟨x, hx, hs'⟩ := Option.map_eq_some_iff.1 h
  obtain ⟨pre, post, hsplit, hset, herase⟩ := exists_split hx
  refine ⟨x, pre, post, hsplit, ?_⟩
  rw [← hs']
  cases x with
  | created =>
    left
    rw [State.threadStep, hset]
    exact ⟨rfl, rfl⟩
  | executed =>
    right
    rw [State.threadStep, herase]
    exact ⟨rfl, rfl⟩

theorem script_cases (h : step s (.script k) = some s') :
    ∃ x pre post, s.scripts[k]? = some x ∧ s.scripts = pre ++ x :: post ∧
      ((x.pc = .test ∧
          s' = { s with scripts := pre ++ ⟨x.stop, if s.pidFile.isSome then .cat else .branch⟩ :: post }) ∨
        (x.pc = .cat ∧ s' = { s with scripts := pre ++ ⟨x.stop, .kill s.pidFile.join⟩ :: post }) ∨
        (∃ pid, x.pc = .kill pid ∧
          s' = { s with scripts := pre ++ ⟨x.stop, .truncate⟩ :: post, daemons := s.daemons.map (·.kill pid) }) ∨
        (x.pc = .truncate ∧ s' = { s with scripts := pre ++ ⟨x.stop, .branch⟩ :: post, pidFile := some none }) ∨
        (x.pc = .branch ∧ x.stop = true ∧ s' = { s with scripts := pre ++ post }) ∨
        (x.pc = .branch ∧ x.stop = false ∧
          s' =
            { s with
              scripts := pre ++ post
              daemons := s.daemons ++ [⟨s.nextPid, .starting, false⟩]
              nextPid := s.nextPid + 1 })) := by
  obtain ⟨x, hx, hs'⟩ := Option.map_eq_some_iff.1 h
  obtain ⟨pre, post, hsplit, hset, herase⟩ := exists_split hx
  refine ⟨x, pre, post, hx, hsplit, ?_⟩
  obtain ⟨stop, pc⟩ := x
  subst hs'
  cases pc with
  | test => simp [State.scriptStep, hset]
  | cat => simp [State.scriptStep, hset]
  | kill pid => simp [State.scriptStep, hset]
  | truncate => simp [State.scriptStep, hset]
  | branch => cases stop <;> simp [State.scriptStep, herase]

theorem daemon_cases (h : step s (.daemon k) = some s') :
    ∃ d pre post, s.daemons = pre ++ d :: post ∧
      ((d.phase = .starting ∧ s' = { s with daemons := pre ++ post }) ∨
        (d.phase = .starting ∧ (∀ e ∈ s.daemons, e.hasPorts = false) ∧
          s' = { s with daemons := pre ++ { d with phase := .serving } :: post }) ∨
        (d.phase = .serving ∧
          s' = { s with daemons := pre ++ { d with phase := .opened } :: post, pidFile := some none }) ∨
        (d.phase = .opened ∧
          s' = { s with daemons := pre ++ { d with phase := .published } :: post, pidFile := some (some d.pid) }) ∨
        (d.phase = .published ∧ d.exitFlag = true ∧ s' = { s with daemons := pre ++ post })) := by
  obtain ⟨d, hd, hs'⟩ := Option.bind_eq_some_iff.1 h
  obtain ⟨pre, post, hsplit, hset, herase⟩ := exists_split hd
  refine ⟨d, pre, post, hsplit, ?_⟩
  obtain ⟨pid, phase, exitFlag⟩ := d
  cases phase with
  | starting =>
    by_cases hports : s.daemons.any (·.hasPorts) = true
    · left
      rw [State.daemonStep, if_pos hports, herase] at hs'
      exact ⟨rfl, (Option.some.inj hs').symm⟩
    · right
      left
      rw [State.daemonStep, if_neg hports, hset] at hs'
      refine ⟨rfl, ?_, (Option.some.inj hs').symm⟩
      simpa using hports
  | serving =>
    simp only [State.daemonStep, hset] at hs'
    exact Or.inr (Or.inr (Or.inl ⟨rfl, (Option.some.inj hs').symm⟩))
  | opened =>
    simp only [State.daemonStep, hset] at hs'
    exact Or.inr (Or.inr (Or.inr (Or.inl ⟨rfl, (Option.some.inj hs').symm⟩)))
  | published =>
    cases exitFlag with
    | false => cases hs'
    | true =>
      rw [State.daemonStep, if_pos rfl, herase] at hs'
      exact Or.inr (Or.inr (Or.inr (Or.inr ⟨rfl, rfl, (Option.some.inj hs').symm⟩)))

/-- Only an intent changes the last intent. -/
theorem step_last {a : Action} (h : step s a = some s') (ha : a.isIntent = false) : s'.last = s.last := by
  cases a with
  | intent intent => cases ha
  | main =>
    obtain ⟨statement, rest, -, rfl⟩ := main_cases h
    cases statement <;> rfl
  | thread k =>
    obtain ⟨x, pre, post, -, ⟨-, rfl⟩ | ⟨-, rfl⟩⟩ := thread_cases h <;> rfl
  | script k =>
    obtain ⟨x, pre, post, -, -, hcases⟩ := script_cases h
    rcases hcases with ⟨-, rfl⟩ | ⟨-, rfl⟩ | ⟨pid, -, rfl⟩ | ⟨-, rfl⟩ | ⟨-, -, rfl⟩ | ⟨-, -, rfl⟩ <;> rfl
  | daemon k =>
    obtain ⟨d, pre, post, -, hcases⟩ := daemon_cases h
    rcases hcases with ⟨-, rfl⟩ | ⟨-, -, rfl⟩ | ⟨-, rfl⟩ | ⟨-, rfl⟩ | ⟨-, -, rfl⟩ <;> rfl

end

/-! ### Every interleaving comes to an end -/

/-- A bound on the steps a statement, a thread, a script or a daemon still gives rise to. -/
def Statement.work : Statement → Nat
  | .execStop => 6
  | .clear => 1
  | .launch => 12

@[inherit_doc Statement.work]
def LaunchThread.work : LaunchThread → Nat
  | .created => 11
  | .executed => 1

@[inherit_doc Statement.work]
def Script.work (x : Script) : Nat :=
  (match x.pc with
    | .test => 5
    | .cat => 4
    | .kill _ => 3
    | .truncate => 2
    | .branch => 1) + if x.stop then 0 else 4

@[inherit_doc Statement.work]
def Daemon.work (d : Daemon) : Nat :=
  match d.phase with
  | .starting => 4
  | .serving => 3
  | .opened => 2
  | .published => 1

def State.work (s : State) : Nat :=
  (s.main.map Statement.work).sum + (s.threads.map LaunchThread.work).sum + (s.scripts.map Script.work).sum +
    (s.daemons.map Daemon.work).sum

theorem Daemon.work_kill (pid : Option Nat) (d : Daemon) : (d.kill pid).work = d.work := by
  unfold Daemon.kill
  split <;> rfl

/-- Without a new intent, every step leaves less work. -/
theorem step_work_lt {s s' : State} {a : Action} (h : step s a = some s') (ha : a.isIntent = false) :
    s'.work < s.work := by
  cases a with
  | intent intent => cases ha
  | main =>
    obtain ⟨statement, main, hmain, rfl⟩ := main_cases h
    cases statement with
    | execStop =>
      simp [State.work, State.execute, hmain, Statement.work, Script.work]
      omega
    | clear => simp [State.work, State.execute, hmain, Statement.work]
    | launch =>
      simp [State.work, State.execute, hmain, Statement.work, LaunchThread.work]
      omega
  | thread k =>
    obtain ⟨x, pre, post, hsplit, ⟨rfl, rfl⟩ | ⟨rfl, rfl⟩⟩ := thread_cases h
    · simp [State.work, hsplit, LaunchThread.work, Script.work]
      omega
    · simp [State.work, hsplit, LaunchThread.work]
  | script k =>
    obtain ⟨⟨stop, pc⟩, pre, post, -, hsplit, hcases⟩ := script_cases h
    have hkill (pid : Option Nat) : Daemon.work ∘ (fun d => d.kill pid) = Daemon.work :=
      funext fun d => d.work_kill pid
    rcases hcases with ⟨rfl, rfl⟩ | ⟨rfl, rfl⟩ | ⟨pid, rfl, rfl⟩ | ⟨rfl, rfl⟩ | ⟨rfl, rfl, rfl⟩ | ⟨rfl, rfl, rfl⟩
    · cases s.pidFile <;> simp [State.work, hsplit, Script.work]
    · simp [State.work, hsplit, Script.work]
    · simp [State.work, hsplit, Script.work, hkill]
    · simp [State.work, hsplit, Script.work]
    · simp [State.work, hsplit, Script.work]
    · simp [State.work, hsplit, Script.work, Daemon.work]
      omega
  | daemon k =>
    obtain ⟨⟨pid, phase, exitFlag⟩, pre, post, hsplit, hcases⟩ := daemon_cases h
    rcases hcases with ⟨rfl, rfl⟩ | ⟨rfl, -, rfl⟩ | ⟨rfl, rfl⟩ | ⟨rfl, rfl⟩ | ⟨rfl, rfl, rfl⟩ <;>
      simp [State.work, hsplit, Daemon.work]

end Tinyweb.Service
