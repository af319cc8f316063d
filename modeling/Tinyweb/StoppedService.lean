import Tinyweb.TinywebService

/-!
# A stopped service

After a last STOP no server should be left.  It may be: `service.sh -k` can overtake a launch, find no pid and end, and
the daemon then writes its pid (`overtaken_stop`).

No server is left in runs that keep to an order (`Orderly`): a script looks for the pid file only when every daemon has
written its pid, a daemon is launched only when no script is at work on the pid file, and while STOP is the last intent
`service.sh -k` waits for the launches.  The script then has a proof outline (`Script.Outline`) that the other processes
do not disturb, and whatever is left of a STOP sees to it that every daemon gets the signal (`State.Stopping`).
-/

namespace Tinyweb.Service

open Transitions

/-! ### The order -/

/-- Whether the script is between its test for the pid file and the emptying of it. -/
def Script.inSection (x : Script) : Bool := x.pc != .test && x.pc != .branch

/-- No server is launched and none will be, unless there is a new intent. -/
def State.NoLaunch (s : State) : Prop :=
  .launch ∉ s.main ∧ .created ∉ s.threads ∧ ∀ x ∈ s.scripts, x.stop = true

instance (s : State) : Decidable s.NoLaunch :=
  inferInstanceAs (Decidable (.launch ∉ s.main ∧ .created ∉ s.threads ∧ ∀ x ∈ s.scripts, x.stop = true))

/-- What the order asks of the next step of the script `x`. -/
def Script.Orderly (s : State) (x : Script) : Prop :=
  (x.pc = .test → (∀ d ∈ s.daemons, d.phase = .published) ∧ (x.stop = true → s.last = some .stop → s.NoLaunch)) ∧
    (x.pc = .branch → x.stop = false → ∀ y ∈ s.scripts, y.inSection = false)

instance (s : State) (x : Script) : Decidable (x.Orderly s) :=
  inferInstanceAs (Decidable ((_ → (∀ d ∈ s.daemons, d.phase = .published) ∧ (_ → _ → s.NoLaunch)) ∧ (_ → _ → _)))

/-- Only the scripts have to keep to the order. -/
def Orderly (s : State) : Action → Prop
  | .script k => ∀ x ∈ s.scripts[k]?, x.Orderly s
  | _ => True

instance (s : State) : ∀ a, Decidable (Orderly s a)
  | .script k => inferInstanceAs (Decidable (∀ x ∈ s.scripts[k]?, x.Orderly s))
  | .intent _ => isTrue trivial
  | .main => isTrue trivial
  | .thread _ => isTrue trivial
  | .daemon _ => isTrue trivial

/-! ### The daemons and the pid file -/

@[simp] theorem Daemon.kill_pid (pid : Option Nat) (d : Daemon) : (d.kill pid).pid = d.pid := by
  unfold Daemon.kill
  split <;> rfl

@[simp] theorem Daemon.kill_phase (pid : Option Nat) (d : Daemon) : (d.kill pid).phase = d.phase := by
  unfold Daemon.kill
  split <;> rfl

@[simp] theorem Daemon.kill_exitFlag (pid : Option Nat) (d : Daemon) :
    (d.kill pid).exitFlag = true ↔ d.exitFlag = true ∨ pid = some d.pid := by
  unfold Daemon.kill
  split <;> simp [*]

/-- What a script can rely on where it is. -/
def Script.Outline (daemons : List Daemon) (x : Script) : Prop :=
  match x.pc with
  | .test => True
  | .cat => ∀ d ∈ daemons, d.phase = .published
  | .kill pid => ∀ d ∈ daemons, d.phase = .published ∧ (d.exitFlag = true ∨ pid = some d.pid)
  | .truncate => ∀ d ∈ daemons, d.phase = .published ∧ d.exitFlag = true
  | .branch => True

/-- What a daemon may become. -/
def Daemon.Later (d e : Daemon) : Prop :=
  e.pid = d.pid ∧ (d.phase = .published → e.phase = .published) ∧ (d.exitFlag = true → e.exitFlag = true)

theorem Daemon.later_refl (d : Daemon) : d.Later d := ⟨rfl, id, id⟩

theorem Daemon.later_kill (pid : Option Nat) (d : Daemon) : d.Later (d.kill pid) := by
  refine ⟨d.kill_pid pid, ?_, ?_⟩
  · intro h
    rw [d.kill_phase, h]
  · intro h
    rw [d.kill_exitFlag]
    exact Or.inl h

theorem Daemon.later_phase {d : Daemon} (h : d.phase ≠ .published) (phase : Phase) :
    d.Later { d with phase := phase } :=
  ⟨rfl, fun hd => absurd hd h, id⟩

/-- Nothing that becomes of the daemons disturbs a script. -/
theorem Script.Outline.later {ds es : List Daemon} {x : Script} (h : x.Outline ds)
    (hlater : ∀ e ∈ es, ∃ d ∈ ds, d.Later e) : x.Outline es := by
  obtain ⟨stop, pc⟩ := x
  cases pc with
  | test => trivial
  | cat =>
    intro e he
    obtain ⟨d, hd, -, hphase, -⟩ := hlater e he
    exact hphase (h d hd)
  | kill pid =>
    intro e he
    obtain ⟨d, hd, hpid, hphase, hflag⟩ := hlater e he
    rw [hpid]
    exact ⟨hphase (h d hd).1, (h d hd).2.imp_left hflag⟩
  | truncate =>
    intro e he
    obtain ⟨d, hd, -, hphase, hflag⟩ := hlater e he
    exact ⟨hphase (h d hd).1, hflag (h d hd).2⟩
  | branch => trivial

/-- Where the script has read the pids of the daemons, its signal reaches them all. -/
theorem Script.Outline.kill {ds : List Daemon} {stop : Bool} {pid : Option Nat}
    (h : Script.Outline ds ⟨stop, .kill pid⟩) : Script.Outline (ds.map (·.kill pid)) ⟨stop, .truncate⟩ := by
  intro e he
  obtain ⟨d, hd, rfl⟩ := List.mem_map.1 he
  rw [d.kill_phase, d.kill_exitFlag]
  exact h d hd

theorem Script.outline_of_not_inSection {ds : List Daemon} {x : Script} (h : x.inSection = false) : x.Outline ds := by
  obtain ⟨stop, pc⟩ := x
  cases pc with
  | test => trivial
  | cat => cases h
  | kill pid => cases h
  | truncate => cases h
  | branch => trivial

/-- At most one daemon has the ports.  If it has written its pid and got no signal, the pid is in the file. -/
structure PidFileInv (s : State) : Prop where
  ports : s.daemons.countP (·.hasPorts) ≤ 1
  file : ∀ d ∈ s.daemons, d.phase = .published → d.exitFlag = true ∨ s.pidFile = some (some d.pid)
  outline : ∀ x ∈ s.scripts, x.Outline s.daemons

theorem PidFileInv.initial (pidFile : Option (Option Nat)) : PidFileInv (initial pidFile) where
  ports := Nat.zero_le 1
  file := nofun
  outline := nofun

theorem PidFileInv.isSome_or_signalled {s : State} (h : PidFileInv s)
    (hpublished : ∀ d ∈ s.daemons, d.phase = .published) :
    s.pidFile.isSome = true ∨ ∀ d ∈ s.daemons, d.exitFlag = true := by
  cases hfile : s.pidFile with
  | some content => exact Or.inl rfl
  | none =>
    right
    intro d hd
    have hd' := h.file d hd (hpublished d hd)
    rw [hfile] at hd'
    exact hd'.resolve_right nofun

section

variable {s s' : State} {k : Nat}

/-- The service and the threads do not touch the daemons and the file; the scripts they add have yet to begin. -/
theorem PidFileInv.add_scripts (h : PidFileInv s) (hscripts : ∀ x ∈ s'.scripts, x ∈ s.scripts ∨ x.pc = .test)
    (hdaemons : s'.daemons = s.daemons) (hfile : s'.pidFile = s.pidFile) : PidFileInv s' where
  ports := by
    rw [hdaemons]
    exact h.ports
  file := by
    rw [hdaemons, hfile]
    exact h.file
  outline := by
    intro x hx
    rcases hscripts x hx with hx | htest
    · rw [hdaemons]
      exact h.outline x hx
    · rw [Script.Outline, htest]
      trivial

theorem PidFileInv.main (h : PidFileInv s) (hstep : step s .main = some s') : PidFileInv s' := by
  obtain ⟨statement, rest, -, rfl⟩ := main_cases hstep
  cases statement with
  | execStop =>
    refine h.add_scripts (fun x hx => ?_) rfl rfl
    rw [State.execute, List.mem_append, List.mem_singleton] at hx
    rcases hx with hx | rfl
    · exact Or.inl hx
    · exact Or.inr rfl
  | clear => exact h.add_scripts (fun x hx => Or.inl hx) rfl rfl
  | launch => exact h.add_scripts (fun x hx => Or.inl hx) rfl rfl

theorem PidFileInv.thread (h : PidFileInv s) (hstep : step s (.thread k) = some s') : PidFileInv s' := by
  obtain ⟨x, pre, post, -, ⟨-, rfl⟩ | ⟨-, rfl⟩⟩ := thread_cases hstep
  · refine h.add_scripts (fun y hy => ?_) rfl rfl
    rw [List.mem_append, List.mem_singleton] at hy
    rcases hy with hy | rfl
    · exact Or.inl hy
    · exact Or.inr rfl
  · exact h.add_scripts (fun y hy => Or.inl hy) rfl rfl

theorem PidFileInv.script (h : PidFileInv s) (hstep : step s (.script k) = some s') (hok : Orderly s (.script k)) :
    PidFileInv s' := by
  obtain ⟨⟨stop, pc⟩, pre, post, hx, hsplit, hcases⟩ := script_cases hstep
  obtain ⟨hports, hfile, houtline⟩ := h
  obtain ⟨htest, hbranch⟩ := hok _ hx
  rw [hsplit] at houtline hbranch
  have hself := houtline ⟨stop, pc⟩ mem_self
  have hothers : ∀ y ∈ pre ++ post, y.Outline s.daemons := fun y hy => houtline y (mem_of_mem_others hy)
  rcases hcases with ⟨rfl, rfl⟩ | ⟨rfl, rfl⟩ | ⟨pid, rfl, rfl⟩ | ⟨rfl, rfl⟩ | ⟨rfl, rfl, rfl⟩ | ⟨rfl, rfl, rfl⟩
  · refine ⟨hports, hfile, fun y hy => ?_⟩
    rcases mem_others_or_eq hy with hy | rfl
    · exact hothers y hy
    · cases s.pidFile with
      | none => trivial
      | some content => exact (htest rfl).1
  · refine ⟨hports, hfile, fun y hy => ?_⟩
    rcases mem_others_or_eq hy with hy | rfl
    · exact hothers y hy
    · -- every daemon without the signal has its pid in the file that is read
      intro d hd
      refine ⟨hself d hd, (hfile d hd (hself d hd)).imp_right fun h => ?_⟩
      rw [h]
      rfl
  · have hkilled : ∀ e ∈ s.daemons.map (·.kill pid), ∃ d ∈ s.daemons, d.Later e := by
      intro e he
      obtain ⟨d, hd, rfl⟩ := List.mem_map.1 he
      exact ⟨d, hd, d.later_kill pid⟩
    have hcount : (fun d => Daemon.hasPorts d) ∘ (fun d => Daemon.kill pid d) = fun d => Daemon.hasPorts d := by
      funext d
      simp [Daemon.hasPorts]
    refine ⟨?_, ?_, fun y hy => ?_⟩
    · rw [List.countP_map, hcount]
      exact hports
    · intro e he hphase
      obtain ⟨d, hd, rfl⟩ := List.mem_map.1 he
      rw [d.kill_phase] at hphase
      rw [d.kill_exitFlag, d.kill_pid]
      exact (hfile d hd hphase).imp_left Or.inl
    · rcases mem_others_or_eq hy with hy | rfl
      · exact (hothers y hy).later hkilled
      · exact hself.kill
  · refine ⟨hports, fun d hd _ => Or.inl (hself d hd).2, fun y hy => ?_⟩
    rcases mem_others_or_eq hy with hy | rfl
    · exact hothers y hy
    · trivial
  · exact ⟨hports, hfile, hothers⟩
  · refine ⟨?_, ?_, ?_⟩
    · rw [List.countP_append]
      exact hports
    · intro d hd hphase
      rw [List.mem_append, List.mem_singleton] at hd
      rcases hd with hd | rfl
      · exact hfile d hd hphase
      · cases hphase
    · intro y hy
      exact Script.outline_of_not_inSection (hbranch rfl rfl y (mem_of_mem_others hy))

/-- A daemon touches only itself and the pid file. -/
private theorem daemon_frame (hstep : step s (.daemon k) = some s') :
    s'.main = s.main ∧ s'.threads = s.threads ∧ s'.scripts = s.scripts ∧ ∀ e ∈ s'.daemons,
      ∃ d ∈ s.daemons, d.Later e := by
  obtain ⟨⟨pid, phase, exitFlag⟩, pre, post, hsplit, hcases⟩ := daemon_cases hstep
  have hended : ∀ e ∈ pre ++ post, ∃ d ∈ s.daemons, d.Later e := by
    intro e he
    rw [hsplit]
    exact ⟨e, mem_of_mem_others he, e.later_refl⟩
  have hmoved (phase' : Phase) (hne : phase ≠ .published) :
      ∀ e ∈ pre ++ ⟨pid, phase', exitFlag⟩ :: post, ∃ d ∈ s.daemons, d.Later e := by
    intro e he
    rcases mem_others_or_eq he with he | rfl
    · exact hended e he
    · rw [hsplit]
      exact ⟨⟨pid, phase, exitFlag⟩, mem_self, Daemon.later_phase hne phase'⟩
  rcases hcases with ⟨-, rfl⟩ | ⟨rfl, -, rfl⟩ | ⟨rfl, rfl⟩ | ⟨rfl, rfl⟩ | ⟨-, -, rfl⟩
  · exact ⟨rfl, rfl, rfl, hended⟩
  · exact ⟨rfl, rfl, rfl, hmoved .serving nofun⟩
  · exact ⟨rfl, rfl, rfl, hmoved .opened nofun⟩
  · exact ⟨rfl, rfl, rfl, hmoved .published nofun⟩
  · exact ⟨rfl, rfl, rfl, hended⟩

/-- A daemon goes on while no other has the ports. -/
private theorem ports_file_of_alone {pre post : List Daemon} {d : Daemon}
    (hfree : ∀ e ∈ pre ++ post, e.hasPorts = false)
    {pidFile : Option (Option Nat)} (hfile : d.phase = .published → pidFile = some (some d.pid)) :
    (pre ++ d :: post).countP (·.hasPorts) ≤ 1 ∧
      ∀ e ∈ pre ++ d :: post, e.phase = .published → e.exitFlag = true ∨ pidFile = some (some e.pid) := by
  constructor
  · have hzero : (pre ++ post).countP (·.hasPorts) = 0 :=
      List.countP_eq_zero.2 fun e he => by simp [hfree e he]
    rw [List.countP_append] at hzero
    rw [List.countP_append, List.countP_cons]
    split <;> omega
  · intro e he hphase
    rcases mem_others_or_eq he with he | rfl
    · have hnone := hfree e he
      rw [Daemon.hasPorts, hphase] at hnone
      cases hnone
    · exact Or.inr (hfile hphase)

theorem PidFileInv.daemon (h : PidFileInv s) (hstep : step s (.daemon k) = some s') : PidFileInv s' := by
  obtain ⟨-, -, hscripts, hlater⟩ := daemon_frame hstep
  have houtline : ∀ x ∈ s'.scripts, x.Outline s'.daemons := by
    rw [hscripts]
    exact fun x hx => (h.outline x hx).later hlater
  obtain ⟨⟨pid, phase, exitFlag⟩, pre, post, hsplit, hcases⟩ := daemon_cases hstep
  obtain ⟨hports, hfile, -⟩ := h
  rw [hsplit, List.countP_append, List.countP_cons] at hports
  rw [hsplit] at hfile hcases
  have hended : (pre ++ post).countP (·.hasPorts) ≤ 1 := by
    rw [List.countP_append]
    omega
  have halone (hd : phase ≠ .starting) : ∀ e ∈ pre ++ post, e.hasPorts = false := by
    have hhas : Daemon.hasPorts ⟨pid, phase, exitFlag⟩ = true := bne_iff_ne.2 hd
    have hzero : (pre ++ post).countP (·.hasPorts) = 0 := by
      rw [if_pos hhas] at hports
      rw [List.countP_append]
      omega
    intro e he
    simpa using List.countP_eq_zero.1 hzero e he
  rcases hcases with ⟨-, rfl⟩ | ⟨rfl, hfree, rfl⟩ | ⟨rfl, rfl⟩ | ⟨rfl, rfl⟩ | ⟨-, -, rfl⟩
  · exact ⟨hended, fun e he => hfile e (mem_of_mem_others he), houtline⟩
  · obtain ⟨hports', hfile'⟩ := @ports_file_of_alone pre post ⟨pid, .serving, exitFlag⟩
      (fun e he => hfree e (mem_of_mem_others he)) s.pidFile nofun
    exact ⟨hports', hfile', houtline⟩
  · obtain ⟨hports', hfile'⟩ := @ports_file_of_alone pre post ⟨pid, .opened, exitFlag⟩
      (halone nofun) (some none) nofun
    exact ⟨hports', hfile', houtline⟩
  · obtain ⟨hports', hfile'⟩ := @ports_file_of_alone pre post ⟨pid, .published, exitFlag⟩
      (halone nofun) (some (some pid)) fun _ => rfl
    exact ⟨hports', hfile', houtline⟩
  · exact ⟨hended, fun e he => hfile e (mem_of_mem_others he), houtline⟩

theorem PidFileInv.step (h : PidFileInv s) {a : Action} (hstep : step s a = some s') (hok : Orderly s a) :
    PidFileInv s' := by
  cases a with
  | intent intent =>
    obtain ⟨-, rfl⟩ := intent_cases hstep
    exact h.add_scripts (fun x hx => Or.inl hx) rfl rfl
  | main => exact h.main hstep
  | thread k => exact h.thread hstep
  | script k => exact h.script hstep hok
  | daemon k => exact h.daemon hstep

end

/-! ### The last STOP -/

/-- The script will still read the pid and kill the daemon, or has read the pid and will kill. -/
def Script.Kills (x : Script) : Prop := x.pc = .cat ∨ ∃ pid, x.pc = .kill pid

/-- What is left of a STOP: `service.sh -k` has yet to begin, or there are no launches and the script is about to kill
what runs, or every daemon has got the signal. -/
def State.Stopping (s : State) : Prop :=
  (.execStop ∈ s.main ∨ ∃ x ∈ s.scripts, x.stop = true ∧ x.pc = .test) ∨
    s.NoLaunch ∧ ((∃ x ∈ s.scripts, x.Kills) ∨ ∀ d ∈ s.daemons, d.exitFlag = true)

section

variable {s s' : State} {k : Nat}

theorem State.Stopping.main (h : s.Stopping) (hstep : step s .main = some s') : s'.Stopping := by
  obtain ⟨statement, rest, hmain, rfl⟩ := main_cases hstep
  cases statement with
  | execStop => exact Or.inl (Or.inr ⟨⟨true, .test⟩, List.mem_append_right _ (List.mem_singleton_self _), rfl, rfl⟩)
  | clear =>
    rcases h with (hexec | htest) | ⟨⟨hlaunch, hnone⟩, hleft⟩
    · rw [hmain] at hexec
      exact Or.inl (Or.inl ((List.mem_cons.1 hexec).resolve_left nofun))
    · exact Or.inl (Or.inr htest)
    · rw [hmain] at hlaunch
      exact Or.inr ⟨⟨fun h => hlaunch (List.mem_cons_of_mem _ h), hnone⟩, hleft⟩
  | launch =>
    rcases h with (hexec | htest) | ⟨⟨hlaunch, -⟩, -⟩
    · rw [hmain] at hexec
      exact Or.inl (Or.inl ((List.mem_cons.1 hexec).resolve_left nofun))
    · exact Or.inl (Or.inr htest)
    · rw [hmain] at hlaunch
      exact absurd (List.mem_cons_self ..) hlaunch

theorem State.Stopping.thread (h : s.Stopping) (hstep : step s (.thread k) = some s') : s'.Stopping := by
  obtain ⟨x, pre, post, hsplit, ⟨rfl, rfl⟩ | ⟨rfl, rfl⟩⟩ := thread_cases hstep
  · rcases h with (hexec | ⟨x, hx, htest⟩) | ⟨⟨-, hcreated, -⟩, -⟩
    · exact Or.inl (Or.inl hexec)
    · exact Or.inl (Or.inr ⟨x, List.mem_append_left _ hx, htest⟩)
    · rw [hsplit] at hcreated
      exact absurd mem_self hcreated
  · rcases h with hbefore | ⟨⟨hlaunch, hcreated, hscripts⟩, hleft⟩
    · exact Or.inl hbefore
    · rw [hsplit] at hcreated
      exact Or.inr ⟨⟨hlaunch, fun h => hcreated (mem_of_mem_others h), hscripts⟩, hleft⟩

/-- A script changes nothing of the service and the other scripts, and keeps its option. -/
private theorem script_frame (hstep : step s (.script k) = some s') :
    s'.main = s.main ∧ s'.threads = s.threads ∧ ∀ y ∈ s'.scripts, ∃ x ∈ s.scripts, y.stop = x.stop := by
  obtain ⟨x, pre, post, -, hsplit, hcases⟩ := script_cases hstep
  have hmoved (pc : Pc) : ∀ y ∈ pre ++ ⟨x.stop, pc⟩ :: post, ∃ x ∈ s.scripts, y.stop = x.stop := by
    intro y hy
    rw [hsplit]
    rcases mem_others_or_eq hy with hy | rfl
    · exact ⟨y, mem_of_mem_others hy, rfl⟩
    · exact ⟨x, mem_self, rfl⟩
  have hended : ∀ y ∈ pre ++ post, ∃ x ∈ s.scripts, y.stop = x.stop := by
    intro y hy
    rw [hsplit]
    exact ⟨y, mem_of_mem_others hy, rfl⟩
  rcases hcases with ⟨-, rfl⟩ | ⟨-, rfl⟩ | ⟨pid, -, rfl⟩ | ⟨-, rfl⟩ | ⟨-, -, rfl⟩ | ⟨-, -, rfl⟩
  · exact ⟨rfl, rfl, hmoved _⟩
  · exact ⟨rfl, rfl, hmoved _⟩
  · exact ⟨rfl, rfl, hmoved _⟩
  · exact ⟨rfl, rfl, hmoved _⟩
  · exact ⟨rfl, rfl, hended⟩
  · exact ⟨rfl, rfl, hended⟩

private theorem State.NoLaunch.script (h : s.NoLaunch) (hstep : step s (.script k) = some s') : s'.NoLaunch := by
  obtain ⟨hmain, hthreads, hscripts⟩ := script_frame hstep
  obtain ⟨hlaunch, hcreated, hstop⟩ := h
  rw [State.NoLaunch, hmain, hthreads]
  refine ⟨hlaunch, hcreated, fun y hy => ?_⟩
  obtain ⟨x, hx, heq⟩ := hscripts y hy
  rw [heq, hstop x hx]

theorem State.Stopping.script (h : s.Stopping) (hinv : PidFileInv s) (hlast : s.last = some .stop)
    (hstep : step s (.script k) = some s') (hok : Orderly s (.script k)) : s'.Stopping := by
  obtain ⟨hmain, -, -⟩ := script_frame hstep
  have hnolaunch (h : s.NoLaunch) : s'.NoLaunch := h.script hstep
  obtain ⟨⟨stop, pc⟩, pre, post, hx, hsplit, hcases⟩ := script_cases hstep
  have hothers : ∀ y ∈ pre ++ post, y ∈ s'.scripts := by
    rcases hcases with ⟨-, rfl⟩ | ⟨-, rfl⟩ | ⟨pid, -, rfl⟩ | ⟨-, rfl⟩ | ⟨-, -, rfl⟩ | ⟨-, -, rfl⟩
    · exact fun y hy => mem_of_mem_others hy
    · exact fun y hy => mem_of_mem_others hy
    · exact fun y hy => mem_of_mem_others hy
    · exact fun y hy => mem_of_mem_others hy
    · exact fun y hy => hy
    · exact fun y hy => hy
  rcases h with (hexec | ⟨y, hy, hstop, htest⟩) | ⟨hnone, ⟨y, hy, hkills⟩ | hall⟩
  · rw [← hmain] at hexec
    exact Or.inl (Or.inl hexec)
  · rw [hsplit] at hy
    rcases mem_others_or_eq hy with hy | rfl
    · exact Or.inl (Or.inr ⟨y, hothers y hy, hstop, htest⟩)
    · -- the script begins, with every pid written and no launch left
      obtain ⟨hpublished, hwait⟩ := (hok _ hx).1 htest
      refine Or.inr ⟨hnolaunch (hwait hstop hlast), ?_⟩
      dsimp only at htest
      subst htest
      simp only [reduceCtorEq, false_and, exists_const, or_false, true_and] at hcases
      subst hcases
      rcases hinv.isSome_or_signalled hpublished with hfile | hall
      · rw [hfile]
        exact Or.inl ⟨⟨stop, .cat⟩, mem_self, Or.inl rfl⟩
      · exact Or.inr hall
  · rw [hsplit] at hy
    rcases mem_others_or_eq hy with hy | rfl
    · exact Or.inr ⟨hnolaunch hnone, Or.inl ⟨y, hothers y hy, hkills⟩⟩
    · refine Or.inr ⟨hnolaunch hnone, ?_⟩
      rcases hkills with hcat | ⟨pid, hkill⟩
      · dsimp only at hcat
        subst hcat
        simp only [reduceCtorEq, false_and, exists_const, or_false, false_or, true_and] at hcases
        subst hcases
        exact Or.inl ⟨⟨stop, .kill s.pidFile.join⟩, mem_self, Or.inr ⟨s.pidFile.join, rfl⟩⟩
      · have houtline := hinv.outline ⟨stop, pc⟩ (by rw [hsplit]; exact mem_self)
        dsimp only at hkill
        subst hkill
        simp only [reduceCtorEq, false_and, or_false, false_or, Pc.kill.injEq, exists_eq_left'] at hcases
        subst hcases
        exact Or.inr fun e he => (houtline.kill e he).2
  · refine Or.inr ⟨hnolaunch hnone, Or.inr ?_⟩
    rcases hcases with ⟨-, rfl⟩ | ⟨-, rfl⟩ | ⟨pid, -, rfl⟩ | ⟨-, rfl⟩ | ⟨-, -, rfl⟩ | ⟨-, hlaunch, -⟩
    · exact hall
    · exact hall
    · intro e he
      obtain ⟨d, hd, rfl⟩ := List.mem_map.1 he
      exact (d.kill_exitFlag pid).2 (Or.inl (hall d hd))
    · exact hall
    · exact hall
    · have hstop := hnone.2.2 ⟨stop, pc⟩ (by rw [hsplit]; exact mem_self)
      rw [hlaunch] at hstop
      cases hstop

theorem State.Stopping.daemon (h : s.Stopping) (hstep : step s (.daemon k) = some s') : s'.Stopping := by
  obtain ⟨hmain, hthreads, hscripts, hlater⟩ := daemon_frame hstep
  rw [State.Stopping, State.NoLaunch, hmain, hthreads, hscripts]
  rcases h with hbefore | ⟨hnone, hkills | hall⟩
  · exact Or.inl hbefore
  · exact Or.inr ⟨hnone, Or.inl hkills⟩
  · refine Or.inr ⟨hnone, Or.inr fun e he => ?_⟩
    obtain ⟨d, hd, -, -, hflag⟩ := hlater e he
    exact hflag (hall d hd)

/-- What holds in every run that keeps to the order. -/
structure Inv (s : State) : Prop where
  pidFile : PidFileInv s
  stopping : s.last = some .stop → s.Stopping

theorem Inv.initial (pidFile : Option (Option Nat)) : Inv (initial pidFile) where
  pidFile := PidFileInv.initial pidFile
  stopping := nofun

theorem Inv.step {a : Action} (hstep : step s a = some s') (hok : Orderly s a) (h : Inv s) : Inv s' where
  pidFile := h.pidFile.step hstep hok
  stopping := by
    intro hlast
    cases a with
    | intent intent =>
      obtain ⟨-, rfl⟩ := intent_cases hstep
      cases hlast
      exact Or.inl (Or.inl (List.mem_cons_self ..))
    | main =>
      rw [step_last hstep rfl] at hlast
      exact (h.stopping hlast).main hstep
    | thread k =>
      rw [step_last hstep rfl] at hlast
      exact (h.stopping hlast).thread hstep
    | script k =>
      rw [step_last hstep rfl] at hlast
      exact (h.stopping hlast).script h.pidFile hlast hstep hok
    | daemon k =>
      rw [step_last hstep rfl] at hlast
      exact (h.stopping hlast).daemon hstep

theorem Inv.daemons_eq_nil (h : Inv s) (hlast : s.last = some .stop) (hfinished : s.Finished) : s.daemons = [] := by
  obtain ⟨hmain, -, hscripts, hflags⟩ := hfinished
  have hstopping := h.stopping hlast
  rw [State.Stopping, hmain, hscripts] at hstopping
  rcases hstopping with (hexec | ⟨x, hx, -⟩) | ⟨-, ⟨x, hx, -⟩ | hall⟩
  · cases hexec
  · cases hx
  · cases hx
  · apply List.eq_nil_iff_forall_not_mem.2
    intro d hd
    have hflag := hflags d hd
    rw [hall d hd] at hflag
    cases hflag

end

/-- In every run that keeps to the order, no daemon is left when the last intent was STOP and everything that was
started has finished. -/
theorem daemons_eq_nil_of_stopped {pidFile : Option (Option Nat)} {as : List Action} {s : State}
    (hrun : run step (initial pidFile) as = some s) (horderly : Guarded step Orderly (initial pidFile) as)
    (hlast : s.last = some .stop) (hfinished : s.Finished) : s.daemons = [] :=
  (run_invariant Inv.step hrun horderly (Inv.initial pidFile)).daemons_eq_nil hlast hfinished

/-- A START and everything it starts, then a STOP and everything it starts. -/
def startThenStop : List Action :=
  [.intent .start, .main, .thread 0, .thread 0, .script 0, .script 0, .daemon 0, .daemon 0, .daemon 0,
    .intent .stop, .main, .main, .script 0, .script 0, .script 0, .script 0, .script 0, .daemon 0]

theorem daemons_eq_nil_of_startThenStop :
    ∃ s, run step (initial none) startThenStop = some s ∧ s.last = some .stop ∧ s.daemons = [] := by
  have hrun : run step (initial none) startThenStop =
      some ⟨some .stop, [], false, [], [], [], some none, 2⟩ := by decide
  exact ⟨_, hrun, rfl, daemons_eq_nil_of_stopped hrun (by decide) rfl (by decide)⟩

/-- The STOP comes while the daemon starts: `service.sh -k` finds no pid file, and the daemon stays. -/
def overtakingStop : List Action :=
  [.intent .start, .main, .thread 0, .thread 0, .script 0, .script 0, .intent .stop, .main, .main, .script 0, .script 0,
    .daemon 0, .daemon 0, .daemon 0]

theorem overtaken_stop :
    ∃ s, run step (initial none) overtakingStop = some s ∧ s.last = some .stop ∧ s.Finished ∧
      s.daemons = [⟨1, .published, false⟩] :=
  ⟨⟨some .stop, [], false, [], [], [⟨1, .published, false⟩], some (some 1), 2⟩, by decide, rfl, by decide, rfl⟩

-- Each part of the order is needed.  Here `service.sh -k` does not wait for a launch thread ...
example :
    ∃ s, run step (initial none)
        [.intent .start, .main, .intent .stop, .main, .main, .script 0, .script 0, .thread 0, .thread 0,
          .script 0, .script 0, .daemon 0, .daemon 0, .daemon 0] = some s ∧
      s.last = some .stop ∧ s.Finished ∧ s.daemons = [⟨1, .published, false⟩] :=
  ⟨⟨some .stop, [], true, [], [], [⟨1, .published, false⟩], some (some 1), 2⟩, by decide, rfl, by decide, rfl⟩

-- ... and here a REFRESH launches the second daemon before its own `service.sh -k` has emptied the pid file.
example :
    ∃ s, run step (initial none)
        [.intent .start, .main, .thread 0, .thread 0, .script 0, .script 0, .daemon 0, .daemon 0, .daemon 0,
          .intent .refresh, .main, .main, .main, .thread 0, .thread 0, .script 0, .script 0, .script 0,
          .script 1, .script 1, .script 1, .script 1, .daemon 0, .script 1, .daemon 0, .daemon 0, .daemon 0,
          .script 0, .script 0, .intent .stop, .main, .main, .script 0, .script 0, .script 0, .script 0,
            .script 0] = some s ∧
      s.last = some .stop ∧ s.Finished ∧ s.daemons = [⟨2, .published, false⟩] :=
  ⟨⟨some .stop, [], false, [], [], [⟨2, .published, false⟩], some none, 3⟩, by decide, rfl, by decide, rfl⟩

/-! ### The order can be kept -/

/-- A daemon that has not written its pid, or has got the signal, can go on. -/
private theorem exists_daemon_step {s : State} {d : Daemon} (hd : d ∈ s.daemons)
    (h : d.phase ≠ .published ∨ d.exitFlag = true) : ∃ k s', step s (.daemon k) = some s' := by
  obtain ⟨k, hk⟩ := List.getElem?_of_mem hd
  refine ⟨k, ?_⟩
  rw [step, hk, Option.bind_some]
  obtain ⟨pid, phase, exitFlag⟩ := d
  cases phase with
  | starting =>
    unfold State.daemonStep
    dsimp only
    split
    · exact ⟨_, rfl⟩
    · exact ⟨_, rfl⟩
  | serving => exact ⟨_, rfl⟩
  | opened => exact ⟨_, rfl⟩
  | published =>
    have hflag : exitFlag = true := h.resolve_left fun h => h rfl
    subst hflag
    exact ⟨_, rfl⟩

private theorem exists_script_step {s : State} {x : Script} (hx : x ∈ s.scripts) (hok : x.Orderly s) :
    ∃ k s', step s (.script k) = some s' ∧ Orderly s (.script k) := by
  obtain ⟨k, hk⟩ := List.getElem?_of_mem hx
  refine ⟨k, s.scriptStep k x, ?_, ?_⟩
  · rw [step, hk, Option.map_some]
  · intro y hy
    rw [hk] at hy
    cases hy
    exact hok

/-- If only scripts are left, one of them can go on: those at work on the file first, then those that launch, then those
that begin, the launches before the stops. -/
private theorem exists_orderly_script {s : State} (hmain : s.main = []) (hthreads : s.threads = [])
    (hpublished : ∀ d ∈ s.daemons, d.phase = .published) (hne : s.scripts ≠ []) : ∃ x ∈ s.scripts, x.Orderly s := by
  by_cases hsection : ∃ x ∈ s.scripts, x.inSection = true
  case pos =>
    obtain ⟨x, hx, h⟩ := hsection
    refine ⟨x, hx, fun hpc => ?_, fun hpc => ?_⟩
    · rw [Script.inSection, hpc] at h
      cases h
    · rw [Script.inSection, hpc] at h
      cases h
  have hout : ∀ x ∈ s.scripts, x.inSection = false := by
    simpa using hsection
  by_cases hbranch : ∃ x ∈ s.scripts, x.pc = .branch
  case pos =>
    obtain ⟨x, hx, h⟩ := hbranch
    refine ⟨x, hx, fun hpc => ?_, fun _ _ => hout⟩
    rw [h] at hpc
    cases hpc
  have hnobranch {x : Script} (hx : x ∈ s.scripts) (h : x.pc = .branch) : False := hbranch ⟨x, hx, h⟩
  by_cases hstart : ∃ x ∈ s.scripts, x.stop = false
  case pos =>
    obtain ⟨x, hx, h⟩ := hstart
    refine ⟨x, hx, fun _ => ⟨hpublished, fun hstop => ?_⟩, fun hpc => absurd hpc (hnobranch hx)⟩
    rw [h] at hstop
    cases hstop
  have hnone : s.NoLaunch := by
    rw [State.NoLaunch, hmain, hthreads]
    exact ⟨List.not_mem_nil, List.not_mem_nil, by simpa using hstart⟩
  obtain ⟨x, hx⟩ := List.exists_mem_of_ne_nil s.scripts hne
  exact ⟨x, hx, fun _ => ⟨hpublished, fun _ _ => hnone⟩, fun hpc => absurd hpc (hnobranch hx)⟩

/-- As long as something is unfinished, some step keeps to the order. -/
theorem finished_or_orderly_step (s : State) :
    s.Finished ∨ ∃ a s', step s a = some s' ∧ Orderly s a ∧ a.isIntent = false := by
  by_cases hmain : s.main = []
  case neg =>
    obtain ⟨statement, rest, hcons⟩ := List.exists_cons_of_ne_nil hmain
    right
    refine ⟨.main, { s with main := rest }.execute statement, ?_, trivial, rfl⟩
    rw [step, hcons]
  by_cases hthreads : s.threads = []
  case neg =>
    obtain ⟨x, rest, hcons⟩ := List.exists_cons_of_ne_nil hthreads
    right
    refine ⟨.thread 0, s.threadStep 0 x, ?_, trivial, rfl⟩
    rw [step, hcons]
    rfl
  by_cases hdaemons : ∃ d ∈ s.daemons, d.phase ≠ .published ∨ d.exitFlag = true
  case pos =>
    obtain ⟨d, hd, h⟩ := hdaemons
    obtain ⟨k, s', hstep⟩ := exists_daemon_step hd h
    exact Or.inr ⟨.daemon k, s', hstep, trivial, rfl⟩
  have hpublished : ∀ d ∈ s.daemons, d.phase = .published ∧ d.exitFlag = false := by
    simpa using hdaemons
  by_cases hscripts : s.scripts = []
  · exact Or.inl ⟨hmain, hthreads, hscripts, fun d hd => (hpublished d hd).2⟩
  · obtain ⟨x, hx, hok⟩ := exists_orderly_script hmain hthreads (fun d hd => (hpublished d hd).1) hscripts
    obtain ⟨k, s', hstep, hok⟩ := exists_script_step hx hok
    exact Or.inr ⟨.script k, s', hstep, hok, rfl⟩

/-- Whatever has happened, the rest can be finished in order; if the last intent was STOP and the order has been kept
from the beginning, no daemon is left then. -/
theorem exists_orderly_finish {pidFile : Option (Option Nat)} {as : List Action} {s : State}
    (hrun : run step (initial pidFile) as = some s) (horderly : Guarded step Orderly (initial pidFile) as) :
    ∃ bs t, run step s bs = some t ∧ Guarded step Orderly s bs ∧ t.Finished ∧
      (s.last = some .stop → t.daemons = []) := by
  have hprogress (s : State) : s.Finished ∨
      ∃ a s', step s a = some s' ∧ (Orderly s a ∧ a.isIntent = false) ∧ s'.work < s.work := by
    rcases finished_or_orderly_step s with hfinished | ⟨a, s', hstep, hok, ha⟩
    · exact Or.inl hfinished
    · exact Or.inr ⟨a, s', hstep, ⟨hok, ha⟩, step_work_lt hstep ha⟩
  obtain ⟨bs, t, hbs, hguard, hfinished⟩ := exists_run_done State.work hprogress s
  have hinv : Inv s := run_invariant Inv.step hrun horderly (Inv.initial pidFile)
  have horderly' : Guarded step Orderly s bs := hguard.imp And.left
  have hlast : t.last = s.last :=
    run_invariant (I := fun t => t.last = s.last) (fun hstep hok h => (step_last hstep hok.2).trans h) hbs hguard rfl
  refine ⟨bs, t, hbs, horderly', hfinished, fun hstop => ?_⟩
  exact (run_invariant Inv.step hbs horderly' hinv).daemons_eq_nil (hlast.trans hstop) hfinished

end Tinyweb.Service
