import Mathlib.Data.List.Basic

/-!
# Runs of processes that take turns

Processes that share a state are given by one function `step`: an action says which process goes on, and there is no
next state if that process cannot.  An interleaving is a list of actions (`run`); a discipline that the interleaving
keeps is a condition on each of its steps (`Guarded`).

What every step under the condition preserves holds at the end of the run (`run_invariant`).  If every step makes the
rest of the work smaller, a run is no longer than the work (`run_length_le`); if some step under the condition is always
possible and makes it smaller, a run under the condition finishes the work (`exists_run_done`).
-/

namespace Transitions

section

variable {σ α : Type} (step : σ → α → Option σ) (ok : σ → α → Prop)

def run : σ → List α → Option σ
  | s, [] => some s
  | s, a :: as => (step s a).bind fun s' => run s' as

theorem run_append (s : σ) (as bs : List α) :
    run step s (as ++ bs) = (run step s as).bind fun t => run step t bs := by
  induction as generalizing s with
  | nil => rfl
  | cons a as ih =>
    rw [List.cons_append, run, run, Option.bind_assoc]
    simp only [ih]

/-- Every step of the run meets the condition, in the state in which it is taken. -/
def Guarded : σ → List α → Prop
  | _, [] => True
  | s, a :: as => ok s a ∧ ∀ s' ∈ step s a, Guarded s' as

def decidableGuarded [∀ s a, Decidable (ok s a)] : ∀ s as, Decidable (Guarded step ok s as)
  | _, [] => isTrue trivial
  | s, a :: as =>
    have : ∀ s', Decidable (Guarded step ok s' as) := fun s' => decidableGuarded s' as
    inferInstanceAs (Decidable (ok s a ∧ ∀ s' ∈ step s a, Guarded step ok s' as))

instance [∀ s a, Decidable (ok s a)] (s : σ) (as : List α) : Decidable (Guarded step ok s as) :=
  decidableGuarded step ok s as

variable {step ok}

theorem Guarded.imp {ok' : σ → α → Prop} (himp : ∀ {s a}, ok s a → ok' s a) {as : List α} :
    ∀ {s : σ}, Guarded step ok s as → Guarded step ok' s as := by
  induction as with
  | nil =>
    intro s _
    trivial
  | cons a as ih =>
    intro s h
    exact ⟨himp h.1, fun s' hs' => ih (h.2 s' hs')⟩

theorem guarded_true : ∀ (s : σ) (as : List α), Guarded step (fun _ _ => True) s as
  | _, [] => trivial
  | _, _ :: as => ⟨trivial, fun s' _ => guarded_true s' as⟩

theorem run_invariant {I : σ → Prop} (hstep : ∀ {s a s'}, step s a = some s' → ok s a → I s → I s') {as : List α} :
    ∀ {s t : σ}, run step s as = some t → Guarded step ok s as → I s → I t := by
  induction as with
  | nil =>
    intro s t hrun _ hs
    cases hrun
    exact hs
  | cons a as ih =>
    intro s t hrun hok hs
    obtain ⟨s', hs', hrest⟩ := Option.bind_eq_some_iff.1 hrun
    exact ih hrest (hok.2 s' hs') (hstep hs' hok.1 hs)

/-- If every step makes the rest of the work smaller, a run takes at most as many steps as there is work. -/
theorem run_length_le {I : σ → Prop} (work : σ → Nat)
    (hstep : ∀ {s a s'}, step s a = some s' → ok s a → I s → I s' ∧ work s' < work s) {as : List α} :
    ∀ {s t : σ}, run step s as = some t → Guarded step ok s as → I s → as.length + work t ≤ work s := by
  induction as with
  | nil =>
    intro s t hrun _ _
    cases hrun
    simp
  | cons a as ih =>
    intro s t hrun hok hs
    obtain ⟨s', hs', hrest⟩ := Option.bind_eq_some_iff.1 hrun
    obtain ⟨hnext, hless⟩ := hstep hs' hok.1 hs
    have := ih hrest (hok.2 s' hs') hnext
    rw [List.length_cons]
    omega

theorem exists_run_done {done : σ → Prop} (work : σ → Nat)
    (hprogress : ∀ s, done s ∨ ∃ a s', step s a = some s' ∧ ok s a ∧ work s' < work s) (s : σ) :
    ∃ as t, run step s as = some t ∧ Guarded step ok s as ∧ done t := by
  -- the work that is left bounds the length of the run
  have hbound (n : Nat) : ∀ s, work s < n → ∃ as t, run step s as = some t ∧ Guarded step ok s as ∧ done t := by
    induction n with
    | zero =>
      intro s hs
      omega
    | succ n ih =>
      intro s hs
      rcases hprogress s with hdone | ⟨a, s', hstep, hok, hless⟩
      · exact ⟨[], s, rfl, trivial, hdone⟩
      · obtain ⟨as, t, hrun, hguard, hdone⟩ := ih s' (by omega)
        refine ⟨a :: as, t, ?_, ⟨hok, ?_⟩, hdone⟩
        · rw [run, hstep]
          exact hrun
        · intro s'' hs''
          rw [hstep] at hs''
          cases hs''
          exact hguard
  exact hbound (work s + 1) s (by omega)

end

/-- A process in a list of processes, with those before and behind it; what becomes of the list when the process goes
on or ends. -/
theorem exists_split {β : Type} {l : List β} {k : Nat} {x : β} (h : l[k]? = some x) :
    ∃ pre post, l = pre ++ x :: post ∧ (∀ y, l.set k y = pre ++ y :: post) ∧ l.eraseIdx k = pre ++ post := by
  induction l generalizing k with
  | nil => simp at h
  | cons b l ih =>
    cases k with
    | zero =>
      rw [List.getElem?_cons_zero] at h
      cases h
      exact ⟨[], l, rfl, fun y => rfl, rfl⟩
    | succ k =>
      rw [List.getElem?_cons_succ] at h
      obtain ⟨pre, post, hl, hset, herase⟩ := ih h
      refine ⟨b :: pre, post, ?_, ?_, ?_⟩
      · rw [hl]
        rfl
      · intro y
        rw [List.set_cons_succ, hset y]
        rfl
      · rw [List.eraseIdx_cons_succ, herase]
        rfl

section

variable {β : Type} {pre post : List β} {x y z : β} {P : β → Prop}

theorem forall_mem_split : (∀ z ∈ pre ++ x :: post, P z) ↔ P x ∧ ∀ z ∈ pre ++ post, P z := by
  rw [List.forall_mem_append, List.forall_mem_cons, List.forall_mem_append]
  exact ⟨fun h => ⟨h.2.1, h.1, h.2.2⟩, fun h => ⟨h.2.1, h.1, h.2.2⟩⟩

theorem exists_mem_split : (∃ z ∈ pre ++ x :: post, P z) ↔ P x ∨ ∃ z ∈ pre ++ post, P z := by
  simp only [List.mem_append, List.mem_cons, or_and_right, exists_or, exists_eq_left]
  exact or_left_comm

theorem countP_split (p : β → Bool) :
    (pre ++ x :: post).countP p = (pre ++ post).countP p + (p x).toNat := by
  rw [List.countP_append, List.countP_cons, List.countP_append, Nat.add_assoc]
  cases p x <;> rfl

theorem mem_of_mem_others (h : z ∈ pre ++ post) : z ∈ pre ++ x :: post := by
  rw [List.mem_append] at h
  rw [List.mem_append, List.mem_cons]
  rcases h with h | h
  · exact Or.inl h
  · exact Or.inr (Or.inr h)

theorem mem_self : x ∈ pre ++ x :: post := List.mem_append_right _ (List.mem_cons_self ..)

theorem mem_others_or_eq (h : z ∈ pre ++ y :: post) : z ∈ pre ++ post ∨ z = y := by
  rw [List.mem_append, List.mem_cons] at h
  rw [List.mem_append]
  rcases h with h | h | h
  · exact Or.inl (Or.inl h)
  · exact Or.inr h
  · exact Or.inl (Or.inr h)

end

end Transitions
