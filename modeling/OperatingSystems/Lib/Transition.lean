import Mathlib.Tactic.Common

/-!
# Machines, runs and guarded reachability

A machine is a set of initial states together with a partial step function on labelled actions.
Everything below is about arbitrary state and action types: the invariant rule, runs as lists of
actions, and reachability under a *guard*, a condition that every step of the run has to meet in the
state it is taken from.

Guards are what let a property that fails in general still be stated of whole runs: the guarded
machine reaches exactly the states that some run all of whose steps meet the guard can reach.
-/

namespace OperatingSystems

/-- A machine over states `σ` and actions `α`. An action that is not enabled, or that blocks, has no
successor. -/
structure Machine (σ α : Type*) where
  /-- The states a run may start from. -/
  init : σ → Prop
  /-- The effect of one action. -/
  step : σ → α → Option σ

namespace Machine

variable {σ α : Type*} (M : Machine σ α) {s s' : σ} {G : σ → α → Prop} {I : σ → Prop}

/-- The states reached by runs all of whose steps meet the guard `G`. -/
inductive ReachableUnder (G : σ → α → Prop) : σ → Prop
  | init {s : σ} : M.init s → ReachableUnder G s
  | step {s s' : σ} {a : α} :
      ReachableUnder G s → G s a → M.step s a = some s' → ReachableUnder G s'

/-- The states reached by arbitrary runs. -/
def Reachable (s : σ) : Prop := M.ReachableUnder (fun _ _ ↦ True) s

/-- Take the actions of a list in order; blocked as soon as one of them is. -/
def run : σ → List α → Option σ
  | s, [] => some s
  | s, a :: as => (M.step s a).bind fun s' ↦ run s' as

@[simp] theorem run_nil (s : σ) : M.run s [] = some s := rfl

theorem run_cons (s : σ) (a : α) (as : List α) :
    M.run s (a :: as) = (M.step s a).bind fun s' ↦ M.run s' as := rfl

def startAt (s : σ) : Machine σ α := { M with init := fun t ↦ t = s }

variable {M}

theorem run_append (as bs : List α) :
    M.run s (as ++ bs) = (M.run s as).bind fun s' ↦ M.run s' bs := by
  induction as generalizing s with
  | nil => rfl
  | cons a as ih =>
    rw [List.cons_append, run_cons, run_cons]
    cases M.step s a with
    | none => rfl
    | some t => exact ih

theorem ReachableUnder.mono {N : Machine σ α} {H : σ → α → Prop} (hinit : ∀ s, M.init s → N.init s)
    (hstep : N.step = M.step) (hGH : ∀ s a, G s a → H s a) (h : M.ReachableUnder G s) :
    N.ReachableUnder H s := by
  induction h with
  | init h => exact .init (hinit _ h)
  | step _ hg hs ih => exact .step ih (hGH _ _ hg) (hstep ▸ hs)

theorem ReachableUnder.reachable (h : M.ReachableUnder G s) : M.Reachable s :=
  h.mono (fun _ ↦ id) rfl fun _ _ _ ↦ trivial

theorem Reachable.init (h : M.init s) : M.Reachable s := ReachableUnder.init h

theorem Reachable.step {a : α} (h : M.Reachable s) (hs : M.step s a = some s') : M.Reachable s' :=
  ReachableUnder.step h trivial hs

/-- **The invariant rule.** What holds initially and is preserved by every guarded step from a
reachable state holds in every state reached under the guard. -/
theorem ReachableUnder.invariant (hinit : ∀ s, M.init s → I s)
    (hstep : ∀ s a s', M.ReachableUnder G s → I s → G s a → M.step s a = some s' → I s')
    (h : M.ReachableUnder G s) : I s := by
  induction h with
  | init h => exact hinit _ h
  | step hr hg hs ih => exact hstep _ _ _ hr ih hg hs

theorem Reachable.invariant (hinit : ∀ s, M.init s → I s)
    (hstep : ∀ s a s', I s → M.step s a = some s' → I s') (h : M.Reachable s) : I s :=
  ReachableUnder.invariant hinit (fun s a s' _ hI _ hs ↦ hstep s a s' hI hs) h

theorem Reachable.run {as : List α} (h : M.Reachable s) (hr : M.run s as = some s') :
    M.Reachable s' := by
  induction as generalizing s with
  | nil =>
    rw [run_nil, Option.some.injEq] at hr
    exact hr ▸ h
  | cons a as ih =>
    rw [run_cons, Option.bind_eq_some_iff] at hr
    obtain ⟨t, hst, hr⟩ := hr
    exact ih (h.step hst) hr

theorem exists_reachable_of_run (as : List α) (p : σ → Bool) (hs : M.init s)
    (h : (M.run s as).map p = some true) : ∃ t, M.Reachable t ∧ p t = true := by
  rw [Option.map_eq_some_iff] at h
  obtain ⟨t, ht, hp⟩ := h
  exact ⟨t, (Reachable.init hs).run ht, hp⟩

/-! ## Runs under a decidable guard -/

variable (M) in
/-- The machine that takes a step only when it meets the guard. -/
def restrict (G : σ → α → Prop) [∀ s a, Decidable (G s a)] : Machine σ α where
  init := M.init
  step s a := if G s a then M.step s a else none

theorem ReachableUnder.of_restrict [∀ s a, Decidable (G s a)] (h : (M.restrict G).Reachable s) :
    M.ReachableUnder G s := by
  induction h with
  | init h => exact .init h
  | step _ _ hs ih =>
    obtain ⟨hg, hs⟩ := Option.ite_none_right_eq_some.mp hs
    exact .step ih hg hs

theorem exists_reachableUnder_of_run [∀ s a, Decidable (G s a)] (as : List α) (p : σ → Bool)
    (hs : M.init s) (h : ((M.restrict G).run s as).map p = some true) :
    ∃ t, M.ReachableUnder G t ∧ p t = true := by
  obtain ⟨t, ht, hp⟩ := exists_reachable_of_run (M := M.restrict G) as p hs h
  exact ⟨t, .of_restrict ht, hp⟩

end Machine

end OperatingSystems
