/-
# Guarded runs of labelled transition systems

A system is an initial state and a partial step function under labels: the
label resolves every choice the environment makes, so a run is determined by
its labels. Runs are guarded by a relation between the state a step leaves and
the label it takes; the unguarded runs are the special case `anyStep`. The rules
here are the ones every proof about a whole run goes through: the invariant
rule, weakening of a guard, and projection onto another system.
-/

import Mathlib.Data.List.Basic

namespace Transition

universe u v w x

/-- An initial state and a partial step function. The label carries every
choice that the state does not determine. -/
structure System (State : Type u) (Label : Type v) where
  init : State
  step : State → Label → Option State

/-- The guard that admits every step. -/
def anyStep {State : Type u} {Label : Type v} : State → Label → Prop :=
  fun _ _ => True

namespace System

variable {State : Type u} {Label : Type v} (M : System State Label)

/-- The states reached by runs whose every step satisfies the guard, together
with the labels taken, the newest one last. -/
inductive Run (guard : State → Label → Prop) : List Label → State → Prop
  | start : Run guard [] M.init
  | snoc {labels : List Label} {source : State} {label : Label} {target : State}
      (prior : Run guard labels source) (allowed : guard source label)
      (realized : M.step source label = some target) :
      Run guard (labels ++ [label]) target

/-- Follow a list of labels from a state, or stop at the first label that is
not enabled. -/
def exec : State → List Label → Option State
  | state, [] => some state
  | state, label :: labels => (M.step state label).bind fun target => exec target labels

/-- Follow a list of labels, and check a decidable guard before every step. -/
def execIf (check : State → Label → Bool) : State → List Label → Option State
  | state, [] => some state
  | state, label :: labels =>
      if check state label then
        (M.step state label).bind fun target => execIf check target labels
      else none

variable {M} {guard : State → Label → Prop}

/-- A run that satisfies a guard satisfies every weaker one. -/
theorem Run.mono {weaker : State → Label → Prop}
    (himp : ∀ state label, guard state label → weaker state label)
    {labels : List Label} {state : State} (hrun : M.Run guard labels state) :
    M.Run weaker labels state := by
  induction hrun with
  | start => exact .start
  | snoc _ allowed realized ih => exact .snoc ih (himp _ _ allowed) realized

/-- The invariant rule. The step case may use that its source was reached by a
guarded run, so invariants can be proved one after another. -/
theorem Run.invariant (inv : State → Prop) (hinit : inv M.init)
    (hstep : ∀ {labels source label target}, M.Run guard labels source → inv source →
      guard source label → M.step source label = some target → inv target)
    {labels : List Label} {state : State} (hrun : M.Run guard labels state) :
    inv state := by
  induction hrun with
  | start => exact hinit
  | snoc prior allowed realized ih => exact hstep prior ih allowed realized

/-- The invariant rule for a relation between the labels taken so far and the
state they led to. -/
theorem Run.invariantOn (inv : List Label → State → Prop) (hinit : inv [] M.init)
    (hstep : ∀ {labels source label target}, M.Run guard labels source →
      inv labels source → guard source label → M.step source label = some target →
      inv (labels ++ [label]) target)
    {labels : List Label} {state : State} (hrun : M.Run guard labels state) :
    inv labels state := by
  induction hrun with
  | start => exact hinit
  | snoc prior allowed realized ih => exact hstep prior ih allowed realized

/-- Projection onto another system. A view that maps every step to a step of
the other system, or to no change at all, maps runs to runs, and the guard of
the projected steps is the guard of the projected run. -/
theorem Run.project {State' : Type w} {Label' : Type x} {N : System State' Label'}
    {guard' : State' → Label' → Prop} (view : State → State')
    (hinit : view M.init = N.init)
    (hstep : ∀ {labels source label target}, M.Run guard labels source →
      guard source label → M.step source label = some target →
      view target = view source ∨
        ∃ label', guard' (view source) label' ∧
          N.step (view source) label' = some (view target))
    {labels : List Label} {state : State} (hrun : M.Run guard labels state) :
    ∃ labels', N.Run guard' labels' (view state) := by
  induction hrun with
  | start => exact ⟨[], hinit ▸ .start⟩
  | snoc prior allowed realized ih =>
      obtain ⟨labels', hview⟩ := ih
      rcases hstep prior allowed realized with heq | ⟨label', hallowed, hnext⟩
      · exact ⟨labels', heq ▸ hview⟩
      · exact ⟨labels' ++ [label'], .snoc hview hallowed hnext⟩

/-! ## Recording what a run emits

History variables stay outside the state of the system they observe: a recorded
system takes exactly the steps of the original one and appends what each of
them emits.
-/

/-- The same steps, with the events they emit appended to a history. -/
def recorded (M : System State Label) {Event : Type w}
    (emit : State → Label → List Event) : System (State × List Event) Label where
  init := (M.init, [])
  step state label :=
    (M.step state.1 label).map fun target => (target, state.2 ++ emit state.1 label)

/-- A recorded step is a step together with the history it extends. -/
theorem recorded_step_eq_some {Event : Type w} {emit : State → Label → List Event}
    {source target : State × List Event} {label : Label} :
    (M.recorded emit).step source label = some target ↔
      M.step source.1 label = some target.1 ∧
        target.2 = source.2 ++ emit source.1 label := by
  obtain ⟨state, log⟩ := target
  simp only [recorded, Option.map_eq_some_iff, Prod.mk.injEq]
  constructor
  · rintro ⟨next, hnext, rfl, rfl⟩
    exact ⟨hnext, rfl⟩
  · rintro ⟨hnext, rfl⟩
    exact ⟨state, hnext, rfl, rfl⟩

/-! ## Executing runs -/

theorem Run.append_exec {prior : List Label} {source : State}
    (hrun : M.Run Transition.anyStep prior source) {labels : List Label} {target : State}
    (hexec : M.exec source labels = some target) :
    M.Run Transition.anyStep (prior ++ labels) target := by
  induction labels generalizing prior source with
  | nil =>
      obtain rfl : source = target := by simpa [exec] using hexec
      simpa using hrun
  | cons label labels ih =>
      obtain ⟨middle, hmiddle, hrest⟩ := Option.bind_eq_some_iff.mp hexec
      have hone := hrun.snoc trivial hmiddle
      simpa using ih hone hrest

/-- Lists of labels are followed one after the other. -/
theorem exec_append {state middle target : State} {first second : List Label}
    (hfirst : M.exec state first = some middle) (hsecond : M.exec middle second = some target) :
    M.exec state (first ++ second) = some target := by
  induction first generalizing state with
  | nil =>
      obtain rfl : state = middle := by simpa [exec] using hfirst
      exact hsecond
  | cons label first ih =>
      obtain ⟨next, hnext, hrest⟩ := Option.bind_eq_some_iff.mp hfirst
      simp only [List.cons_append, exec, hnext, Option.bind_some]
      exact ih hrest

/-- Simulation by another system. If each step is matched by some steps of the other
system, each run is matched by a run. What matches may depend on the steps taken. -/
theorem Run.simulate {State' : Type w} {Label' : Type x} {N : System State' Label'}
    (matched : List Label' → State → State' → Prop) (hinit : matched [] M.init N.init)
    (hstep : ∀ {labels source label target taken other}, M.Run guard labels source →
      matched taken source other → guard source label → M.step source label = some target →
      ∃ more other', N.exec other more = some other' ∧ matched (taken ++ more) target other')
    {labels : List Label} {state : State} (hrun : M.Run guard labels state) :
    ∃ taken other, N.Run Transition.anyStep taken other ∧ matched taken state other := by
  induction hrun with
  | start => exact ⟨[], N.init, .start, hinit⟩
  | snoc prior allowed realized ih =>
      obtain ⟨taken, other, hother, hmatched⟩ := ih
      obtain ⟨more, other', hexec, hnext⟩ := hstep prior hmatched allowed realized
      exact ⟨taken ++ more, other', hother.append_exec hexec, hnext⟩

/-- An executed list of labels is a run. -/
theorem run_of_exec {labels : List Label} {state : State}
    (hexec : M.exec M.init labels = some state) : M.Run Transition.anyStep labels state := by
  have hstart : M.Run Transition.anyStep [] M.init := .start
  simpa using hstart.append_exec hexec

theorem Run.append_execIf {check : State → Label → Bool}
    (hcheck : ∀ state label, check state label = true → guard state label)
    {prior : List Label} {source : State} (hrun : M.Run guard prior source)
    {labels : List Label} {target : State}
    (hexec : M.execIf check source labels = some target) :
    M.Run guard (prior ++ labels) target := by
  induction labels generalizing prior source with
  | nil =>
      obtain rfl : source = target := by simpa [execIf] using hexec
      simpa using hrun
  | cons label labels ih =>
      by_cases hlabel : check source label = true
      · simp only [execIf, hlabel, if_true] at hexec
        obtain ⟨middle, hmiddle, hrest⟩ := Option.bind_eq_some_iff.mp hexec
        have hone := hrun.snoc (hcheck _ _ hlabel) hmiddle
        simpa using ih hone hrest
      · simp [execIf, hlabel] at hexec

/-- A list of labels executed under a decidable guard is a guarded run. -/
theorem run_of_execIf {check : State → Label → Bool}
    (hcheck : ∀ state label, check state label = true → guard state label)
    {labels : List Label} {state : State}
    (hexec : M.execIf check M.init labels = some state) : M.Run guard labels state := by
  have hstart : M.Run guard [] M.init := .start
  simpa using hstart.append_execIf hcheck hexec

/-- An executed list of labels that passes a test leads to a state that passes it. -/
theorem exists_run_of_exec {labels : List Label} {test : State → Bool}
    (hexec : (M.exec M.init labels).any test = true) :
    ∃ state, M.Run Transition.anyStep labels state ∧ test state = true := by
  obtain ⟨state, hstate, htest⟩ := (Option.any_eq_true _ _).mp hexec
  exact ⟨state, run_of_exec hstate, htest⟩

/-- The same under a decidable guard. -/
theorem exists_run_of_execIf {check : State → Label → Bool} {labels : List Label}
    {test : State → Bool} (hexec : (M.execIf check M.init labels).any test = true) :
    ∃ state, M.Run (fun source label => check source label = true) labels state ∧
      test state = true := by
  obtain ⟨state, hstate, htest⟩ := (Option.any_eq_true _ _).mp hexec
  exact ⟨state, run_of_execIf (fun _ _ hcheck => hcheck) hstate, htest⟩

end System

end Transition
