/-
# Two runs of an operation

A property of two runs is proved with a relation between their states: an
operation preserves the relation if, from related states, either both runs have a
result and the results are related, or neither has one.
-/

import Mathlib.Data.Option.Basic

namespace TwoRuns

universe u v w
variable {A : Type u} {B : Type v} {I : Type w}

/-- From related states both runs end in related states, or both have no result. -/
def Preserves (R : A → B → Prop) (first : A → Option A) (second : B → Option B) : Prop :=
  ∀ a b, R a b → Option.Rel R (first a) (second b)

variable {R : A → B → Prop}

theorem Preserves.pure : Preserves R some some :=
  fun _ _ hrel => .some hrel

/-- Related results, with operations behind them that preserve the relation. -/
theorem rel_bind {S : A → B → Prop} {a : Option A} {b : Option B} {first : A → Option A}
    {second : B → Option B} (hrel : Option.Rel S a b)
    (hnext : ∀ x y, S x y → Option.Rel R (first x) (second y)) :
    Option.Rel R (a.bind first) (b.bind second) := by
  cases hrel with
  | none => exact .none
  | some hxy => exact hnext _ _ hxy

theorem Preserves.bind {first next : A → Option A} {second next' : B → Option B}
    (hfirst : Preserves R first second) (hnext : Preserves R next next') :
    Preserves R (fun a => (first a).bind next) (fun b => (second b).bind next') :=
  fun a b hrel => rel_bind (hfirst a b hrel) hnext

/-- When one run has a result, so has the other, and the results are related. -/
theorem Preserves.follow {first : A → Option A} {second : B → Option B}
    (hpreserves : Preserves R first second) {a : A} {b : B} (hrel : R a b) {a' : A}
    (hrun : first a = some a') : ∃ b', second b = some b' ∧ R a' b' := by
  have hresults := hpreserves a b hrel
  rw [hrun] at hresults
  generalize second b = other at hresults
  cases hresults with
  | some h => exact ⟨_, rfl, h⟩

/-- A loop preserves what its body preserves for every item. -/
theorem Preserves.foldlM {first : I → A → Option A} {second : I → B → Option B}
    (hbody : ∀ item, Preserves R (first item) (second item)) (items : List I) :
    Preserves R (fun a => items.foldlM (fun a item => first item a) a)
      (fun b => items.foldlM (fun b item => second item b) b) := by
  induction items with
  | nil => exact Preserves.pure
  | cons item rest ih => exact (hbody item).bind ih

end TwoRuns
