/-
# Counting the holders of objects

Each holder holds one object or none, and only finitely many of them hold any. The
number of the holders of an object changes by one when a holder takes it or lets it
go, which is what reference counts are kept for.
-/

import Mathlib.Data.Set.Card

namespace Holders

universe u v

variable {Holder : Type u} {Obj : Type v}

/-- Only finitely many holders hold anything. -/
def Bounded (holds : Holder → Option Obj) : Prop := {x | holds x ≠ none}.Finite

/-- The number of the holders of an object. -/
noncomputable def count (holds : Holder → Option Obj) (o : Obj) : ℕ :=
  {x | holds x = some o}.ncard

/-- What one holder adds to the number. -/
def one [DecidableEq Obj] (held : Option Obj) (o : Obj) : ℕ := if held = some o then 1 else 0

@[simp]
theorem one_none [DecidableEq Obj] (o : Obj) : one none o = 0 := by simp [one]

@[simp]
theorem one_self [DecidableEq Obj] (o : Obj) : one (some o) o = 1 := by simp [one]

theorem one_of_ne [DecidableEq Obj] {held : Option Obj} {o : Obj} (h : held ≠ some o) :
    one held o = 0 := if_neg h

theorem one_some_of_ne [DecidableEq Obj] {held o : Obj} (h : held ≠ o) : one (some held) o = 0 :=
  one_of_ne (by simpa using h)

theorem one_le [DecidableEq Obj] (held : Option Obj) (o : Obj) : one held o ≤ 1 := by
  rw [one]
  split_ifs <;> omega

theorem count_cons [DecidableEq Obj] (held : Obj) (rest : List Obj) (o : Obj) :
    (held :: rest).count o = rest.count o + one (some held) o := by
  simp [one, List.count_cons]

theorem count_toList [DecidableEq Obj] (held : Option Obj) (o : Obj) :
    held.toList.count o = one held o := by
  cases held with
  | none => simp
  | some other => simp [one, List.count_singleton]

variable {holds : Holder → Option Obj}

theorem bounded_none : Bounded fun _ : Holder => (none : Option Obj) := by
  simp [Bounded]

theorem Bounded.finite (h : Bounded holds) (o : Obj) : {x | holds x = some o}.Finite :=
  h.subset fun x hx => by simp [show holds x = some o from hx]

theorem Bounded.update [DecidableEq Holder] (h : Bounded holds) (x : Holder) (v : Option Obj) :
    Bounded (Function.update holds x v) := by
  refine (h.insert x).subset fun y hy => ?_
  by_cases hyx : y = x
  · exact .inl hyx
  · have hheld : Function.update holds x v y ≠ none := hy
    rw [Function.update_of_ne hyx] at hheld
    exact .inr hheld

@[simp]
theorem count_none (o : Obj) : count (fun _ : Holder => none) o = 0 := by
  simp [count]

theorem count_pos (h : Bounded holds) {x : Holder} {o : Obj} (hx : holds x = some o) :
    0 < count holds o :=
  (Set.ncard_pos (h.finite o)).mpr ⟨x, hx⟩

theorem count_eq_zero (h : ∀ x, holds x ≠ some o) : count holds o = 0 := by
  simp [count, h]

/-- One holder and the others. -/
theorem count_eq_add [DecidableEq Obj] (h : Bounded holds) (x : Holder) (o : Obj) :
    count holds o = {y | y ≠ x ∧ holds y = some o}.ncard + one (holds x) o := by
  have hfinite : {y | y ≠ x ∧ holds y = some o}.Finite :=
    (h.finite o).subset fun y hy => hy.2
  rw [one]
  split_ifs with hx
  · have hinsert : {y | holds y = some o} = insert x {y | y ≠ x ∧ holds y = some o} := by
      ext y
      by_cases hyx : y = x
      · simp [hyx, hx]
      · simp [hyx]
    rw [count, hinsert, Set.ncard_insert_of_notMem (fun hmem => hmem.1 rfl) hfinite]
  · rw [Nat.add_zero, count]
    congr 1
    ext y
    refine ⟨fun hy => ⟨fun hyx => hx (hyx ▸ hy), hy⟩, fun hy => hy.2⟩

/-- A holder lets go of what it has held and takes something else. -/
theorem count_update [DecidableEq Holder] [DecidableEq Obj] (h : Bounded holds) (x : Holder)
    (v : Option Obj) (o : Obj) :
    count (Function.update holds x v) o + one (holds x) o = count holds o + one v o := by
  rw [count_eq_add (h.update x v) x o, count_eq_add h x o, Function.update_self]
  have hothers : {y | y ≠ x ∧ Function.update holds x v y = some o} =
      {y | y ≠ x ∧ holds y = some o} := by
    ext y
    by_cases hyx : y = x
    · simp [hyx]
    · simp [hyx]
  rw [hothers]
  omega

end Holders
