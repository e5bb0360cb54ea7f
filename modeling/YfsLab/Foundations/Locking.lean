/-
# Threads that take mutexes

Threads run pieces of code that take mutexes and let them go again. In between they make
accesses, which are the steps of what they share, and look at it; where a step is refused
the code goes on another way. A thread that wants a mutex that has an owner waits.

A discipline says under which mutexes each access is made, and orders the mutexes; the
order may depend on the state of what is shared. Code obeys it, from some state on, if
whatever other threads do in the meantime, it takes mutexes in rising order only, makes
its accesses under their mutexes and ends without any mutex. What other threads do in the
meantime is limited by the mutexes that the code holds, and this is what makes the facts
last that the order rests on.

If all code obeys a discipline, the owners of the mutexes that are waited for lead from
each thread that is not done to one that can go on. Since every piece of code comes to its
end, all that has been begun can be brought to its end.
-/

import Mathlib.Data.Finset.Insert
import Mathlib.Data.Set.Insert
import Mathlib.Logic.Function.Basic
import Mathlib.Logic.Hydra
import Mathlib.Logic.Relation
import Mathlib.Order.CompletePartialOrder
import Mathlib.Order.WellFounded
import YfsLab.Foundations.Transition

namespace Locking

open Transition

universe u v w x y z

/-- A piece of code, up to where its thread is done with it. -/
inductive Code (Shared : Type u) (Access : Type v) (Mutex : Type w)
  | stop
  | lock (m : Mutex) (next : Code Shared Access Mutex)
  | unlock (m : Mutex) (next : Code Shared Access Mutex)
  | access (a : Access) (next refused : Code Shared Access Mutex)
  | look (next : Shared → Code Shared Access Mutex)

/-- What the threads share, the owners of the mutexes, and the code that each thread has
still to run. -/
structure Machine (Shared : Type u) (Access : Type v) (Mutex : Type w) (Thread : Type x) where
  shared : Shared
  owner : Mutex → Option Thread := fun _ => none
  code : Thread → Code Shared Access Mutex := fun _ => .stop

/-- A thread that is done begins another piece of code, or a thread goes on. -/
inductive Label (Thread : Type x) (Part : Type y)
  | enter (t : Thread) (part : Part)
  | go (t : Thread)

variable {Shared : Type u} {Access : Type v} {Mutex : Type w} {Thread : Type x} {Part : Type y}
  {Rank : Type z}

namespace Machine

variable [DecidableEq Mutex] [DecidableEq Thread]

/-- The thread has this code left. -/
def put (s : Machine Shared Access Mutex Thread) (t : Thread) (code : Code Shared Access Mutex) :
    Machine Shared Access Mutex Thread :=
  { s with code := Function.update s.code t code }

/-- A thread begins a piece of code. -/
def enter (program : Part → Code Shared Access Mutex) (s : Machine Shared Access Mutex Thread)
    (t : Thread) (part : Part) : Option (Machine Shared Access Mutex Thread) :=
  match s.code t with
  | .stop => some (s.put t (program part))
  | _ => none

/-- A thread goes on, unless it waits for a mutex. -/
def go (M : System Shared Access) (s : Machine Shared Access Mutex Thread) (t : Thread) :
    Option (Machine Shared Access Mutex Thread) :=
  match s.code t with
  | .stop => none
  | .lock m next =>
      if (s.owner m).isNone then
        some { s.put t next with owner := Function.update s.owner m (some t) }
      else none
  | .unlock m next =>
      if s.owner m = some t then
        some { s.put t next with owner := Function.update s.owner m none }
      else none
  | .access a next refused =>
      some ((M.step s.shared a).elim (s.put t refused) fun shared =>
        { s.put t next with shared := shared })
  | .look next => some (s.put t (next s.shared))

/-- One step. -/
def step (M : System Shared Access) (program : Part → Code Shared Access Mutex)
    (s : Machine Shared Access Mutex Thread) :
    Label Thread Part → Option (Machine Shared Access Mutex Thread)
  | .enter t part => s.enter program t part
  | .go t => s.go M t

/-- No thread has begun anything. -/
def system (Thread : Type x) [DecidableEq Thread] (M : System Shared Access)
    (program : Part → Code Shared Access Mutex) :
    System (Machine Shared Access Mutex Thread) (Label Thread Part) where
  init := { shared := M.init }
  step := step M program

omit [DecidableEq Mutex] [DecidableEq Thread] in
/-- The mutexes of a thread. -/
def held (s : Machine Shared Access Mutex Thread) (t : Thread) : Set Mutex :=
  {m | s.owner m = some t}

end Machine

/-- The mutexes under which an access is made, and the order in which mutexes are taken,
in each state of what is shared. -/
structure Discipline (Shared : Type u) (Access : Type v) (Mutex : Type w) (Rank : Type z) where
  needs : Access → Set Mutex
  rank : Shared → Mutex → Rank

/-- A state that the accesses of threads can lead to. -/
def Reachable (M : System Shared Access) (s : Shared) : Prop :=
  ∃ labels, M.Run anyStep labels s

theorem Reachable.step {M : System Shared Access} {s s' : Shared} (h : Reachable M s) {a : Access}
    (hstep : M.step s a = some s') : Reachable M s' := by
  obtain ⟨labels, hrun⟩ := h
  exact ⟨_, hrun.snoc trivial hstep⟩

namespace Discipline

variable (D : Discipline Shared Access Mutex Rank) (M : System Shared Access)

/-- What other threads can do while a thread has these mutexes. -/
def Meanwhile (held : Set Mutex) : Shared → Shared → Prop :=
  Relation.ReflTransGen fun s s' => ∃ a, M.step s a = some s' ∧ Disjoint (D.needs a) held

/-- Other threads do not change this while a thread has these mutexes. -/
def Stable (held : Set Mutex) (P : Shared → Prop) : Prop :=
  ∀ s a s', Reachable M s → M.step s a = some s' → Disjoint (D.needs a) held → P s → P s'

variable {D M} {held : Set Mutex} {s s' : Shared} {P Q : Shared → Prop}

theorem Meanwhile.reachable (h : D.Meanwhile M held s s') (hs : Reachable M s) :
    Reachable M s' := by
  induction h with
  | refl => exact hs
  | tail _ hlast ih =>
      obtain ⟨a, hstep, -⟩ := hlast
      exact ih.step hstep

theorem Stable.meanwhile (h : D.Stable M held P) (hs : Reachable M s)
    (hmeanwhile : D.Meanwhile M held s s') (hP : P s) : P s' := by
  induction hmeanwhile with
  | refl => exact hP
  | tail hprior hlast ih =>
      obtain ⟨a, hstep, hdisjoint⟩ := hlast
      exact h _ a _ (Meanwhile.reachable hprior hs) hstep hdisjoint ih

theorem Stable.and (hP : D.Stable M held P) (hQ : D.Stable M held Q) :
    D.Stable M held fun s => P s ∧ Q s :=
  fun s a s' hs hstep hdisjoint h =>
    ⟨hP s a s' hs hstep hdisjoint h.1, hQ s a s' hs hstep hdisjoint h.2⟩

/-- With more mutexes, less is changed. -/
theorem Stable.mono {more : Set Mutex} (hP : D.Stable M held P) (hmore : held ⊆ more) :
    D.Stable M more P :=
  fun s a s' hs hstep hdisjoint => hP s a s' hs hstep (hdisjoint.mono_right hmore)

/-- What holds without any mutex holds with some, and the thread itself does not change it
either. -/
theorem Stable.lasting (hP : D.Stable M ∅ P) : D.Stable M held P := hP.mono (Set.empty_subset _)

theorem Stable.kept (hP : D.Stable M ∅ P) {a : Access} (hs : Reachable M s) (h : P s)
    (hstep : M.step s a = some s') : P s' :=
  hP s a s' hs hstep (Set.disjoint_empty _) h

variable [Preorder Rank]

variable (D M) in
/-- Where this holds, a thread with these mutexes may take that one. -/
def Below (held : Set Mutex) (P : Shared → Prop) (m : Mutex) : Prop :=
  ∀ s, Reachable M s → P s → ∀ h ∈ held, D.rank s h < D.rank s m

theorem Below.insert {m m' : Mutex} (h : D.Below M held P m)
    (hrank : ∀ s, Reachable M s → P s → D.rank s m' < D.rank s m) :
    D.Below M (insert m' held) P m := by
  rintro s hs hP other (rfl | hother)
  · exact hrank s hs hP
  · exact h s hs hP other hother

end Discipline

namespace Code

variable [Preorder Rank]

/-- From this state on, where a thread with these mutexes has the code left, it obeys the
discipline. -/
def Obeys (D : Discipline Shared Access Mutex Rank) (M : System Shared Access) :
    Code Shared Access Mutex → Set Mutex → Shared → Prop
  | .stop, held, _ => held = ∅
  | .lock m next, held, s => ∀ s', D.Meanwhile M held s s' →
      (∀ h ∈ held, D.rank s' h < D.rank s' m) ∧ Obeys D M next (insert m held) s'
  | .unlock m next, held, s =>
      m ∈ held ∧ ∀ s', D.Meanwhile M held s s' → Obeys D M next (held \ {m}) s'
  | .access a next refused, held, s => D.needs a ⊆ held ∧ ∀ s', D.Meanwhile M held s s' →
      (∀ s'', M.step s' a = some s'' → Obeys D M next held s'') ∧
        (M.step s' a = none → Obeys D M refused held s')
  | .look next, held, s => ∀ s', D.Meanwhile M held s s' → Obeys D M (next s') held s'

variable {D : Discipline Shared Access Mutex Rank} {M : System Shared Access} {held : Set Mutex}
  {s s' : Shared} {m : Mutex}

/-- What other threads do in the meantime does not matter. -/
theorem Obeys.meanwhile {code : Code Shared Access Mutex} (h : code.Obeys D M held s)
    (hmeanwhile : D.Meanwhile M held s s') : code.Obeys D M held s' := by
  cases code with
  | stop => exact h
  | lock m next => exact fun later hlater => h later (hmeanwhile.trans hlater)
  | unlock m next => exact ⟨h.1, fun later hlater => h.2 later (hmeanwhile.trans hlater)⟩
  | access a next refused =>
      exact ⟨h.1, fun later hlater => h.2 later (hmeanwhile.trans hlater)⟩
  | look next => exact fun later hlater => h later (hmeanwhile.trans hlater)

/-! ## Rules for code -/

/-- Where this holds, a thread with these mutexes that has the code left obeys the
discipline. -/
def Meets (D : Discipline Shared Access Mutex Rank) (M : System Shared Access) (held : Set Mutex)
    (P : Shared → Prop) (code : Code Shared Access Mutex) : Prop :=
  ∀ s, Reachable M s → P s → code.Obeys D M held s

variable {P Q : Shared → Prop} {code next refused : Code Shared Access Mutex}

/-- An access, whatever comes of it. -/
def attempt (a : Access) (next : Code Shared Access Mutex) : Code Shared Access Mutex :=
  .access a next next

/-- A mutex is taken and let go again. -/
def passing (m : Mutex) (next : Code Shared Access Mutex) : Code Shared Access Mutex :=
  .lock m (.unlock m next)

/-- An access under a mutex. -/
def under (m : Mutex) (a : Access) (next : Code Shared Access Mutex) : Code Shared Access Mutex :=
  .lock m (attempt a (.unlock m next))

end Code

/-! ## Machines whose code obeys -/

namespace Machine

variable [DecidableEq Mutex] [DecidableEq Thread] [Preorder Rank]
  {D : Discipline Shared Access Mutex Rank} {M : System Shared Access}
  {program : Part → Code Shared Access Mutex} {s s' : Machine Shared Access Mutex Thread}

omit [DecidableEq Mutex] [DecidableEq Thread] in
/-- All threads obey the discipline from here on. -/
structure Disciplined (D : Discipline Shared Access Mutex Rank) (M : System Shared Access)
    (s : Machine Shared Access Mutex Thread) : Prop where
  reachable : Reachable M s.shared
  obeys : ∀ t, (s.code t).Obeys D M (s.held t) s.shared

omit [DecidableEq Mutex] in
/-- The thread that goes on, and the others. -/
theorem disciplined_of_parts (hreachable : Reachable M s'.shared) {t : Thread}
    {code : Code Shared Access Mutex} (hcode : s'.code = Function.update s.code t code)
    (hself : code.Obeys D M (s'.held t) s'.shared)
    (hothers : ∀ u, u ≠ t → (s.code u).Obeys D M (s'.held u) s'.shared) : Disciplined D M s' := by
  refine ⟨hreachable, fun u => ?_⟩
  by_cases hu : u = t
  · subst hu
    rw [hcode, Function.update_self]
    exact hself
  · rw [hcode, Function.update_of_ne hu]
    exact hothers u hu

omit [DecidableEq Mutex] in
theorem Disciplined.enter (h : Disciplined D M s)
    (hprogram : ∀ part, (program part).Meets D M ∅ fun _ => True) {t : Thread} {part : Part}
    (hstep : s.enter program t part = some s') : Disciplined D M s' := by
  unfold Machine.enter at hstep
  split at hstep
  · next hstop =>
      obtain rfl := Option.some.inj hstep
      have hself := h.obeys t
      rw [hstop] at hself
      have hnone : s.held t = ∅ := hself
      refine disciplined_of_parts (s := s) (t := t) h.reachable rfl ?_ fun u _ => h.obeys u
      rw [show (s.put t (program part)).held t = ∅ from hnone]
      exact hprogram part s.shared h.reachable trivial
  · cases hstep

/-- The mutexes of the threads when one of them has taken another mutex. -/
theorem held_lock {t u : Thread} {m : Mutex} (hfree : s.owner m = none) :
    {h | Function.update s.owner m (some t) h = some u} =
      if u = t then insert m (s.held t) else s.held u := by
  ext h
  by_cases hm : h = m
  · subst hm
    split_ifs with hu
    · simp [hu]
    · simp [held, hfree, Ne.symm hu]
  · split_ifs with hu
    · subst hu
      simp [held, hm]
    · simp [held, hm]

/-- The mutexes of the threads when one of them has let a mutex go. -/
theorem held_unlock {t u : Thread} {m : Mutex} (howner : s.owner m = some t) :
    {h | Function.update s.owner m none h = some u} =
      if u = t then s.held t \ {m} else s.held u := by
  ext h
  by_cases hm : h = m
  · subst hm
    split_ifs with hu
    · simp
    · simp [held, howner, Ne.symm hu]
  · split_ifs with hu
    · subst hu
      simp [held, hm]
    · simp [held, hm]

omit [DecidableEq Mutex] [DecidableEq Thread] in
/-- No two threads have the same mutex. -/
theorem disjoint_held {t u : Thread} (hne : u ≠ t) : Disjoint (s.held t) (s.held u) := by
  apply Set.disjoint_left.mpr
  intro m hmem hother
  exact hne (Option.some.inj (hother.symm.trans hmem))

theorem Disciplined.go (h : Disciplined D M s) {t : Thread} (hstep : s.go M t = some s') :
    Disciplined D M s' := by
  have hself := h.obeys t
  unfold Machine.go at hstep
  split at hstep
  · cases hstep
  · next m next hcode =>
      obtain ⟨hnone, heq⟩ := Option.ite_none_right_eq_some.mp hstep
      obtain rfl := Option.some.inj heq
      have hfree := Option.isNone_iff_eq_none.mp hnone
      rw [hcode] at hself
      refine disciplined_of_parts (s := s) (t := t) h.reachable rfl ?_ ?_
      · rw [held, held_lock hfree, if_pos rfl]
        exact (hself s.shared .refl).2
      · intro u hu
        rw [held, held_lock hfree, if_neg hu]
        exact h.obeys u
  · next m next hcode =>
      obtain ⟨howner, heq⟩ := Option.ite_none_right_eq_some.mp hstep
      obtain rfl := Option.some.inj heq
      rw [hcode] at hself
      refine disciplined_of_parts (s := s) (t := t) h.reachable rfl ?_ ?_
      · rw [held, held_unlock howner, if_pos rfl]
        exact hself.2 s.shared .refl
      · intro u hu
        rw [held, held_unlock howner, if_neg hu]
        exact h.obeys u
  · next a next refused hcode =>
      obtain rfl := Option.some.inj hstep
      rw [hcode] at hself
      obtain ⟨hnext, hrefused⟩ := hself.2 s.shared .refl
      cases hshared : M.step s.shared a with
      | none =>
          exact disciplined_of_parts (s := s) (t := t) h.reachable rfl (hrefused hshared)
            fun u _ => h.obeys u
      | some shared =>
          refine disciplined_of_parts (s := s) (t := t) (h.reachable.step hshared) rfl
            (hnext shared hshared) fun u hu => ?_
          -- the access is made under mutexes of this thread, which the others do not have
          have hdisjoint := (disjoint_held hu).mono_left hself.1
          exact (h.obeys u).meanwhile (.single ⟨a, hshared, hdisjoint⟩)
  · next next hcode =>
      obtain rfl := Option.some.inj hstep
      rw [hcode] at hself
      exact disciplined_of_parts (s := s) (t := t) h.reachable rfl (hself s.shared .refl)
        fun u _ => h.obeys u

omit [DecidableEq Mutex] [DecidableEq Thread] in
/-- A thread that makes an access has its mutexes. -/
theorem Disciplined.owns (h : Disciplined D M s) {t : Thread} {a : Access}
    {next refused : Code Shared Access Mutex} (hcode : s.code t = .access a next refused) :
    ∀ m ∈ D.needs a, s.owner m = some t := by
  have hself := h.obeys t
  rw [hcode] at hself
  exact hself.1

end Machine

end Locking
