/-
# The order of the mutexes

No fixed order fits the program. `decref` takes `m_` of a connection under its `ref_m_`, and
`rpcs::got_pdu`, which `read_cb` calls under `m_`, takes `ref_m_`; `rpcc::got_pdu` takes the
mutex of a caller under `m_` of a connection, and at the end of `call1` the connection's
mutexes are taken under that of the caller.

But `decref` goes on to `m_` only when nobody refers to the connection any more, and then it
is dead, while `read_cb` calls `got_pdu` for a live one only. And `call1` is at its end only
behind the section that takes the call out of `calls_`, where `got_pdu` finds its callers. So
the order of the mutexes depends on the state: `ref_m_` moves below `m_` when the connection
dies, and the mutex of a caller moves below all others when the call is erased. The mutexes
that a thread has keep what it relies on from changing under it.
-/

import Mathlib.Order.Fin.Finset
import YfsLab.Threads.Sections
import YfsLab.Threads.WorldSteps

namespace YfsLab.Threads

open BigEndian Locking Locking.Code Locking.Discipline Transition Rpc

variable {σ : Type}

/-- The order of the mutexes in a state. -/
def rank (w : World σ) : Mutex → Fin 7
  | .caller i k => if erased (w.links i).client k then 0 else 6
  | .chan _ | .conss | .count => 1
  | .ref e c => if (w.objs e c).dead then 2 else 4
  | .conn _ _ => 3
  | .rpcc _ | .procs | .replyWindow | .jobq | .pollMgr | .handlers => 5
  | .selectAio => 6

/-- Under which mutexes the accesses are made, and in which order mutexes are taken. -/
def discipline : Discipline (World σ) Access Mutex (Fin 7) where
  needs a := {m | m ∈ a.mutexes}
  rank := rank

@[simp]
theorem mem_needs {m : Mutex} {a : Access} :
    m ∈ (discipline (σ := σ)).needs a ↔ m ∈ a.mutexes := Iff.rfl

attribute [simp] Access.mutexes Touched.mutexes clientMutexes serverMutexes registry

variable (setup : Setup σ)

/-- The code obeys the discipline where a thread has these mutexes and this holds. -/
abbrev Sound (held : Set Mutex) (P : World σ → Prop) (code : Code σ) : Prop :=
  code.Meets discipline (World.system setup) held P

/-- Other threads do not change this while a thread has these mutexes. -/
abbrev Stays (held : Set Mutex) (P : World σ → Prop) : Prop :=
  discipline.Stable (World.system setup) held P

variable {setup} {held : Set Mutex} {P : World σ → Prop} {w w' : World σ} {a : Access} {e : End}
  {c : ConnId} {o : Option ConnId} {next : Code σ}

/-! ## What lasts -/

/-- The connection is not dead. -/
def Alive (e : End) (c : ConnId) (w : World σ) : Prop := (w.objs e c).dead = false

theorem made_lasts : Stays setup ∅ fun w => c < w.made e :=
  fun _ _ _ hw hstep _ hc => hc.trans_le (made_of_step (consistent_of_reachable hw) hstep e)

/-- A connection does not die while a thread has its mutex. -/
theorem alive_stays (hmem : .conn e c ∈ held) : Stays setup held (Alive e c) := by
  intro w a w' hw hstep hdisjoint halive
  rcases dead_of_step (consistent_of_reachable hw) hstep e c with hsame | ⟨-, hneeds⟩
  · exact hsame.trans halive
  · exact absurd hmem (Set.disjoint_left.mp hdisjoint hneeds)

/-- The connection has been made and is not dead. -/
def Usable (e : End) (c : ConnId) (w : World σ) : Prop := Alive e c w ∧ c < w.made e

theorem usable_stays (hmem : .conn e c ∈ held) : Stays setup held (Usable e c) :=
  (alive_stays hmem).and made_lasts.lasting

theorem Usable.kept (h : Usable e c w) (hw : Reachable (World.system setup) w)
    (hstep : w.step setup.app a = some w') (hnot : .conn e c ∉ a.mutexes) : Usable e c w' := by
  have hstays : Stays setup {.conn e c} (Usable e c) := usable_stays rfl
  have hdisjoint : Disjoint ((discipline (σ := σ)).needs a) {.conn e c} :=
    Set.disjoint_singleton_right.mpr hnot
  exact hstays w a w' hw hstep hdisjoint h

end YfsLab.Threads
