/-
# Condition variables

A condition variable is the list of the threads blocked on it, together with the
list of those that have been woken up and are on their way back to the mutex. A
signal wakes one blocked thread up, and a thread may also wake up without a
signal; which thread it is, and which of the woken threads gets the mutex first, is
up to the scheduler and given by an index.

Threads usually wait for units of a resource: elements of a queue, or free places.
The accounting rule here says that no unit is forgotten when every unit that
appears comes with a signal, although signals can go to threads that find their
unit taken.
-/

import Mathlib.Data.List.Perm.Basic

namespace Monitor

universe u

/-- The threads blocked on a condition variable, and those that have been woken up
and have not got the mutex back yet. -/
structure CondVar (Thread : Type u) where
  waiting : List Thread := []
  woken : List Thread := []
  deriving DecidableEq, Repr

namespace CondVar

variable {Thread : Type u}

/-- The threads inside `pthread_cond_wait`. -/
def threads (c : CondVar Thread) : List Thread := c.waiting ++ c.woken

/-- A thread lets go of the mutex and blocks. -/
def wait (c : CondVar Thread) (t : Thread) : CondVar Thread :=
  { c with waiting := c.waiting ++ [t] }

/-- A blocked thread wakes up. -/
def wake (c : CondVar Thread) (i : ℕ) : Option (CondVar Thread) :=
  c.waiting[i]?.map fun t => ⟨c.waiting.eraseIdx i, c.woken ++ [t]⟩

/-- `pthread_cond_signal` wakes one of the blocked threads up, if there are any. -/
def signal (c : CondVar Thread) (choice : ℕ) : CondVar Thread :=
  (c.wake (choice % c.waiting.length)).getD c

/-- `pthread_cond_broadcast` wakes all of them up. -/
def broadcast (c : CondVar Thread) : CondVar Thread := ⟨[], c.woken ++ c.waiting⟩

/-- A woken thread gets the mutex back. -/
def resume (c : CondVar Thread) (i : ℕ) : Option (Thread × CondVar Thread) :=
  c.woken[i]?.map fun t => (t, { c with woken := c.woken.eraseIdx i })

/-! ## What the operations do to the two lists -/

theorem wake_eq_some {c c' : CondVar Thread} {i : ℕ} (hwake : c.wake i = some c') :
    c'.waiting.length + 1 = c.waiting.length ∧ c'.woken.length = c.woken.length + 1 := by
  obtain ⟨t, ht, rfl⟩ := Option.map_eq_some_iff.mp hwake
  obtain ⟨hi, -⟩ := List.getElem?_eq_some_iff.mp ht
  simp only [List.length_eraseIdx_of_lt hi, List.length_append, List.length_singleton, and_true]
  omega

theorem resume_eq_some {c c' : CondVar Thread} {i : ℕ} {t : Thread}
    (hresume : c.resume i = some (t, c')) :
    c'.waiting = c.waiting ∧ c'.woken.length + 1 = c.woken.length ∧ t ∈ c.woken := by
  obtain ⟨t', ht, heq⟩ := Option.map_eq_some_iff.mp hresume
  obtain ⟨rfl, rfl⟩ := Prod.mk.inj heq
  obtain ⟨hi, -⟩ := List.getElem?_eq_some_iff.mp ht
  simp only [List.length_eraseIdx_of_lt hi, List.mem_of_getElem? ht, and_true, true_and]
  omega

/-- A signal wakes a thread up unless nobody waits. -/
theorem signal_cases (c : CondVar Thread) (choice : ℕ) :
    (c.waiting = [] ∧ c.signal choice = c) ∨ c.wake (choice % c.waiting.length) =
      some (c.signal choice) := by
  rw [signal]
  cases hwake : c.wake (choice % c.waiting.length) with
  | some woken => exact .inr rfl
  | none =>
      refine .inl ⟨?_, rfl⟩
      rw [wake, Option.map_eq_none_iff, List.getElem?_eq_none_iff] at hwake
      by_contra hne
      have hlt := Nat.mod_lt choice (List.length_pos_iff.mpr hne)
      omega

/-- A signal leaves nobody blocked who was there alone. -/
theorem waiting_signal_of_length_le_one (c : CondVar Thread) (choice : ℕ)
    (h : c.waiting.length ≤ 1) : (c.signal choice).waiting = [] := by
  rcases c.signal_cases choice with ⟨hnone, hsame⟩ | hwake
  · rw [hsame, hnone]
  · obtain ⟨hwaiting, -⟩ := wake_eq_some hwake
    exact List.length_eq_zero_iff.mp (by omega)

/-! ## Who is inside -/

theorem threads_wait_perm (c : CondVar Thread) (t : Thread) :
    (c.wait t).threads.Perm (t :: c.threads) := by
  simp only [threads, wait, List.append_assoc]
  exact List.perm_middle

theorem threads_wake_perm {c c' : CondVar Thread} {i : ℕ} (hwake : c.wake i = some c') :
    c'.threads.Perm c.threads := by
  obtain ⟨t, ht, rfl⟩ := Option.map_eq_some_iff.mp hwake
  obtain ⟨hi, rfl⟩ := List.getElem?_eq_some_iff.mp ht
  have hsplit : c.waiting.eraseIdx i ++ (c.woken ++ [c.waiting[i]]) =
      c.waiting.eraseIdx i ++ c.woken ++ [c.waiting[i]] := (List.append_assoc ..).symm
  simp only [threads, hsplit]
  exact List.perm_append_comm.trans
    ((List.getElem_cons_eraseIdx_perm hi).append_right c.woken)

theorem threads_signal_perm (c : CondVar Thread) (choice : ℕ) :
    (c.signal choice).threads.Perm c.threads := by
  rcases c.signal_cases choice with ⟨-, hsame⟩ | hwake
  · rw [hsame]
  · exact threads_wake_perm hwake

theorem threads_broadcast_perm (c : CondVar Thread) : c.broadcast.threads.Perm c.threads := by
  simp only [threads, broadcast, List.nil_append]
  exact List.perm_append_comm

theorem threads_resume_perm {c c' : CondVar Thread} {i : ℕ} {t : Thread}
    (hresume : c.resume i = some (t, c')) : c.threads.Perm (t :: c'.threads) := by
  obtain ⟨t', ht, heq⟩ := Option.map_eq_some_iff.mp hresume
  obtain ⟨rfl, rfl⟩ := Prod.mk.inj heq
  obtain ⟨hi, rfl⟩ := List.getElem?_eq_some_iff.mp ht
  exact ((List.getElem_cons_eraseIdx_perm hi).symm.append_left c.waiting).trans List.perm_middle

/-! ## Accounting for the units that threads wait for -/

/-- While anybody waits, each of the available units has a thread on its way to take
it. -/
def Covers (c : CondVar Thread) (units : ℕ) : Prop :=
  c.waiting ≠ [] → units ≤ c.woken.length

variable {c c' : CondVar Thread} {units : ℕ}

/-- Units may be taken by other threads. -/
theorem Covers.mono (h : c.Covers units) {fewer : ℕ} (hle : fewer ≤ units) :
    c.Covers fewer :=
  fun hwaiting => Nat.le_trans hle (h hwaiting)

/-- Nothing has to be covered when there are no units. -/
theorem covers_zero (c : CondVar Thread) : c.Covers 0 :=
  fun _ => Nat.zero_le _

theorem Covers.wake (h : c.Covers units) {i : ℕ} (hwake : c.wake i = some c') :
    c'.Covers units := by
  obtain ⟨hwaiting, hwoken⟩ := wake_eq_some hwake
  intro _
  have hunits := h (List.ne_nil_of_length_pos (by omega))
  omega

/-- A new unit comes with a signal. -/
theorem Covers.signal (h : c.Covers units) (choice : ℕ) :
    (c.signal choice).Covers (units + 1) := by
  rcases c.signal_cases choice with ⟨hnone, hsame⟩ | hwake
  · rw [hsame]
    exact fun hwaiting => absurd hnone hwaiting
  · obtain ⟨hwaiting, hwoken⟩ := wake_eq_some hwake
    intro _
    have hunits := h (List.ne_nil_of_length_pos (by omega))
    omega

/-- A thread that gets the mutex back may take a unit. -/
theorem Covers.resume (h : c.Covers units) {i : ℕ} {t : Thread}
    (hresume : c.resume i = some (t, c')) : c'.Covers (units - 1) := by
  obtain ⟨hwaiting, hwoken, -⟩ := resume_eq_some hresume
  intro hne
  rw [hwaiting] at hne
  have hunits := h hne
  omega

/-- Available units have somebody on the way to them while anybody waits. -/
theorem Covers.woken_ne_nil (h : c.Covers units) (hwaiting : c.waiting ≠ [])
    (hunits : 0 < units) : c.woken ≠ [] :=
  List.ne_nil_of_length_pos (Nat.lt_of_lt_of_le hunits (h hwaiting))

end CondVar

end Monitor
