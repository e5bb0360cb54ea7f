/-
# The job queue

`fifo` is a bounded queue under one mutex, with a condition variable for the
consumers that find it empty and one for the producers that find it full. The
mutex-protected sections are the steps: a section of `enq` or `deq` ends where the
code returns or where `pthread_cond_wait` lets go of the mutex, and a woken thread
runs one more section when it gets the mutex back.
-/

import YfsLab.Foundations.CondVar
import YfsLab.Foundations.Transition

namespace YfsLab.Pool

open Monitor Transition

universe u

/-- The threads that use a queue. -/
abbrev ThreadId := ℕ

/-- `fifo<T>`. A producer that waits for space keeps the element it wants to
enqueue. -/
structure Fifo (T : Type u) where
  q : List T := []
  max : ℕ
  nonEmptyC : CondVar ThreadId := {}
  hasSpaceC : CondVar (ThreadId × T) := {}
  deriving DecidableEq, Repr

namespace Fifo

variable {T : Type u}

/-! ## The sections -/

/-- The loop of `enq`, from where the thread has the mutex: `some` is what `enq`
returns, and `none` means that the thread waits. -/
def enq (f : Fifo T) (t : ThreadId) (e : T) (blocking : Bool) (choice : ℕ) :
    Fifo T × Option Bool :=
  if f.max = 0 ∨ f.q.length < f.max then
    ({ f with q := f.q ++ [e], nonEmptyC := f.nonEmptyC.signal choice }, some true)
  else if blocking then ({ f with hasSpaceC := f.hasSpaceC.wait (t, e) }, none)
  else (f, some false)

/-- The loop of `deq`, from where the thread has the mutex: `some` is the element
that `deq` hands out, and `none` means that the thread waits. -/
def deq (f : Fifo T) (t : ThreadId) (choice : ℕ) : Fifo T × Option T :=
  match f.q with
  | [] => ({ f with nonEmptyC := f.nonEmptyC.wait t }, none)
  | e :: rest =>
      ({ f with
          q := rest
          hasSpaceC :=
            if f.max ≠ 0 ∧ rest.length < f.max then f.hasSpaceC.signal choice
            else f.hasSpaceC }, some e)

/-- The thread is inside `enq` or `deq`. -/
def Inside (f : Fifo T) (t : ThreadId) : Prop :=
  t ∈ f.nonEmptyC.threads ∨ t ∈ f.hasSpaceC.threads.map Prod.fst

instance (f : Fifo T) (t : ThreadId) : Decidable (f.Inside t) :=
  inferInstanceAs (Decidable (_ ∨ _))

/-- The sections, together with what the scheduler chooses. -/
inductive Label (T : Type u)
  | enq (t : ThreadId) (e : T) (blocking : Bool) (choice : ℕ)
  | deq (t : ThreadId) (choice : ℕ)
  | wakeProducer (i : ℕ)
  | wakeConsumer (i : ℕ)
  | resumeEnq (i choice : ℕ)
  | resumeDeq (i choice : ℕ)

/-- What the callers learn: an element has been put into the queue, has been turned
down, or has been taken out. -/
inductive Event (T : Type u)
  | accepted (t : ThreadId) (e : T)
  | rejected (t : ThreadId) (e : T)
  | taken (t : ThreadId) (e : T)
  deriving DecidableEq, Repr

/-- The outcome of a section of `enq`. -/
def enqEvents (t : ThreadId) (e : T) : Option Bool → List (Event T)
  | none => []
  | some true => [.accepted t e]
  | some false => [.rejected t e]

/-- The outcome of a section of `deq`. -/
def deqEvents (t : ThreadId) : Option T → List (Event T)
  | none => []
  | some e => [.taken t e]

/-- One section, or one wake-up without a signal. Only a producer that blocks has
been waiting. -/
def run (f : Fifo T) : Label T → Option (Fifo T × List (Event T))
  | .enq t e blocking choice =>
      if f.Inside t then none
      else
        let result := f.enq t e blocking choice
        some (result.1, enqEvents t e result.2)
  | .deq t choice =>
      if f.Inside t then none
      else
        let result := f.deq t choice
        some (result.1, deqEvents t result.2)
  | .wakeProducer i => (f.hasSpaceC.wake i).map fun c => ({ f with hasSpaceC := c }, [])
  | .wakeConsumer i => (f.nonEmptyC.wake i).map fun c => ({ f with nonEmptyC := c }, [])
  | .resumeEnq i choice =>
      (f.hasSpaceC.resume i).map fun ((t, e), c) =>
        let result := { f with hasSpaceC := c }.enq t e true choice
        (result.1, enqEvents t e result.2)
  | .resumeDeq i choice =>
      (f.nonEmptyC.resume i).map fun (t, c) =>
        let result := { f with nonEmptyC := c }.deq t choice
        (result.1, deqEvents t result.2)

/-- A queue with the history of its outcomes. -/
def system (max : ℕ) : System (Fifo T × List (Event T)) (Label T) where
  init := ({ max := max }, [])
  step state label :=
    (state.1.run label).map fun (f, events) => (f, state.2 ++ events)

/-- The elements that have been accepted, in order. -/
def accepted (history : List (Event T)) : List T :=
  history.filterMap fun event =>
    match event with
    | .accepted _ e => some e
    | _ => none

/-- The elements that have been taken, in order. -/
def taken (history : List (Event T)) : List T :=
  history.filterMap fun event =>
    match event with
    | .taken _ e => some e
    | _ => none

@[simp]
theorem accepted_append (history more : List (Event T)) :
    accepted (history ++ more) = accepted history ++ accepted more :=
  List.filterMap_append

@[simp]
theorem taken_append (history more : List (Event T)) :
    taken (history ++ more) = taken history ++ taken more :=
  List.filterMap_append

/-! ## What a section does -/

/-- The queue keeps its bound, and each condition variable covers what is there to
wait for: elements for the consumers, free places for the producers. -/
structure WellFormed (f : Fifo T) : Prop where
  length_le : f.max ≠ 0 → f.q.length ≤ f.max
  covers_elements : f.nonEmptyC.Covers f.q.length
  covers_space : f.max ≠ 0 → f.hasSpaceC.Covers (f.max - f.q.length)

/-- A step of a queue: the invariant is kept, the capacity stays, the contents change
by what the events say, and nothing is turned down while there is space. -/
structure Proceeds (f f' : Fifo T) (events : List (Event T)) : Prop where
  wellFormed : f'.WellFormed
  max_eq : f'.max = f.max
  contents_eq : taken events ++ f'.q = f.q ++ accepted events
  full_of_rejected : ∀ t e, Event.rejected t e ∈ events → f.max ≠ 0 ∧ f.q.length = f.max

/-- A thread in `enq` that has the mutex, and may have left `has_space_c_` for it. -/
theorem proceeds_enq {f : Fifo T} (hlength : f.max ≠ 0 → f.q.length ≤ f.max)
    (helements : f.nonEmptyC.Covers f.q.length)
    (hspace : f.max ≠ 0 → f.hasSpaceC.Covers (f.max - f.q.length - 1))
    (t : ThreadId) (e : T) (blocking : Bool) (choice : ℕ) :
    Proceeds f (f.enq t e blocking choice).1
      (enqEvents t e (f.enq t e blocking choice).2) := by
  by_cases hroom : f.max = 0 ∨ f.q.length < f.max
  · rw [enq, if_pos hroom]
    refine ⟨⟨fun hmax => ?_, ?_, fun hmax => ?_⟩, rfl, rfl, by simp [enqEvents]⟩
    · have hlt := hroom.resolve_left hmax
      simp only [List.length_append, List.length_singleton]
      omega
    · simpa using helements.signal choice
    · refine (hspace hmax).mono ?_
      simp only [List.length_append, List.length_singleton]
      omega
  · obtain ⟨hmax, hfull⟩ := not_or.mp hroom
    have hlast := hlength hmax
    have hnone : f.max - f.q.length = 0 := by omega
    cases blocking with
    | true =>
        rw [enq, if_neg hroom, if_pos rfl]
        refine ⟨⟨hlength, helements, fun _ => ?_⟩, rfl, by simp [enqEvents, taken, accepted],
          by simp [enqEvents]⟩
        simp only [hnone]
        exact CondVar.covers_zero _
    | false =>
        rw [enq, if_neg hroom, if_neg Bool.false_ne_true]
        refine ⟨⟨hlength, helements, fun _ => ?_⟩, rfl, by simp [enqEvents, taken, accepted],
          fun _ _ _ => ⟨hmax, by omega⟩⟩
        rw [hnone]
        exact CondVar.covers_zero _

/-- A thread in `deq` that has the mutex, and may have left `non_empty_c_` for it. -/
theorem proceeds_deq {f : Fifo T} (hlength : f.max ≠ 0 → f.q.length ≤ f.max)
    (helements : f.nonEmptyC.Covers (f.q.length - 1))
    (hspace : f.max ≠ 0 → f.hasSpaceC.Covers (f.max - f.q.length))
    (t : ThreadId) (choice : ℕ) :
    Proceeds f (f.deq t choice).1 (deqEvents t (f.deq t choice).2) := by
  cases hq : f.q with
  | nil =>
      simp only [deq, hq]
      rw [hq] at hlength hspace
      refine ⟨⟨fun _ => Nat.zero_le _, ?_, fun hmax => ?_⟩, rfl, ?_, by simp [deqEvents]⟩
      · simpa [hq] using CondVar.covers_zero _
      · simpa [hq] using hspace hmax
      · simp [deqEvents, taken, accepted, hq]
  | cons e rest =>
      simp only [deq, hq]
      rw [hq, List.length_cons] at hlength helements hspace
      refine ⟨⟨fun hmax => ?_, by simpa using helements, fun hmax => ?_⟩, rfl,
        by simp [deqEvents, taken, accepted, hq], by simp [deqEvents]⟩
      · have hle := hlength hmax
        simp only
        omega
      · have hle := hlength hmax
        have hunits : f.max - rest.length = f.max - (rest.length + 1) + 1 := by omega
        simp only [if_pos (show f.max ≠ 0 ∧ rest.length < f.max from ⟨hmax, by omega⟩), hunits]
        exact (hspace hmax).signal choice

/-- Every section keeps the invariant. -/
theorem WellFormed.run {f f' : Fifo T} {label : Label T} {events : List (Event T)}
    (h : f.WellFormed) (hrun : f.run label = some (f', events)) : Proceeds f f' events := by
  cases label with
  | enq t e blocking choice =>
      simp only [Fifo.run] at hrun
      split_ifs at hrun
      obtain ⟨rfl, rfl⟩ := Prod.mk.inj (Option.some.inj hrun)
      exact proceeds_enq h.length_le h.covers_elements
        (fun hmax => (h.covers_space hmax).mono (Nat.sub_le _ _)) t e blocking choice
  | deq t choice =>
      simp only [Fifo.run] at hrun
      split_ifs at hrun
      obtain ⟨rfl, rfl⟩ := Prod.mk.inj (Option.some.inj hrun)
      exact proceeds_deq h.length_le (h.covers_elements.mono (Nat.sub_le _ _))
        h.covers_space t choice
  | wakeProducer i =>
      obtain ⟨c, hwake, heq⟩ := Option.map_eq_some_iff.mp hrun
      obtain ⟨rfl, rfl⟩ := Prod.mk.inj heq
      exact ⟨⟨h.length_le, h.covers_elements, fun hmax => (h.covers_space hmax).wake hwake⟩,
        rfl, by simp [taken, accepted], by simp⟩
  | wakeConsumer i =>
      obtain ⟨c, hwake, heq⟩ := Option.map_eq_some_iff.mp hrun
      obtain ⟨rfl, rfl⟩ := Prod.mk.inj heq
      exact ⟨⟨h.length_le, h.covers_elements.wake hwake, h.covers_space⟩,
        rfl, by simp [taken, accepted], by simp⟩
  | resumeEnq i choice =>
      obtain ⟨⟨⟨t, e⟩, c⟩, hresume, heq⟩ := Option.map_eq_some_iff.mp hrun
      obtain ⟨rfl, rfl⟩ := Prod.mk.inj heq
      have hproceeds := proceeds_enq (f := { f with hasSpaceC := c }) h.length_le
        h.covers_elements (fun hmax => (h.covers_space hmax).resume hresume) t e true choice
      exact ⟨hproceeds.1, hproceeds.2, hproceeds.3, hproceeds.4⟩
  | resumeDeq i choice =>
      obtain ⟨⟨t, c⟩, hresume, heq⟩ := Option.map_eq_some_iff.mp hrun
      obtain ⟨rfl, rfl⟩ := Prod.mk.inj heq
      have hproceeds := proceeds_deq (f := { f with nonEmptyC := c }) h.length_le
        (h.covers_elements.resume hresume) h.covers_space t choice
      exact ⟨hproceeds.1, hproceeds.2, hproceeds.3, hproceeds.4⟩

/-! ## Who waits for elements -/

theorem threads_enq_perm (f : Fifo T) (t : ThreadId) (e : T) (blocking : Bool)
    (choice : ℕ) :
    (f.enq t e blocking choice).1.nonEmptyC.threads.Perm f.nonEmptyC.threads := by
  rw [enq]
  split_ifs
  · exact f.nonEmptyC.threads_signal_perm choice
  · exact .refl _
  · exact .refl _

/-- A consumer gets the first element, or joins those that wait. -/
theorem deq_cases (f : Fifo T) (t : ThreadId) (choice : ℕ) :
    ((f.deq t choice).2 = none ∧
      (f.deq t choice).1.nonEmptyC.threads.Perm (t :: f.nonEmptyC.threads)) ∨
    ∃ e, (f.deq t choice).2 = some e ∧
      (f.deq t choice).1.nonEmptyC.threads = f.nonEmptyC.threads := by
  rw [deq]
  cases f.q with
  | nil => exact .inl ⟨rfl, f.nonEmptyC.threads_wait_perm t⟩
  | cons e rest => exact .inr ⟨e, rfl, rfl⟩

/-- A producer gets its element in, gives up, or joins those that wait. -/
theorem mem_producers_enq {f : Fifo T} {t : ThreadId} {e : T} {blocking : Bool}
    {choice : ℕ} {producer : ThreadId × T}
    (hmem : producer ∈ (f.enq t e blocking choice).1.hasSpaceC.threads) :
    producer ∈ f.hasSpaceC.threads ∨
      producer = (t, e) ∧ (f.enq t e blocking choice).2 = none := by
  rw [enq] at hmem ⊢
  split_ifs at hmem ⊢
  · exact .inl hmem
  · rcases List.mem_cons.mp ((f.hasSpaceC.threads_wait_perm (t, e)).mem_iff.mp hmem) with
      rfl | hmem
    · exact .inr ⟨rfl, rfl⟩
    · exact .inl hmem
  · exact .inl hmem

theorem producers_deq_perm (f : Fifo T) (t : ThreadId) (choice : ℕ) :
    (f.deq t choice).1.hasSpaceC.threads.Perm f.hasSpaceC.threads := by
  rw [deq]
  cases f.q with
  | nil => exact .refl _
  | cons e rest =>
      simp only
      split_ifs
      · exact f.hasSpaceC.threads_signal_perm choice
      · exact .refl _

/-! ## Runs -/

/-- What holds of a queue and its history. -/
structure Faithful (max : ℕ) (reached : Fifo T × List (Event T)) : Prop where
  wellFormed : reached.1.WellFormed
  max_eq : reached.1.max = max
  accepted_eq : accepted reached.2 = taken reached.2 ++ reached.1.q

theorem faithful_init (max : ℕ) : Faithful (T := T) max ({ max := max }, []) where
  wellFormed := ⟨fun _ => Nat.zero_le _, fun h => absurd rfl h, fun _ h => absurd rfl h⟩
  max_eq := rfl
  accepted_eq := rfl

theorem Faithful.run {max : ℕ} {f f' : Fifo T} {history events : List (Event T)}
    {label : Label T} (h : Faithful max (f, history)) (hrun : f.run label = some (f', events)) :
    Faithful max (f', history ++ events) := by
  have hproceeds := h.wellFormed.run hrun
  have haccepted : accepted history = taken history ++ f.q := h.accepted_eq
  refine ⟨hproceeds.wellFormed, hproceeds.max_eq.trans h.max_eq, ?_⟩
  rw [accepted_append, taken_append, haccepted, List.append_assoc, List.append_assoc,
    hproceeds.contents_eq]

theorem faithful_of_run {max : ℕ} {labels : List (Label T)}
    {reached : Fifo T × List (Event T)} (hrun : (system max).Run anyStep labels reached) :
    Faithful max reached := by
  refine hrun.invariant (Faithful max) (faithful_init max) ?_
  intro _ source label target _ h _ hstep
  obtain ⟨⟨f', events⟩, hsection, rfl⟩ := Option.map_eq_some_iff.mp hstep
  exact h.run hsection

/-- While a consumer waits un-signalled and there are elements, a consumer is on its
way to the mutex. -/
theorem WellFormed.consumers_awake {f : Fifo T} (h : f.WellFormed)
    (hwaiting : f.nonEmptyC.waiting ≠ []) (helements : f.q ≠ []) :
    f.nonEmptyC.woken ≠ [] :=
  h.covers_elements.woken_ne_nil hwaiting (List.length_pos_iff.mpr helements)

/-- While a producer waits un-signalled and there is space, a producer is on its way to
the mutex. -/
theorem WellFormed.producers_awake {f : Fifo T} (h : f.WellFormed) (hmax : f.max ≠ 0)
    (hwaiting : f.hasSpaceC.waiting ≠ []) (hspace : f.q.length < f.max) :
    f.hasSpaceC.woken ≠ [] :=
  (h.covers_space hmax).woken_ne_nil hwaiting (by omega)

end Fifo

end YfsLab.Pool
