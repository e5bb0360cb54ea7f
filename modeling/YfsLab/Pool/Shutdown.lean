/-
# What the destructor of a pool waits for

Only the destructor puts pills into the queue, one for each worker, and a worker
that takes a pill takes nothing else. So when the destructor has joined all workers,
each of them has taken one pill, all pills have been taken, and with them everything
that was in the queue in front of them.
-/

import Mathlib.Data.List.Nodup
import YfsLab.Pool.ThrPool

namespace YfsLab.Pool

open Monitor Transition

universe u

namespace ThrPool

/-! ## Pills -/

/-- The threads that have taken a pill. -/
def pillTakers (history : List (Fifo.Event Job)) : List ThreadId :=
  history.filterMap fun event =>
    match event with
    | .taken w j => if j.isPill then some w else none
    | _ => none

@[simp]
theorem pillTakers_append (history more : List (Fifo.Event Job)) :
    pillTakers (history ++ more) = pillTakers history ++ pillTakers more :=
  List.filterMap_append

/-- Every pill that has been taken has a taker. -/
theorem length_pillTakers (history : List (Fifo.Event Job)) :
    (pillTakers history).length = (Fifo.taken history).countP Job.isPill := by
  induction history with
  | nil => rfl
  | cons event rest ih =>
      cases event with
      | accepted t j => exact ih
      | rejected t j => exact ih
      | taken w j =>
          simp only [pillTakers, Fifo.taken, List.filterMap_cons, List.countP_cons] at ih ⊢
          cases hpill : j.isPill <;> simp [ih]

end ThrPool

/-- The pills that the destructor has put into the queue. -/
def Destructor.pills (nthreads : ℕ) : Destructor → ℕ
  | .notCalled => 0
  | .pushing _ pills => pills
  | _ => nthreads

/-- The thread that puts pills into the queue. -/
def Destructor.pusher : Destructor → Option ThreadId
  | .pushing t _ => some t
  | _ => none

theorem Destructor.thread_of_pusher (d : Destructor) {t : ThreadId} (h : d.pusher = some t) :
    d.thread = some t := by
  cases d with
  | pushing => exact h
  | _ => cases h

/-- The workers that the destructor has joined. -/
def Destructor.joined (nthreads : ℕ) : Destructor → ℕ
  | .joining _ joined => joined
  | .returned => nthreads
  | _ => 0

namespace ThrPool

/-! ## The invariant -/

/-- How the threads of a pool stand to its queue and to what has been taken. -/
structure Ordered (p : ThrPool) (history : List (Fifo.Event Job)) : Prop where
  consumers_nodup : p.jobq.nonEmptyC.threads.Nodup
  consumers_fetching : ∀ w ∈ p.jobq.nonEmptyC.threads, p.worker w = .fetching
  producers_pill : ∀ producer ∈ p.jobq.hasSpaceC.threads,
    producer.2.isPill = true ↔ p.destructor.pusher = some producer.1
  pillTakers_nodup : (pillTakers history).Nodup
  mem_pillTakers_iff : ∀ w, w ∈ pillTakers history ↔ p.worker w = .exited
  pills_eq : (Fifo.accepted history).countP Job.isPill = p.destructor.pills p.nthreads
  joined_exited : ∀ w < p.destructor.joined p.nthreads, p.worker w = .exited

/-- The destructor counts what it has put into the queue, and nothing else. -/
theorem settle_accepted_cases (p : ThrPool) (t : ThreadId) (j : Job) :
    (∃ pills, p.destructor = .pushing t pills ∧
      p.settle (.accepted t j) = { p with destructor := .pushing t (pills + 1) }) ∨
    (p.destructor.pusher ≠ some t ∧ p.settle (.accepted t j) = p) := by
  cases hdestructor : p.destructor with
  | pushing d pills =>
      by_cases ht : t = d
      · exact .inl ⟨pills, by rw [ht], by simp [settle, hdestructor, ht]⟩
      · exact .inr ⟨by simpa [Destructor.pusher] using Ne.symm ht,
          by simp [settle, hdestructor, ht]⟩
  | _ => exact .inr ⟨by simp [Destructor.pusher], by simp [settle, hdestructor]⟩

/-- An element that has been put into the queue: a pill of the destructor, or a job of
another thread. -/
theorem Ordered.accepted {p : ThrPool} {history : List (Fifo.Event Job)}
    (h : p.Ordered history) {t : ThreadId} {j : Job}
    (hpill : j.isPill = true ↔ p.destructor.pusher = some t) :
    (p.settle (.accepted t j)).Ordered (history ++ [.accepted t j]) := by
  have htakers : pillTakers (history ++ [.accepted t j]) = pillTakers history := by
    rw [pillTakers_append]
    exact List.append_nil _
  have haccepted : Fifo.accepted (history ++ [.accepted t j]) =
      Fifo.accepted history ++ [j] := Fifo.accepted_append ..
  rcases p.settle_accepted_cases t j with ⟨pills, hdestructor, hsettle⟩ | ⟨hother, hsettle⟩
  · have hpusher : p.destructor.pusher = some t := by rw [hdestructor]; rfl
    have hpills := h.pills_eq
    rw [hdestructor] at hpills
    rw [hsettle]
    refine ⟨h.consumers_nodup, h.consumers_fetching, fun producer hmem => ?_,
      htakers ▸ h.pillTakers_nodup, fun w => htakers ▸ h.mem_pillTakers_iff w, ?_,
      fun w hw => absurd hw (Nat.not_lt_zero w)⟩
    · rw [h.producers_pill producer hmem, hpusher]
      rfl
    · rw [haccepted, List.countP_append, hpills]
      simp [hpill.mpr hpusher, Destructor.pills]
  · rw [hsettle]
    refine ⟨h.consumers_nodup, h.consumers_fetching, h.producers_pill,
      htakers ▸ h.pillTakers_nodup, fun w => htakers ▸ h.mem_pillTakers_iff w, ?_,
      h.joined_exited⟩
    rw [haccepted, List.countP_append, h.pills_eq]
    simp [mt hpill.mp hother]

/-- An element that a worker has taken: it exits with a pill and runs a job. -/
theorem Ordered.taken {p : ThrPool} {history : List (Fifo.Event Job)}
    (h : p.Ordered history) {w : ThreadId} {j : Job} (hfetching : p.worker w = .fetching)
    (hout : w ∉ p.jobq.nonEmptyC.threads) :
    (p.settle (.taken w j)).Ordered (history ++ [.taken w j]) := by
  have hnot : w ∉ pillTakers history := fun hmem => by
    have hexited := (h.mem_pillTakers_iff w).mp hmem
    rw [hfetching] at hexited
    cases hexited
  have haccepted : Fifo.accepted (history ++ [.taken w j]) = Fifo.accepted history := by
    rw [Fifo.accepted_append]
    exact List.append_nil _
  have htakers : pillTakers (history ++ [.taken w j]) =
      pillTakers history ++ if j.isPill then [w] else [] := by
    rw [pillTakers_append]
    cases hpill : j.isPill <;> simp [pillTakers, hpill]
  refine ⟨h.consumers_nodup, fun v hv => ?_, h.producers_pill, ?_, fun v => ?_,
    haccepted ▸ h.pills_eq, fun v hv => ?_⟩
  · have hne : v ≠ w := fun heq => hout (heq ▸ hv)
    simpa [settle, hne] using h.consumers_fetching v hv
  · rw [htakers]
    cases hpill : j.isPill with
    | true =>
        simpa [List.nodup_append, hnot] using
          ⟨h.pillTakers_nodup, fun v hv heq => hnot (heq ▸ hv)⟩
    | false => simpa using h.pillTakers_nodup
  · rw [htakers]
    by_cases hvw : v = w
    · subst hvw
      cases hpill : j.isPill <;> simp [settle, hpill, hnot]
    · cases hpill : j.isPill <;> simp [settle, hpill, hvw, h.mem_pillTakers_iff]
  · have hexited := h.joined_exited v hv
    have hne : v ≠ w := fun heq => by
      rw [heq, hfetching] at hexited
      cases hexited
    simpa [settle, hne] using hexited

/-- The outcome of a section of `enq`. Pills come from the destructor. -/
theorem Ordered.enq {p : ThrPool} {history : List (Fifo.Event Job)} (h : p.Ordered history)
    {t : ThreadId} {j : Job} (hpill : j.isPill = true ↔ p.destructor.pusher = some t)
    (blocking : Bool) (choice : ℕ) :
    ((Fifo.enqEvents t j (p.jobq.enq t j blocking choice).2).foldl settle
      { p with jobq := (p.jobq.enq t j blocking choice).1 }).Ordered
        (history ++ Fifo.enqEvents t j (p.jobq.enq t j blocking choice).2) := by
  have hperm := p.jobq.threads_enq_perm t j blocking choice
  have hafter : { p with jobq := (p.jobq.enq t j blocking choice).1 }.Ordered history := by
    refine ⟨hperm.nodup_iff.mpr h.consumers_nodup,
      fun w hw => h.consumers_fetching w (hperm.mem_iff.mp hw), fun producer hmem => ?_,
      h.pillTakers_nodup, h.mem_pillTakers_iff, h.pills_eq, h.joined_exited⟩
    rcases Fifo.mem_producers_enq hmem with hmem | ⟨rfl, -⟩
    · exact h.producers_pill producer hmem
    · exact hpill
  cases (p.jobq.enq t j blocking choice).2 with
  | none => simpa [Fifo.enqEvents] using hafter
  | some result =>
      cases result with
      | true => exact hafter.accepted hpill
      | false =>
          refine ⟨hafter.consumers_nodup, hafter.consumers_fetching, hafter.producers_pill,
            ?_, fun w => ?_, ?_, hafter.joined_exited⟩
          · simpa [pillTakers, Fifo.enqEvents] using hafter.pillTakers_nodup
          · simpa [pillTakers, Fifo.enqEvents, settle] using hafter.mem_pillTakers_iff w
          · simpa [Fifo.accepted, Fifo.enqEvents, settle] using hafter.pills_eq

/-- The outcome of a section of `deq`. -/
theorem Ordered.deq {p : ThrPool} {history : List (Fifo.Event Job)} (h : p.Ordered history)
    {w : ThreadId} (hfetching : p.worker w = .fetching)
    (hout : w ∉ p.jobq.nonEmptyC.threads) (choice : ℕ) :
    ((Fifo.deqEvents w (p.jobq.deq w choice).2).foldl settle
      { p with jobq := (p.jobq.deq w choice).1 }).Ordered
        (history ++ Fifo.deqEvents w (p.jobq.deq w choice).2) := by
  have hproducers := p.jobq.producers_deq_perm w choice
  rcases p.jobq.deq_cases w choice with ⟨hnone, hperm⟩ | ⟨j, hsome, hsame⟩
  · rw [hnone]
    simp only [Fifo.deqEvents, List.foldl_nil, List.append_nil]
    refine ⟨hperm.nodup_iff.mpr (List.nodup_cons.mpr ⟨hout, h.consumers_nodup⟩),
      fun v hv => ?_, fun producer hmem => h.producers_pill producer (hproducers.mem_iff.mp hmem),
      h.pillTakers_nodup, h.mem_pillTakers_iff, h.pills_eq, h.joined_exited⟩
    rcases List.mem_cons.mp (hperm.mem_iff.mp hv) with rfl | hv
    · exact hfetching
    · exact h.consumers_fetching v hv
  · have hafter : { p with jobq := (p.jobq.deq w choice).1 }.Ordered history :=
      ⟨hsame ▸ h.consumers_nodup, fun v hv => h.consumers_fetching v (hsame ▸ hv),
        fun producer hmem => h.producers_pill producer (hproducers.mem_iff.mp hmem),
        h.pillTakers_nodup, h.mem_pillTakers_iff, h.pills_eq, h.joined_exited⟩
    rw [hsome]
    exact hafter.taken hfetching (by rw [hsame]; exact hout)

/-- A change of the queue that moves no thread in or out. -/
theorem Ordered.requeue {p : ThrPool} {history : List (Fifo.Event Job)}
    (h : p.Ordered history) {jobq : Fifo Job}
    (hconsumers : jobq.nonEmptyC.threads.Perm p.jobq.nonEmptyC.threads)
    (hproducers : ∀ producer ∈ jobq.hasSpaceC.threads, producer ∈ p.jobq.hasSpaceC.threads) :
    { p with jobq }.Ordered history :=
  ⟨hconsumers.nodup_iff.mpr h.consumers_nodup,
    fun w hw => h.consumers_fetching w (hconsumers.mem_iff.mp hw),
    fun producer hmem => h.producers_pill producer (hproducers producer hmem),
    h.pillTakers_nodup, h.mem_pillTakers_iff, h.pills_eq, h.joined_exited⟩

/-- A thread that is not in the destructor has no pill, and the pusher has nothing
else. -/
theorem Ordered.queueStep {p p' : ThrPool} {history events : List (Fifo.Event Job)}
    (h : p.Ordered history) {label : Fifo.Label Job}
    (henq : ∀ t j blocking choice, label = .enq t j blocking choice →
      (j.isPill = true ↔ p.destructor.pusher = some t))
    (hdeq : ∀ w choice, label = .deq w choice → p.worker w = .fetching)
    (hstep : p.queueStep label = some (p', events)) : p'.Ordered (history ++ events) := by
  obtain ⟨⟨jobq, events'⟩, hrun, heq⟩ := Option.map_eq_some_iff.mp hstep
  obtain ⟨rfl, rfl⟩ := Prod.mk.inj heq
  cases label with
  | enq t j blocking choice =>
      simp only [Fifo.run] at hrun
      split_ifs at hrun
      obtain ⟨rfl, rfl⟩ := Prod.mk.inj (Option.some.inj hrun)
      exact h.enq (henq t j blocking choice rfl) blocking choice
  | deq w choice =>
      simp only [Fifo.run] at hrun
      split_ifs at hrun with hinside
      obtain ⟨rfl, rfl⟩ := Prod.mk.inj (Option.some.inj hrun)
      exact h.deq (hdeq w choice rfl) (fun hmem => hinside (.inl hmem)) choice
  | wakeProducer i =>
      obtain ⟨c, hwake, heq⟩ := Option.map_eq_some_iff.mp hrun
      obtain ⟨rfl, rfl⟩ := Prod.mk.inj heq
      rw [List.append_nil]
      exact h.requeue (.refl _) fun producer hmem =>
        (CondVar.threads_wake_perm hwake).mem_iff.mp hmem
  | wakeConsumer i =>
      obtain ⟨c, hwake, heq⟩ := Option.map_eq_some_iff.mp hrun
      obtain ⟨rfl, rfl⟩ := Prod.mk.inj heq
      rw [List.append_nil]
      exact h.requeue (CondVar.threads_wake_perm hwake) fun _ hmem => hmem
  | resumeEnq i choice =>
      obtain ⟨⟨⟨t, j⟩, c⟩, hresume, heq⟩ := Option.map_eq_some_iff.mp hrun
      obtain ⟨rfl, rfl⟩ := Prod.mk.inj heq
      have hperm := CondVar.threads_resume_perm hresume
      have hback : { p with jobq := { p.jobq with hasSpaceC := c } }.Ordered history :=
        h.requeue (.refl _) fun producer hmem =>
          hperm.mem_iff.mpr (List.mem_cons_of_mem _ hmem)
      exact hback.enq (h.producers_pill (t, j) (hperm.mem_iff.mpr List.mem_cons_self)) true choice
  | resumeDeq i choice =>
      obtain ⟨⟨w, c⟩, hresume, heq⟩ := Option.map_eq_some_iff.mp hrun
      obtain ⟨rfl, rfl⟩ := Prod.mk.inj heq
      have hperm := CondVar.threads_resume_perm hresume
      obtain ⟨hout, hnodup⟩ := List.nodup_cons.mp (hperm.nodup_iff.mp h.consumers_nodup)
      have hback : { p with jobq := { p.jobq with nonEmptyC := c } }.Ordered history :=
        ⟨hnodup, fun v hv => h.consumers_fetching v (hperm.mem_iff.mpr (List.mem_cons_of_mem _ hv)),
          h.producers_pill, h.pillTakers_nodup, h.mem_pillTakers_iff, h.pills_eq,
          h.joined_exited⟩
      exact hback.deq (h.consumers_fetching w (hperm.mem_iff.mpr List.mem_cons_self)) hout choice

/-- No thread that is outside the queue is among its producers. -/
theorem not_inside_producer {p : ThrPool} {t : ThreadId} (hout : ¬ p.jobq.Inside t)
    {producer : ThreadId × Job} (hmem : producer ∈ p.jobq.hasSpaceC.threads) :
    producer.1 ≠ t :=
  fun heq => hout (.inr (heq ▸ List.mem_map_of_mem hmem))

/-- A job that returns takes its worker back to `takeJob`. -/
theorem Ordered.finish {p : ThrPool} {history : List (Fifo.Event Job)} (h : p.Ordered history)
    {w : ThreadId} {j : Job} (hrunning : p.worker w = .running j) :
    { p with worker := Function.update p.worker w .fetching }.Ordered history := by
  have hsame : ∀ v place, place ≠ .fetching → (∀ j, place ≠ .running j) →
      (Function.update p.worker w .fetching v = place ↔ p.worker v = place) := by
    intro v place hfetching hnot
    by_cases hv : v = w
    · subst hv
      simpa [hrunning] using iff_of_false hfetching.symm (hnot j).symm
    · simp [hv]
  refine ⟨h.consumers_nodup, fun v hv => ?_, h.producers_pill, h.pillTakers_nodup,
    fun v => ?_, h.pills_eq, fun v hv => ?_⟩
  · by_cases hvw : v = w
    · simp [hvw]
    · simpa [hvw] using h.consumers_fetching v hv
  · rw [h.mem_pillTakers_iff]
    exact (hsame v .exited (by simp) (by simp)).symm
  · exact (hsame v .exited (by simp) (by simp)).mpr (h.joined_exited v hv)

/-- The second loop of the destructor. -/
theorem Ordered.joining {p : ThrPool} {history : List (Fifo.Event Job)} (h : p.Ordered history)
    {destructor : Destructor} (hpusher : destructor.pusher = none)
    (hpills : destructor.pills p.nthreads = p.destructor.pills p.nthreads)
    (hout : ∀ producer ∈ p.jobq.hasSpaceC.threads, p.destructor.pusher ≠ some producer.1)
    (hjoined : ∀ w < destructor.joined p.nthreads, p.worker w = .exited) :
    { p with destructor }.Ordered history := by
  refine ⟨h.consumers_nodup, h.consumers_fetching, fun producer hmem => ?_, h.pillTakers_nodup,
    h.mem_pillTakers_iff, h.pills_eq.trans hpills.symm, hjoined⟩
  rw [h.producers_pill producer hmem, hpusher]
  exact iff_of_false (hout producer hmem) (by simp)

/-- Every step keeps the threads in order. -/
theorem Ordered.step {p p' : ThrPool} {history events : List (Fifo.Event Job)}
    (h : p.Ordered history) {label : Label} (hstep : p.step label = some (p', events)) :
    p'.Ordered (history ++ events) := by
  cases label with
  | addJob t f a choice =>
      simp only [ThrPool.step] at hstep
      split_ifs at hstep with hmay
      refine h.queueStep ?_ (by simp) hstep
      intro t' j blocking choice' heq
      cases heq
      refine iff_of_false Bool.false_ne_true fun hpusher => hmay.2.1 ?_
      exact p.destructor.thread_of_pusher hpusher
  | takeJob w choice =>
      simp only [ThrPool.step] at hstep
      split_ifs at hstep with hfetching
      refine h.queueStep (by simp) ?_ hstep
      intro w' choice' heq
      cases heq
      exact hfetching.2
  | wakeProducer i => exact h.queueStep (by simp) (by simp) hstep
  | wakeConsumer i => exact h.queueStep (by simp) (by simp) hstep
  | resumeEnq i choice => exact h.queueStep (by simp) (by simp) hstep
  | resumeDeq i choice => exact h.queueStep (by simp) (by simp) hstep
  | finishJob w =>
      simp only [ThrPool.step] at hstep
      split at hstep
      · next j hrunning =>
          split_ifs at hstep
          obtain ⟨rfl, rfl⟩ := Prod.mk.inj (Option.some.inj hstep)
          rw [List.append_nil]
          exact h.finish hrunning
      · cases hstep
  | destroy t =>
      simp only [ThrPool.step] at hstep
      split_ifs at hstep with hcall
      obtain ⟨-, hdestructor, hout⟩ := hcall
      obtain ⟨rfl, rfl⟩ := Prod.mk.inj (Option.some.inj hstep)
      rw [List.append_nil]
      refine ⟨h.consumers_nodup, h.consumers_fetching, fun producer hmem => ?_,
        h.pillTakers_nodup, h.mem_pillTakers_iff, ?_, fun w hw => absurd hw (Nat.not_lt_zero w)⟩
      · rw [h.producers_pill producer hmem, hdestructor]
        simpa [Destructor.pusher] using (not_inside_producer hout hmem).symm
      · simpa [hdestructor, Destructor.pills] using h.pills_eq
  | pill a choice =>
      simp only [ThrPool.step] at hstep
      split at hstep
      · next d pills hdestructor =>
          split_ifs at hstep
          refine h.queueStep ?_ (by simp) hstep
          intro t j blocking choice' heq
          cases heq
          rw [hdestructor]
          exact iff_of_true rfl rfl
      · cases hstep
  | join =>
      simp only [ThrPool.step] at hstep
      split at hstep
      · next t pills hdestructor =>
          split_ifs at hstep with hpushed
          obtain ⟨rfl, rfl⟩ := Prod.mk.inj (Option.some.inj hstep)
          rw [List.append_nil]
          obtain ⟨hcount, hout⟩ := hpushed
          refine h.joining rfl ?_ (fun producer hmem hpusher => ?_)
            fun w hw => absurd hw (Nat.not_lt_zero w)
          · rw [hdestructor]
            exact hcount.symm
          · rw [hdestructor] at hpusher
            exact not_inside_producer hout hmem (Option.some.inj hpusher).symm
      · next t joined hdestructor =>
          have hpusher : p.destructor.pusher = none := by rw [hdestructor]; rfl
          have hpills : p.destructor.pills p.nthreads = p.nthreads := by rw [hdestructor]; rfl
          have hjoined := h.joined_exited
          rw [hdestructor] at hjoined
          split_ifs at hstep with hall hexited
          · obtain ⟨rfl, rfl⟩ := Prod.mk.inj (Option.some.inj hstep)
            rw [List.append_nil]
            refine h.joining rfl hpills.symm (fun _ _ => by simp [hpusher]) fun w hw => ?_
            exact hjoined w (by rw [hall]; exact hw)
          · obtain ⟨rfl, rfl⟩ := Prod.mk.inj (Option.some.inj hstep)
            rw [List.append_nil]
            refine h.joining rfl hpills.symm (fun _ _ => by simp [hpusher]) fun w hw => ?_
            rcases Nat.lt_succ_iff_lt_or_eq.mp hw with hlt | rfl
            · exact hjoined w hlt
            · exact hexited
      · cases hstep

theorem ordered_init (nthreads : ℕ) (blockadd : Bool) :
    (system nthreads blockadd).init.1.Ordered [] where
  consumers_nodup := List.nodup_nil
  consumers_fetching := fun _ _ => rfl
  producers_pill := fun _ hmem => absurd hmem List.not_mem_nil
  pillTakers_nodup := List.nodup_nil
  mem_pillTakers_iff := fun _ => iff_of_false List.not_mem_nil (by simp [system])
  pills_eq := rfl
  joined_exited := fun w hw => absurd hw (Nat.not_lt_zero w)

/-! ## The queue of a pool -/

theorem settle_jobq (p : ThrPool) (event : Fifo.Event Job) :
    (p.settle event).jobq = p.jobq ∧ (p.settle event).nthreads = p.nthreads := by
  cases event with
  | accepted t j =>
      rcases p.settle_accepted_cases t j with ⟨_, -, hsettle⟩ | ⟨-, hsettle⟩ <;> simp [hsettle]
  | rejected t j => exact ⟨rfl, rfl⟩
  | taken w j => exact ⟨rfl, rfl⟩

theorem foldl_settle_jobq (p : ThrPool) (events : List (Fifo.Event Job)) :
    (events.foldl settle p).jobq = p.jobq ∧ (events.foldl settle p).nthreads = p.nthreads := by
  induction events generalizing p with
  | nil => exact ⟨rfl, rfl⟩
  | cons event rest ih =>
      obtain ⟨hjobq, hnthreads⟩ := p.settle_jobq event
      obtain ⟨hjobq', hnthreads'⟩ := ih (p.settle event)
      exact ⟨hjobq'.trans hjobq, hnthreads'.trans hnthreads⟩

/-- A step of the pool is a section of its queue, or leaves the queue alone. -/
def QueueSection (p p' : ThrPool) (events : List (Fifo.Event Job)) : Prop :=
  p'.nthreads = p.nthreads ∧
    ((p'.jobq = p.jobq ∧ events = []) ∨ ∃ label, p.jobq.run label = some (p'.jobq, events))

theorem queueSection_of_queueStep {p p' : ThrPool} {events : List (Fifo.Event Job)}
    {label : Fifo.Label Job} (hstep : p.queueStep label = some (p', events)) :
    QueueSection p p' events := by
  obtain ⟨⟨jobq, events'⟩, hrun, heq⟩ := Option.map_eq_some_iff.mp hstep
  obtain ⟨rfl, rfl⟩ := Prod.mk.inj heq
  obtain ⟨hjobq, hnthreads⟩ := foldl_settle_jobq { p with jobq } events'
  exact ⟨hnthreads, .inr ⟨label, by rw [hjobq]; exact hrun⟩⟩

theorem queueSection_of_step {p p' : ThrPool} {events : List (Fifo.Event Job)} {label : Label}
    (hstep : p.step label = some (p', events)) : QueueSection p p' events := by
  have hquiet : ∀ q : ThrPool, some (q, []) = some (p', events) →
      q.nthreads = p.nthreads → q.jobq = p.jobq → QueueSection p p' events := by
    rintro q heq hnthreads hjobq
    obtain ⟨rfl, rfl⟩ := Prod.mk.inj (Option.some.inj heq)
    exact ⟨hnthreads, .inl ⟨hjobq, rfl⟩⟩
  cases label with
  | wakeProducer | wakeConsumer | resumeEnq | resumeDeq => exact queueSection_of_queueStep hstep
  | addJob | takeJob =>
      simp only [ThrPool.step] at hstep
      split_ifs at hstep
      exact queueSection_of_queueStep hstep
  | destroy =>
      simp only [ThrPool.step] at hstep
      split_ifs at hstep
      exact hquiet _ hstep rfl rfl
  | finishJob =>
      simp only [ThrPool.step] at hstep
      split at hstep
      · split_ifs at hstep
        exact hquiet _ hstep rfl rfl
      · cases hstep
  | pill =>
      simp only [ThrPool.step] at hstep
      split at hstep
      · split_ifs at hstep
        exact queueSection_of_queueStep hstep
      · cases hstep
  | join =>
      simp only [ThrPool.step] at hstep
      split at hstep
      · split_ifs at hstep
        exact hquiet _ hstep rfl rfl
      · split_ifs at hstep
        · exact hquiet _ hstep rfl rfl
        · exact hquiet _ hstep rfl rfl
      · cases hstep

/-! ## Runs -/

/-- What holds of a pool and the history of its queue. -/
structure Sound (nthreads : ℕ) (reached : ThrPool × List (Fifo.Event Job)) : Prop where
  nthreads_eq : reached.1.nthreads = nthreads
  faithful : Fifo.Faithful (100 * nthreads) (reached.1.jobq, reached.2)
  ordered : reached.1.Ordered reached.2

theorem sound_of_run {nthreads : ℕ} {blockadd : Bool} {labels : List Label}
    {reached : ThrPool × List (Fifo.Event Job)}
    (hrun : (system nthreads blockadd).Run anyStep labels reached) : Sound nthreads reached := by
  refine hrun.invariant (Sound nthreads)
    ⟨rfl, Fifo.faithful_init _, ordered_init nthreads blockadd⟩ ?_
  rintro _ ⟨p, history⟩ label target - h - hstep
  obtain ⟨⟨p', events⟩, hsection, rfl⟩ := Option.map_eq_some_iff.mp hstep
  obtain ⟨hnthreads, hqueue⟩ := queueSection_of_step hsection
  refine ⟨hnthreads.trans h.nthreads_eq, ?_, h.ordered.step hsection⟩
  rcases hqueue with ⟨hjobq, rfl⟩ | ⟨label', hrun'⟩
  · simpa [hjobq] using h.faithful
  · exact h.faithful.run hrun'

/-- When the destructor has returned, the workers and nobody else have taken the pills,
and no pill is left in the queue. -/
theorem Sound.shutdown {nthreads : ℕ} {p : ThrPool} {history : List (Fifo.Event Job)}
    (h : Sound nthreads (p, history)) (hreturned : p.destructor = .returned) :
    (∀ w < nthreads, w ∈ pillTakers history) ∧ p.jobq.q.countP Job.isPill = 0 := by
  have hnthreads : p.nthreads = nthreads := h.nthreads_eq
  have hjoined := h.ordered.joined_exited
  have hpills := h.ordered.pills_eq
  rw [hreturned, hnthreads] at hjoined hpills
  have htakers : ∀ w < nthreads, w ∈ pillTakers history := fun w hw =>
    (h.ordered.mem_pillTakers_iff w).mpr (hjoined w hw)
  refine ⟨htakers, ?_⟩
  have hsubset : List.range nthreads ⊆ pillTakers history := fun w hw =>
    htakers w (List.mem_range.mp hw)
  have hle := (List.subperm_of_subset List.nodup_range hsubset).length_le
  rw [List.length_range, length_pillTakers] at hle
  have haccepted : Fifo.accepted history = Fifo.taken history ++ p.jobq.q :=
    h.faithful.accepted_eq
  rw [haccepted, List.countP_append] at hpills
  have hall : Destructor.pills nthreads .returned = nthreads := rfl
  omega

end ThrPool

/-- A pill that is not in the queue any more has been taken, with everything in front
of it. -/
theorem isPrefix_of_noPill {out rest before after : List Job} {pill : Job}
    (hsplit : out ++ rest = before ++ pill :: after) (hrest : rest.countP Job.isPill = 0)
    (hpill : pill.isPill = true) : before ++ [pill] <+: out := by
  have hwhole : before ++ [pill] <+: out ++ rest := ⟨after, by simp [hsplit]⟩
  rcases List.prefix_or_prefix_of_prefix hwhole (List.prefix_append out rest) with hle | hle
  · exact hle
  · rcases List.prefix_concat_iff.mp hle with heq | ⟨more, rfl⟩
    · exact heq ▸ List.prefix_rfl
    · rw [List.append_assoc, List.append_cancel_left_eq] at hsplit
      rw [hsplit] at hrest
      simp [hpill] at hrest

/-- The job queue and the pool. In every run of a queue, what has been taken is, in
order, the beginning of what has been accepted; the queue keeps its bound; only a full
queue turns an element down; and while the queue has elements, or space, nobody waits
for them un-signalled unless another thread is on its way to the mutex for them. In
every run of a pool, when the destructor has returned, everything that was accepted
before a pill has been taken, and every worker has taken one pill. -/
theorem jobQueue {T : Type u} (max nthreads : ℕ) (blockadd : Bool) :
    (∀ labels reached, (Fifo.system (T := T) max).Run anyStep labels reached →
      Fifo.taken reached.2 <+: Fifo.accepted reached.2 ∧
      (max ≠ 0 → reached.1.q.length ≤ max) ∧
      (∀ label f' events t e, reached.1.run label = some (f', events) →
        .rejected t e ∈ events → max ≠ 0 ∧ reached.1.q.length = max) ∧
      (reached.1.q ≠ [] → reached.1.nonEmptyC.waiting ≠ [] →
        reached.1.nonEmptyC.woken ≠ []) ∧
      (max ≠ 0 → reached.1.q.length < max → reached.1.hasSpaceC.waiting ≠ [] →
        reached.1.hasSpaceC.woken ≠ [])) ∧
    (∀ labels reached, (ThrPool.system nthreads blockadd).Run anyStep labels reached →
      reached.1.destructor = .returned →
        Fifo.taken reached.2 <+: Fifo.accepted reached.2 ∧
        (∀ before pill after, Fifo.accepted reached.2 = before ++ pill :: after →
          pill.isPill = true → before ++ [pill] <+: Fifo.taken reached.2) ∧
        ∀ w < nthreads, (ThrPool.pillTakers reached.2).count w = 1) := by
  constructor
  · rintro labels ⟨f, history⟩ hrun
    have h := Fifo.faithful_of_run hrun
    have hmax : f.max = max := h.max_eq
    have haccepted : Fifo.accepted history = Fifo.taken history ++ f.q := h.accepted_eq
    refine ⟨⟨f.q, haccepted.symm⟩, fun hne => ?_, ?_, ?_, ?_⟩
    · rw [← hmax] at hne ⊢
      exact h.wellFormed.length_le hne
    · intro label f' events t e hsection hmem
      rw [← hmax]
      exact (h.wellFormed.run hsection).full_of_rejected t e hmem
    · exact fun helements hwaiting => h.wellFormed.consumers_awake hwaiting helements
    · rw [← hmax]
      exact fun hne hspace hwaiting => h.wellFormed.producers_awake hne hwaiting hspace
  · rintro labels ⟨p, history⟩ hrun hreturned
    have h := ThrPool.sound_of_run hrun
    obtain ⟨htakers, hnone⟩ := h.shutdown hreturned
    have haccepted : Fifo.accepted history = Fifo.taken history ++ p.jobq.q :=
      h.faithful.accepted_eq
    refine ⟨⟨p.jobq.q, haccepted.symm⟩, fun before pill after hsplit hpill => ?_,
      fun w hw => List.count_eq_one_of_mem h.ordered.pillTakers_nodup (htakers w hw)⟩
    exact isPrefix_of_noPill (haccepted ▸ hsplit) hnone hpill

/-- A pool with one worker: a job is added while the worker waits, and the destructor
is called by another thread while the job runs. -/
def shutdownRun : List ThrPool.Label :=
  [.takeJob 0 0, .addJob 1 7 8 0, .resumeDeq 0 0, .destroy 2, .pill 0 0, .finishJob 0,
    .takeJob 0 0, .join, .join, .join]

/-- Two producers at a queue for one element, one of which waits and is signalled by
the consumer. -/
def contendedRun : List (Fifo.Label ℕ) :=
  [.enq 1 5 true 0, .enq 2 6 true 0, .deq 3 0, .enq 1 7 false 0, .resumeEnq 0 0]

theorem jobQueue_shutdown :
    (∃ reached, (Fifo.system 1).Run anyStep contendedRun reached ∧
      reached.1.hasSpaceC.waiting = [(2, 6)] ∧
      Fifo.taken reached.2 <+: Fifo.accepted reached.2) ∧
    ∃ reached, (ThrPool.system 1 true).Run anyStep shutdownRun reached ∧
      (ThrPool.pillTakers reached.2).count 0 = 1 := by
  obtain ⟨hqueue, hpool⟩ := jobQueue (T := ℕ) 1 1 true
  have hcontended : ((Fifo.system 1).exec (Fifo.system 1).init contendedRun).any
      (fun reached => reached.1.hasSpaceC.waiting == [(2, 6)]) = true := by decide +kernel
  have hshutdown : ((ThrPool.system 1 true).exec (ThrPool.system 1 true).init shutdownRun).any
      (fun reached => reached.1.destructor == .returned) = true := by decide +kernel
  obtain ⟨reached, hrun, hwaiting⟩ := System.exists_run_of_exec hcontended
  obtain ⟨reached', hrun', hreturned⟩ := System.exists_run_of_exec hshutdown
  exact ⟨⟨reached, hrun, by simpa using hwaiting, (hqueue _ _ hrun).1⟩,
    reached', hrun', (hpool _ _ hrun' (by simpa using hreturned)).2.2 0 Nat.one_pos⟩

end YfsLab.Pool
