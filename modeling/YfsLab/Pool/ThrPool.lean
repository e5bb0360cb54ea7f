/-
# The thread pool

`ThrPool` is a job queue with `nthreads_` workers that take jobs from it. Its
destructor puts one poison pill for each worker into the queue and then joins the
workers. A worker is inside the queue, runs a job, or has exited, and the outcome
of every section of the queue is handed on to the thread that ran it.

The destructor may only be called when no external thread uses the pool any more.
Nothing here depends on that promise, so the model leaves other threads alone: they
may add jobs as long as the pool exists.
-/

import YfsLab.Pool.Fifo

namespace YfsLab.Pool

open Monitor Transition

/-- `job_t`. A job without a function is a poison pill. -/
structure Job where
  f : Option ℕ
  a : ℕ
  deriving DecidableEq, Repr

/-- The job tells a worker to exit. -/
def Job.isPill (j : Job) : Bool := j.f.isNone

/-- Where `do_worker` is: at `takeJob`, in a job, or behind its loop. -/
inductive Worker
  | fetching
  | running (j : Job)
  | exited
  deriving DecidableEq, Repr

/-- Where the destructor is: its first loop with the pills that have been accepted,
or its second loop with the workers that have been joined. -/
inductive Destructor
  | notCalled
  | pushing (t : ThreadId) (pills : ℕ)
  | joining (t : ThreadId) (joined : ℕ)
  | returned
  deriving DecidableEq, Repr

/-- The thread inside the destructor. -/
def Destructor.thread : Destructor → Option ThreadId
  | .pushing t _ => some t
  | .joining t _ => some t
  | _ => none

/-- `ThrPool`, with its workers. -/
structure ThrPool where
  nthreads : ℕ
  blockadd : Bool
  jobq : Fifo Job
  worker : ThreadId → Worker := fun _ => .fetching
  destructor : Destructor := .notCalled

namespace ThrPool

/-! ## The threads of a pool -/

/-- What a thread does with the outcome of a section: a worker tests the job that it
has taken, and the destructor counts a pill. -/
def settle (p : ThrPool) : Fifo.Event Job → ThrPool
  | .taken w j =>
      { p with worker := Function.update p.worker w (if j.isPill then .exited else .running j) }
  | .accepted t _ =>
      match p.destructor with
      | .pushing d pills =>
          if t = d then { p with destructor := .pushing d (pills + 1) } else p
      | _ => p
  | .rejected _ _ => p

/-- A section of the queue. -/
def queueStep (p : ThrPool) (label : Fifo.Label Job) :
    Option (ThrPool × List (Fifo.Event Job)) :=
  (p.jobq.run label).map fun (jobq, events) => (events.foldl settle { p with jobq }, events)

/-- A thread that may call `addJob`, while the pool exists: a worker in the middle of a
job, or a thread that is not one of the pool's and not in the destructor. -/
def MayAdd (p : ThrPool) (t : ThreadId) : Prop :=
  p.destructor ≠ .returned ∧ p.destructor.thread ≠ some t ∧
    (p.nthreads ≤ t ∨ p.worker t ≠ .fetching ∧ p.worker t ≠ .exited)

instance (p : ThrPool) (t : ThreadId) : Decidable (p.MayAdd t) :=
  inferInstanceAs (Decidable (_ ∧ _ ∧ (_ ∨ _ ∧ _)))

/-- The steps of the threads, together with what the scheduler chooses. -/
inductive Label
  | addJob (t : ThreadId) (f a : ℕ) (choice : ℕ)
  | takeJob (w : ThreadId) (choice : ℕ)
  | wakeProducer (i : ℕ)
  | wakeConsumer (i : ℕ)
  | resumeEnq (i choice : ℕ)
  | resumeDeq (i choice : ℕ)
  | finishJob (w : ThreadId)
  | destroy (t : ThreadId)
  | pill (a : ℕ) (choice : ℕ)
  | join

/-- One step of one thread. -/
def step (p : ThrPool) : Label → Option (ThrPool × List (Fifo.Event Job))
  | .addJob t f a choice =>
      if p.MayAdd t then p.queueStep (.enq t ⟨some f, a⟩ p.blockadd choice) else none
  | .takeJob w choice =>
      if w < p.nthreads ∧ p.worker w = .fetching then p.queueStep (.deq w choice) else none
  | .wakeProducer i => p.queueStep (.wakeProducer i)
  | .wakeConsumer i => p.queueStep (.wakeConsumer i)
  | .resumeEnq i choice => p.queueStep (.resumeEnq i choice)
  | .resumeDeq i choice => p.queueStep (.resumeDeq i choice)
  | .finishJob w =>
      match p.worker w with
      | .running _ =>
          if p.jobq.Inside w then none
          else some ({ p with worker := Function.update p.worker w .fetching }, [])
      | _ => none
  | .destroy t =>
      if p.nthreads ≤ t ∧ p.destructor = .notCalled ∧ ¬ p.jobq.Inside t then
        some ({ p with destructor := .pushing t 0 }, [])
      else none
  | .pill a choice =>
      match p.destructor with
      | .pushing t pills =>
          if pills < p.nthreads then p.queueStep (.enq t ⟨none, a⟩ true choice) else none
      | _ => none
  | .join =>
      match p.destructor with
      | .pushing t pills =>
          if pills = p.nthreads ∧ ¬ p.jobq.Inside t then
            some ({ p with destructor := .joining t 0 }, [])
          else none
      | .joining t joined =>
          if joined = p.nthreads then some ({ p with destructor := .returned }, [])
          else if p.worker joined = .exited then
            some ({ p with destructor := .joining t (joined + 1) }, [])
          else none
      | _ => none

/-- A pool with the history of its queue. -/
def system (nthreads : ℕ) (blockadd : Bool) :
    System (ThrPool × List (Fifo.Event Job)) Label where
  init := ({ nthreads, blockadd, jobq := { max := 100 * nthreads } }, [])
  step state label := (state.1.step label).map fun (p, events) => (p, state.2 ++ events)

end ThrPool

end YfsLab.Pool
