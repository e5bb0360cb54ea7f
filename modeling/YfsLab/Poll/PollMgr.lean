/-
# The poll manager

`PollMgr` keeps one callback for each descriptor. Its thread runs `wait_loop`: it
wakes the threads that wait in `block_remove_fd`, asks `aio_` for the descriptors that
are ready, and calls their callbacks, without the mutex, one after the other. The
other methods are called by any threads at any time. The steps are the mutex-protected
sections and, for the poll thread, every single access to the callback table.

A registration is what `add_callback` puts into an empty place of the table. It has a
number, so that the same callback registered again is another registration.
-/

import Mathlib.Logic.Function.Basic
import YfsLab.Foundations.Transition
import YfsLab.Poll.SelectAIO

namespace YfsLab.Poll

open Transition

universe u

/-- `MAX_POLL_FDS`. -/
def maxPollFds : ℕ := 128

/-- An entry of the callback table. -/
structure Registration where
  ch : ℕ
  serial : ℕ
  deriving DecidableEq, Repr

/-- The two methods of an `aio_callback`. -/
inductive Interest
  | read
  | write
  deriving DecidableEq, Repr

/-- A thread in `block_remove_fd`: blocked on `changedone_c_`, or on its way back to the
mutex, with or without having been signalled. Whether the descriptor has been watched
again since the call began is recorded for each of them. -/
inductive Remover
  | idle
  | waiting (fd : Fd) (rewatched : Bool)
  | woken (fd : Fd) (signalled rewatched : Bool)
  deriving DecidableEq, Repr

/-- The descriptor is watched: for those that are removing it, again. -/
def Remover.rewatch (fd : Fd) : Remover → Remover
  | .waiting fd' rewatched => .waiting fd' (rewatched || fd' == fd)
  | .woken fd' signalled rewatched => .woken fd' signalled (rewatched || fd' == fd)
  | .idle => .idle

/-- `pthread_cond_broadcast` wakes every thread that is blocked. -/
def Remover.broadcast : Remover → Remover
  | .waiting fd rewatched => .woken fd true rewatched
  | remover => remover

/-- Where the poll thread is in `wait_loop`, with the callbacks that it still has to
test: before its mutex-protected section, before the copies of `wait_ready`, in
`select`, in front of a test, behind a test that has found a callback, about to make
the call that it has loaded, and in a callback. -/
inductive Loop
  | top
  | unready
  | selecting (rfds wfds : Finset Fd) (high : Fd)
  | serving (todo : List (Fd × Interest))
  | tested (fd : Fd) (interest : Interest) (todo : List (Fd × Interest))
  | calling (fd : Fd) (interest : Interest) (reg : Registration) (todo : List (Fd × Interest))
  | running (fd : Fd) (interest : Interest) (reg : Registration) (todo : List (Fd × Interest))

/-- `PollMgr`, with the threads inside it. -/
structure PollMgr (Thread : Type u) where
  callbacks : Fd → Option Registration := fun _ => none
  aio : SelectAIO
  pendingChange : Bool := false
  removers : Thread → Remover := fun _ => .idle
  loop : Loop := .top
  serial : ℕ := 0

/-- What is recorded of a run: registrations, the calls of the poll thread, and the
returns of `block_remove_fd`. -/
inductive Event (Thread : Type u)
  | added (fd : Fd) (reg : Registration)
  | invoked (fd : Fd) (interest : Interest) (reg : Registration)
  | returned (t : Thread) (fd : Fd)
  deriving DecidableEq, Repr

namespace PollMgr

variable {Thread : Type u} [DecidableEq Thread]

/-! ## The methods -/

/-- `PollMgr::add_callback`. The callback of another object in the table fails an
assertion. -/
def addCallback (p : PollMgr Thread) (fd : Fd) (flag : PollFlag) (ch : ℕ) :
    Option (PollMgr Thread × List (Event Thread)) :=
  if fd < maxPollFds then
    let watched : PollMgr Thread :=
      { p with
          aio := p.aio.watchFd fd flag
          removers := fun t => (p.removers t).rewatch fd }
    match p.callbacks fd with
    | none =>
        let reg : Registration := ⟨ch, p.serial⟩
        some ({ watched with
          callbacks := Function.update p.callbacks fd (some reg)
          serial := p.serial + 1 }, [.added fd reg])
    | some reg => if reg.ch = ch then some (watched, []) else none
  else none

/-- `PollMgr::del_callback`. -/
def delCallback (p : PollMgr Thread) (fd : Fd) (flag : PollFlag) : Option (PollMgr Thread) :=
  if fd < maxPollFds then
    (p.aio.unwatchFd fd flag).map fun (aio, last) =>
      { p with
          aio := aio
          callbacks := if last then Function.update p.callbacks fd none else p.callbacks }
  else none

/-- `PollMgr::block_remove_fd` up to its wait. -/
def blockRemoveFd (p : PollMgr Thread) (t : Thread) (fd : Fd) : Option (PollMgr Thread) :=
  if fd < maxPollFds then
    (p.aio.unwatchFd fd .rdwr).map fun (aio, _) =>
      { p with
          aio := aio
          pendingChange := true
          removers := Function.update p.removers t (.waiting fd false) }
  else none

/-- The rest of `block_remove_fd`. -/
def removed (p : PollMgr Thread) (t : Thread) (fd : Fd) : PollMgr Thread :=
  { p with
      callbacks := Function.update p.callbacks fd none
      removers := Function.update p.removers t .idle }

/-- The mutex-protected section of `wait_loop`. -/
def handOver (p : PollMgr Thread) : PollMgr Thread :=
  if p.pendingChange then
    { p with
        pendingChange := false
        removers := fun t => (p.removers t).broadcast
        loop := .unready }
  else { p with loop := .unready }

/-- What `select` may report about the copies: any of the descriptors up to `high`, in
order. The pipe is emptied and not reported. -/
def Reports (pipefd high : Fd) (copy : Finset Fd) (ready : List Fd) : Prop :=
  ready.Pairwise (· < ·) ∧ ∀ fd ∈ ready, fd ∈ copy ∧ fd ≤ high ∧ fd ≠ pipefd

instance (pipefd high : Fd) (copy : Finset Fd) (ready : List Fd) :
    Decidable (Reports pipefd high copy ready) :=
  inferInstanceAs (Decidable (_ ∧ _))

/-! ## The steps -/

/-- The steps: the methods that other threads call, a wake-up without a signal and the
return of a remover, and the poll thread's way through its loop. -/
inductive Label (Thread : Type u)
  | addCallback (fd : Fd) (flag : PollFlag) (ch : ℕ)
  | delCallback (fd : Fd) (flag : PollFlag)
  | blockRemoveFd (t : Thread) (fd : Fd)
  | wake (t : Thread)
  | resume (t : Thread)
  | handOver
  | copySets
  | ready (readable writable : List Fd)
  | test
  | load
  | call
  | callbackReturns

/-- One step. The poll thread starts over when nothing is left to test, and it has
undefined behaviour when the place that it has tested is empty at the call. -/
def step (p : PollMgr Thread) : Label Thread → Option (PollMgr Thread × List (Event Thread))
  | .addCallback fd flag ch => p.addCallback fd flag ch
  | .delCallback fd flag => (p.delCallback fd flag).map fun p => (p, [])
  | .blockRemoveFd t fd =>
      match p.removers t with
      | .idle => (p.blockRemoveFd t fd).map fun p => (p, [])
      | _ => none
  | .wake t =>
      match p.removers t with
      | .waiting fd rewatched =>
          some ({ p with removers := Function.update p.removers t (.woken fd false rewatched) }, [])
      | _ => none
  | .resume t =>
      match p.removers t with
      | .woken fd _ _ => some (p.removed t fd, [.returned t fd])
      | _ => none
  | .handOver =>
      match p.loop with
      | .top | .serving [] => some (p.handOver, [])
      | _ => none
  | .copySets =>
      match p.loop with
      | .unready => some ({ p with loop := .selecting p.aio.rfds p.aio.wfds p.aio.highfds }, [])
      | _ => none
  | .ready readable writable =>
      match p.loop with
      | .selecting rfds wfds high =>
          if Reports p.aio.pipefd high rfds readable ∧ Reports p.aio.pipefd high wfds writable then
            some ({ p with
              loop := .serving (readable.map (·, .read) ++ writable.map (·, .write)) }, [])
          else none
      | _ => none
  | .test =>
      match p.loop with
      | .serving ((fd, interest) :: todo) =>
          match p.callbacks fd with
          | none => some ({ p with loop := .serving todo }, [])
          | some _ => some ({ p with loop := .tested fd interest todo }, [])
      | _ => none
  | .load =>
      match p.loop with
      | .tested fd interest todo =>
          (p.callbacks fd).map fun reg => ({ p with loop := .calling fd interest reg todo }, [])
      | _ => none
  | .call =>
      match p.loop with
      | .calling fd interest reg todo =>
          some ({ p with loop := .running fd interest reg todo }, [.invoked fd interest reg])
      | _ => none
  | .callbackReturns =>
      match p.loop with
      | .running _ _ _ todo => some ({ p with loop := .serving todo }, [])
      | _ => none

/-- A new poll manager, whose pipe has this read end. -/
def new (pipefd : Fd) : PollMgr Thread where
  aio := SelectAIO.new pipefd

/-- A poll manager with the history of its calls. -/
def system (Thread : Type u) [DecidableEq Thread] (pipefd : Fd) :
    System (PollMgr Thread × List (Event Thread)) (Label Thread) where
  init := (new pipefd, [])
  step state label := (state.1.step label).map fun (p, events) => (p, state.2 ++ events)

/-! ## What a step finds and leaves -/

/-- `add_callback` watches the descriptor, and its removers take notice. -/
def watched (p : PollMgr Thread) (fd : Fd) (flag : PollFlag) : PollMgr Thread :=
  { p with
      aio := p.aio.watchFd fd flag
      removers := fun t => (p.removers t).rewatch fd }

/-- What a step of the poll manager finds and what it leaves and records. -/
inductive Section (p : PollMgr Thread) :
    Label Thread → PollMgr Thread → List (Event Thread) → Prop
  | registered {fd : Fd} {flag : PollFlag} {ch : ℕ} (hempty : p.callbacks fd = none) :
      Section p (.addCallback fd flag ch)
        { p.watched fd flag with
            callbacks := Function.update p.callbacks fd (some ⟨ch, p.serial⟩)
            serial := p.serial + 1 }
        [.added fd ⟨ch, p.serial⟩]
  | rewatched {fd : Fd} {flag : PollFlag} {ch : ℕ} (hlisted : p.callbacks fd ≠ none) :
      Section p (.addCallback fd flag ch) (p.watched fd flag) []
  | deleted {fd : Fd} {flag : PollFlag} {aio : SelectAIO} {last : Bool}
      (hunwatch : p.aio.unwatchFd fd flag = some (aio, last)) :
      Section p (.delCallback fd flag)
        { p with
            aio := aio
            callbacks := if last then Function.update p.callbacks fd none else p.callbacks } []
  | removing {t : Thread} {fd : Fd} {aio : SelectAIO} {last : Bool}
      (hunwatch : p.aio.unwatchFd fd .rdwr = some (aio, last))
      (hidle : p.removers t = .idle) :
      Section p (.blockRemoveFd t fd)
        { p with
            aio := aio
            pendingChange := true
            removers := Function.update p.removers t (.waiting fd false) } []
  | woken {t : Thread} {fd : Fd} {rewatched : Bool}
      (hremover : p.removers t = .waiting fd rewatched) :
      Section p (.wake t)
        { p with removers := Function.update p.removers t (.woken fd false rewatched) } []
  | returned {t : Thread} {fd : Fd} {signalled rewatched : Bool}
      (hremover : p.removers t = .woken fd signalled rewatched) :
      Section p (.resume t) (p.removed t fd) [.returned t fd]
  | handedOver : Section p .handOver p.handOver []
  | copied :
      Section p .copySets { p with loop := .selecting p.aio.rfds p.aio.wfds p.aio.highfds } []
  | reported {readable writable : List Fd} {rfds wfds : Finset Fd} {high : Fd}
      (hloop : p.loop = .selecting rfds wfds high)
      (hreadable : Reports p.aio.pipefd high rfds readable)
      (hwritable : Reports p.aio.pipefd high wfds writable) :
      Section p (.ready readable writable)
        { p with loop := .serving (readable.map (·, .read) ++ writable.map (·, .write)) } []
  | skipped {fd : Fd} {interest : Interest} {todo : List (Fd × Interest)}
      (hloop : p.loop = .serving ((fd, interest) :: todo)) :
      Section p .test { p with loop := .serving todo } []
  | found {fd : Fd} {interest : Interest} {todo : List (Fd × Interest)}
      (hloop : p.loop = .serving ((fd, interest) :: todo)) (hlisted : p.callbacks fd ≠ none) :
      Section p .test { p with loop := .tested fd interest todo } []
  | loaded {fd : Fd} {interest : Interest} {reg : Registration} {todo : List (Fd × Interest)}
      (hloop : p.loop = .tested fd interest todo) (hlisted : p.callbacks fd = some reg) :
      Section p .load { p with loop := .calling fd interest reg todo } []
  | invoked {fd : Fd} {interest : Interest} {reg : Registration} {todo : List (Fd × Interest)}
      (hloop : p.loop = .calling fd interest reg todo) :
      Section p .call { p with loop := .running fd interest reg todo }
        [.invoked fd interest reg]
  | cameBack {fd : Fd} {interest : Interest} {reg : Registration} {todo : List (Fd × Interest)}
      (hloop : p.loop = .running fd interest reg todo) :
      Section p .callbackReturns { p with loop := .serving todo } []

/-- Every step is one of these sections. -/
theorem section_of_step {p p' : PollMgr Thread} {label : Label Thread}
    {events : List (Event Thread)} (hstep : p.step label = some (p', events)) :
    p.Section label p' events := by
  cases label with
  | addCallback fd flag ch =>
      simp only [step, addCallback] at hstep
      split_ifs at hstep
      split at hstep
      · next hempty =>
          obtain ⟨rfl, rfl⟩ := Prod.mk.inj (Option.some.inj hstep)
          exact .registered hempty
      · next hlisted =>
          split_ifs at hstep
          obtain ⟨rfl, rfl⟩ := Prod.mk.inj (Option.some.inj hstep)
          exact .rewatched (by simp [hlisted])
  | delCallback fd flag =>
      obtain ⟨q, hdel, heq⟩ := Option.map_eq_some_iff.mp hstep
      obtain ⟨rfl, rfl⟩ := Prod.mk.inj heq
      rw [delCallback] at hdel
      split_ifs at hdel
      obtain ⟨_, hunwatch, rfl⟩ := Option.map_eq_some_iff.mp hdel
      exact .deleted hunwatch
  | blockRemoveFd t fd =>
      simp only [step] at hstep
      split at hstep
      · next hidle =>
          obtain ⟨q, hremove, heq⟩ := Option.map_eq_some_iff.mp hstep
          obtain ⟨rfl, rfl⟩ := Prod.mk.inj heq
          rw [blockRemoveFd] at hremove
          split_ifs at hremove
          obtain ⟨_, hunwatch, rfl⟩ := Option.map_eq_some_iff.mp hremove
          exact .removing hunwatch hidle
      · cases hstep
  | wake t =>
      simp only [step] at hstep
      split at hstep
      · next hremover =>
          obtain ⟨rfl, rfl⟩ := Prod.mk.inj (Option.some.inj hstep)
          exact .woken hremover
      · cases hstep
  | resume t =>
      simp only [step] at hstep
      split at hstep
      · next hremover =>
          obtain ⟨rfl, rfl⟩ := Prod.mk.inj (Option.some.inj hstep)
          exact .returned hremover
      · cases hstep
  | handOver =>
      simp only [step] at hstep
      split at hstep
      · obtain ⟨rfl, rfl⟩ := Prod.mk.inj (Option.some.inj hstep)
        exact .handedOver
      · obtain ⟨rfl, rfl⟩ := Prod.mk.inj (Option.some.inj hstep)
        exact .handedOver
      · cases hstep
  | copySets =>
      simp only [step] at hstep
      split at hstep
      · obtain ⟨rfl, rfl⟩ := Prod.mk.inj (Option.some.inj hstep)
        exact .copied
      · cases hstep
  | ready readable writable =>
      simp only [step] at hstep
      split at hstep
      · next hloop =>
          split_ifs at hstep with hreports
          obtain ⟨rfl, rfl⟩ := Prod.mk.inj (Option.some.inj hstep)
          exact .reported hloop hreports.1 hreports.2
      · cases hstep
  | test =>
      simp only [step] at hstep
      split at hstep
      · next hloop =>
          split at hstep
          · obtain ⟨rfl, rfl⟩ := Prod.mk.inj (Option.some.inj hstep)
            exact .skipped hloop
          · next hlisted =>
              obtain ⟨rfl, rfl⟩ := Prod.mk.inj (Option.some.inj hstep)
              exact .found hloop (by simp [hlisted])
      · cases hstep
  | load =>
      simp only [step] at hstep
      split at hstep
      · next hloop =>
          obtain ⟨reg, hlisted, heq⟩ := Option.map_eq_some_iff.mp hstep
          obtain ⟨rfl, rfl⟩ := Prod.mk.inj heq
          exact .loaded hloop hlisted
      · cases hstep
  | call =>
      simp only [step] at hstep
      split at hstep
      · next hloop =>
          obtain ⟨rfl, rfl⟩ := Prod.mk.inj (Option.some.inj hstep)
          exact .invoked hloop
      · cases hstep
  | callbackReturns =>
      simp only [step] at hstep
      split at hstep
      · next hloop =>
          obtain ⟨rfl, rfl⟩ := Prod.mk.inj (Option.some.inj hstep)
          exact .cameBack hloop
      · cases hstep

end PollMgr

end YfsLab.Poll
