/-
# Waiting with select

`SelectAIO` keeps the descriptors that are watched for reading and for writing, and
the largest of them. `wait_ready` copies all three under the mutex and calls `select`
on the copies, so that what it reports may be out of date. The read end of a pipe is
among the descriptors: writing to the pipe makes a running `select` return.
-/

import Mathlib.Data.Finset.Basic

namespace YfsLab.Poll

/-- A file descriptor. -/
abbrev Fd := ℕ

/-- `poll_flag`. -/
inductive PollFlag
  | none | rdonly | wronly | rdwr | mask
  deriving DecidableEq, Repr

/-- `SelectAIO`, with the read end of its pipe. -/
structure SelectAIO where
  rfds : Finset Fd
  wfds : Finset Fd := ∅
  highfds : Fd
  pipefd : Fd

namespace SelectAIO

/-- `SelectAIO::SelectAIO`. -/
def new (pipefd : Fd) : SelectAIO where
  rfds := {pipefd}
  highfds := pipefd
  pipefd := pipefd

/-- `SelectAIO::watch_fd`. -/
def watchFd (aio : SelectAIO) (fd : Fd) (flag : PollFlag) : SelectAIO :=
  let aio := if aio.highfds ≤ fd then { aio with highfds := fd } else aio
  match flag with
  | .rdonly => { aio with rfds := insert fd aio.rfds }
  | .wronly => { aio with wfds := insert fd aio.wfds }
  | _ => { aio with rfds := insert fd aio.rfds, wfds := insert fd aio.wfds }

/-- The descriptor is in one of the two sets. -/
def Watched (aio : SelectAIO) (fd : Fd) : Prop := fd ∈ aio.rfds ∨ fd ∈ aio.wfds

instance (aio : SelectAIO) (fd : Fd) : Decidable (aio.Watched fd) :=
  inferInstanceAs (Decidable (_ ∨ _))

/-- The loop of `unwatch_fd` that looks for the largest descriptor that is left. -/
def newHigh (aio : SelectAIO) : Fd :=
  (List.range (aio.highfds + 1)).foldl (fun newh i => if aio.Watched i then i else newh)
    aio.pipefd

/-- `FD_CLR` for the sets that the flag names. `unwatch_fd` asserts that it names any. -/
def clear (aio : SelectAIO) (fd : Fd) : PollFlag → Option SelectAIO
  | .rdonly => some { aio with rfds := aio.rfds.erase fd }
  | .wronly => some { aio with wfds := aio.wfds.erase fd }
  | .rdwr => some { aio with wfds := aio.wfds.erase fd, rfds := aio.rfds.erase fd }
  | _ => none

/-- `SelectAIO::unwatch_fd`: it returns whether nothing is watched any more. -/
def unwatchFd (aio : SelectAIO) (fd : Fd) (flag : PollFlag) : Option (Prod SelectAIO Bool) :=
  (aio.clear fd flag).map fun cleared =>
    (if ¬ cleared.Watched fd ∧ fd = cleared.highfds then
        { cleared with highfds := cleared.newHigh }
      else cleared,
      ¬ cleared.Watched fd)

/-- `SelectAIO::is_watched`. -/
def isWatched (aio : SelectAIO) (fd : Fd) : PollFlag → Bool
  | .rdonly => fd ∈ aio.rfds
  | .wronly => fd ∈ aio.wfds
  | _ => fd ∈ aio.rfds ∧ fd ∈ aio.wfds

/-! ## `wait_ready` -/

/-- What `select` leaves in a set: those of its descriptors below `nfds` that are ready. -/
def select (nfds : ℕ) (fds : Finset Fd) (ready : Fd → Bool) : Finset Fd :=
  fds.filter fun fd => fd < nfds ∧ ready fd

/-- The loop of `wait_ready` over the descriptors that `select` has left. The byte in the
pipe is read, and the pipe is not reported. -/
def report (aio : SelectAIO) (trfds twfds : Finset Fd) : List Fd × List Fd :=
  (List.range (aio.highfds + 1)).foldl (fun reported fd =>
      if fd = aio.pipefd ∧ fd ∈ trfds then reported
      else
        (if fd ∈ trfds then reported.1 ++ [fd] else reported.1,
          if fd ∈ twfds then reported.2 ++ [fd] else reported.2))
    ([], [])

/-- `SelectAIO::wait_ready` on the sets that it has copied, with the descriptors that can be
read and written when `select` returns. Nothing is reported if a signal interrupts it. -/
def waitReady (aio : SelectAIO) : Option ((Fd → Bool) × (Fd → Bool)) → List Fd × List Fd
  | none => ([], [])
  | some (canRead, canWrite) =>
      aio.report (select (aio.highfds + 1) aio.rfds canRead)
        (select (aio.highfds + 1) aio.wfds canWrite)

/-! ## What is watched afterwards -/

theorem watched_watchFd_iff {aio : SelectAIO} {fd other : Fd} {flag : PollFlag} :
    (aio.watchFd fd flag).Watched other ↔ other = fd ∨ aio.Watched other := by
  cases flag <;> simp only [watchFd] <;> split_ifs <;>
    simp only [Watched, Finset.mem_insert] <;> tauto

theorem watched_watchFd {aio : SelectAIO} {fd other : Fd} {flag : PollFlag}
    (h : (aio.watchFd fd flag).Watched other) : other = fd ∨ aio.Watched other :=
  watched_watchFd_iff.mp h

theorem watched_clear {aio cleared : SelectAIO} {fd other : Fd} {flag : PollFlag}
    (hclear : aio.clear fd flag = some cleared) (h : cleared.Watched other) :
    aio.Watched other := by
  cases flag <;> simp only [clear, Option.some.injEq, reduceCtorEq] at hclear
  all_goals
    subst hclear
    simp only [Watched, Finset.mem_erase] at h ⊢
    tauto

/-- Only the descriptor itself is cleared. -/
theorem watched_clear_of_ne {aio cleared : SelectAIO} {fd other : Fd} {flag : PollFlag}
    (hclear : aio.clear fd flag = some cleared) (hne : other ≠ fd) :
    cleared.Watched other ↔ aio.Watched other := by
  cases flag <;> simp only [clear, Option.some.injEq, reduceCtorEq] at hclear
  all_goals
    subst hclear
    simp only [Watched, Finset.mem_erase]
    tauto

/-- What `unwatch_fd` returns: whether the descriptor is watched no more. -/
theorem unwatchFd_eq_some {aio aio' : SelectAIO} {fd : Fd} {flag : PollFlag} {last : Bool}
    (hunwatch : aio.unwatchFd fd flag = some (aio', last)) :
    ∃ cleared, aio.clear fd flag = some cleared ∧ aio'.rfds = cleared.rfds ∧
      aio'.wfds = cleared.wfds ∧ aio'.pipefd = cleared.pipefd ∧
      (∀ other, aio'.Watched other ↔ cleared.Watched other) ∧
      aio'.highfds = (if ¬ cleared.Watched fd ∧ fd = cleared.highfds then cleared.newHigh
        else cleared.highfds) ∧
      (last = true ↔ ¬ aio'.Watched fd) := by
  obtain ⟨cleared, hclear, heq⟩ := Option.map_eq_some_iff.mp hunwatch
  obtain ⟨rfl, rfl⟩ := Prod.mk.inj heq
  refine ⟨cleared, hclear, ?_⟩
  split_ifs
  · exact ⟨rfl, rfl, rfl, fun _ => Iff.rfl, rfl, by simp [Watched]⟩
  · exact ⟨rfl, rfl, rfl, fun _ => Iff.rfl, rfl, by simp [Watched]⟩

/-- Unwatching a descriptor leaves the others. -/
theorem watched_unwatchFd_of_ne {aio aio' : SelectAIO} {fd other : Fd} {flag : PollFlag}
    {last : Bool} (hunwatch : aio.unwatchFd fd flag = some (aio', last)) (hne : other ≠ fd) :
    aio'.Watched other ↔ aio.Watched other := by
  obtain ⟨cleared, hclear, -, -, -, hwatched, -⟩ := unwatchFd_eq_some hunwatch
  rw [hwatched, watched_clear_of_ne hclear hne]

/-- Unwatching a descriptor does not make another one watched. -/
theorem watched_unwatchFd {aio aio' : SelectAIO} {fd other : Fd} {flag : PollFlag} {last : Bool}
    (hunwatch : aio.unwatchFd fd flag = some (aio', last)) (h : aio'.Watched other) :
    aio.Watched other := by
  obtain ⟨cleared, hclear, heq⟩ := Option.map_eq_some_iff.mp hunwatch
  obtain ⟨rfl, -⟩ := Prod.mk.inj heq
  refine watched_clear hclear ?_
  split_ifs at h
  · exact h
  · exact h

/-- After `unwatch_fd` with both flags the descriptor is not watched. -/
theorem not_watched_unwatchFd_rdwr {aio aio' : SelectAIO} {fd : Fd} {last : Bool}
    (hunwatch : aio.unwatchFd fd .rdwr = some (aio', last)) : ¬ aio'.Watched fd := by
  obtain ⟨cleared, hclear, heq⟩ := Option.map_eq_some_iff.mp hunwatch
  obtain ⟨rfl, -⟩ := Prod.mk.inj heq
  obtain rfl := Option.some.inj hclear
  split_ifs <;> simp [Watched]

end SelectAIO

end YfsLab.Poll
