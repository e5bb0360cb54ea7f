/-
# Waiting with epoll

`EPollAIO` is the other `aio_mgr`. It keeps a status word for every descriptor, with one bit
for each interest, and tells the kernel whenever the word changes. Both it and `SelectAIO`
do what an `aio_mgr` is for: they remember which interests in which descriptors have been
asked for and not been taken back. What they answer when they are asked is another matter.
`SelectAIO` says whether it watches the descriptor for all that the flag names. `EPollAIO`
compares the flag with the bits of the status word that are *outside* of all flags.
-/

import YfsLab.Poll.Bookkeeping

namespace YfsLab.Poll

/-! ## What an `aio_mgr` is for -/

/-- The interests that a flag names. -/
def PollFlag.has : PollFlag → Interest → Bool
  | .rdonly, .read | .wronly, .write | .rdwr, _ => true
  | _, _ => false

/-- The interests that somebody wants to be told of. -/
abbrev Interests := Fd → Interest → Bool

namespace Interests

/-- A call asks for interests, or takes them back. -/
def call (w : Interests) : AioCall → Interests
  | .watchFd fd flag => Function.update w fd fun i => w fd i || flag.has i
  | .unwatchFd fd flag => Function.update w fd fun i => w fd i && !flag.has i

/-- The interests after calls, when nothing was wanted before. -/
def after (calls : List AioCall) : Interests := calls.foldl call fun _ _ => false

/-- Some interest in a descriptor is wanted. -/
def watches (w : Interests) (fd : Fd) : Bool := w fd .read || w fd .write

/-- All the interests that the flag names are wanted. -/
def wants (w : Interests) (fd : Fd) (flag : PollFlag) : Bool :=
  (!flag.has .read || w fd .read) && (!flag.has .write || w fd .write)

/-- The call may be made: it is about a descriptor below `MAX_POLL_FDS` that is not the
pipe, its flag names something, and only a descriptor that is watched is unwatched. -/
def allows (w : Interests) (pipefd : Fd) (c : AioCall) : Bool :=
  decide (c.fd < maxPollFds) && c.fd != pipefd && c.flag.named &&
    match c with
    | .watchFd .. => true
    | .unwatchFd fd _ => w.watches fd

theorem allows_eq_true {w : Interests} {pipefd : Fd} {c : AioCall}
    (h : w.allows pipefd c = true) :
    c.fd < maxPollFds ∧ c.fd ≠ pipefd ∧ c.flag.named = true ∧
      ∀ fd flag, c = .unwatchFd fd flag → w.watches fd = true := by
  simp only [allows, Bool.and_eq_true, decide_eq_true_eq, bne_iff_ne] at h
  obtain ⟨⟨⟨hlt, hne⟩, hnamed⟩, hwatched⟩ := h
  refine ⟨hlt, hne, hnamed, ?_⟩
  rintro fd flag rfl
  exact hwatched

/-- Every call of a sequence may be made when its turn comes. -/
def Legal (pipefd : Fd) (calls : List AioCall) : Prop :=
  ∀ done c rest, calls = done ++ c :: rest → (after done).allows pipefd c = true

theorem after_append_singleton (calls : List AioCall) (c : AioCall) :
    after (calls ++ [c]) = (after calls).call c := by
  rw [after, List.foldl_append]
  rfl

theorem Legal.prior {pipefd : Fd} {calls : List AioCall} {c : AioCall}
    (h : Legal pipefd (calls ++ [c])) :
    Legal pipefd calls ∧ (after calls).allows pipefd c = true := by
  refine ⟨fun done d rest heq => h done d (rest ++ [c]) ?_, h calls c [] rfl⟩
  rw [heq, List.append_assoc, List.cons_append]

end Interests

/-! ## `EPollAIO` -/

/-- The value of a `poll_flag`. -/
def PollFlag.toInt : PollFlag → BitVec 32
  | .none => 0x0
  | .rdonly => 0x1
  | .wronly => 0x10
  | .rdwr => 0x11
  | .mask => ~~~0x11

/-- `EPOLLIN`. -/
def epollIn : BitVec 32 := 0x1

/-- `EPOLLOUT`. -/
def epollOut : BitVec 32 := 0x4

/-- `EPOLLET`. -/
def epollEt : BitVec 32 := 0x80000000

/-- What `epoll_ctl` is asked to do. -/
inductive EpollOp
  | add | mod | del
  deriving DecidableEq, Repr

/-- `EPollAIO`, with the events that the kernel has on its list for `pollfd_`. -/
structure EPollAIO where
  fdstatus : Fd → BitVec 32 := fun _ => 0
  kernel : Fd → Option (BitVec 32) := fun _ => none

namespace EPollAIO

/-- `epoll_ctl`. A descriptor that is on the list cannot be added, and one that is not can
be neither modified nor deleted. -/
def epollCtl (kernel : Fd → Option (BitVec 32)) (op : EpollOp) (fd : Fd) (events : BitVec 32) :
    Option (Fd → Option (BitVec 32)) :=
  match op, kernel fd with
  | .add, none | .mod, some _ => some (Function.update kernel fd (some events))
  | .del, some _ => some (Function.update kernel fd none)
  | _, _ => none

theorem epollCtl_add {kernel : Fd → Option (BitVec 32)} {fd : Fd} (hnone : kernel fd = none)
    (events : BitVec 32) :
    epollCtl kernel .add fd events = some (Function.update kernel fd (some events)) := by
  simp only [epollCtl, hnone]

theorem epollCtl_mod {kernel : Fd → Option (BitVec 32)} {fd : Fd}
    (hsome : (kernel fd).isSome = true) (events : BitVec 32) :
    epollCtl kernel .mod fd events = some (Function.update kernel fd (some events)) := by
  obtain ⟨known, hknown⟩ := Option.isSome_iff_exists.mp hsome
  simp only [epollCtl, hknown]

theorem epollCtl_del {kernel : Fd → Option (BitVec 32)} {fd : Fd}
    (hsome : (kernel fd).isSome = true) (events : BitVec 32) :
    epollCtl kernel .del fd events = some (Function.update kernel fd none) := by
  obtain ⟨known, hknown⟩ := Option.isSome_iff_exists.mp hsome
  simp only [epollCtl, hknown]

/-- The events for a status word. -/
def events (status : BitVec 32) : BitVec 32 :=
  epollEt ||| (if status &&& PollFlag.rdonly.toInt ≠ 0 then epollIn else 0) |||
    (if status &&& PollFlag.wronly.toInt ≠ 0 then epollOut else 0)

/-- `EPollAIO::watch_fd`. -/
def watchFd (e : EPollAIO) (fd : Fd) (flag : PollFlag) : Option EPollAIO :=
  if fd < maxPollFds then
    let op := if e.fdstatus fd ≠ 0 then EpollOp.mod else .add
    let status := e.fdstatus fd ||| flag.toInt
    if flag = .rdwr ∧ events status ≠ epollEt ||| epollIn ||| epollOut then none
    else
      (epollCtl e.kernel op fd (events status)).map fun kernel =>
        { fdstatus := Function.update e.fdstatus fd status, kernel }
  else none

/-- `EPollAIO::unwatch_fd`. -/
def unwatchFd (e : EPollAIO) (fd : Fd) (flag : PollFlag) : Option (Prod EPollAIO Bool) :=
  if fd < maxPollFds then
    let status := e.fdstatus fd &&& ~~~flag.toInt
    let op := if status ≠ 0 then EpollOp.mod else .del
    if flag = .rdwr ∧ op ≠ .del then none
    else
      (epollCtl e.kernel op fd (events status)).map fun kernel =>
        ({ fdstatus := Function.update e.fdstatus fd status, kernel }, op == .del)
  else none

/-- `EPollAIO::is_watched`. -/
def isWatched (e : EPollAIO) (fd : Fd) (flag : PollFlag) : Option Bool :=
  if fd < maxPollFds then some ((e.fdstatus fd &&& PollFlag.mask.toInt) == flag.toInt) else none

/-- One call. -/
def call (e : EPollAIO) : AioCall → Option EPollAIO
  | .watchFd fd flag => e.watchFd fd flag
  | .unwatchFd fd flag => (e.unwatchFd fd flag).map Prod.fst

/-- Calls on a new `EPollAIO`. -/
def run (calls : List AioCall) : Option EPollAIO := calls.foldlM call {}

theorem run_append_singleton {calls : List AioCall} {e : EPollAIO} (hrun : run calls = some e)
    (c : AioCall) : run (calls ++ [c]) = e.call c := by
  rw [run, List.foldlM_append, ← run, hrun]
  simp

/-! ## The status words -/

/-- The status word for these interests. -/
def statusOf (read write : Bool) : BitVec 32 :=
  (if read then PollFlag.rdonly.toInt else 0) ||| (if write then PollFlag.wronly.toInt else 0)

theorem statusOf_or (read write : Bool) {flag : PollFlag} (hnamed : flag.named = true) :
    statusOf read write ||| flag.toInt =
      statusOf (read || flag.has .read) (write || flag.has .write) := by
  revert read write hnamed
  cases flag <;> decide

theorem statusOf_and_not (read write : Bool) {flag : PollFlag} (hnamed : flag.named = true) :
    statusOf read write &&& ~~~flag.toInt =
      statusOf (read && !flag.has .read) (write && !flag.has .write) := by
  revert read write hnamed
  cases flag <;> decide

theorem statusOf_eq_zero_iff (read write : Bool) :
    statusOf read write = 0 ↔ (read || write) = false := by
  revert read write
  decide

/-- The mask takes away all the bits that a status word can have. -/
theorem statusOf_and_mask (read write : Bool) :
    statusOf read write &&& PollFlag.mask.toInt = 0 := by
  revert read write
  decide

/-- The assertion of `watch_fd` on the events for both interests. -/
theorem events_statusOf_rdwr :
    events (statusOf true true) = epollEt ||| epollIn ||| epollOut := by
  decide

/-- The status words stand for the interests, and the kernel's list has the descriptors that
are watched. -/
structure Simulates (e : EPollAIO) (w : Interests) : Prop where
  status : ∀ fd, e.fdstatus fd = statusOf (w fd .read) (w fd .write)
  listed : ∀ fd, (e.kernel fd).isSome = w.watches fd

theorem simulates_new : ({} : EPollAIO).Simulates fun _ _ => false where
  status _ := rfl
  listed _ := rfl

/-- The status word of a descriptor that is watched is not zero. -/
theorem Simulates.fdstatus_ne_zero_iff {e : EPollAIO} {w : Interests} (h : e.Simulates w)
    (fd : Fd) : e.fdstatus fd ≠ 0 ↔ w.watches fd = true := by
  rw [h.status, Ne, statusOf_eq_zero_iff, Interests.watches, Bool.not_eq_false]

/-- A call that has changed the interests of one descriptor. -/
theorem Simulates.update {e : EPollAIO} {w : Interests} (h : e.Simulates w) {fd : Fd}
    {f : Interest → Bool} (known : Option (BitVec 32))
    (hknown : known.isSome = (f .read || f .write)) :
    Simulates
      { fdstatus := Function.update e.fdstatus fd (statusOf (f .read) (f .write))
        kernel := Function.update e.kernel fd known }
      (Function.update w fd f) where
  status other := by
    by_cases heq : other = fd
    · subst heq
      simp
    · simp only [Function.update_of_ne heq]
      exact h.status other
  listed other := by
    by_cases heq : other = fd
    · subst heq
      simpa [Interests.watches] using hknown
    · simp only [Function.update_of_ne heq, Interests.watches]
      exact h.listed other

/-- `watch_fd` succeeds, and remembers the interests. -/
theorem Simulates.watchFd {e : EPollAIO} {w : Interests} (h : e.Simulates w) {fd : Fd}
    {flag : PollFlag} (hlt : fd < maxPollFds) (hnamed : flag.named = true) :
    ∃ e', e.watchFd fd flag = some e' ∧ e'.Simulates (w.call (.watchFd fd flag)) := by
  have hstatus : e.fdstatus fd ||| flag.toInt =
      statusOf (w fd .read || flag.has .read) (w fd .write || flag.has .write) := by
    rw [h.status, statusOf_or _ _ hnamed]
  have hassert : ¬ (flag = .rdwr ∧ events (e.fdstatus fd ||| flag.toInt) ≠
      epollEt ||| epollIn ||| epollOut) := by
    rintro ⟨rfl, hbad⟩
    refine hbad ?_
    rw [hstatus, show PollFlag.rdwr.has .read = true from rfl,
      show PollFlag.rdwr.has .write = true from rfl, Bool.or_true, Bool.or_true]
    exact events_statusOf_rdwr
  have hnew : (w fd .read || flag.has .read || (w fd .write || flag.has .write)) = true := by
    cases flag <;> simp [PollFlag.named, PollFlag.has] at hnamed ⊢
  have hctl : epollCtl e.kernel (if e.fdstatus fd ≠ 0 then EpollOp.mod else .add) fd
      (events (e.fdstatus fd ||| flag.toInt)) =
      some (Function.update e.kernel fd (some (events (e.fdstatus fd ||| flag.toInt)))) := by
    have hlisted := h.listed fd
    by_cases hwatched : w.watches fd = true
    · rw [if_pos ((h.fdstatus_ne_zero_iff fd).mpr hwatched)]
      exact epollCtl_mod (hlisted.trans hwatched) _
    · rw [if_neg fun hne => hwatched ((h.fdstatus_ne_zero_iff fd).mp hne)]
      refine epollCtl_add ?_ _
      rw [← Option.not_isSome_iff_eq_none, hlisted]
      exact hwatched
  refine ⟨_, ?_, h.update (some (events (e.fdstatus fd ||| flag.toInt))) hnew.symm⟩
  simp only [ EPollAIO.watchFd, if_pos hlt, if_neg hassert, hctl, Option.map_some]
  rw [hstatus]

/-- `unwatch_fd` of a descriptor that is watched succeeds, forgets the interests, and says
whether none is left. -/
theorem Simulates.unwatchFd {e : EPollAIO} {w : Interests} (h : e.Simulates w) {fd : Fd}
    {flag : PollFlag} (hlt : fd < maxPollFds) (hnamed : flag.named = true)
    (hwatched : w.watches fd = true) :
    ∃ e', e.unwatchFd fd flag = some (e', !(w.call (.unwatchFd fd flag)).watches fd) ∧
      e'.Simulates (w.call (.unwatchFd fd flag)) := by
  have hlisted : (e.kernel fd).isSome = true := (h.listed fd).trans hwatched
  have hstatus : e.fdstatus fd &&& ~~~flag.toInt =
      statusOf (w fd .read && !flag.has .read) (w fd .write && !flag.has .write) := by
    rw [h.status, statusOf_and_not _ _ hnamed]
  have hleft : (w.call (.unwatchFd fd flag)).watches fd =
      (w fd .read && !flag.has .read || w fd .write && !flag.has .write) := by
    simp [Interests.call, Interests.watches]
  rw [hleft]
  cases hrest : w fd .read && !flag.has .read || w fd .write && !flag.has .write with
  | true =>
      have hop : (if e.fdstatus fd &&& ~~~flag.toInt ≠ 0 then EpollOp.mod else .del) = .mod := by
        refine if_pos ?_
        rw [hstatus, Ne, statusOf_eq_zero_iff, hrest]
        exact Bool.true_eq_false_eq_False
      have hassert : ¬ (flag = .rdwr ∧ EpollOp.mod ≠ .del) := by
        rintro ⟨rfl, -⟩
        simp [PollFlag.has] at hrest
      refine ⟨_, ?_, h.update (some (events (e.fdstatus fd &&& ~~~flag.toInt))) hrest.symm⟩
      simp only [ EPollAIO.unwatchFd, if_pos hlt, hop, if_neg hassert, epollCtl_mod hlisted,
        Option.map_some]
      rw [hstatus]
      rfl
  | false =>
      have hop : (if e.fdstatus fd &&& ~~~flag.toInt ≠ 0 then EpollOp.mod else .del) = .del := by
        refine if_neg ?_
        rw [hstatus, not_not, statusOf_eq_zero_iff]
        exact hrest
      have hassert : ¬ (flag = .rdwr ∧ EpollOp.del ≠ .del) := fun hbad => hbad.2 rfl
      refine ⟨_, ?_, h.update none hrest.symm⟩
      simp only [ EPollAIO.unwatchFd, if_pos hlt, hop, if_neg hassert, epollCtl_del hlisted,
        Option.map_some]
      rw [hstatus]
      rfl

end EPollAIO

/-! ## The two sets -/

namespace SelectAIO

/-- The two sets stand for the interests, except for the pipe. -/
structure Simulates (aio : SelectAIO) (w : Interests) : Prop where
  read : ∀ fd, fd ≠ aio.pipefd → (fd ∈ aio.rfds ↔ w fd .read = true)
  write : ∀ fd, fd ≠ aio.pipefd → (fd ∈ aio.wfds ↔ w fd .write = true)

theorem simulates_new (pipefd : Fd) : (new pipefd).Simulates fun _ _ => false where
  read fd hne := by simpa [new] using hne
  write fd _ := by simp [new]

theorem Simulates.watched_iff {aio : SelectAIO} {w : Interests} (h : aio.Simulates w) {fd : Fd}
    (hne : fd ≠ aio.pipefd) : aio.Watched fd ↔ w.watches fd = true := by
  rw [Watched, h.read fd hne, h.write fd hne, Interests.watches, Bool.or_eq_true]

/-- Changed sets stand for the changed interests. -/
theorem Simulates.update {aio aio' : SelectAIO} {w : Interests} (h : aio.Simulates w) {fd : Fd}
    {f : Interest → Bool} (hpipe : aio'.pipefd = aio.pipefd)
    (hread : fd ∈ aio'.rfds ↔ f .read = true) (hwrite : fd ∈ aio'.wfds ↔ f .write = true)
    (hothers : ∀ other, other ≠ fd →
      (other ∈ aio'.rfds ↔ other ∈ aio.rfds) ∧ (other ∈ aio'.wfds ↔ other ∈ aio.wfds)) :
    aio'.Simulates (Function.update w fd f) where
  read other hne := by
    by_cases heq : other = fd
    · subst heq
      rwa [Function.update_self]
    · rw [Function.update_of_ne heq, (hothers other heq).1]
      exact h.read other (hpipe ▸ hne)
  write other hne := by
    by_cases heq : other = fd
    · subst heq
      rwa [Function.update_self]
    · rw [Function.update_of_ne heq, (hothers other heq).2]
      exact h.write other (hpipe ▸ hne)

theorem Simulates.watchFd {aio : SelectAIO} {w : Interests} (h : aio.Simulates w) {fd : Fd}
    {flag : PollFlag} (hne : fd ≠ aio.pipefd) (hnamed : flag.named = true) :
    (aio.watchFd fd flag).Simulates (w.call (.watchFd fd flag)) := by
  have hsets : ∀ other,
      (other ∈ (aio.watchFd fd flag).rfds ↔
        other = fd ∧ flag.has .read = true ∨ other ∈ aio.rfds) ∧
      (other ∈ (aio.watchFd fd flag).wfds ↔
        other = fd ∧ flag.has .write = true ∨ other ∈ aio.wfds) := by
    intro other
    cases flag with
    | rdonly | wronly | rdwr =>
        simp only [ SelectAIO.watchFd]
        split_ifs <;> simp [PollFlag.has]
    | none | mask => cases hnamed
  refine h.update (pipefd_watchFd ..) ?_ ?_ fun other hother => ?_
  · rw [(hsets fd).1, h.read fd hne, Bool.or_eq_true]
    tauto
  · rw [(hsets fd).2, h.write fd hne, Bool.or_eq_true]
    tauto
  · simp [hsets other, hother]

theorem Simulates.unwatchFd {aio aio' : SelectAIO} {w : Interests} (h : aio.Simulates w)
    {fd : Fd} {flag : PollFlag} {last : Bool} (hne : fd ≠ aio.pipefd)
    (hunwatch : aio.unwatchFd fd flag = some (aio', last)) :
    aio'.Simulates (w.call (.unwatchFd fd flag)) ∧
      last = !(w.call (.unwatchFd fd flag)).watches fd := by
  obtain ⟨cleared, hclear, hrfds, hwfds, hpipe, -, -, hlast⟩ := unwatchFd_eq_some hunwatch
  have hpipe' := hpipe.trans (clear_eq_some hclear).1
  have hsets : ∀ other,
      (other ∈ cleared.rfds ↔ ¬ (other = fd ∧ flag.has .read = true) ∧ other ∈ aio.rfds) ∧
      (other ∈ cleared.wfds ↔ ¬ (other = fd ∧ flag.has .write = true) ∧ other ∈ aio.wfds) := by
    intro other
    cases flag <;> simp only [clear, Option.some.injEq, reduceCtorEq] at hclear
    all_goals
      subst hclear
      simp [PollFlag.has]
  have hsimulates : aio'.Simulates (w.call (.unwatchFd fd flag)) := by
    refine h.update hpipe' ?_ ?_ fun other hother => ?_
    · rw [hrfds, (hsets fd).1, h.read fd hne, Bool.and_eq_true, Bool.not_eq_true']
      simp only [true_and, Bool.not_eq_true]
      exact and_comm
    · rw [hwfds, (hsets fd).2, h.write fd hne, Bool.and_eq_true, Bool.not_eq_true']
      simp only [true_and, Bool.not_eq_true]
      exact and_comm
    · rw [hrfds, hwfds]
      simp [hsets other, hother]
  refine ⟨hsimulates, ?_⟩
  rw [Bool.eq_iff_iff, hlast, hsimulates.watched_iff (hpipe' ▸ hne), Bool.not_eq_true',
    Bool.not_eq_true]

end SelectAIO

/-! ## Both of them -/

/-- After legal calls, both implementations stand for the interests that are wanted. -/
theorem simulates_of_legal {pipefd : Fd} {calls : List AioCall}
    (hlegal : Interests.Legal pipefd calls) :
    ∃ s e, SelectAIO.run pipefd calls = some s ∧ EPollAIO.run calls = some e ∧
      s.Simulates (.after calls) ∧ e.Simulates (.after calls) ∧ s.pipefd = pipefd ∧
      ∀ i, Interests.after calls pipefd i = false := by
  induction calls using List.reverseRecOn with
  | nil =>
      exact ⟨_, _, rfl, rfl, SelectAIO.simulates_new pipefd, EPollAIO.simulates_new, rfl,
        fun _ => rfl⟩
  | append_singleton calls c ih =>
      obtain ⟨hprior, hallows⟩ := hlegal.prior
      obtain ⟨s, e, hs, he, hselect, hepoll, rfl, hpipe⟩ := ih hprior
      obtain ⟨hlt, hne, hnamed, hwatched⟩ := Interests.allows_eq_true hallows
      have hpipe' : ∀ i, Interests.after (calls ++ [c]) s.pipefd i = false := by
        intro i
        rw [Interests.after_append_singleton, ← hpipe i]
        cases c with
        | watchFd | unwatchFd =>
            exact congrFun (Function.update_of_ne (Ne.symm hne) ..) i
      rw [ SelectAIO.run_append_singleton hs, EPollAIO.run_append_singleton he,
        Interests.after_append_singleton]
      rw [Interests.after_append_singleton] at hpipe'
      cases c with
      | watchFd fd flag =>
          obtain ⟨e', he', hepoll'⟩ := hepoll.watchFd hlt hnamed
          exact ⟨_, e', rfl, he', hselect.watchFd hne hnamed, hepoll',
            SelectAIO.pipefd_watchFd .., hpipe'⟩
      | unwatchFd fd flag =>
          have hflag : flag.named = true := hnamed
          obtain ⟨s', last, hs'⟩ := SelectAIO.exists_unwatchFd s fd hflag
          have hfd : fd < maxPollFds := hlt
          obtain ⟨e', he', hepoll'⟩ := hepoll.unwatchFd hfd hflag (hwatched fd flag rfl)
          obtain ⟨cleared, hclear, -, -, hsame, -⟩ := SelectAIO.unwatchFd_eq_some hs'
          exact ⟨s', e', by rw [ SelectAIO.call, hs']; rfl, by rw [ EPollAIO.call, he']; rfl,
            (hselect.unwatchFd hne hs').1, hepoll',
            hsame.trans ( SelectAIO.clear_eq_some hclear).1, hpipe'⟩

/-- Whatever it has been asked for, `EPollAIO` answers that it watches nothing. -/
theorem EPollAIO.Simulates.isWatched {e : EPollAIO} {w : Interests} (h : e.Simulates w) {fd : Fd}
    {flag : PollFlag} (hlt : fd < maxPollFds) (hnamed : flag.named = true) :
    e.isWatched fd flag = some false := by
  rw [ EPollAIO.isWatched, if_pos hlt, h.status, statusOf_and_mask]
  cases flag with
  | rdonly | wronly | rdwr => rfl
  | none | mask => cases hnamed

/-- `SelectAIO` answers whether it watches the descriptor for all that the flag names. -/
theorem SelectAIO.Simulates.isWatched {s : SelectAIO} {w : Interests} (h : s.Simulates w)
    {fd : Fd} {flag : PollFlag} (hne : fd ≠ s.pipefd) (hnamed : flag.named = true) :
    s.isWatched fd flag = w.wants fd flag := by
  cases flag with
  | rdonly | wronly | rdwr =>
      rw [Bool.eq_iff_iff]
      simp [ SelectAIO.isWatched, Interests.wants, PollFlag.has, h.read fd hne, h.write fd hne]
  | none | mask => cases hnamed

/-- After these calls, both give the same answer to `is_watched`. -/
def SameAnswer (pipefd : Fd) (calls : List AioCall) (fd : Fd) (flag : PollFlag) : Prop :=
  ∃ s e, SelectAIO.run pipefd calls = some s ∧ EPollAIO.run calls = some e ∧
    e.isWatched fd flag = some (s.isWatched fd flag)

/-- After these calls, both return the same from `unwatch_fd`. -/
def SameResult (pipefd : Fd) (calls : List AioCall) : AioCall → Prop
  | .watchFd .. => True
  | .unwatchFd fd flag => ∃ s e s' e' last,
      SelectAIO.run pipefd calls = some s ∧ EPollAIO.run calls = some e ∧
        s.unwatchFd fd flag = some (s', last) ∧ e.unwatchFd fd flag = some (e', last)

/-- The two implementations agree at every step of a sequence of calls. -/
def Agree (pipefd : Fd) (calls : List AioCall) : Prop :=
  ∀ done c rest, calls = done ++ c :: rest →
    SameResult pipefd done c ∧
      ∀ fd flag, fd < maxPollFds → flag.named = true → SameAnswer pipefd (done ++ [c]) fd flag

theorem sameResult_of_legal {pipefd : Fd} {calls : List AioCall} {c : AioCall}
    (hlegal : Interests.Legal pipefd (calls ++ [c])) : SameResult pipefd calls c := by
  obtain ⟨hprior, hallows⟩ := hlegal.prior
  obtain ⟨s, e, hs, he, hselect, hepoll, rfl, -⟩ := simulates_of_legal hprior
  obtain ⟨hlt, hne, hnamed, hwatched⟩ := Interests.allows_eq_true hallows
  cases c with
  | watchFd => trivial
  | unwatchFd fd flag =>
      have hflag : flag.named = true := hnamed
      have hfd : fd < maxPollFds := hlt
      have hpipe : fd ≠ s.pipefd := hne
      obtain ⟨s', last, hs'⟩ := SelectAIO.exists_unwatchFd s fd hflag
      obtain ⟨e', he', -⟩ := hepoll.unwatchFd hfd hflag (hwatched fd flag rfl)
      rw [← (hselect.unwatchFd hpipe hs').2] at he'
      exact ⟨s, e, s', e', last, hs, he, hs', he'⟩

theorem sameAnswer_iff {pipefd : Fd} {calls : List AioCall}
    (hlegal : Interests.Legal pipefd calls) {fd : Fd} {flag : PollFlag} (hlt : fd < maxPollFds)
    (hnamed : flag.named = true) :
    SameAnswer pipefd calls fd flag ↔
      (Interests.after calls).wants fd flag = false ∧ ¬ (fd = pipefd ∧ flag = .rdonly) := by
  obtain ⟨s, e, hs, he, hselect, hepoll, hpipe, hzero⟩ := simulates_of_legal hlegal
  have hsame : SameAnswer pipefd calls fd flag ↔ s.isWatched fd flag = false := by
    have hanswer := hepoll.isWatched hlt hnamed
    constructor
    · rintro ⟨s', e', hs', he', heq⟩
      obtain rfl := Option.some.inj (hs.symm.trans hs')
      obtain rfl := Option.some.inj (he.symm.trans he')
      exact (Option.some.inj (hanswer.symm.trans heq)).symm
    · intro hfalse
      exact ⟨s, e, hs, he, by rw [hanswer, hfalse]⟩
  rw [hsame]
  by_cases hfd : fd = pipefd
  · subst hfd
    have hcalls : ∀ c ∈ calls, c.flag.named = true ∧ c.fd ≠ fd := by
      intro c hc
      obtain ⟨done, rest, heq⟩ := List.append_of_mem hc
      obtain ⟨-, hne, hflag, -⟩ := Interests.allows_eq_true (hlegal done c rest heq)
      exact ⟨hflag, hne⟩
    obtain ⟨aio, haio, htracked, hpipe'⟩ := SelectAIO.tracked_run hcalls
    obtain rfl := Option.some.inj (hs.symm.trans haio)
    have hread : fd ∈ s.rfds := hpipe' ▸ htracked.pipe_mem
    have hwrite : fd ∉ s.wfds := hpipe' ▸ htracked.pipe_notMem
    cases flag with
    | rdonly | wronly | rdwr =>
        simp [ SelectAIO.isWatched, Interests.wants, PollFlag.has, hzero, hread, hwrite]
    | none | mask => cases hnamed
  · rw [hselect.isWatched (hpipe ▸ hfd) hnamed]
    simp [hfd]

/-- The two implementations of `aio_mgr`, for calls that watch and unwatch any descriptors
below `MAX_POLL_FDS` but the pipe, and unwatch none that is not watched. Both return the
same from every `unwatch_fd`. To the question whether a descriptor is watched they give the
same answer exactly when it is not watched for all that the flag names, and it is not the
pipe that `SelectAIO` reads. So they agree on no sequence of calls but the empty one. -/
theorem implementationsAgree_iff {pipefd : Fd} {calls : List AioCall}
    (hlegal : Interests.Legal pipefd calls) :
    (∀ done c rest, calls = done ++ c :: rest → SameResult pipefd done c) ∧
      (∀ fd flag, fd < maxPollFds → flag.named = true →
        (SameAnswer pipefd calls fd flag ↔
          (Interests.after calls).wants fd flag = false ∧ ¬ (fd = pipefd ∧ flag = .rdonly))) ∧
      (Agree pipefd calls ↔ calls = []) := by
  refine ⟨fun done c rest heq => ?_, fun fd flag hlt hnamed => sameAnswer_iff hlegal hlt hnamed,
    fun hagree => ?_, ?_⟩
  · refine sameResult_of_legal fun before d after hsplit => hlegal before d (after ++ rest) ?_
    rw [heq, List.append_cons, hsplit, List.append_assoc, List.cons_append]
  · cases calls with
    | nil => rfl
    | cons c rest =>
        have hallows := hlegal [] c rest rfl
        obtain ⟨hlt, -, hnamed, hwatched⟩ := Interests.allows_eq_true hallows
        have hfirst : Interests.Legal pipefd [c] := by
          intro before d after hsplit
          exact hlegal before d (after ++ rest) (by rw [← List.singleton_append, hsplit]; simp)
        have hwants := ((sameAnswer_iff hfirst hlt hnamed).mp
          ((hagree [] c rest rfl).2 c.fd c.flag hlt hnamed)).1
        cases c with
        | watchFd fd flag =>
            cases flag with
            | rdonly | wronly | rdwr =>
                simp [Interests.wants, Interests.after, Interests.call, AioCall.fd, AioCall.flag,
                  PollFlag.has] at hwants
            | none | mask => cases hnamed
        | unwatchFd fd flag => cases hwatched fd flag rfl
  · rintro rfl done c rest heq
    exact absurd heq (by simp)

/-- A descriptor is watched for both, and unwatched in two steps. -/
def twoSteps : List AioCall := [.watchFd 5 .rdwr, .unwatchFd 5 .rdonly, .unwatchFd 5 .wronly]

theorem legal_twoSteps : Interests.Legal 3 twoSteps := by
  rintro done c rest heq
  rcases done with _ | ⟨c₁, _ | ⟨c₂, _ | ⟨c₃, done⟩⟩⟩
  all_goals
    simp only [twoSteps, List.nil_append, List.cons_append, List.cons.injEq] at heq
  · obtain ⟨rfl, -⟩ := heq
    decide
  · obtain ⟨rfl, rfl, -⟩ := heq
    decide
  · obtain ⟨rfl, rfl, rfl, -⟩ := heq
    decide
  · simp at heq

theorem implementationsAgree_twoSteps :
    SameResult 3 [.watchFd 5 .rdwr, .unwatchFd 5 .rdonly] (.unwatchFd 5 .wronly) ∧
      SameAnswer 3 twoSteps 5 .wronly ∧ ¬ Agree 3 twoSteps := by
  obtain ⟨hresult, hanswer, hagree⟩ := implementationsAgree_iff legal_twoSteps
  refine ⟨hresult _ _ [] rfl, (hanswer 5 .wronly (by decide) rfl).mpr (by decide), ?_⟩
  rw [hagree]
  exact List.cons_ne_nil _ _

/-- A descriptor has been watched for reading, and `EPollAIO` denies it. -/
theorem watchedDescriptor_denied :
    ¬ ∀ (pipefd : Fd) (calls : List AioCall), Interests.Legal pipefd calls →
      Agree pipefd calls := by
  intro hall
  have hlegal : Interests.Legal 3 [.watchFd 5 .rdonly] := by
    rintro done c rest heq
    rcases done with _ | ⟨_, done⟩
    · obtain ⟨rfl, -⟩ := List.cons.inj heq
      decide
    · simp at heq
  obtain ⟨s, e, hs, he, heq⟩ :=
    (hall 3 _ hlegal [] _ [] rfl).2 5 .rdonly (by decide) rfl
  obtain rfl := Option.some.inj hs
  obtain rfl := Option.some.inj he
  exact absurd heq (by decide)

end YfsLab.Poll
