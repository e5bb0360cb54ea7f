/-
# What is watched, and who is called back

`SelectAIO` raises `highfds_` when a descriptor is watched, and looks for it again when
the largest one is not watched any more. So it always is the largest descriptor in the
two sets, and `wait_ready` passes over none that `select` finds ready. The pipe stays in
the set for reading, since nobody watches or unwatches it.

`PollMgr` keeps a callback in its table as long as the descriptor is watched for
anything. `block_remove_fd` clears the entry only after its wait, so that this holds of a
descriptor that nobody is about to remove.
-/

import Mathlib.Data.Fintype.Basic
import Mathlib.Data.List.Induction
import Mathlib.Order.Bounds.Basic
import YfsLab.Poll.PollMgr

namespace YfsLab.Poll

open Transition

universe u

/-- The flags `CB_RDONLY`, `CB_WRONLY` and `CB_RDWR`. -/
def PollFlag.named : PollFlag → Bool
  | .rdonly | .wronly | .rdwr => true
  | .none | .mask => false

/-- A call that changes what an `aio_mgr` watches. -/
inductive AioCall
  | watchFd (fd : Fd) (flag : PollFlag)
  | unwatchFd (fd : Fd) (flag : PollFlag)
  deriving DecidableEq, Repr

/-- The descriptor of a call. -/
def AioCall.fd : AioCall → Fd
  | .watchFd fd _ | .unwatchFd fd _ => fd

/-- The flag of a call. -/
def AioCall.flag : AioCall → PollFlag
  | .watchFd _ flag | .unwatchFd _ flag => flag

namespace SelectAIO

/-! ## The largest descriptor -/

/-- The last of the numbers below `n` that has a property is the largest one. -/
theorem isGreatest_foldl {p : ℕ → Prop} [DecidablePred p] (start n : ℕ) (hp : ∃ i < n, p i) :
    IsGreatest {i | i < n ∧ p i}
      ((List.range n).foldl (fun last i => if p i then i else last) start) := by
  induction n with
  | zero => simp at hp
  | succ n ih =>
      rw [List.range_succ, List.foldl_append]
      by_cases hn : p n
      · rw [List.foldl_cons, List.foldl_nil, if_pos hn]
        exact ⟨⟨n.lt_succ_self, hn⟩, fun i hi => Nat.lt_succ_iff.mp hi.1⟩
      · rw [List.foldl_cons, List.foldl_nil, if_neg hn]
        have hback : ∀ i, i < n + 1 → p i → i < n := by
          rintro i hi hpi
          rcases Nat.lt_succ_iff_lt_or_eq.mp hi with hlt | rfl
          · exact hlt
          · exact absurd hpi hn
        obtain ⟨i, hi, hpi⟩ := hp
        obtain ⟨hmem, hmax⟩ := ih ⟨i, hback i hi hpi, hpi⟩
        exact ⟨⟨hmem.1.trans n.lt_succ_self, hmem.2⟩,
          fun j hj => hmax ⟨hback j hj.1 hj.2, hj.2⟩⟩

/-- `highfds_` is the largest descriptor that is watched, and the pipe is watched for
reading only. -/
structure Tracked (aio : SelectAIO) : Prop where
  pipe_mem : aio.pipefd ∈ aio.rfds
  pipe_notMem : aio.pipefd ∉ aio.wfds
  high : IsGreatest {fd | aio.Watched fd} aio.highfds

theorem tracked_new (pipefd : Fd) : (new pipefd).Tracked where
  pipe_mem := by simp [new]
  pipe_notMem := by simp [new]
  high := by
    have hwatched : {fd | (new pipefd).Watched fd} = {pipefd} := by
      ext fd
      simp [new, Watched]
    rw [hwatched]
    exact isGreatest_singleton

@[simp]
theorem pipefd_watchFd (aio : SelectAIO) (fd : Fd) (flag : PollFlag) :
    (aio.watchFd fd flag).pipefd = aio.pipefd := by
  cases flag <;> simp only [watchFd] <;> split_ifs <;> rfl

theorem highfds_watchFd (aio : SelectAIO) (fd : Fd) (flag : PollFlag) :
    (aio.watchFd fd flag).highfds = max aio.highfds fd := by
  by_cases hle : aio.highfds ≤ fd
  · rw [max_eq_right hle]
    cases flag <;> simp only [watchFd, if_pos hle]
  · rw [max_eq_left (le_of_not_ge hle)]
    cases flag <;> simp only [watchFd, if_neg hle]

/-- Watching a descriptor. -/
theorem Tracked.watchFd {aio : SelectAIO} (h : aio.Tracked) {fd : Fd} (hfd : fd ≠ aio.pipefd)
    (flag : PollFlag) : (aio.watchFd fd flag).Tracked where
  pipe_mem := by
    have hmem := h.pipe_mem
    rw [pipefd_watchFd]
    cases flag <;> simp only [ SelectAIO.watchFd] <;> split_ifs <;> simp [hmem]
  pipe_notMem := by
    have hnot := h.pipe_notMem
    rw [pipefd_watchFd]
    cases flag <;> simp only [ SelectAIO.watchFd] <;> split_ifs <;> simp [hnot, Ne.symm hfd]
  high := by
    rw [highfds_watchFd]
    constructor
    · rw [Set.mem_ofPred_eq, watched_watchFd_iff]
      rcases max_choice aio.highfds fd with hmax | hmax
      · rw [hmax]
        exact .inr h.high.1
      · exact .inl hmax
    · intro other hother
      rcases watched_watchFd_iff.mp hother with rfl | hbefore
      · exact le_max_right _ _
      · exact (h.high.2 hbefore).trans (le_max_left _ _)

/-- What `FD_CLR` leaves of the pipe and of the rest. -/
theorem clear_eq_some {aio cleared : SelectAIO} {fd : Fd} {flag : PollFlag}
    (hclear : aio.clear fd flag = some cleared) :
    cleared.pipefd = aio.pipefd ∧ cleared.highfds = aio.highfds ∧
      cleared.wfds ⊆ aio.wfds ∧ ∀ other, other ≠ fd → other ∈ aio.rfds → other ∈ cleared.rfds := by
  cases flag <;> simp only [clear, Option.some.injEq, reduceCtorEq] at hclear
  all_goals
    subst hclear
    refine ⟨rfl, rfl, ?_, fun other hne hmem => ?_⟩
    · simp [Finset.erase_subset]
    · simp [hne, hmem]

/-- Unwatching a descriptor: `highfds_` is looked for again if it was the largest one. -/
theorem Tracked.unwatchFd {aio aio' : SelectAIO} (h : aio.Tracked) {fd : Fd} {flag : PollFlag}
    {last : Bool} (hfd : fd ≠ aio.pipefd) (hunwatch : aio.unwatchFd fd flag = some (aio', last)) :
    aio'.Tracked ∧ aio'.pipefd = aio.pipefd := by
  obtain ⟨cleared, hclear, hrfds, hwfds, hpipe, hwatched, hhigh, -⟩ := unwatchFd_eq_some hunwatch
  obtain ⟨hpipe', hhigh', hsub, hkeep⟩ := clear_eq_some hclear
  have hmem : aio.pipefd ∈ cleared.rfds := hkeep _ hfd.symm h.pipe_mem
  have hset : {other | aio'.Watched other} = {other | cleared.Watched other} := by
    ext other
    exact hwatched other
  refine ⟨⟨?_, ?_, ?_⟩, hpipe.trans hpipe'⟩
  · rw [hpipe, hpipe', hrfds]
    exact hmem
  · rw [hpipe, hpipe', hwfds]
    exact fun hbad => h.pipe_notMem (hsub hbad)
  · rw [hset, hhigh]
    have hback : ∀ other, cleared.Watched other → other ≤ cleared.highfds := by
      intro other hother
      rw [hhigh']
      exact h.high.2 (watched_clear hclear hother)
    split_ifs with hgone
    · -- the search finds the pipe, if nothing else
      have hsome : ∃ i < cleared.highfds + 1, cleared.Watched i :=
        ⟨aio.pipefd, Nat.lt_succ_of_le (hback _ (.inl hmem)), .inl hmem⟩
      obtain ⟨hfound, hmax⟩ := isGreatest_foldl cleared.pipefd _ hsome
      exact ⟨hfound.2, fun other hother =>
        hmax ⟨Nat.lt_succ_of_le (hback other hother), hother⟩⟩
    · refine ⟨?_, hback⟩
      by_cases heq : fd = cleared.highfds
      · rw [Set.mem_ofPred_eq, ← heq]
        by_contra hnot
        exact hgone ⟨hnot, heq⟩
      · rw [Set.mem_ofPred_eq, watched_clear_of_ne hclear (Ne.symm heq), hhigh']
        exact h.high.1

/-! ## What `wait_ready` reports -/

/-- The loop of `wait_ready` reports the descriptors that `select` has left, in order. -/
theorem report_eq (aio : SelectAIO) (trfds twfds : Finset Fd) :
    aio.report trfds twfds =
      (((List.range (aio.highfds + 1)).filter fun fd => fd ∈ trfds ∧ fd ≠ aio.pipefd),
        ((List.range (aio.highfds + 1)).filter fun fd =>
          fd ∈ twfds ∧ ¬ (fd = aio.pipefd ∧ fd ∈ trfds))) := by
  rw [report]
  generalize aio.highfds + 1 = n
  induction n with
  | zero => rfl
  | succ n ih =>
      rw [List.range_succ, List.foldl_append, ih, List.foldl_cons, List.foldl_nil,
        List.filter_append, List.filter_append]
      by_cases hpipe : n = aio.pipefd
      · by_cases hread : n ∈ trfds
        · simp [hpipe, hpipe ▸ hread]
        · by_cases hwrite : n ∈ twfds
          · simp [hread, hwrite]
          · simp [hread, hwrite]
      · by_cases hread : n ∈ trfds <;> by_cases hwrite : n ∈ twfds <;>
          simp [hpipe, hread, hwrite]

/-- `wait_ready` reports the descriptors that were watched when it made its copies and that
`select` finds ready, except for the pipe. -/
theorem Tracked.mem_waitReady {aio : SelectAIO} (h : aio.Tracked) (canRead canWrite : Fd → Bool)
    (fd : Fd) :
    (fd ∈ (aio.waitReady (some (canRead, canWrite))).1 ↔
      fd ∈ aio.rfds ∧ canRead fd = true ∧ fd ≠ aio.pipefd) ∧
    (fd ∈ (aio.waitReady (some (canRead, canWrite))).2 ↔
      fd ∈ aio.wfds ∧ canWrite fd = true) := by
  have hle : aio.Watched fd → fd < aio.highfds + 1 := fun hwatched =>
    Nat.lt_succ_of_le (h.high.2 hwatched)
  rw [waitReady, report_eq]
  simp only [select, List.mem_filter, List.mem_range, decide_eq_true_eq, Finset.mem_filter]
  constructor
  · constructor
    · rintro ⟨-, ⟨hmem, -, hready⟩, hne⟩
      exact ⟨hmem, hready, hne⟩
    · rintro ⟨hmem, hready, hne⟩
      exact ⟨hle (.inl hmem), ⟨hmem, hle (.inl hmem), hready⟩, hne⟩
  · constructor
    · rintro ⟨-, ⟨hmem, -, hready⟩, -⟩
      exact ⟨hmem, hready⟩
    · rintro ⟨hmem, hready⟩
      refine ⟨hle (.inr hmem), ⟨hmem, hle (.inr hmem), hready⟩, ?_⟩
      rintro ⟨rfl, -⟩
      exact h.pipe_notMem hmem

/-- What `wait_ready` returns is one of the reports that the poll thread reckons with. -/
theorem Tracked.reports_waitReady {aio : SelectAIO} (h : aio.Tracked)
    (selected : Option ((Fd → Bool) × (Fd → Bool))) :
    PollMgr.Reports aio.pipefd aio.highfds aio.rfds (aio.waitReady selected).1 ∧
      PollMgr.Reports aio.pipefd aio.highfds aio.wfds (aio.waitReady selected).2 := by
  cases selected with
  | none => exact ⟨⟨.nil, by simp [waitReady]⟩, ⟨.nil, by simp [waitReady]⟩⟩
  | some ready =>
      obtain ⟨canRead, canWrite⟩ := ready
      have hsorted : ∀ p : ℕ → Bool,
          ((List.range (aio.highfds + 1)).filter p).Pairwise (· < ·) :=
        fun p => List.pairwise_lt_range.filter p
      refine ⟨⟨?_, fun fd hfd => ?_⟩, ⟨?_, fun fd hfd => ?_⟩⟩
      · rw [waitReady, report_eq]
        exact hsorted _
      · obtain ⟨hmem, -, hne⟩ := (h.mem_waitReady canRead canWrite fd).1.mp hfd
        exact ⟨hmem, h.high.2 (.inl hmem), hne⟩
      · rw [waitReady, report_eq]
        exact hsorted _
      · obtain ⟨hmem, -⟩ := (h.mem_waitReady canRead canWrite fd).2.mp hfd
        exact ⟨hmem, h.high.2 (.inr hmem), fun heq => h.pipe_notMem (heq ▸ hmem)⟩

/-! ## Sequences of calls -/

/-- One call. -/
def call (aio : SelectAIO) : AioCall → Option SelectAIO
  | .watchFd fd flag => some (aio.watchFd fd flag)
  | .unwatchFd fd flag => (aio.unwatchFd fd flag).map Prod.fst

/-- Calls on a new `SelectAIO`, whose pipe has this read end. -/
def run (pipefd : Fd) (calls : List AioCall) : Option SelectAIO :=
  calls.foldlM call (new pipefd)

theorem run_append_singleton {pipefd : Fd} {calls : List AioCall} {aio : SelectAIO}
    (hrun : run pipefd calls = some aio) (c : AioCall) :
    run pipefd (calls ++ [c]) = aio.call c := by
  rw [run, List.foldlM_append, ← run, hrun]
  simp

/-- The flags that name something pass the assertion of `unwatch_fd`. -/
theorem exists_unwatchFd (aio : SelectAIO) (fd : Fd) {flag : PollFlag}
    (hnamed : flag.named = true) : ∃ aio' last, aio.unwatchFd fd flag = some (aio', last) := by
  cases flag with
  | rdonly | wronly | rdwr => exact ⟨_, _, rfl⟩
  | none | mask => cases hnamed

theorem tracked_run {pipefd : Fd} {calls : List AioCall}
    (hcalls : ∀ c ∈ calls, c.flag.named = true ∧ c.fd ≠ pipefd) :
    ∃ aio, run pipefd calls = some aio ∧ aio.Tracked ∧ aio.pipefd = pipefd := by
  induction calls using List.reverseRecOn with
  | nil => exact ⟨_, rfl, tracked_new pipefd, rfl⟩
  | append_singleton calls c ih =>
      obtain ⟨aio, hrun, htracked, hpipe⟩ := ih fun c hc => hcalls c (List.mem_append_left _ hc)
      obtain ⟨hnamed, hfd⟩ := hcalls c (by simp)
      rw [← hpipe] at hfd
      rw [run_append_singleton hrun]
      cases c with
      | watchFd fd flag =>
          exact ⟨_, rfl, htracked.watchFd hfd flag, (pipefd_watchFd ..).trans hpipe⟩
      | unwatchFd fd flag =>
          have hflag : flag.named = true := hnamed
          obtain ⟨aio', last, hunwatch⟩ := exists_unwatchFd aio fd hflag
          obtain ⟨htracked', hpipe'⟩ := htracked.unwatchFd hfd hunwatch
          exact ⟨aio', by simp [call, hunwatch], htracked', hpipe'.trans hpipe⟩

end SelectAIO

/-! ## The callback table -/

/-- The descriptor that a thread is removing. -/
def Remover.fd : Remover → Option Fd
  | .idle => none
  | .waiting fd _ | .woken fd _ _ => some fd

@[simp]
theorem Remover.fd_rewatch (fd : Fd) (remover : Remover) :
    (remover.rewatch fd).fd = remover.fd := by
  cases remover <;> rfl

@[simp]
theorem Remover.fd_broadcast (remover : Remover) : remover.broadcast.fd = remover.fd := by
  cases remover <;> rfl

namespace PollMgr

variable {Thread : Type u}

/-- No thread is inside `block_remove_fd` for this descriptor. -/
def Settled (p : PollMgr Thread) (fd : Fd) : Prop := ∀ t, (p.removers t).fd ≠ some fd

/-- `add_callback` is not called for a descriptor while `block_remove_fd` has not completed
for it. -/
def afterRemoval (state : PollMgr Thread × List (Event Thread)) : Label Thread → Prop
  | .addCallback fd _ _ => state.1.Settled fd
  | _ => True

instance [Fintype Thread] (p : PollMgr Thread) (fd : Fd) : Decidable (p.Settled fd) :=
  inferInstanceAs (Decidable (∀ t, (p.removers t).fd ≠ some fd))

instance [Fintype Thread] (state : PollMgr Thread × List (Event Thread)) :
    (label : Label Thread) → Decidable (afterRemoval state label)
  | .addCallback fd _ _ => inferInstanceAs (Decidable (state.1.Settled fd))
  | .delCallback _ _ | .blockRemoveFd _ _ | .wake _ | .resume _ | .handOver | .copySets
  | .ready _ _ | .test | .load | .call | .callbackReturns => .isTrue trivial

/-- A descriptor that is being removed is not watched; one that is watched has a callback;
and one that has a callback is watched, or is being removed. -/
structure Listed (p : PollMgr Thread) : Prop where
  removing : ∀ t fd, (p.removers t).fd = some fd → ¬ p.aio.Watched fd
  listed : ∀ fd, fd ≠ p.aio.pipefd → p.aio.Watched fd → p.callbacks fd ≠ none
  watched : ∀ fd, p.callbacks fd ≠ none → p.aio.Watched fd ∨ ∃ t, (p.removers t).fd = some fd

theorem listed_new (pipefd : Fd) : (new pipefd : PollMgr Thread).Listed where
  removing t fd hfd := by cases hfd
  listed fd hne hwatched := by
    refine absurd ?_ hne
    simpa [new, SelectAIO.new, SelectAIO.Watched] using hwatched
  watched fd hlisted := absurd rfl hlisted

/-- The poll thread moves on. -/
theorem Listed.congr {p p' : PollMgr Thread} (h : p.Listed) (haio : p'.aio = p.aio)
    (hcallbacks : p'.callbacks = p.callbacks)
    (hremovers : ∀ t, (p'.removers t).fd = (p.removers t).fd) : p'.Listed where
  removing t fd hfd := by
    rw [haio]
    exact h.removing t fd (hremovers t ▸ hfd)
  listed fd hne hwatched := by
    rw [haio] at hne hwatched
    rw [hcallbacks]
    exact h.listed fd hne hwatched
  watched fd hlisted := by
    rw [hcallbacks] at hlisted
    rw [haio]
    refine (h.watched fd hlisted).imp_right fun ⟨t, ht⟩ => ⟨t, ?_⟩
    rw [hremovers t, ht]

/-- `add_callback` leaves a callback for its descriptor. -/
theorem Listed.added {p p' : PollMgr Thread} (h : p.Listed) {fd : Fd} {flag : PollFlag}
    (hsettled : p.Settled fd) (haio : p'.aio = p.aio.watchFd fd flag)
    (hself : p'.callbacks fd ≠ none)
    (hothers : ∀ other, other ≠ fd → p'.callbacks other = p.callbacks other)
    (hremovers : ∀ t, (p'.removers t).fd = (p.removers t).fd) : p'.Listed where
  removing t other hfd := by
    have hremoving : (p.removers t).fd = some other := hremovers t ▸ hfd
    rw [haio, SelectAIO.watched_watchFd_iff]
    rintro (rfl | hwatched)
    · exact hsettled t hremoving
    · exact h.removing t other hremoving hwatched
  listed other hne hwatched := by
    rw [haio] at hne hwatched
    by_cases heq : other = fd
    · rw [heq]
      exact hself
    · rw [ SelectAIO.pipefd_watchFd] at hne
      rw [hothers other heq]
      exact h.listed other hne (( SelectAIO.watched_watchFd_iff.mp hwatched).resolve_left heq)
  watched other hlisted := by
    rw [haio, SelectAIO.watched_watchFd_iff]
    by_cases heq : other = fd
    · exact .inl (.inl heq)
    · rw [hothers other heq] at hlisted
      refine (h.watched other hlisted).imp .inr fun ⟨t, ht⟩ => ⟨t, ?_⟩
      rw [hremovers t, ht]

/-- Every step keeps the table. -/
theorem Listed.step [DecidableEq Thread] {p p' : PollMgr Thread} {label : Label Thread}
    {events log : List (Event Thread)} (h : p.Listed) (hguard : afterRemoval (p, log) label)
    (hsection : p.Section label p' events) : p'.Listed := by
  cases hsection with
  | @registered fd flag ch =>
      refine h.added hguard rfl (by simp) (fun other hne => ?_) fun t => Remover.fd_rewatch ..
      exact Function.update_of_ne hne ..
  | rewatched hlisted =>
      exact h.added hguard rfl hlisted (fun _ _ => rfl) fun t => Remover.fd_rewatch ..
  | @deleted fd flag aio last hunwatch =>
      obtain ⟨_, hclear, -, -, hpipe, -, -, hlast⟩ := SelectAIO.unwatchFd_eq_some hunwatch
      obtain ⟨hpipe', -⟩ := SelectAIO.clear_eq_some hclear
      have hothers : ∀ other, other ≠ fd → (if last then Function.update p.callbacks fd none
          else p.callbacks) other = p.callbacks other := by
        intro other hne
        split_ifs
        · exact Function.update_of_ne hne ..
        · rfl
      refine ⟨fun t other hfd hwatched => ?_, fun other hne hwatched => ?_,
        fun other hlisted => ?_⟩
      · exact h.removing t other hfd ( SelectAIO.watched_unwatchFd hunwatch hwatched)
      · have hbefore := h.listed other (hpipe.trans hpipe' ▸ hne)
          ( SelectAIO.watched_unwatchFd hunwatch hwatched)
        by_cases heq : other = fd
        · subst heq
          have hstill : ¬ last = true := fun hgone => hlast.mp hgone hwatched
          simpa only [if_neg hstill] using hbefore
        · simpa only [hothers other heq] using hbefore
      · by_cases heq : other = fd
        · subst heq
          left
          by_contra hgone
          exact hlisted (by simp [hlast.mpr hgone])
        · simp only [hothers other heq] at hlisted
          rw [ SelectAIO.watched_unwatchFd_of_ne hunwatch heq]
          exact h.watched other hlisted
  | @removing t fd aio last hunwatch hidle =>
      obtain ⟨_, hclear, -, -, hpipe, -⟩ := SelectAIO.unwatchFd_eq_some hunwatch
      obtain ⟨hpipe', -⟩ := SelectAIO.clear_eq_some hclear
      refine ⟨fun u other hfd => ?_, fun other hne hwatched => ?_, fun other hlisted => ?_⟩
      · by_cases hu : u = t
        · subst hu
          obtain rfl : fd = other := by simpa [Remover.fd] using hfd
          exact SelectAIO.not_watched_unwatchFd_rdwr hunwatch
        · simp only [Function.update_of_ne hu] at hfd
          exact fun hwatched =>
            h.removing u other hfd ( SelectAIO.watched_unwatchFd hunwatch hwatched)
      · exact h.listed other (hpipe.trans hpipe' ▸ hne)
          ( SelectAIO.watched_unwatchFd hunwatch hwatched)
      · by_cases heq : other = fd
        · exact .inr ⟨t, by simp [heq, Remover.fd]⟩
        · rw [ SelectAIO.watched_unwatchFd_of_ne hunwatch heq]
          refine (h.watched other hlisted).imp_right fun ⟨u, hu⟩ => ⟨u, ?_⟩
          have hne : u ≠ t := by
            rintro rfl
            rw [hidle] at hu
            cases hu
          simpa only [Function.update_of_ne hne] using hu
  | @woken t fd rewatched hremover =>
      refine h.congr rfl rfl fun u => ?_
      by_cases hu : u = t
      · subst hu
        simp [hremover, Remover.fd]
      · simp only [Function.update_of_ne hu]
  | @returned t fd signalled rewatched hremover =>
      have hgone : ¬ p.aio.Watched fd := h.removing t fd (by rw [hremover]; rfl)
      refine ⟨fun u other hfd => ?_, fun other hne hwatched => ?_, fun other hlisted => ?_⟩
      · by_cases hu : u = t
        · subst hu
          simp [removed, Remover.fd] at hfd
        · simp only [removed, Function.update_of_ne hu] at hfd
          exact h.removing u other hfd
      · have hother : other ≠ fd := fun heq => hgone (heq ▸ hwatched)
        simp only [removed, Function.update_of_ne hother]
        exact h.listed other hne hwatched
      · have hother : other ≠ fd := by
          rintro rfl
          simp [removed] at hlisted
        simp only [removed, Function.update_of_ne hother] at hlisted
        refine (h.watched other hlisted).imp_right fun ⟨u, hu⟩ => ⟨u, ?_⟩
        have hne : u ≠ t := by
          rintro rfl
          rw [hremover] at hu
          exact hother (Option.some.inj hu).symm
        simpa only [removed, Function.update_of_ne hne] using hu
  | handedOver =>
      rw [handOver]
      split_ifs
      · exact h.congr rfl rfl fun t => Remover.fd_broadcast _
      · exact h.congr rfl rfl fun t => rfl
  | copied | reported | skipped | found | loaded | invoked | cameBack =>
      exact h.congr rfl rfl fun t => rfl

/-- In every run in which nobody adds a callback for a descriptor while it is being removed,
the table is in order. -/
theorem listed_of_run [DecidableEq Thread] {pipefd : Fd} {labels : List (Label Thread)}
    {reached : PollMgr Thread × List (Event Thread)}
    (hrun : (system Thread pipefd).Run afterRemoval labels reached) :
    reached.1.Listed ∧ reached.1.aio.pipefd = pipefd := by
  refine hrun.invariant (fun state => state.1.Listed ∧ state.1.aio.pipefd = pipefd)
    ⟨listed_new pipefd, rfl⟩ ?_
  rintro labels ⟨p, log⟩ label ⟨p', log'⟩ _ ⟨h, hpipe⟩ hguard hstep
  obtain ⟨⟨q, events⟩, hq, heq⟩ := Option.map_eq_some_iff.mp hstep
  obtain ⟨rfl, rfl⟩ := Prod.mk.inj heq
  have hsection := section_of_step hq
  refine ⟨h.step hguard hsection, ?_⟩
  rw [← hpipe]
  cases hsection with
  | registered | rewatched => exact SelectAIO.pipefd_watchFd ..
  | deleted hunwatch | removing hunwatch =>
      obtain ⟨_, hclear, -, -, hsame, -⟩ := SelectAIO.unwatchFd_eq_some hunwatch
      exact hsame.trans ( SelectAIO.clear_eq_some hclear).1
  | handedOver =>
      rw [handOver]
      split_ifs <;> rfl
  | _ => rfl

end PollMgr

/-! ## The bookkeeping -/

/-- The bookkeeping of `SelectAIO` and of `PollMgr`. After any calls with the flags that name
something, for descriptors other than the pipe, `highfds_` is the largest descriptor in
the two sets, so that `wait_ready` reports those of the sets that `select` finds ready and
no others, which is what the poll thread reckons with. And in every run of the poll manager
in which `add_callback` waits for a removal of the descriptor to complete, a descriptor that
is not being removed has a callback exactly when it is watched for reading or writing. -/
theorem bookkeeping {Thread : Type u} [DecidableEq Thread] (pipefd : Fd) :
    (∀ calls : List AioCall, (∀ c ∈ calls, c.flag.named = true ∧ c.fd ≠ pipefd) →
      ∃ aio, SelectAIO.run pipefd calls = some aio ∧
        IsGreatest {fd | fd ∈ aio.rfds ∨ fd ∈ aio.wfds} aio.highfds ∧ pipefd ≤ aio.highfds ∧
        (∀ canRead canWrite fd,
          (fd ∈ (aio.waitReady (some (canRead, canWrite))).1 ↔
            fd ∈ aio.rfds ∧ canRead fd = true ∧ fd ≠ pipefd) ∧
          (fd ∈ (aio.waitReady (some (canRead, canWrite))).2 ↔
            fd ∈ aio.wfds ∧ canWrite fd = true)) ∧
        ∀ selected, PollMgr.Reports pipefd aio.highfds aio.rfds (aio.waitReady selected).1 ∧
          PollMgr.Reports pipefd aio.highfds aio.wfds (aio.waitReady selected).2) ∧
    ∀ (labels : List (PollMgr.Label Thread)) (reached : PollMgr Thread × List (Event Thread)),
      (PollMgr.system Thread pipefd).Run PollMgr.afterRemoval labels reached →
      ∀ fd, fd ≠ pipefd → reached.1.Settled fd →
        (reached.1.callbacks fd ≠ none ↔ fd ∈ reached.1.aio.rfds ∨ fd ∈ reached.1.aio.wfds) := by
  refine ⟨fun calls hcalls => ?_, fun labels reached hrun fd hne hsettled => ?_⟩
  · obtain ⟨aio, hrun, htracked, rfl⟩ := SelectAIO.tracked_run hcalls
    exact ⟨aio, hrun, htracked.high, htracked.high.2 (.inl htracked.pipe_mem),
      htracked.mem_waitReady, htracked.reports_waitReady⟩
  · obtain ⟨h, rfl⟩ := PollMgr.listed_of_run hrun
    refine ⟨fun hlisted => (h.watched fd hlisted).resolve_right ?_, h.listed fd hne⟩
    rintro ⟨t, ht⟩
    exact hsettled t ht

/-- The largest descriptor is unwatched bit by bit. -/
def narrowingCalls : List AioCall :=
  [.watchFd 7 .rdwr, .watchFd 5 .rdonly, .unwatchFd 7 .wronly, .unwatchFd 7 .rdonly]

/-- A descriptor is added, loses one of its interests, is removed and added again. -/
def readdingRun : List (PollMgr.Label Unit) :=
  [.addCallback 5 .rdwr 1, .delCallback 5 .wronly, .blockRemoveFd () 5, .handOver, .resume (),
    .addCallback 5 .wronly 2]

theorem bookkeeping_narrowing :
    (∃ aio, SelectAIO.run 3 narrowingCalls = some aio ∧
      IsGreatest {fd | fd ∈ aio.rfds ∨ fd ∈ aio.wfds} aio.highfds) ∧
    ∃ reached, (PollMgr.system Unit 3).Run PollMgr.afterRemoval readdingRun reached ∧
      reached.1.callbacks 5 = some ⟨2, 1⟩ ∧
      (5 ∈ reached.1.aio.rfds ∨ 5 ∈ reached.1.aio.wfds) := by
  obtain ⟨hselect, htable⟩ := @bookkeeping Unit _ 3
  obtain ⟨aio, hrun, hhigh, -⟩ := hselect narrowingCalls (by decide)
  refine ⟨⟨aio, hrun, hhigh⟩, ?_⟩
  have hexec : ((PollMgr.system Unit 3).execIf
      (fun state label => decide (PollMgr.afterRemoval state label)) (PollMgr.system Unit 3).init
      readdingRun).any (fun reached =>
        decide (reached.1.callbacks 5 = some ⟨2, 1⟩ ∧ reached.1.Settled 5)) = true := by
    decide +kernel
  obtain ⟨reached, hpolled, htest⟩ := System.exists_run_of_execIf hexec
  obtain ⟨hlisted, hsettled⟩ := of_decide_eq_true htest
  have hpolled := hpolled.mono fun _ _ hallowed => of_decide_eq_true hallowed
  refine ⟨reached, hpolled, hlisted,
    (htable readdingRun reached hpolled 5 (by decide) hsettled).mp ?_⟩
  rw [hlisted]
  exact Option.some_ne_none _

end YfsLab.Poll
