/-
# What the return of `block_remove_fd` guarantees

`block_remove_fd` waits until the poll thread has been at the top of its loop, so that
it has forgotten a descriptor that is not watched any more. The wait has no loop
around it: a remover that wakes up without having been signalled returns while the
poll thread may still be about to call what it has loaded. The same happens when the
descriptor has been watched again in the meantime. Apart from these two cases no
registration that was there before the return is called afterwards.
-/

import YfsLab.Foundations.History
import YfsLab.Poll.PollMgr

namespace YfsLab.Poll

open History SelectAIO Transition

universe u

/-! ## What the poll thread still has in hand -/

/-- The poll thread may come to call a callback for this descriptor before it asks
`aio_` again. -/
def Loop.Mentions (fd : Fd) : Loop → Prop
  | .top | .unready => False
  | .selecting rfds wfds _ => fd ∈ rfds ∨ fd ∈ wfds
  | .serving todo | .running _ _ _ todo => fd ∈ todo.map Prod.fst
  | .tested fd' _ todo | .calling fd' _ _ todo => fd = fd' ∨ fd ∈ todo.map Prod.fst

/-- The descriptor of the call that the poll thread has loaded. -/
def Loop.callingFd : Loop → Option Fd
  | .calling fd _ _ _ => some fd
  | _ => none

theorem Loop.mentions_of_calling {loop : Loop} {fd : Fd} (h : loop.callingFd = some fd) :
    loop.Mentions fd := by
  cases loop with
  | calling fd' => exact .inl (Option.some.inj h).symm
  | _ => cases h

/-- A remover that has not been told about a new watch is for another descriptor. -/
theorem Remover.of_rewatch_waiting {remover : Remover} {fd fd' : Fd}
    (h : remover.rewatch fd = .waiting fd' false) : remover = .waiting fd' false ∧ fd' ≠ fd := by
  cases remover with
  | waiting other rewatched =>
      obtain ⟨rfl, hfresh⟩ := Remover.waiting.inj h
      obtain ⟨rfl, hne⟩ := Bool.or_eq_false_iff.mp hfresh
      exact ⟨rfl, by simpa using hne⟩
  | _ => cases h

theorem Remover.of_rewatch_woken {remover : Remover} {fd fd' : Fd} {signalled : Bool}
    (h : remover.rewatch fd = .woken fd' signalled false) :
    remover = .woken fd' signalled false ∧ fd' ≠ fd := by
  cases remover with
  | woken other signalled' rewatched =>
      obtain ⟨rfl, rfl, hfresh⟩ := Remover.woken.inj h
      obtain ⟨rfl, hne⟩ := Bool.or_eq_false_iff.mp hfresh
      exact ⟨rfl, by simpa using hne⟩
  | _ => cases h

/-- A broadcast leaves nobody blocked. -/
theorem Remover.of_broadcast {remover : Remover} {fd : Fd} {signalled rewatched : Bool}
    (h : remover.broadcast = .woken fd signalled rewatched) :
    remover = .waiting fd rewatched ∨ remover = .woken fd signalled rewatched := by
  cases remover with
  | waiting => simp_all [Remover.broadcast]
  | _ => exact .inr h

namespace PollMgr

section Steps

variable {Thread : Type u}

/-- The return of this remover is not covered by the poll thread's signal, because
there was none, or because the descriptor has been watched again, and the poll thread
is about to make a call for the descriptor. -/
def undermined (p : PollMgr Thread) (t : Thread) : Bool :=
  match p.removers t with
  | .woken fd signalled rewatched =>
      (!signalled || rewatched) && p.loop.callingFd == some fd
  | _ => false

/-- No remover returns undermined. -/
def coveredReturn (state : PollMgr Thread × List (Event Thread)) : Label Thread → Bool
  | .resume t => !state.1.undermined t
  | _ => true

/-- A descriptor that is being removed is not watched, and the poll thread has
forgotten it when it has signalled the remover. -/
structure Forgotten (p : PollMgr Thread) : Prop where
  waiting : ∀ t fd, p.removers t = .waiting fd false → ¬ p.aio.Watched fd
  woken : ∀ t fd signalled, p.removers t = .woken fd signalled false → ¬ p.aio.Watched fd
  signalled : ∀ t fd, p.removers t = .woken fd true false → ¬ p.loop.Mentions fd

theorem forgotten_new (pipefd : Fd) : (new pipefd : PollMgr Thread).Forgotten where
  waiting := fun _ _ h => by cases h
  woken := fun _ _ _ h => by cases h
  signalled := fun _ _ h => by cases h

/-- Steps of the poll thread after which it has no more in hand. -/
theorem Forgotten.advance {p : PollMgr Thread} (h : p.Forgotten) {loop : Loop}
    (hmentions : ∀ fd, loop.Mentions fd → p.loop.Mentions fd) :
    { p with loop := loop }.Forgotten :=
  ⟨h.waiting, h.woken, fun t fd hwoken hmention => h.signalled t fd hwoken (hmentions fd hmention)⟩

/-- Steps after which no more descriptors are watched. -/
theorem Forgotten.unwatch {p : PollMgr Thread} (h : p.Forgotten) {aio : SelectAIO}
    (hwatched : ∀ fd, aio.Watched fd → p.aio.Watched fd) (callbacks : Fd → Option Registration)
    (pendingChange : Bool) : { p with aio, callbacks, pendingChange }.Forgotten :=
  ⟨fun t fd hwaiting hwatch => h.waiting t fd hwaiting (hwatched fd hwatch),
    fun t fd signalled hwoken hwatch => h.woken t fd signalled hwoken (hwatched fd hwatch),
    h.signalled⟩

/-- Watching a descriptor, of which its removers take notice. -/
theorem Forgotten.watched {p : PollMgr Thread} (h : p.Forgotten) (fd : Fd) (flag : PollFlag) :
    (p.watched fd flag).Forgotten := by
  refine ⟨fun t other hwaiting hwatch => ?_, fun t other signalled hwoken hwatch => ?_,
    fun t other hwoken => ?_⟩
  · obtain ⟨hwaiting, hne⟩ := Remover.of_rewatch_waiting hwaiting
    exact h.waiting t other hwaiting ((watched_watchFd hwatch).resolve_left hne)
  · obtain ⟨hwoken, hne⟩ := Remover.of_rewatch_woken hwoken
    exact h.woken t other signalled hwoken ((watched_watchFd hwatch).resolve_left hne)
  · obtain ⟨hwoken, -⟩ := Remover.of_rewatch_woken hwoken
    exact h.signalled t other hwoken

/-- The signal at the top of the loop. -/
theorem Forgotten.handOver {p : PollMgr Thread} (h : p.Forgotten) : p.handOver.Forgotten := by
  rw [PollMgr.handOver]
  split_ifs
  · refine ⟨fun t fd hwaiting => ?_, fun t fd signalled hwoken => ?_,
      fun _ _ _ hmention => hmention⟩
    · simp only at hwaiting
      cases hremover : p.removers t <;> rw [hremover] at hwaiting <;> cases hwaiting
    · rcases Remover.of_broadcast hwoken with hremover | hremover
      · exact h.waiting t fd hremover
      · exact h.woken t fd signalled hremover
  · exact h.advance fun _ hmention => hmention.elim

end Steps

variable {Thread : Type u} [DecidableEq Thread]

/-- A thread that is not a remover any more, or one that is blocked or has been woken up
without a signal, for a descriptor that is not watched. -/
theorem Forgotten.update {p : PollMgr Thread} (h : p.Forgotten) (t : Thread)
    {remover : Remover}
    (hwaiting : ∀ fd, remover = .waiting fd false → ¬ p.aio.Watched fd)
    (hwoken : ∀ fd signalled, remover = .woken fd signalled false →
      signalled = false ∧ ¬ p.aio.Watched fd) :
    { p with removers := Function.update p.removers t remover }.Forgotten := by
  have hcases : ∀ t' r, Function.update p.removers t remover t' = r →
      (t' = t ∧ remover = r) ∨ p.removers t' = r := by
    intro t' r hremover
    by_cases ht : t' = t
    · subst ht
      exact .inl ⟨rfl, by simpa using hremover⟩
    · exact .inr (by simpa [ht] using hremover)
  refine ⟨fun t' fd hremover => ?_, fun t' fd signalled hremover => ?_, fun t' fd hremover => ?_⟩
  · rcases hcases t' _ hremover with ⟨-, hnew⟩ | hold
    · exact hwaiting fd hnew
    · exact h.waiting t' fd hold
  · rcases hcases t' _ hremover with ⟨-, hnew⟩ | hold
    · exact (hwoken fd signalled hnew).2
    · exact h.woken t' fd signalled hold
  · rcases hcases t' _ hremover with ⟨-, hnew⟩ | hold
    · exact absurd (hwoken fd true hnew).1 (by simp)
    · exact h.signalled t' fd hold

/-- Every step keeps removers and poll thread in agreement. -/
theorem Forgotten.step {p p' : PollMgr Thread} (h : p.Forgotten) {label : Label Thread}
    {events : List (Event Thread)} (hstep : p.step label = some (p', events)) :
    p'.Forgotten := by
  cases section_of_step hstep with
  | @registered fd flag =>
      obtain ⟨hwaiting, hwoken, hsignalled⟩ := h.watched fd flag
      exact ⟨hwaiting, hwoken, hsignalled⟩
  | @rewatched fd flag => exact h.watched fd flag
  | deleted hunwatch => exact h.unwatch (fun _ hwatch => watched_unwatchFd hunwatch hwatch) _ _
  | @removing t _ _ _ hunwatch =>
      have hafter := h.unwatch (fun _ hwatch => watched_unwatchFd hunwatch hwatch) p.callbacks true
      refine hafter.update t (fun other heq => ?_) fun _ _ heq => by cases heq
      obtain ⟨rfl, -⟩ := Remover.waiting.inj heq
      exact not_watched_unwatchFd_rdwr hunwatch
  | @woken t fd _ hremover =>
      refine h.update t (fun _ heq => by cases heq) fun other signalled heq => ?_
      obtain ⟨rfl, rfl, rfl⟩ := Remover.woken.inj heq
      exact ⟨rfl, h.waiting t fd hremover⟩
  | @returned t fd =>
      have hafter := h.unwatch (fun _ hwatch => hwatch) (Function.update p.callbacks fd none)
        p.pendingChange
      exact hafter.update t (fun _ heq => by cases heq) fun _ _ heq => by cases heq
  | handedOver => exact h.handOver
  | copied => exact ⟨h.waiting, h.woken, fun t fd hwoken => h.woken t fd true hwoken⟩
  | reported hloop hreadable hwritable =>
      refine h.advance fun fd hmention => ?_
      rw [hloop]
      simp only [Loop.Mentions, List.map_append, List.map_map, List.mem_append] at hmention
      rcases hmention with hmem | hmem
      · exact .inl (hreadable.2 fd (by simpa using hmem)).1
      · exact .inr (hwritable.2 fd (by simpa using hmem)).1
  | skipped hloop =>
      refine h.advance fun _ hmention => ?_
      rw [hloop]
      exact List.mem_cons_of_mem _ hmention
  | found hloop =>
      refine h.advance fun _ hmention => ?_
      rw [hloop]
      exact List.mem_cons.mpr hmention
  | invoked hloop =>
      refine h.advance fun _ hmention => ?_
      rw [hloop]
      exact .inr hmention
  | loaded hloop | cameBack hloop =>
      refine h.advance fun _ hmention => ?_
      rw [hloop]
      exact hmention

/-! ## Which registrations are called -/

/-- The registration is newer than every return of `block_remove_fd` for its
descriptor. -/
def AddedSince (log : List (Event Thread)) (fd : Fd) (reg : Registration) : Prop :=
  ∀ before after t, log = before ++ .returned t fd :: after → .added fd reg ∈ after

omit [DecidableEq Thread] in
theorem addedSince_added (log : List (Event Thread)) (fd : Fd) (reg : Registration) :
    AddedSince (log ++ [.added fd reg]) fd reg := by
  intro before after t hsplit
  rcases concat_eq_append_cons.mp hsplit with ⟨-, heq, -⟩ | ⟨rest, rfl, -⟩
  · cases heq
  · simp

omit [DecidableEq Thread] in
theorem AddedSince.concat {log : List (Event Thread)} {fd : Fd} {reg : Registration}
    (h : AddedSince log fd reg) {event : Event Thread}
    (hevent : ∀ t, event ≠ .returned t fd) : AddedSince (log ++ [event]) fd reg := by
  intro before after t hsplit
  rcases concat_eq_append_cons.mp hsplit with ⟨-, heq, -⟩ | ⟨rest, rfl, hlog⟩
  · exact absurd heq.symm (hevent t)
  · exact List.mem_append_left _ (h before rest t hlog)

/-- What a step does to the table, to the call that is loaded, and to the history. -/
inductive Effect (p p' : PollMgr Thread) : Label Thread → List (Event Thread) → Prop
  | quiet (label : Label Thread) (serial_eq : p'.serial = p.serial)
      (callbacks : ∀ fd reg, p'.callbacks fd = some reg → p.callbacks fd = some reg)
      (calling : ∀ fd interest reg todo, p'.loop = .calling fd interest reg todo →
        p'.loop = p.loop ∨ p.callbacks fd = some reg) : Effect p p' label []
  | added (label : Label Thread) (fd : Fd) (reg : Registration) (serial : reg.serial = p.serial)
      (serial_eq : p'.serial = p.serial + 1)
      (callbacks_eq : p'.callbacks = Function.update p.callbacks fd (some reg))
      (loop_eq : p'.loop = p.loop) : Effect p p' label [.added fd reg]
  | invoked (label : Label Thread) (fd : Fd) (interest : Interest) (reg : Registration)
      (todo : List (Fd × Interest)) (loaded : p.loop = .calling fd interest reg todo)
      (serial_eq : p'.serial = p.serial) (callbacks_eq : p'.callbacks = p.callbacks)
      (loop_eq : p'.loop = .running fd interest reg todo) :
      Effect p p' label [.invoked fd interest reg]
  | returned (t : Thread) (fd : Fd) (signalled rewatched : Bool)
      (remover : p.removers t = .woken fd signalled rewatched) (serial_eq : p'.serial = p.serial)
      (callbacks_eq : p'.callbacks = Function.update p.callbacks fd none)
      (loop_eq : p'.loop = p.loop) : Effect p p' (.resume t) [.returned t fd]

omit [DecidableEq Thread] in
/-- A step that leaves the table alone and loads nothing. -/
theorem Effect.advance {p p' : PollMgr Thread} {label : Label Thread}
    (hserial : p'.serial = p.serial) (hcallbacks : p'.callbacks = p.callbacks)
    (hcalling : p'.loop = p.loop ∨ p'.loop.callingFd = none) : Effect p p' label [] := by
  refine .quiet label hserial (fun fd reg h => hcallbacks ▸ h) fun fd interest reg todo hloop => ?_
  rcases hcalling with hsame | hnone
  · exact .inl hsame
  · rw [hloop] at hnone
    cases hnone

theorem effect_of_step {p p' : PollMgr Thread} {label : Label Thread}
    {events : List (Event Thread)} (hstep : p.step label = some (p', events)) :
    Effect p p' label events := by
  cases section_of_step hstep with
  | @registered fd => exact .added _ fd _ rfl rfl rfl rfl
  | @deleted fd =>
      refine .quiet _ rfl (fun other reg h => ?_) fun _ _ _ _ _ => .inl rfl
      simp only at h
      split_ifs at h
      · by_cases hfd : other = fd
        · rw [hfd, Function.update_self] at h
          cases h
        · rwa [Function.update_of_ne hfd] at h
      · exact h
  | rewatched | removing | woken => exact .advance rfl rfl (.inl rfl)
  | returned hremover => exact .returned _ _ _ _ hremover rfl rfl rfl
  | handedOver =>
      rw [PollMgr.handOver]
      split_ifs
      · exact .advance rfl rfl (.inr rfl)
      · exact .advance rfl rfl (.inr rfl)
  | loaded _ hlisted =>
      refine .quiet _ rfl (fun _ _ h => h) fun fd interest reg' todo hloop => .inr ?_
      obtain ⟨rfl, -, rfl, -⟩ := Loop.calling.inj hloop
      exact hlisted
  | invoked hloop => exact .invoked _ _ _ _ _ hloop rfl rfl rfl
  | copied | reported | skipped | found | cameBack => exact .advance rfl rfl (.inr rfl)

/-- The numbers of the registrations, in order. -/
def serials (log : List (Event Thread)) : List ℕ :=
  log.filterMap fun event =>
    match event with
    | .added _ reg => some reg.serial
    | _ => none

/-- Everything that is called, about to be called or in the table is newer than the
returns for its descriptor. -/
structure Current (p : PollMgr Thread) (log : List (Event Thread)) : Prop where
  callbacks : ∀ fd reg, p.callbacks fd = some reg → AddedSince log fd reg
  calling : ∀ fd interest reg todo, p.loop = .calling fd interest reg todo →
    AddedSince log fd reg
  invoked : ∀ before after fd interest reg,
    log = before ++ .invoked fd interest reg :: after → AddedSince before fd reg
  serials_eq : serials log = List.range p.serial

omit [DecidableEq Thread] in
/-- What is newer than all returns stays so while no remover returns for it. -/
theorem Current.concat {p p' : PollMgr Thread} {log : List (Event Thread)}
    (h : p.Current log) {event : Event Thread}
    (hcallbacks : ∀ fd reg, p'.callbacks fd = some reg → AddedSince (log ++ [event]) fd reg)
    (hcalling : ∀ fd interest reg todo, p'.loop = .calling fd interest reg todo →
      AddedSince (log ++ [event]) fd reg)
    (hinvoked : ∀ fd interest reg, event = .invoked fd interest reg → AddedSince log fd reg)
    (hserials : serials (log ++ [event]) = List.range p'.serial) :
    p'.Current (log ++ [event]) := by
  refine ⟨hcallbacks, hcalling, fun before after fd interest reg hsplit => ?_, hserials⟩
  rcases concat_eq_append_cons.mp hsplit with ⟨rfl, rfl, -⟩ | ⟨rest, -, hlog⟩
  · exact hinvoked fd interest reg rfl
  · exact h.invoked before rest fd interest reg hlog

omit [DecidableEq Thread] in
/-- A remover that returns covered leaves the poll thread no call for its descriptor. -/
theorem Forgotten.callingFd_ne {p : PollMgr Thread} (h : p.Forgotten) {t : Thread} {fd : Fd}
    {signalled rewatched : Bool} (hremover : p.removers t = .woken fd signalled rewatched)
    (hcovered : p.undermined t = false) : p.loop.callingFd ≠ some fd := by
  intro hcalling
  simp only [undermined, hremover, hcalling, beq_self_eq_true, Bool.and_true] at hcovered
  obtain ⟨hsignalled, rfl⟩ := Bool.or_eq_false_iff.mp hcovered
  obtain rfl : signalled = true := by simpa using hsignalled
  exact h.signalled t fd hremover (Loop.mentions_of_calling hcalling)

/-- A covered step keeps the history current. -/
theorem Current.step {p p' : PollMgr Thread} {log events : List (Event Thread)}
    (h : p.Current log) (hforgotten : p.Forgotten) {label : Label Thread}
    (hcovered : coveredReturn (p, log) label = true)
    (hstep : p.step label = some (p', events)) : p'.Current (log ++ events) := by
  cases effect_of_step hstep with
  | quiet _ hserial hcallbacks hcalling =>
      rw [List.append_nil]
      refine ⟨fun fd reg hreg => h.callbacks fd reg (hcallbacks fd reg hreg),
        fun fd interest reg todo hloop => ?_, h.invoked, by rw [hserial]; exact h.serials_eq⟩
      rcases hcalling fd interest reg todo hloop with hsame | hreg
      · exact h.calling fd interest reg todo (hsame ▸ hloop)
      · exact h.callbacks fd reg hreg
  | added _ fd reg hnumber hserial hcallbacks hloop =>
      have hevent : ∀ (other : Fd) (t : Thread), Event.added fd reg ≠ .returned t other :=
        fun _ _ heq => by cases heq
      refine h.concat (fun other reg' hreg' => ?_) (fun other interest reg' todo hcalling => ?_)
        (fun _ _ _ heq => by cases heq) ?_
      · rw [hcallbacks] at hreg'
        by_cases hfd : other = fd
        · subst hfd
          obtain rfl : reg = reg' := by simpa using hreg'
          exact addedSince_added log other reg
        · exact (h.callbacks other reg' (by simpa [hfd] using hreg')).concat (hevent other)
      · exact (h.calling other interest reg' todo (hloop ▸ hcalling)).concat (hevent other)
      · rw [hserial, List.range_succ, ← h.serials_eq, ← hnumber]
        simp [serials]
  | invoked _ fd interest reg todo hloaded hserial hcallbacks hloop =>
      have hevent : ∀ (other : Fd) (t : Thread),
          Event.invoked fd interest reg ≠ .returned t other := fun _ _ heq => by cases heq
      refine h.concat (fun other reg' hreg' => ?_) (fun other _ _ _ hcalling => ?_)
        (fun _ _ _ heq => ?_) ?_
      · exact (h.callbacks other reg' (hcallbacks ▸ hreg')).concat (hevent other)
      · rw [hloop] at hcalling
        cases hcalling
      · obtain ⟨rfl, -, rfl⟩ := Event.invoked.inj heq
        exact h.calling _ interest _ todo hloaded
      · rw [hserial, ← h.serials_eq]
        simp [serials]
  | returned t fd signalled rewatched hremover hserial hcallbacks hloop =>
      have hne := hforgotten.callingFd_ne hremover (by simpa [coveredReturn] using hcovered)
      refine h.concat (fun other reg' hreg' => ?_) (fun other interest reg' todo hcalling => ?_)
        (fun _ _ _ heq => by cases heq) ?_
      · rw [hcallbacks] at hreg'
        by_cases hfd : other = fd
        · simp [hfd] at hreg'
        · refine (h.callbacks other reg' (by simpa [hfd] using hreg')).concat fun _ heq => ?_
          exact hfd (Event.returned.inj heq).2.symm
      · rw [hloop] at hcalling
        refine (h.calling other interest reg' todo hcalling).concat fun _ heq => hne ?_
        rw [hcalling, (Event.returned.inj heq).2]
        rfl
      · rw [hserial, ← h.serials_eq]
        simp [serials]

omit [DecidableEq Thread] in
theorem current_new (pipefd : Fd) : (new pipefd : PollMgr Thread).Current [] where
  callbacks := fun _ _ h => by cases h
  calling := fun _ _ _ _ h => by cases h
  invoked := fun before _ _ _ _ h => by cases before <;> cases h
  serials_eq := rfl

theorem current_of_run {pipefd : Fd} {labels : List (Label Thread)}
    {reached : PollMgr Thread × List (Event Thread)}
    (hrun : (system Thread pipefd).Run
      (fun source label => coveredReturn source label = true) labels reached) :
    reached.1.Forgotten ∧ reached.1.Current reached.2 := by
  refine hrun.invariant (fun state => state.1.Forgotten ∧ state.1.Current state.2)
    ⟨forgotten_new pipefd, current_new pipefd⟩ ?_
  rintro _ ⟨p, log⟩ label target - ⟨hforgotten, h⟩ hcovered hstep
  obtain ⟨⟨p', events⟩, hsection, rfl⟩ := Option.map_eq_some_iff.mp hstep
  exact ⟨hforgotten.step hsection, h.step hforgotten hcovered hsection⟩

/-- The guarantee of `block_remove_fd`. In a run in which no remover returns undermined,
a registration that was there before the return of `block_remove_fd` for its
descriptor is not called after it. -/
theorem removedForGood {pipefd : Fd} {labels : List (Label Thread)}
    {reached : PollMgr Thread × List (Event Thread)}
    (hrun : (system Thread pipefd).Run
      (fun source label => coveredReturn source label = true) labels reached)
    {before after : List (Event Thread)} {t : Thread} {fd : Fd} {reg : Registration}
    (hreturned : reached.2 = before ++ .returned t fd :: after)
    (hadded : .added fd reg ∈ before) (interest : Interest) :
    .invoked fd interest reg ∉ after := by
  obtain ⟨-, hcurrent⟩ := current_of_run hrun
  intro hinvoked
  obtain ⟨between, rest, rfl⟩ := List.append_of_mem hinvoked
  have hagain : .added fd reg ∈ between :=
    hcurrent.invoked (before ++ .returned t fd :: between) rest fd interest reg
      (by simp [hreturned]) before between t rfl
  have hnodup : (serials reached.2).Nodup := hcurrent.serials_eq ▸ List.nodup_range
  have hserial : ∀ {log : List (Event Thread)}, .added fd reg ∈ log →
      reg.serial ∈ serials log := fun hmem => List.mem_filterMap.mpr ⟨_, hmem, rfl⟩
  rw [hreturned, serials, List.filterMap_append] at hnodup
  have hdisjoint := (List.nodup_append.mp hnodup).2.2
  refine hdisjoint _ (hserial hadded) _ (hserial ?_) rfl
  exact List.mem_cons_of_mem _ (List.mem_append_left _ hagain)

/-- A callback is registered for reading and called. Another thread removes it and
returns after the poll thread has signalled it. -/
def coveredRun : List (Label ℕ) :=
  [.addCallback 5 .rdonly 1, .handOver, .copySets, .ready [5] [], .test, .load,
    .blockRemoveFd 0 5, .call, .callbackReturns, .handOver, .copySets, .resume 0, .ready [] [],
    .handOver]

theorem removedForGood_covered :
    ∃ reached, (system ℕ 3).Run (fun source label => coveredReturn source label = true)
        coveredRun reached ∧
      ∃ before after, reached.2 = before ++ .returned 0 5 :: after ∧
        .invoked 5 .read ⟨1, 0⟩ ∉ after := by
  have hexec : ((system ℕ 3).execIf coveredReturn (system ℕ 3).init coveredRun).any
      (fun reached => reached.2 ==
        [.added 5 ⟨1, 0⟩, .invoked 5 .read ⟨1, 0⟩, .returned 0 5]) = true := by
    decide +kernel
  obtain ⟨reached, hrun, hlog⟩ := System.exists_run_of_execIf hexec
  have hreturned : reached.2 =
      [.added 5 ⟨1, 0⟩, .invoked 5 .read ⟨1, 0⟩] ++ .returned 0 5 :: [] := by simpa using hlog
  exact ⟨reached, hrun, _, _, hreturned, removedForGood hrun hreturned (by simp) .read⟩

/-- The remover wakes up without a signal while the poll thread is about to make the
call that it has loaded. -/
def spuriousRun : List (Label ℕ) :=
  [.addCallback 5 .rdonly 1, .handOver, .copySets, .ready [5] [], .test, .load,
    .blockRemoveFd 0 5, .wake 0, .resume 0, .call]

theorem spuriousWake_calledAfterwards :
    ∃ reached, (system ℕ 3).Run anyStep spuriousRun reached ∧
      reached.2 = [.added 5 ⟨1, 0⟩, .returned 0 5, .invoked 5 .read ⟨1, 0⟩] := by
  have hexec : ((system ℕ 3).exec (system ℕ 3).init spuriousRun).any
      (fun reached => reached.2 ==
        [.added 5 ⟨1, 0⟩, .returned 0 5, .invoked 5 .read ⟨1, 0⟩]) = true := by
    decide +kernel
  obtain ⟨reached, hrun, hlog⟩ := System.exists_run_of_exec hexec
  exact ⟨reached, hrun, by simpa using hlog⟩

end PollMgr

end YfsLab.Poll
