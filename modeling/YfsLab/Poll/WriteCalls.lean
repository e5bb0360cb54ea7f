/-
# When the poll thread may call `write_cb`

A descriptor gets on the way to a call of `write_cb` when `wait_ready` copies the set of
those that are watched for writing, and stays on it until the poll thread has come to it
in the list of those that are ready. Nobody else shortens this way: only the callback
table is looked at again, in front of the call.

So there are two ways to be sure that `write_cb` is not called for a descriptor any more.
It is not watched for writing and not on the way, or it is not in the callback table and
the poll thread has not found it there; and nobody adds a callback for it.
-/

import YfsLab.Poll.Removal

namespace YfsLab.Poll

open SelectAIO Transition

universe u

/-! ## On the way to `write_cb` -/

/-- The poll thread may come to `write_cb` for this descriptor before it asks `aio_`
again. -/
def Loop.Writes (fd : Fd) : Loop → Prop
  | .top | .unready => False
  | .selecting _ wfds _ => fd ∈ wfds
  | .serving todo | .running _ _ _ todo => (fd, .write) ∈ todo
  | .tested fd' interest todo | .calling fd' interest _ todo =>
      (fd, .write) = (fd', interest) ∨ (fd, .write) ∈ todo

instance (fd : Fd) : (loop : Loop) → Decidable (loop.Writes fd)
  | .top | .unready => inferInstanceAs (Decidable False)
  | .selecting _ wfds _ => inferInstanceAs (Decidable (fd ∈ wfds))
  | .serving todo | .running _ _ _ todo =>
      inferInstanceAs (Decidable ((fd, Interest.write) ∈ todo))
  | .tested fd' interest todo | .calling fd' interest _ todo =>
      inferInstanceAs (Decidable ((fd, Interest.write) = (fd', interest) ∨ (fd, .write) ∈ todo))

/-- The poll thread has found a callback for the descriptor and goes on to `write_cb`. -/
def Loop.AtWrite (fd : Fd) : Loop → Prop
  | .tested fd' interest _ | .calling fd' interest _ _ => (fd, .write) = (fd', interest)
  | _ => False

theorem Loop.writes_of_atWrite {loop : Loop} {fd : Fd} (h : loop.AtWrite fd) : loop.Writes fd := by
  cases loop with
  | tested | calling => exact .inl h
  | _ => cases h

theorem SelectAIO.wfds_watchFd {aio : SelectAIO} {fd other : Fd} {flag : PollFlag}
    (hne : other ≠ fd) (h : other ∈ (aio.watchFd fd flag).wfds) : other ∈ aio.wfds := by
  cases flag <;> simp only [watchFd] at h <;> split_ifs at h <;>
    simpa [hne] using h

theorem SelectAIO.wfds_unwatchFd {aio aio' : SelectAIO} {fd other : Fd} {flag : PollFlag}
    {last : Bool} (hunwatch : aio.unwatchFd fd flag = some (aio', last))
    (h : other ∈ aio'.wfds) : other ∈ aio.wfds := by
  obtain ⟨cleared, hclear, heq⟩ := Option.map_eq_some_iff.mp hunwatch
  obtain ⟨rfl, -⟩ := Prod.mk.inj heq
  have hcleared : other ∈ cleared.wfds := by
    split_ifs at h
    · exact h
    · exact h
  cases flag <;> simp only [clear, Option.some.injEq, reduceCtorEq] at hclear
  all_goals
    subst hclear
    first
      | exact hcleared
      | exact Finset.mem_of_mem_erase hcleared

namespace PollMgr

variable {Thread : Type u} {p p' : PollMgr Thread} {fd : Fd}

/-- The descriptor is watched for writing, or on the way to `write_cb`. -/
def Writes (p : PollMgr Thread) (fd : Fd) : Prop := fd ∈ p.aio.wfds ∨ p.loop.Writes fd

instance (p : PollMgr Thread) (fd : Fd) : Decidable (p.Writes fd) :=
  inferInstanceAs (Decidable (_ ∨ _))

/-- The descriptor is not in the table, and the poll thread has not found it there. -/
structure Unlisted (p : PollMgr Thread) (fd : Fd) : Prop where
  callback : p.callbacks fd = none
  loop : ¬ p.loop.AtWrite fd

/-- What a step may do to the way of a descriptor to `write_cb`. -/
structure Approaches (p p' : PollMgr Thread) (fd : Fd) : Prop where
  wfds : fd ∈ p'.aio.wfds → fd ∈ p.aio.wfds
  writes : p'.loop.Writes fd → p.Writes fd
  callback : p'.callbacks fd = p.callbacks fd ∨ p'.callbacks fd = none
  atWrite : p'.loop.AtWrite fd → p.loop.AtWrite fd ∨ p.callbacks fd ≠ none

/-- The poll thread goes on, and nothing else changes. -/
theorem Approaches.advance {loop : Loop} (hwrites : loop.Writes fd → p.Writes fd)
    (hatWrite : loop.AtWrite fd → p.loop.AtWrite fd ∨ p.callbacks fd ≠ none) :
    Approaches p { p with loop := loop } fd :=
  ⟨id, hwrites, .inl rfl, hatWrite⟩

/-- Another thread is at work. -/
theorem Approaches.others (hloop : p'.loop = p.loop) (hwfds : fd ∈ p'.aio.wfds → fd ∈ p.aio.wfds)
    (hcallback : p'.callbacks fd = p.callbacks fd ∨ p'.callbacks fd = none) :
    Approaches p p' fd :=
  ⟨hwfds, fun h => .inr (hloop ▸ h), hcallback, fun h => .inl (hloop ▸ h)⟩

theorem callbacks_update {fd' : Fd} {reg : Option Registration} (h : fd = fd' → reg = none) :
    Function.update p.callbacks fd' reg fd = p.callbacks fd ∨
      Function.update p.callbacks fd' reg fd = none := by
  by_cases hfd : fd = fd'
  · subst hfd
    rw [Function.update_self]
    exact .inr (h rfl)
  · exact .inl (Function.update_of_ne hfd ..)

/-- Every step but a new callback for the descriptor. -/
theorem approaches_of_step [DecidableEq Thread] {label : Label Thread}
    {events : List (Event Thread)} (hlabel : ∀ flag ch, label ≠ .addCallback fd flag ch)
    (hstep : p.step label = some (p', events)) : Approaches p p' fd := by
  cases section_of_step hstep with
  | @registered fd' flag ch =>
      have hne : fd ≠ fd' := fun heq => hlabel flag ch (by rw [heq])
      exact .others rfl (wfds_watchFd hne) (callbacks_update fun heq => absurd heq hne)
  | @rewatched fd' flag ch =>
      have hne : fd ≠ fd' := fun heq => hlabel flag ch (by rw [heq])
      exact .others rfl (wfds_watchFd hne) (.inl rfl)
  | deleted hunwatch =>
      refine .others rfl (wfds_unwatchFd hunwatch) ?_
      dsimp only
      split_ifs
      · exact callbacks_update fun _ => rfl
      · exact .inl rfl
  | removing hunwatch => exact .others rfl (wfds_unwatchFd hunwatch) (.inl rfl)
  | woken => exact .others rfl id (.inl rfl)
  | returned => exact .others rfl id (callbacks_update fun _ => rfl)
  | handedOver =>
      rw [PollMgr.handOver]
      split_ifs
      · exact ⟨id, (fun h => by cases h), .inl rfl, fun h => by cases h⟩
      · exact ⟨id, (fun h => by cases h), .inl rfl, fun h => by cases h⟩
  | copied => exact .advance .inl fun h => by cases h
  | @reported _ writable _ _ _ hloop _ hwritable =>
      refine .advance (fun h => .inr ?_) fun h => by cases h
      rw [hloop]
      have hmem : fd ∈ writable := by simpa [Loop.Writes] using h
      exact (hwritable.2 fd hmem).1
  | skipped hloop =>
      refine .advance (fun h => .inr ?_) fun h => by cases h
      rw [hloop]
      exact List.mem_cons_of_mem _ h
  | found hloop hlisted =>
      refine .advance (fun h => .inr ?_) fun h => .inr ?_
      · rw [hloop]
        exact List.mem_cons.mpr h
      · obtain ⟨rfl, -⟩ := Prod.mk.inj h
        exact hlisted
  | loaded hloop =>
      refine .advance (fun h => .inr ?_) fun h => .inl ?_
      · rw [hloop]
        exact h
      · rw [hloop]
        exact h
  | invoked hloop =>
      refine .advance (fun h => .inr ?_) fun h => by cases h
      rw [hloop]
      exact .inr h
  | cameBack hloop =>
      refine .advance (fun h => .inr ?_) fun h => by cases h
      rw [hloop]
      exact h

/-! ## `write_cb` is not called any more -/

theorem Approaches.writes_back (h : Approaches p p' fd) (hwrites : p'.Writes fd) :
    p.Writes fd :=
  hwrites.elim (fun hwfds => .inl (h.wfds hwfds)) h.writes

theorem Approaches.unlisted (h : Approaches p p' fd) (hunlisted : p.Unlisted fd) :
    p'.Unlisted fd := by
  refine ⟨?_, fun hat => ?_⟩
  · rcases h.callback with hsame | hnone
    · exact hsame.trans hunlisted.callback
    · exact hnone
  · rcases h.atWrite hat with hbefore | hlisted
    · exact hunlisted.loop hbefore
    · exact hlisted hunlisted.callback

/-- One of the two ways to be sure. -/
def Deaf (p : PollMgr Thread) (fd : Fd) : Prop := ¬ p.Writes fd ∨ p.Unlisted fd

theorem Approaches.deaf (h : Approaches p p' fd) (hdeaf : p.Deaf fd) : p'.Deaf fd :=
  hdeaf.imp (fun hnot hwrites => hnot (h.writes_back hwrites)) h.unlisted

theorem Deaf.not_atWrite (h : p.Deaf fd) : ¬ p.loop.AtWrite fd := by
  intro hat
  rcases h with hsilent | hunlisted
  · exact hsilent (.inr (Loop.writes_of_atWrite hat))
  · exact hunlisted.loop hat

/-- A callback that removes both flags takes the descriptor out of the table. -/
theorem unlisted_delCallback {fd' : Fd} {interest : Interest} {reg : Registration}
    {todo : List (Fd × Interest)} (hloop : p.loop = .running fd' interest reg todo)
    (hdel : p.delCallback fd .rdwr = some p') : p'.Unlisted fd := by
  rw [PollMgr.delCallback] at hdel
  split_ifs at hdel
  obtain ⟨⟨aio, last⟩, hunwatch, rfl⟩ := Option.map_eq_some_iff.mp hdel
  obtain ⟨cleared, hclear, heq⟩ := Option.map_eq_some_iff.mp hunwatch
  obtain ⟨-, rfl⟩ := Prod.mk.inj heq
  obtain rfl := Option.some.inj hclear
  refine ⟨?_, fun hat => ?_⟩
  · simp [Watched]
  · simp only [hloop] at hat
    cases hat

end PollMgr

end YfsLab.Poll
