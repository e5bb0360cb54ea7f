/-
# A live connection stays watched

A sender that waits for its PDU to be written depends on the poll thread, and so does
everything that the other end sends. While a connection is alive, its descriptor is
watched for reading, its callback is in the table of the poll manager, and as long as the
PDU in `wpdu_` is not finished the descriptor is watched for writing too: `write_cb` stops
watching it only when there is nothing to write, in the same mutex-protected section.
-/

import YfsLab.Connection.Assertions
import YfsLab.Connection.WholePdus
import YfsLab.Poll.Bookkeeping

namespace YfsLab.Connection

open Monitor Poll Transition

/-! ## What a live connection says to the poll manager -/

/-- An event in which the poll manager has no part. -/
def Event.quiet : Event → Bool
  | .began _ | .wrote .. | .returned .. => true
  | _ => false

theorem Event.calls_of_quiet {event : Event} (h : event.quiet = true) : event.calls = false := by
  cases event with
  | began | wrote | returned => rfl
  | addCallback | delCallback | blockRemoveFd => cases h

namespace Sender

/-- Something is left to write. -/
def Unfinished (s : Sender) : Prop := s.wpdu.solong < s.wpdu.sz

/-- On a live connection no more than the PDU has been written. -/
theorem solong_of_alive {s : Sender} {log : List Event} (h : Sound (s, log))
    (halive : s.dead = false) : 0 ≤ s.wpdu.solong ∧ s.wpdu.solong ≤ s.wpdu.sz := by
  obtain ⟨-, done, part, hframed⟩ := h
  simp only at hframed
  cases hframed.progress with
  | idle _ hidle => simp [hidle]
  | writing c k _ hat hlt =>
      rw [hat, Call.at]
      simp only
      omega
  | complete c _ hat =>
      rw [hat, Call.at]
      simp only
      omega
  | dead hdead =>
      rw [halive] at hdead
      cases hdead

/-- The calls that a section makes to the poll manager when it leaves the connection alive:
none, and it does not leave more to write; `add_callback` for writing; or `del_callback`
for writing, when nothing is left to write. -/
inductive Asks (s s' : Sender) (events : List Event) : Prop
  | nothing (hquiet : ∀ event ∈ events, event.quiet = true)
      (hrest : s'.Unfinished → s.Unfinished)
  | toWatch (before after : List Event) (hevents : events = before ++ .addCallback .wronly :: after)
      (hbefore : ∀ event ∈ before, event.quiet = true)
      (hafter : ∀ event ∈ after, event.quiet = true)
  | toUnwatch (hevents : events = [.delCallback .wronly]) (hrest : ¬ s'.Unfinished)

theorem quiet_finish (s : Sender) (c : Call) :
    ∀ event ∈ (s.finish c).2, event.quiet = true := by
  simp [finish, Event.quiet]

theorem not_unfinished_finish (s : Sender) (c : Call) : ¬ (s.finish c).1.Unfinished := by
  simp [finish, Unfinished]

theorem quiet_awaitComplete (s : Sender) (c : Call) :
    ∀ event ∈ (s.awaitComplete c).2, event.quiet = true := by
  rw [awaitComplete]
  split_ifs
  · simp
  · exact quiet_finish s c

/-- A thread that goes on waiting leaves `wpdu_` as it is, and one that returns leaves
nothing to write. -/
theorem unfinished_awaitComplete {s : Sender} {c : Call}
    (h : (s.awaitComplete c).1.Unfinished) : s.Unfinished := by
  rw [awaitComplete] at h
  split_ifs at h
  · exact h
  · exact absurd h (not_unfinished_finish s c)

theorem asks_turn {s s' : Sender} {c : Call} {r : WriteResult} {events : List Event}
    (hturn : s.Turn c r s' events) (halive : s'.dead = false) :
    ((∀ event ∈ events, event.quiet = true) ∧ (s'.Unfinished → s.Unfinished)) ∨
      ∃ before after, events = before ++ .addCallback .wronly :: after ∧
        (∀ event ∈ before, event.quiet = true) ∧ ∀ event ∈ after, event.quiet = true := by
  cases hturn with
  | waits => exact .inl ⟨by simp, id⟩
  | refused hdead =>
      have hstill : s.dead = false := halive
      rw [hdead] at hstill
      cases hstill
  | writes _ _ hwrite =>
      cases hwrite with
      | failed => cases halive
      | whole =>
          refine .inl ⟨fun event hevent => ?_, fun h => absurd h (not_unfinished_finish _ c)⟩
          rcases List.mem_cons.mp hevent with rfl | hevent
          · rfl
          · exact quiet_finish _ c event hevent
      | @part w bytes =>
          exact .inr ⟨[.wrote c.id bytes], _, rfl, by simp [Event.quiet], quiet_awaitComplete _ c⟩

/-- `write_cb` stops watching when `wpdu_` is empty. -/
theorem sz_eq_zero_of_delCallback {s s' : Sender} {r : WriteResult} {choice : ℕ}
    (hwrite : s.writeCb r choice = some (s', [.delCallback .wronly])) : s.wpdu.sz = 0 := by
  by_contra hsz
  rw [writeCb, if_neg hsz] at hwrite
  split_ifs at hwrite
  obtain ⟨b, -, hrest⟩ := Option.bind_eq_some_iff.mp hwrite
  obtain ⟨⟨ok, w, bytes⟩, -, heq⟩ := Option.bind_eq_some_iff.mp hrest
  cases ok with
  | false => simp at heq
  | true =>
      simp only [Bool.not_true, Bool.false_eq_true, if_false] at heq
      split_ifs at heq
      · simp at heq
      · simp at heq

theorem asks_of_run {s s' : Sender} {label : Label} {events log : List Event}
    (hsound : Sound (s, log)) (halive : s'.dead = false)
    (hrun : s.run label = some (s', events)) : Asks s s' events := by
  have hdead := (Decays.run hrun).dead
  have hbefore : s.dead = false := by
    cases hs : s.dead with
    | false => rfl
    | true => rw [hdead hs] at halive; cases halive
  have hsolong := solong_of_alive hsound hbefore
  cases section_of_run hrun with
  | @began pdu _ _ _ hpdu hturn =>
      rcases asks_turn hturn halive with ⟨hquiet, hrest⟩ | ⟨before, after, rfl, hfirst, hlast⟩
      · exact .nothing (by simpa [Event.quiet] using hquiet) hrest
      · exact .toWatch (.began _ :: before) after rfl (by simpa [Event.quiet] using hfirst) hlast
  | wokeWait | wokeComplete | read => exact .nothing (by simp) id
  | resumedWait _ hturn =>
      rcases asks_turn hturn halive with ⟨hquiet, hrest⟩ | ⟨before, after, rfl, hfirst, hlast⟩
      · exact .nothing hquiet hrest
      · exact .toWatch before after rfl hfirst hlast
  | @resumedComplete _ c w =>
      exact .nothing (quiet_awaitComplete _ c) unfinished_awaitComplete
  | @removed _ c =>
      exact .nothing (quiet_finish _ c) fun h => absurd h (not_unfinished_finish _ c)
  | wrote hwrite =>
      cases hwrite with
      | nothing =>
          have hsz := sz_eq_zero_of_delCallback hrun
          refine .toUnwatch rfl ?_
          simp only [Unfinished]
          omega
      | failed => cases halive
      | @part b w bytes _ _ hpdu hrest =>
          refine .nothing (by simp [Event.quiet]) fun _ => ?_
          -- nothing is written, and nothing changes, when the PDU is finished
          rw [Unfinished]
          by_contra hfinished
          have heq : s.wpdu.solong = s.wpdu.sz := by omega
          rw [writepdu, if_neg (by omega), if_pos heq] at hpdu
          obtain ⟨rfl, -⟩ : s.wpdu = w ∧ bytes = [] := by simpa [eq_comm] using hpdu
          omega
      | @whole b w bytes _ _ hpdu hfull =>
          refine .nothing (by simp [Event.quiet]) fun h => ?_
          simp only [Unfinished] at h
          omega
  | readFailed => cases halive
  | closed => cases halive

end Sender

namespace Channel

/-! ## What other steps leave alone -/

/-- The poll manager still watches the descriptor as before, with the same callback. -/
structure Keeps {Thread : Type} (p p' : PollMgr Thread) (fd : Fd) : Prop where
  callbacks_eq : p'.callbacks fd = p.callbacks fd
  rfds : fd ∈ p.aio.rfds → fd ∈ p'.aio.rfds
  wfds : fd ∈ p.aio.wfds → fd ∈ p'.aio.wfds
  removers : ∀ t, (p'.removers t).fd = some fd → (p.removers t).fd = some fd

theorem mem_watchFd {aio : SelectAIO} {fd other : Fd} (flag : PollFlag) :
    (other ∈ aio.rfds → other ∈ (aio.watchFd fd flag).rfds) ∧
      (other ∈ aio.wfds → other ∈ (aio.watchFd fd flag).wfds) := by
  cases flag <;> simp only [ SelectAIO.watchFd] <;> split_ifs <;>
    simp only [Finset.mem_insert] <;> tauto

theorem mem_unwatchFd_of_ne {aio aio' : SelectAIO} {fd other : Fd} {flag : PollFlag} {last : Bool}
    (hunwatch : aio.unwatchFd fd flag = some (aio', last)) (hne : other ≠ fd) :
    (other ∈ aio.rfds → other ∈ aio'.rfds) ∧ (other ∈ aio.wfds → other ∈ aio'.wfds) := by
  obtain ⟨cleared, hclear, hrfds, hwfds, -⟩ := SelectAIO.unwatchFd_eq_some hunwatch
  rw [hrfds, hwfds]
  cases flag <;> simp only [ SelectAIO.clear, Option.some.injEq, reduceCtorEq] at hclear
  all_goals
    subst hclear
    simp only [Finset.mem_erase]
    tauto

/-- Whether a step of the poll manager is one for this descriptor. -/
def concerns {Thread : Type} (fd : Fd) : PollMgr.Label Thread → Bool
  | .addCallback fd' _ _ | .delCallback fd' _ | .blockRemoveFd _ fd' => fd' == fd
  | _ => false

/-- A step for another descriptor keeps this one, if nobody is removing it. -/
theorem keeps_of_step {Thread : Type} [DecidableEq Thread] {p p' : PollMgr Thread} {fd : Fd}
    {label : PollMgr.Label Thread} {events : List (Poll.Event Thread)}
    (hother : concerns fd label = false) (hnobody : ∀ t, (p.removers t).fd ≠ some fd)
    (hstep : p.step label = some (p', events)) : Keeps p p' fd := by
  cases PollMgr.section_of_step hstep with
  | @registered fd' flag ch hempty =>
      have hne : fd ≠ fd' := Ne.symm (by simpa [concerns] using hother)
      exact ⟨Function.update_of_ne hne _ _, (mem_watchFd flag).1, (mem_watchFd flag).2,
        fun t h => by simpa [PollMgr.watched] using h⟩
  | @rewatched fd' flag ch hlisted =>
      exact ⟨rfl, (mem_watchFd flag).1, (mem_watchFd flag).2,
        fun t h => by simpa [PollMgr.watched] using h⟩
  | @deleted fd' flag aio last hunwatch =>
      have hne : fd ≠ fd' := Ne.symm (by simpa [concerns] using hother)
      refine ⟨?_, (mem_unwatchFd_of_ne hunwatch hne).1, (mem_unwatchFd_of_ne hunwatch hne).2,
        fun _ h => h⟩
      simp only
      split_ifs
      · exact Function.update_of_ne hne _ _
      · rfl
  | @removing t fd' aio last hunwatch hidle =>
      have hne : fd ≠ fd' := Ne.symm (by simpa [concerns] using hother)
      refine ⟨rfl, (mem_unwatchFd_of_ne hunwatch hne).1, (mem_unwatchFd_of_ne hunwatch hne).2,
        fun u h => ?_⟩
      by_cases hu : u = t
      · subst hu
        simp only [Function.update_self, Remover.fd, Option.some.injEq] at h
        exact absurd h.symm hne
      · simpa only [Function.update_of_ne hu] using h
  | @woken t fd' rewatched hremover =>
      refine ⟨rfl, id, id, fun u h => ?_⟩
      by_cases hu : u = t
      · subst hu
        simpa [hremover, Remover.fd] using h
      · simpa only [Function.update_of_ne hu] using h
  | @returned t fd' signalled rewatched hremover =>
      have hne : fd ≠ fd' := by
        rintro rfl
        exact hnobody t (by rw [hremover]; rfl)
      refine ⟨Function.update_of_ne hne _ _, id, id, fun u h => ?_⟩
      by_cases hu : u = t
      · subst hu
        simp [PollMgr.removed, Remover.fd] at h
      · simpa only [PollMgr.removed, Function.update_of_ne hu] using h
  | handedOver =>
      rw [PollMgr.handOver]
      split_ifs
      · exact ⟨rfl, id, id, fun t h => by simpa using h⟩
      · exact ⟨rfl, id, id, fun _ h => h⟩
  | copied | reported | skipped | found | loaded | invoked | cameBack =>
      exact ⟨rfl, id, id, fun _ h => h⟩

/-! ## The connection and its descriptor -/

/-- What holds of a connection and its descriptor. Only those that are done with a dead
connection remove it. -/
structure Attentive (fd : Fd) (ch : ℕ) (s : Channel) : Prop where
  fd_eq : s.fd = fd
  ch_eq : s.ch = ch
  sound : ∃ log, Sound (s.conn, log)
  registered : s.conn.dead = false → ∃ reg, s.poll.callbacks fd = some reg ∧ reg.ch = ch
  reading : s.conn.dead = false → fd ∈ s.poll.aio.rfds
  writing : s.conn.dead = false → s.conn.Unfinished → fd ∈ s.poll.aio.wfds
  ahead : s.conn.dead = false → s.ahead = []
  nobody : s.conn.dead = false → ∀ a, (s.poll.removers a).fd ≠ some fd

variable {fd : Fd} {ch : ℕ}

theorem attentive_new {pipefd : Fd} (hfd : fd < maxPollFds) :
    Attentive fd ch (new pipefd fd ch) where
  fd_eq := rfl
  ch_eq := rfl
  sound := ⟨[], sound_of_run .start⟩
  registered _ := ⟨⟨ch, 0⟩, by simp [new, PollMgr.addCallback, hfd, PollMgr.new], rfl⟩
  reading _ := by
    simp only [new, PollMgr.addCallback, if_pos hfd, PollMgr.new, SelectAIO.watchFd]
    split_ifs <;> simp
  writing _ hunfinished := absurd hunfinished (by simp [new, Sender.Unfinished])
  ahead _ := rfl
  nobody _ a := by simp [new, PollMgr.addCallback, hfd, PollMgr.new, Remover.rewatch, Remover.fd]

/-- A connection that is dead afterwards has nothing to fulfil. -/
theorem attentive_of_dead {s : Channel} (hfd : s.fd = fd) (hch : s.ch = ch)
    (hsound : ∃ log, Sound (s.conn, log)) (hdead : s.conn.dead = true) : Attentive fd ch s := by
  have hnot : ∀ {p : Prop}, s.conn.dead = false → p := fun halive => by
    rw [hdead] at halive
    cases halive
  exact ⟨hfd, hch, hsound, hnot, hnot, hnot, hnot, hnot⟩

/-- Another descriptor changes, or nothing does. -/
theorem Attentive.keep {s s' : Channel} (h : s.Attentive fd ch) (hfd : s'.fd = s.fd)
    (hch : s'.ch = s.ch) (hconn : s'.conn = s.conn) (hahead : s'.ahead = s.ahead)
    (hkeeps : s.conn.dead = false → Keeps s.poll s'.poll fd) : Attentive fd ch s' where
  fd_eq := hfd.trans h.fd_eq
  ch_eq := hch.trans h.ch_eq
  sound := hconn ▸ h.sound
  registered halive := by
    rw [hconn] at halive
    rw [(hkeeps halive).callbacks_eq]
    exact h.registered halive
  reading halive := by
    rw [hconn] at halive
    exact (hkeeps halive).rfds (h.reading halive)
  writing halive hunfinished := by
    rw [hconn] at halive hunfinished
    exact (hkeeps halive).wfds (h.writing halive hunfinished)
  ahead halive := by
    rw [hconn] at halive
    exact hahead.trans (h.ahead halive)
  nobody halive a hfd := by
    rw [hconn] at halive
    exact h.nobody halive a ((hkeeps halive).removers a hfd)

theorem removers_of_quiet {events : List Event} (hquiet : ∀ event ∈ events, event.quiet = true) :
    removers events = [] := by
  refine List.filterMap_eq_nil_iff.mpr fun event hevent => ?_
  have hone := hquiet event hevent
  cases event with
  | began | wrote | returned | addCallback | delCallback => rfl
  | blockRemoveFd => cases hone

theorem pollCalls_quiet {events : List Event} (poll : PollMgr Agent)
    (hquiet : ∀ event ∈ events, event.quiet = true) :
    events.foldlM (pollCall fd ch) poll = some poll :=
  pollCalls_of_quiet poll fun event hevent => Event.calls_of_quiet (hquiet event hevent)

/-- `add_callback` of a descriptor that is registered already. -/
theorem addCallback_registered {Thread : Type} [DecidableEq Thread] {p : PollMgr Thread}
    {reg : Registration} (hfd : fd < maxPollFds) (hreg : p.callbacks fd = some reg)
    (hch : reg.ch = ch) (flag : PollFlag) :
    (p.addCallback fd flag ch).map Prod.fst = some (p.watched fd flag) := by
  simp [PollMgr.addCallback, hfd, hreg, hch, PollMgr.watched]

/-- `del_callback` for writing leaves a descriptor that is watched for reading. -/
theorem delCallback_wronly {Thread : Type} [DecidableEq Thread] {p : PollMgr Thread}
    (hfd : fd < maxPollFds) (hreading : fd ∈ p.aio.rfds) :
    ∃ p', p.delCallback fd .wronly = some p' ∧ p'.callbacks = p.callbacks ∧ fd ∈ p'.aio.rfds ∧
      p'.removers = p.removers := by
  simp only [PollMgr.delCallback, if_pos hfd, SelectAIO.unwatchFd, SelectAIO.clear,
    Option.map_some, SelectAIO.Watched, hreading, true_or, not_true_eq_false, false_and,
    if_false, decide_false, Bool.false_eq_true]
  exact ⟨_, rfl, rfl, hreading, rfl⟩

/-- What a section of a connection leaves when the poll manager has met its calls. -/
theorem runConn_of_calls {s : Channel} {label : Sender.Label} {conn : Sender}
    {events : List Event} {poll : PollMgr Agent} (hrun : s.conn.run label = some (conn, events))
    (hcalls : events.foldlM (pollCall s.fd s.ch) s.poll = some poll) :
    s.runConn label = some { s with conn, poll, ahead := s.ahead ++ removers events } := by
  rw [Channel.runConn, hrun, Option.bind_some]
  simp only [hcalls, Option.map_some]

/-- The poll manager meets every call of a section, and the section keeps the connection
attentive. -/
theorem Attentive.runConn {s : Channel} {label : Sender.Label} {conn : Sender}
    {events : List Event} (hfd : fd < maxPollFds) (h : s.Attentive fd ch)
    (hrun : s.conn.run label = some (conn, events)) :
    ∃ s', s.runConn label = some s' ∧ Attentive fd ch s' := by
  obtain ⟨log, hsound⟩ := h.sound
  have hafter : ∃ log, Sound (conn, log) := ⟨_, hsound.run hrun⟩
  obtain ⟨rfl, rfl⟩ : s.fd = fd ∧ s.ch = ch := ⟨h.fd_eq, h.ch_eq⟩
  cases hdead : conn.dead with
  | true =>
      have hcalls : ∃ poll, events.foldlM (pollCall s.fd s.ch) s.poll = some poll := by
        cases hbefore : s.conn.dead with
        | true => exact ⟨_, pollCalls_of_quiet s.poll (Sender.calls_of_dead hbefore hrun)⟩
        | false =>
            rcases Sender.dies_of_run hbefore hrun hdead with ⟨-, hquiet⟩ | ⟨-, before, hquiet, rfl⟩
            · exact ⟨_, pollCalls_of_quiet s.poll hquiet⟩
            · rw [List.foldlM_append, pollCalls_of_quiet _ hquiet]
              simp [pollCall, PollMgr.delCallback, hfd, SelectAIO.unwatchFd, SelectAIO.clear]
      obtain ⟨poll, hcalls⟩ := hcalls
      exact ⟨_, runConn_of_calls hrun hcalls, attentive_of_dead rfl rfl hafter hdead⟩
  | false =>
      have halive : s.conn.dead = false := by
        cases hbefore : s.conn.dead with
        | false => rfl
        | true => rw [(Decays.run hrun).dead hbefore] at hdead; cases hdead
      have hahead := h.ahead halive
      obtain ⟨reg, hreg, hch⟩ := h.registered halive
      cases Sender.asks_of_run hsound hdead hrun with
      | nothing hquiet hrest =>
          refine ⟨_, runConn_of_calls hrun (pollCalls_quiet s.poll hquiet), rfl, rfl, hafter,
            fun _ => ⟨reg, hreg, hch⟩, fun _ => h.reading halive,
            fun _ hunfinished => h.writing halive (hrest hunfinished), fun _ => ?_,
            fun _ => h.nobody halive⟩
          rw [hahead, removers_of_quiet hquiet, List.nil_append]
      | toWatch before after hevents hbefore hlast =>
          have hcalls : events.foldlM (pollCall s.fd s.ch) s.poll =
              some (s.poll.watched s.fd .wronly) := by
            rw [hevents, List.foldlM_append, pollCalls_quiet _ hbefore]
            simp only [Option.bind_eq_bind, Option.bind_some, List.foldlM_cons, pollCall,
              addCallback_registered hfd hreg hch, pollCalls_quiet _ hlast]
          have hremovers : removers events = [] := by
            have hwatch : removers (before ++ .addCallback .wronly :: after) =
                removers before ++ removers after := by
              simp [removers]
            rw [hevents, hwatch, removers_of_quiet hbefore, removers_of_quiet hlast,
              List.nil_append]
          refine ⟨_, runConn_of_calls hrun hcalls, rfl, rfl, hafter, fun _ => ⟨reg, hreg, hch⟩,
            fun _ => (mem_watchFd .wronly).1 (h.reading halive), fun _ _ => ?_, fun _ => ?_,
            fun _ a => ?_⟩
          · simp only [PollMgr.watched, SelectAIO.watchFd]
            split_ifs <;> simp
          · rw [hahead, hremovers, List.nil_append]
          · simpa [PollMgr.watched] using h.nobody halive a
      | toUnwatch hevents hrest =>
          obtain ⟨poll, hdel, hcallbacks, hrfds, hremovers⟩ :=
            delCallback_wronly hfd (h.reading halive)
          have hcalls : events.foldlM (pollCall s.fd s.ch) s.poll = some poll := by
            rw [hevents]
            simp [pollCall, hdel]
          refine ⟨_, runConn_of_calls hrun hcalls, rfl, rfl, hafter,
            fun _ => ⟨reg, by rw [hcallbacks, hreg], hch⟩, fun _ => hrfds,
            fun _ hunfinished => absurd hunfinished hrest, fun _ => ?_, fun _ a => ?_⟩
          · rw [hahead, hevents]
            rfl
          · simpa [hremovers] using h.nobody halive a

/-- A step of the poll manager for another descriptor. -/
theorem Attentive.runPoll {s s' : Channel} {label : PollMgr.Label Agent}
    (h : s.Attentive fd ch) (hother : s.conn.dead = false → concerns fd label = false)
    (hrun : s.runPoll label = some s') : Attentive fd ch s' := by
  obtain ⟨⟨poll, events⟩, hstep, rfl⟩ := Option.map_eq_some_iff.mp hrun
  exact h.keep rfl rfl rfl rfl fun halive => keeps_of_step (hother halive) (h.nobody halive) hstep

/-- Every step keeps a connection attentive. -/
theorem Attentive.step {s s' : Channel} {label : Label} (hfd : fd < maxPollFds)
    (h : s.Attentive fd ch) (hstep : s.step label = some s') : Attentive fd ch s' := by
  have hrun : ∀ {q q' : Channel} {label}, q.Attentive fd ch → q.runConn label = some q' →
      q'.Attentive fd ch := by
    intro q q' label hq hq'
    obtain ⟨events, hsection, -, -⟩ := runConn_eq_some hq'
    obtain ⟨q'', hq'', hafter⟩ := hq.runConn hfd hsection
    rw [hq'] at hq''
    exact Option.some.inj hq'' ▸ hafter
  cases label with
  | send l =>
      simp only [Channel.step] at hstep
      split_ifs at hstep
      exact hrun h hstep
  | closeconn t =>
      simp only [Channel.step] at hstep
      split_ifs at hstep with hdead
      · exact Option.some.inj hstep ▸ h
      · obtain ⟨q, hclose, rfl⟩ := Option.map_eq_some_iff.mp hstep
        obtain ⟨events, hsection, -, -⟩ := runConn_eq_some hclose
        have hq := hrun h hclose
        have hclosed : q.conn.dead = true := by
          rw [← (Prod.mk.inj (Option.some.inj hsection)).1]
          rfl
        exact attentive_of_dead hq.fd_eq hq.ch_eq hq.sound hclosed
  | blockRemoveFd a =>
      simp only [Channel.step] at hstep
      split_ifs at hstep with hmem
      obtain ⟨⟨poll, events⟩, -, rfl⟩ := Option.map_eq_some_iff.mp hstep
      have hdead : s.conn.dead = true := by
        by_contra halive
        rw [h.ahead (by simpa using halive)] at hmem
        cases hmem
      exact attentive_of_dead h.fd_eq h.ch_eq h.sound hdead
  | removed i =>
      obtain ⟨c, -, hback⟩ := Option.bind_eq_some_iff.mp hstep
      split_ifs at hback
      exact hrun h hback
  | callback r succ choice =>
      obtain ⟨interest, -, hcall⟩ := Option.bind_eq_some_iff.mp hstep
      obtain ⟨q, hq, hsection⟩ := Option.bind_eq_some_iff.mp hcall
      exact hrun (h.runPoll (fun _ => rfl) hq) hsection
  | poll l =>
      simp only [Channel.step] at hstep
      split_ifs at hstep with hforeign
      refine h.runPoll (fun _ => ?_) hstep
      cases l with
      | addCallback fd' | delCallback fd' => simpa [foreign, h.fd_eq, concerns] using hforeign
      | blockRemoveFd a fd' =>
          cases a with
          | other t => simpa [foreign, h.fd_eq, concerns] using hforeign
          | call | closer => cases hforeign
      | wake | resume | handOver | copySets | ready | test | load | call | callbackReturns => rfl

/-- A live connection stays watched, in every interleaving of its senders, its callbacks,
other connections and the poll thread: as long as it is alive, its callback is registered
and its descriptor is watched for reading, and for writing too while the PDU in `wpdu_`,
for which one sender waits, is not finished. And the poll manager meets every call that a
section of a connection makes, alive or dead. -/
theorem staysWatched {pipefd : Fd} (hfd : fd < maxPollFds) {labels : List Label}
    {reached : Channel} (hrun : (system pipefd fd ch).Run anyStep labels reached) :
    (reached.conn.dead = false →
      (∃ reg, reached.poll.callbacks fd = some reg ∧ reg.ch = ch) ∧
      fd ∈ reached.poll.aio.rfds ∧
      (reached.conn.Unfinished →
        fd ∈ reached.poll.aio.wfds ∧ ∃ c, reached.conn.sendComplete.threads = [c])) ∧
    ∀ label conn events, reached.conn.run label = some (conn, events) →
      ∃ s', reached.runConn label = some s' ∧ s'.conn = conn := by
  have h : reached.Attentive fd ch :=
    hrun.invariant (Attentive fd ch) (attentive_new hfd) fun _ h _ hstep => h.step hfd hstep
  refine ⟨fun halive => ⟨h.registered halive, h.reading halive, fun hunfinished =>
    ⟨h.writing halive hunfinished, ?_⟩⟩, fun label conn events hsection => ?_⟩
  · obtain ⟨log, -, done, part, hframed⟩ := h.sound
    simp only at hframed
    cases hframed.progress with
    | idle _ hidle => simp [Sender.Unfinished, hidle] at hunfinished
    | writing c _ _ _ _ hone => exact ⟨c, hone⟩
    | complete c _ hat => simp [Sender.Unfinished, hat, Call.at] at hunfinished
    | dead hdead => rw [halive] at hdead; cases hdead
  · obtain ⟨s', hs', -⟩ := h.runConn hfd hsection
    obtain ⟨events', hsection', -⟩ := runConn_eq_some hs'
    rw [hsection] at hsection'
    exact ⟨s', hs', (Prod.mk.inj (Option.some.inj hsection')).1.symm⟩

/-- A sender waits for the rest of its PDU while the poll thread is on its way, and another
descriptor is watched and removed. -/
def waitingRun : List Label :=
  [.send (.send [0, 0, 0, 0, 7] (.accepted 3)), .poll (.addCallback 9 .rdwr 4), .poll .handOver,
    .poll .copySets, .poll (.ready [] [5]), .poll .test, .poll .load,
    .callback (.accepted 1) true 0, .poll (.delCallback 9 .rdwr)]

theorem staysWatched_waiting :
    ∃ reached, 5 < maxPollFds ∧ (system 3 5 1).Run anyStep waitingRun reached ∧
      reached.conn.dead = false ∧ 5 ∈ reached.poll.aio.wfds := by
  have hexec : ((system 3 5 1).exec (system 3 5 1).init waitingRun).any
      (fun s => !s.conn.dead && decide (s.conn.wpdu.solong < s.conn.wpdu.sz)) = true := by
    decide +kernel
  obtain ⟨reached, hrun, htest⟩ := System.exists_run_of_exec hexec
  simp only [Bool.and_eq_true, Bool.not_eq_true', decide_eq_true_eq] at htest
  obtain ⟨hwatched, -⟩ := staysWatched (by decide) hrun
  exact ⟨reached, by decide, hrun, htest.1, ((hwatched htest.1).2.2 htest.2).1⟩

end Channel

end YfsLab.Connection
