/-
# The assertions of a connection

`write_cb` asserts that the connection is not dead, `writepdu` and `write_cb` that
`solong` is not negative, and the destructor that the connection is dead and that no
`send` has its buffer in `wpdu_`.

The last two kinds hold in every run. `solong` is negative only together with a size of
zero, and then `write_cb` returns at once. The destructor is called by a `decref` that
finds no reference left, so that no thread is in `send` any more: each of them has been
called with a reference of its own.

The first one holds as long as `closeconn`, and a `send` whose write fails, find the
descriptor not watched for writing and not on the way to `write_cb`. When a callback
finds the connection dead, it takes it out of the callback table first.
-/

import YfsLab.Connection.Channel
import YfsLab.Connection.Steady
import YfsLab.Poll.WriteCalls

namespace YfsLab.Connection

open Poll Transition

/-! ## What a dying connection says to the poll manager -/

/-- A section calls the poll manager. -/
def Event.calls : Event → Bool
  | .addCallback _ | .delCallback _ => true
  | _ => false

namespace Sender

/-- The write of this section fails, on a live connection whose `wpdu_` is free. -/
def failsToWrite (s : Sender) : Label → Bool
  | .send _ .error | .resumeWait _ .error => !s.dead && s.wpdu.buf.isNone
  | _ => false

theorem dead_awaitComplete (s : Sender) (c : Call) : (s.awaitComplete c).1.dead = s.dead := by
  rw [awaitComplete]
  split_ifs <;> rfl

/-- A thread in front of its turn marks the connection dead only when its write fails. -/
theorem Turn.dies {s s' : Sender} {c : Call} {r : WriteResult} {events : List Event}
    (h : s.Turn c r s' events) (halive : s.dead = false) (hdead : s'.dead = true) :
    (r = .error ∧ s.wpdu.buf = none) ∧ ∀ event ∈ events, event.calls = false := by
  have hstays : s'.dead = s.dead → False := fun hsame => by
    rw [hsame, halive] at hdead
    cases hdead
  cases h with
  | waits | refused => exact (hstays rfl).elim
  | writes _ hfree hwrite =>
      cases hwrite with
      | failed hpdu => exact ⟨⟨((writepdu_keeps hpdu).2.2.2 rfl).1, hfree⟩, by simp [Event.calls]⟩
      | whole => exact (hstays rfl).elim
      | part => exact (hstays (dead_awaitComplete ..)).elim

/-- On a dead connection, no section calls the poll manager. -/
theorem calls_of_dead {s s' : Sender} {label : Label} {events : List Event}
    (hdead : s.dead = true) (hrun : s.run label = some (s', events)) :
    ∀ event ∈ events, event.calls = false := by
  cases section_of_run hrun with
  | began _ hturn | resumedWait _ hturn =>
      obtain ⟨-, rfl⟩ := hturn.of_dead hdead
      simp [Event.calls]
  | resumedComplete => simp [awaitComplete, hdead, finish, Event.calls]
  | removed => simp [finish, Event.calls]
  | wrote hwrite => simp [hwrite.alive] at hdead
  | readFailed halive => simp [halive] at hdead
  | wokeWait | wokeComplete | read | closed => simp

/-- How a connection dies: `closeconn` and a failed write do not call the poll manager in
their section, and a callback removes itself there. -/
theorem dies_of_run {s s' : Sender} {label : Label} {events : List Event}
    (halive : s.dead = false) (hrun : s.run label = some (s', events)) (hdead : s'.dead = true) :
    ((label = .closeconn ∨ s.failsToWrite label = true) ∧ ∀ event ∈ events, event.calls = false) ∨
      ((∃ r choice, label = .writeCb r choice) ∨ ∃ succ choice, label = .readCb succ choice) ∧
        ∃ before, (∀ event ∈ before, event.calls = false) ∧
          events = before ++ [.delCallback .rdwr] := by
  have hstays : s'.dead = s.dead → False := fun hsame => by
    rw [hsame, halive] at hdead
    cases hdead
  cases section_of_run hrun with
  | began _ hturn =>
      obtain ⟨⟨rfl, hfree⟩, hquiet⟩ := hturn.dies halive hdead
      have hfree : s.wpdu.buf = none := hfree
      exact .inl ⟨.inr (by simp [failsToWrite, halive, hfree]),
        List.forall_mem_cons.mpr ⟨rfl, hquiet⟩⟩
  | resumedWait _ hturn =>
      obtain ⟨⟨rfl, hfree⟩, hquiet⟩ := hturn.dies halive hdead
      have hfree : s.wpdu.buf = none := hfree
      exact .inl ⟨.inr (by simp [failsToWrite, halive, hfree]), hquiet⟩
  | resumedComplete => exact (hstays (dead_awaitComplete ..)).elim
  | @wrote r choice _ _ hwrite =>
      cases hwrite with
      | @failed b _ bytes =>
          exact .inr ⟨.inl ⟨r, choice, rfl⟩, [.wrote b.id bytes], by simp [Event.calls], rfl⟩
      | nothing | part | whole => exact (hstays rfl).elim
  | @readFailed choice => exact .inr ⟨.inr ⟨false, choice, rfl⟩, [], by simp, rfl⟩
  | closed => exact .inl ⟨.inl rfl, by simp⟩
  | removed | wokeWait | wokeComplete | read => exact (hstays rfl).elim

end Sender

namespace Channel

/-! ## Calls of `write_cb` on a dead connection -/

/-- The descriptor of the connection is watched for writing, or on the way to
`write_cb`. -/
def Writes (s : Channel) : Prop := s.poll.Writes s.fd

instance (s : Channel) : Decidable s.Writes := inferInstanceAs (Decidable (s.poll.Writes s.fd))

/-- `closeconn`, and a `send` whose write fails, mark the connection dead only when its
descriptor is not watched for writing and not on the way to `write_cb`. -/
def quietDeath (s : Channel) : Label → Bool
  | .closeconn _ => s.conn.dead || !decide s.Writes
  | .send l => !s.conn.failsToWrite l || !decide s.Writes
  | _ => true

/-- Nobody calls `write_cb` of a dead connection. -/
def Safe (s : Channel) : Prop := s.conn.dead = true → s.poll.Deaf s.fd

theorem pollCalls_of_quiet {fd : Fd} {ch : ℕ} {events : List Event} (poll : PollMgr Agent)
    (hquiet : ∀ event ∈ events, event.calls = false) :
    events.foldlM (pollCall fd ch) poll = some poll := by
  induction events with
  | nil => rfl
  | cons event events ih =>
      obtain ⟨hevent, hrest⟩ := List.forall_mem_cons.mp hquiet
      have hsame : pollCall fd ch poll event = some poll := by
        cases event with
        | addCallback | delCallback => cases hevent
        | began | wrote | returned | blockRemoveFd => rfl
      rw [List.foldlM_cons, hsame]
      exact ih hrest

/-- A section keeps the connection safe, if those that mark it dead from outside of the
poll thread are quiet. -/
theorem Safe.runConn {s s' : Channel} {label : Sender.Label} (h : s.Safe)
    (hquiet : label = .closeconn ∨ s.conn.failsToWrite label = true → s.conn.dead = false →
      ¬ s.Writes)
    (hthread : (∃ r choice, label = .writeCb r choice) ∨
        (∃ succ choice, label = .readCb succ choice) →
      ∃ fd interest reg todo, s.poll.loop = .running fd interest reg todo)
    (hrun : s.runConn label = some s') : s'.Safe := by
  intro hdead'
  obtain ⟨events, hsection, hcalls, hfd⟩ := runConn_eq_some hrun
  rw [hfd]
  by_cases hdead : s.conn.dead = true
  · rw [pollCalls_of_quiet _ (Sender.calls_of_dead hdead hsection)] at hcalls
    rw [← Option.some.inj hcalls]
    exact h hdead
  · have halive : s.conn.dead = false := by simpa using hdead
    rcases Sender.dies_of_run halive hsection hdead' with ⟨hcause, hsilent⟩ |
      ⟨hcause, before, hsilent, rfl⟩
    · rw [pollCalls_of_quiet _ hsilent] at hcalls
      rw [← Option.some.inj hcalls]
      exact .inl (hquiet hcause halive)
    · obtain ⟨fd, interest, reg, todo, hloop⟩ := hthread hcause
      rw [List.foldlM_append, pollCalls_of_quiet _ hsilent] at hcalls
      have hdel : s.poll.delCallback s.fd .rdwr = some s'.poll := by
        simpa [pollCall] using hcalls
      exact .inr (PollMgr.unlisted_delCallback hloop hdel)

theorem Safe.runPoll {s s' : Channel} {label : PollMgr.Label Agent} (h : s.Safe)
    (hlabel : ∀ flag ch, label ≠ .addCallback s.fd flag ch) (hrun : s.runPoll label = some s') :
    s'.Safe := by
  intro hdead
  obtain ⟨hconn, hfd, events, hstep⟩ := runPoll_eq_some hrun
  rw [hfd]
  exact (PollMgr.approaches_of_step hlabel hstep).deaf (h (hconn ▸ hdead))

/-- The poll thread is in the callback that it has called. -/
theorem running_of_call {s s' : Channel} (hrun : s.runPoll .call = some s') :
    ∃ fd interest reg todo, s'.poll.loop = .running fd interest reg todo := by
  obtain ⟨-, -, events, hstep⟩ := runPoll_eq_some hrun
  generalize s'.poll = poll at hstep ⊢
  cases PollMgr.section_of_step hstep with
  | invoked => exact ⟨_, _, _, _, rfl⟩

/-- Every quiet step keeps the connection safe. -/
theorem Safe.step {s s' : Channel} {label : Label} (h : s.Safe)
    (hquiet : s.quietDeath label = true) (hstep : s.step label = some s') : s'.Safe := by
  cases label with
  | send l =>
      simp only [Channel.step] at hstep
      split_ifs at hstep with hin
      refine h.runConn (fun hcause halive => ?_) (fun hcallback => ?_) hstep
      · rcases hcause with rfl | hfails
        · cases hin
        · simpa [quietDeath, hfails] using hquiet
      · rcases hcallback with ⟨r, choice, rfl⟩ | ⟨succ, choice, rfl⟩ <;> cases hin
  | closeconn t =>
      simp only [Channel.step] at hstep
      split_ifs at hstep with hdead
      · exact Option.some.inj hstep ▸ h
      · obtain ⟨q, hclose, rfl⟩ := Option.map_eq_some_iff.mp hstep
        have hsafe : q.Safe := by
          refine h.runConn (fun _ halive => ?_) (fun hcallback => ?_) hclose
          · simpa [quietDeath, halive] using hquiet
          · rcases hcallback with ⟨r, choice, heq⟩ | ⟨succ, choice, heq⟩ <;> cases heq
        exact hsafe
  | blockRemoveFd a =>
      simp only [Channel.step] at hstep
      split_ifs at hstep
      have hbefore : Safe { s with ahead := s.ahead.erase a } := h
      exact hbefore.runPoll (fun flag ch heq => by cases heq) hstep
  | removed i =>
      obtain ⟨c, -, hback⟩ := Option.bind_eq_some_iff.mp hstep
      split_ifs at hback
      refine h.runConn (fun hcause _ => ?_) (fun hcallback => ?_) hback
      · rcases hcause with heq | hfails
        · cases heq
        · cases hfails
      · rcases hcallback with ⟨r, choice, heq⟩ | ⟨succ, choice, heq⟩ <;> cases heq
  | callback r succ choice =>
      obtain ⟨interest, -, hcall⟩ := Option.bind_eq_some_iff.mp hstep
      obtain ⟨q, hq, hsection⟩ := Option.bind_eq_some_iff.mp hcall
      have hsafe : q.Safe := h.runPoll (fun flag ch heq => by cases heq) hq
      refine hsafe.runConn (fun hcause _ => ?_) (fun _ => running_of_call hq) hsection
      rcases hcause with heq | hfails
      · cases interest <;> cases heq
      · cases interest <;> cases hfails
  | poll l =>
      simp only [Channel.step] at hstep
      split_ifs at hstep with hforeign
      refine h.runPoll (fun flag ch heq => ?_) hstep
      subst heq
      simp [foreign] at hforeign

/-- `write_cb` finds a safe connection alive. -/
theorem Safe.alive {s : Channel} (h : s.Safe) (hcallback : s.callback = some .write) :
    s.conn.dead = false := by
  by_contra hdead
  refine (h (by simpa using hdead)).not_atWrite ?_
  rw [callback] at hcallback
  split at hcallback
  · next fd interest reg todo hloop =>
      split_ifs at hcallback with hfd
      obtain rfl := Option.some.inj hcallback
      rw [hloop, ← hfd]
      rfl
  · cases hcallback

end Channel

/-! ## The references -/

/-- A connection and the count of its references. A thread keeps the reference that it has
called `send` or `closeconn` with until it returns; `closing` are the threads in
`closeconn` that do not return at once, and `doomed` says that `decref` has called the
destructor. -/
structure Shared where
  chan : Channel
  refno : ℤ := 1
  closing : List ℕ := []
  doomed : Bool := false

namespace Shared

/-- The threads in `send` and `closeconn`. -/
def inside (s : Shared) : ℕ := s.chan.conn.senders + s.closing.length

/-- The steps in which a thread calls `send` or `closeconn`. -/
def enters : Channel.Label → Bool
  | .send l => Sender.begins l
  | .closeconn _ => true
  | _ => false

/-- The threads in `closeconn` after a step. -/
def closers (s : Shared) : Channel.Label → List ℕ
  | .closeconn t => if s.chan.conn.dead then s.closing else t :: s.closing
  | .poll (.resume (.closer t)) => s.closing.erase t
  | _ => s.closing

/-- The steps: those of the connection, and changes of the count. A thread calls `send`,
`closeconn` and `decref` only with a reference that no thread inside counts on. -/
inductive Label
  | chan (label : Channel.Label)
  | incref
  | decref

/-- One step. `decref` calls the destructor when no reference is left of a dead
connection. -/
def step (s : Shared) : Label → Option Shared
  | .chan label =>
      if enters label = true → (s.inside : ℤ) < s.refno then
        (s.chan.step label).map fun chan => { s with chan := chan, closing := s.closers label }
      else none
  | .incref => if s.doomed then none else some { s with refno := s.refno + 1 }
  | .decref =>
      if (s.inside : ℤ) < s.refno then
        some { s with
          refno := s.refno - 1
          doomed := s.refno - 1 == 0 && s.chan.conn.dead }
      else none

/-- A connection from its constructor on. The poll manager may be anywhere. -/
def system (poll : PollMgr Agent) (fd : Fd) (ch : ℕ) : System Shared Label where
  init := { chan := { fd, ch, poll := ((poll.addCallback fd .rdonly ch).map Prod.fst).getD poll } }
  step := step

/-- The assertions: of `write_cb`, of `writepdu` as `write_cb` calls it (`send` calls it
with a `solong` of zero), of `write_cb` behind `writepdu`, and of the destructor. -/
structure Asserts (s : Shared) : Prop where
  alive : s.chan.callback = some .write → s.chan.conn.dead = false
  solong : s.chan.conn.wpdu.sz ≠ 0 → 0 ≤ s.chan.conn.wpdu.solong
  solong_after : ∀ r w bytes, writepdu s.chan.conn.wpdu r = some (true, w, bytes) → 0 ≤ w.solong
  destructor : s.doomed = true → s.chan.conn.dead = true ∧ s.chan.conn.wpdu.buf = none

/-- Every thread inside is covered by a reference, and there is none when the destructor
is called. -/
structure Covered (s : Shared) : Prop where
  steady : s.chan.conn.Steady
  inside_le : (s.inside : ℤ) ≤ s.refno
  doomed : s.doomed = true → s.refno = 0 ∧ s.chan.conn.dead = true

theorem closers_length_le (s : Shared) (label : Channel.Label) (hsend : ∀ l, label ≠ .send l) :
    (s.closers label).length ≤ s.closing.length + if enters label then 1 else 0 := by
  cases label with
  | send l => exact absurd rfl (hsend l)
  | closeconn t =>
      simp only [closers, enters, if_true]
      split_ifs
      · exact Nat.le_succ _
      · exact le_rfl
  | poll l =>
      cases l with
      | resume a =>
          cases a with
          | closer t => exact (List.length_erase_le).trans (Nat.le_add_right _ _)
          | call | other => exact le_rfl
      | _ => exact le_rfl
  | blockRemoveFd | removed | callback => exact le_rfl

/-- A step of the connection brings in one thread at most, if it calls `send` or
`closeconn`. -/
theorem Covered.chan {s : Shared} (h : s.Covered) {label : Channel.Label} {chan : Channel}
    (hstep : s.chan.step label = some chan) :
    chan.conn.Steady ∧
      chan.conn.senders + (s.closers label).length ≤
        s.inside + (if enters label then 1 else 0) ∧
      (s.chan.conn.dead = true → chan.conn.dead = true) := by
  by_cases hsend : ∃ l, label = .send l
  · obtain ⟨l, rfl⟩ := hsend
    simp only [Channel.step] at hstep
    split_ifs at hstep
    obtain ⟨events, hrun, -⟩ := Channel.runConn_eq_some hstep
    obtain ⟨hsteady, hsenders⟩ := h.steady.run hrun
    refine ⟨hsteady, ?_, (Decays.run hrun).dead⟩
    change _ ≤ s.chan.conn.senders + s.closing.length + if Sender.begins l then 1 else 0
    simp only [closers]
    omega
  · have hclosers := closers_length_le s label fun l heq => hsend ⟨l, heq⟩
    rcases Channel.conn_of_step hstep with hsame | ⟨section_, events, hrun, hpart⟩
    · rw [hsame]
      refine ⟨h.steady, ?_, id⟩
      simp only [inside]
      omega
    · obtain ⟨hsteady, hsenders⟩ := h.steady.run hrun
      refine ⟨hsteady, ?_, (Decays.run hrun).dead⟩
      have hold : Sender.begins section_ = false := by
        cases section_ with
        | send pdu r => exact absurd ⟨_, hpart⟩ hsend
        | _ => rfl
      simp only [hold, Bool.false_eq_true, if_false, Nat.add_zero] at hsenders
      simp only [inside]
      omega

theorem Covered.step {s s' : Shared} {label : Label} (h : s.Covered)
    (hstep : s.step label = some s') : s'.Covered := by
  cases label with
  | chan label =>
      obtain ⟨hown, hmap⟩ := Option.ite_none_right_eq_some.mp hstep
      obtain ⟨chan, hchan, rfl⟩ := Option.map_eq_some_iff.mp hmap
      obtain ⟨hsteady, hinside, hdead⟩ := h.chan hchan
      have hle := h.inside_le
      refine ⟨hsteady, ?_, fun hdoomed => ⟨(h.doomed hdoomed).1, hdead (h.doomed hdoomed).2⟩⟩
      simp only [inside] at hinside hle hown ⊢
      split_ifs at hinside with henters
      · have hlt := hown henters
        omega
      · omega
  | incref =>
      obtain ⟨hdoomed, heq⟩ := Option.ite_none_left_eq_some.mp hstep
      obtain rfl := Option.some.inj heq
      have hle := h.inside_le
      refine ⟨h.steady, ?_, fun htrue => absurd htrue hdoomed⟩
      simp only [inside] at hle ⊢
      omega
  | decref =>
      obtain ⟨hlt, heq⟩ := Option.ite_none_right_eq_some.mp hstep
      obtain rfl := Option.some.inj heq
      refine ⟨h.steady, ?_, fun hdoomed => by simpa using hdoomed⟩
      simp only [inside] at hlt ⊢
      omega

variable {poll : PollMgr Agent} {fd : Fd} {ch : ℕ}

theorem covered_of_run {guard : Shared → Label → Prop} {labels : List Label} {reached : Shared}
    (hrun : (system poll fd ch).Run guard labels reached) : reached.Covered := by
  refine hrun.invariant Covered ⟨⟨rfl, fun hne => absurd rfl hne⟩, ?_, fun hno => by cases hno⟩
    fun _ h _ hstep => h.step hstep
  exact zero_le_one

/-- The other threads mark the connection dead quietly. -/
def quietDeath (s : Shared) : Label → Bool
  | .chan label => s.chan.quietDeath label
  | _ => true

theorem safe_of_run {labels : List Label} {reached : Shared}
    (hrun : (system poll fd ch).Run (fun source label => quietDeath source label = true) labels
      reached) : reached.chan.Safe := by
  refine hrun.invariant (fun s => s.chan.Safe) (fun hdead => by cases hdead) ?_
  intro _ source label target _ h hquiet hstep
  cases label with
  | chan label =>
      obtain ⟨-, hmap⟩ := Option.ite_none_right_eq_some.mp hstep
      obtain ⟨chan, hchan, rfl⟩ := Option.map_eq_some_iff.mp hmap
      exact h.step hquiet hchan
  | incref =>
      obtain ⟨-, heq⟩ := Option.ite_none_left_eq_some.mp hstep
      exact Option.some.inj heq ▸ h
  | decref =>
      obtain ⟨-, heq⟩ := Option.ite_none_right_eq_some.mp hstep
      exact Option.some.inj heq ▸ h

/-- The assertions hold of a safe connection whose threads are covered. -/
theorem Covered.asserts {s : Shared} (h : s.Covered) (hsafe : s.chan.Safe) : s.Asserts := by
  refine ⟨hsafe.alive, h.steady.solong, fun r w bytes hwrite => (writepdu_keeps hwrite).2.2.1 rfl,
    fun hdoomed => ?_⟩
  obtain ⟨hzero, hdead⟩ := h.doomed hdoomed
  refine ⟨hdead, ?_⟩
  have hle := h.inside_le
  have howners := h.steady.owners_eq
  by_contra hbuf
  rw [if_pos (Option.isSome_iff_ne_none.mpr hbuf)] at howners
  simp only [inside, Sender.senders] at hle
  omega

/-- No assertion fails in a run in which `closeconn` and a failing `send` mark the
connection dead only when its descriptor is not watched for writing and not on the way to
`write_cb`. -/
theorem connectionAssertions {labels : List Label} {reached : Shared}
    (hrun : (system poll fd ch).Run (fun source label => quietDeath source label = true) labels
      reached) : reached.Asserts :=
  (covered_of_run hrun).asserts (safe_of_run hrun)

/-- The write of a PDU is completed by `write_cb`, which then takes the descriptor out of
those that are watched for writing. The connection is closed, and its last reference given
back. -/
def closedQuietlyRun : List Label :=
  [.chan (.send (.send [0, 0, 0, 0, 7] (.accepted 3))),
    .chan (.poll .handOver), .chan (.poll .copySets), .chan (.poll (.ready [] [5])),
    .chan (.poll .test), .chan (.poll .load), .chan (.callback (.accepted 2) true 0),
    .chan (.poll .callbackReturns), .chan (.send (.resumeComplete 0)),
    .chan (.poll .handOver), .chan (.poll .copySets), .chan (.poll (.ready [] [5])),
    .chan (.poll .test), .chan (.poll .load), .chan (.callback .again true 0),
    .chan (.poll .callbackReturns), .chan (.closeconn 0),
    .chan (.blockRemoveFd (.closer 0)), .chan (.poll .handOver),
    .chan (.poll (.resume (.closer 0))), .decref]

theorem connectionAssertions_closedQuietly :
    ∃ reached, (system (PollMgr.new 3) 5 1).Run
        (fun source label => quietDeath source label = true) closedQuietlyRun reached ∧
      reached.doomed = true ∧ reached.chan.conn.dead = true ∧
      reached.chan.conn.wpdu.buf = none := by
  have hexec : ((system (PollMgr.new 3) 5 1).execIf quietDeath (system (PollMgr.new 3) 5 1).init
      closedQuietlyRun).any (fun s => s.doomed) = true := by
    decide +kernel
  obtain ⟨reached, hrun, hdoomed⟩ := System.exists_run_of_execIf hexec
  exact ⟨reached, hrun, hdoomed, (connectionAssertions hrun).destructor hdoomed⟩

/-- A part of a PDU has been written, and the poll thread is about to call `write_cb` for
the rest, when the connection is closed. -/
def closedBehindSelectRun : List Label :=
  [.incref, .chan (.send (.send [0, 0, 0, 0, 7] (.accepted 3))),
    .chan (.poll .handOver), .chan (.poll .copySets), .chan (.poll (.ready [] [5])),
    .chan (.poll .test), .chan (.poll .load), .chan (.closeconn 0)]

/-- `write_cb` is called on the dead connection, where its assertion fails. -/
theorem closedBehindSelect_fails :
    ∃ reached, (system (PollMgr.new 3) 5 1).Run anyStep closedBehindSelectRun reached ∧
      (reached.chan.callback = some .write ∧ reached.chan.conn.dead = true) ∧
      (∀ r succ choice, reached.step (.chan (.callback r succ choice)) = none) ∧
      ¬ reached.Asserts := by
  have hexec : ((system (PollMgr.new 3) 5 1).exec (system (PollMgr.new 3) 5 1).init
      closedBehindSelectRun).any
        (fun s => s.chan.callback == some .write && s.chan.conn.dead) = true := by
    decide +kernel
  obtain ⟨reached, hrun, htest⟩ := System.exists_run_of_exec hexec
  obtain ⟨hcallback, hdead⟩ : reached.chan.callback = some .write ∧
      reached.chan.conn.dead = true := by simpa using htest
  refine ⟨reached, hrun, ⟨hcallback, hdead⟩, fun r succ choice => ?_, fun hasserts => ?_⟩
  · cases hcall : reached.chan.runPoll .call with
    | none => simp [step, enters, Channel.step, hcallback, hcall]
    | some q =>
        have hq : q.conn.dead = true := by rw [(Channel.runPoll_eq_some hcall).1, hdead]
        have hsection : q.runConn (.writeCb r choice) = none := by
          simp [Channel.runConn, Sender.run, Sender.writeCb, hq]
        simp [step, enters, Channel.step, hcallback, hcall, Channel.callbackSection, hsection]
  · have halive := hasserts.alive hcallback
    rw [hdead] at halive
    cases halive

end Shared

end YfsLab.Connection
