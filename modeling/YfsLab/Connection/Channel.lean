/-
# A connection and its poll manager

The write side of a connection together with the poll manager that calls it back.
The sections of `send`, `write_cb` and `read_cb` make their calls of `add_callback` and
`del_callback` while they hold the mutex of the connection; `block_remove_fd` is called
without it, by a `send` whose write has failed and by `closeconn`. The poll manager
serves other connections as well.
-/

import YfsLab.Connection.Sender
import YfsLab.Poll.PollMgr

namespace YfsLab.Connection

open Monitor Poll Transition

/-- The threads that may call `block_remove_fd`: a call of `send` and a call of
`closeconn` on this connection, and those of other connections. -/
inductive Agent
  | call (id : ℕ)
  | closer (t : ℕ)
  | other (t : ℕ)
  deriving DecidableEq, Repr

/-- A connection, as the poll manager knows it, with the threads that are about to call
`block_remove_fd` and those that have come back from it. -/
structure Channel where
  fd : Fd
  ch : ℕ
  conn : Sender := {}
  poll : PollMgr Agent
  ahead : List Agent := []
  returned : List Agent := []

namespace Channel

/-- The calls of the poll manager in a section. -/
def pollCall (fd : Fd) (ch : ℕ) (poll : PollMgr Agent) : Event → Option (PollMgr Agent)
  | .addCallback flag => (poll.addCallback fd flag ch).map Prod.fst
  | .delCallback flag => poll.delCallback fd flag
  | _ => some poll

/-- The calls of `send` that a section sends to `block_remove_fd`. -/
def removers (events : List Event) : List Agent :=
  events.filterMap fun event =>
    match event with
    | .blockRemoveFd id => some (.call id)
    | _ => none

/-- A mutex-protected section of the connection. -/
def runConn (s : Channel) (label : Sender.Label) : Option Channel :=
  (s.conn.run label).bind fun (conn, events) =>
    (events.foldlM (pollCall s.fd s.ch) s.poll).map fun poll =>
      { s with conn := conn, poll := poll, ahead := s.ahead ++ removers events }

/-- The sections of threads in `send` that follow nothing but a wait. -/
def inSend : Sender.Label → Bool
  | .send .. | .wakeWait _ | .resumeWait .. | .wakeComplete _ | .resumeComplete _ => true
  | _ => false

/-- The poll thread is about to call a method of this connection. -/
def callback (s : Channel) : Option Interest :=
  match s.poll.loop with
  | .calling fd interest _ _ => if fd = s.fd then some interest else none
  | _ => none

/-- The section that the call runs. -/
def callbackSection (r : WriteResult) (succ : Bool) (choice : ℕ) : Interest → Sender.Label
  | .read => .readCb succ choice
  | .write => .writeCb r choice

/-- The steps of the poll manager in which the connection has no part: other descriptors
are watched and removed, and the poll thread goes its way up to a call of this
connection's methods. -/
def foreign (s : Channel) : PollMgr.Label Agent → Bool
  | .addCallback fd _ _ | .delCallback fd _ => fd != s.fd
  | .blockRemoveFd (.other _) fd => fd != s.fd
  | .blockRemoveFd _ _ => false
  | .call => s.callback.isNone
  | _ => true

/-- The threads that come back from `block_remove_fd`. -/
def returns (events : List (Poll.Event Agent)) : List Agent :=
  events.filterMap fun event =>
    match event with
    | .returned a _ => some a
    | _ => none

/-- A step of the poll manager. -/
def runPoll (s : Channel) (label : PollMgr.Label Agent) : Option Channel :=
  (s.poll.step label).map fun (poll, events) =>
    { s with poll := poll, returned := s.returned ++ returns events }

/-- The steps: a section of `send`, the section of `closeconn`, a call of
`block_remove_fd` and the section of `send` behind it, a call of the poll thread with
what `write` or `readpdu` returns, and a step of the poll manager. -/
inductive Label
  | send (label : Sender.Label)
  | closeconn (t : ℕ)
  | blockRemoveFd (a : Agent)
  | removed (i : ℕ)
  | callback (r : WriteResult) (succ : Bool) (choice : ℕ)
  | poll (label : PollMgr.Label Agent)

/-- One step. `closeconn` returns at once when the connection is dead. -/
def step (s : Channel) : Label → Option Channel
  | .send label => if inSend label then s.runConn label else none
  | .closeconn t =>
      if s.conn.dead then some s
      else (s.runConn .closeconn).map fun s => { s with ahead := s.ahead ++ [.closer t] }
  | .blockRemoveFd a =>
      if a ∈ s.ahead then
        { s with ahead := s.ahead.erase a }.runPoll (.blockRemoveFd a s.fd)
      else none
  | .removed i =>
      s.conn.removing[i]?.bind fun c =>
        if .call c.id ∈ s.returned then s.runConn (.removed i) else none
  | .callback r succ choice =>
      s.callback.bind fun interest =>
        (s.runPoll .call).bind fun s => s.runConn (callbackSection r succ choice interest)
  | .poll label => if s.foreign label then s.runPoll label else none

/-- A new connection, which its constructor has registered for reading. -/
def new (pipefd fd : Fd) (ch : ℕ) : Channel where
  fd := fd
  ch := ch
  poll := (((PollMgr.new pipefd).addCallback fd .rdonly ch).map Prod.fst).getD
    (PollMgr.new pipefd)

/-- A connection from its constructor on. -/
def system (pipefd fd : Fd) (ch : ℕ) : System Channel Label where
  init := new pipefd fd ch
  step := step

/-! ## What a step does to the connection -/

/-- The steps that run a given section of the connection. -/
def IsSection (s : Channel) (label : Label) : Sender.Label → Prop
  | .closeconn => ∃ t, label = .closeconn t ∧ s.conn.dead = false
  | .removed i => label = .removed i
  | .writeCb r choice => ∃ succ, label = .callback r succ choice ∧ s.callback = some .write
  | .readCb succ choice => ∃ r, label = .callback r succ choice ∧ s.callback = some .read
  | section_ => label = .send section_

/-- What a section does to the connection and to the poll manager. -/
theorem runConn_eq_some {s s' : Channel} {label : Sender.Label} (hrun : s.runConn label = some s') :
    ∃ events, s.conn.run label = some (s'.conn, events) ∧
      events.foldlM (pollCall s.fd s.ch) s.poll = some s'.poll ∧ s'.fd = s.fd := by
  obtain ⟨⟨conn, events⟩, hsection, hpoll⟩ := Option.bind_eq_some_iff.mp hrun
  obtain ⟨poll, hcalls, rfl⟩ := Option.map_eq_some_iff.mp hpoll
  exact ⟨events, hsection, hcalls, rfl⟩

/-- A step of the poll manager leaves the connection alone. -/
theorem runPoll_eq_some {s s' : Channel} {label : PollMgr.Label Agent}
    (hrun : s.runPoll label = some s') :
    s'.conn = s.conn ∧ s'.fd = s.fd ∧ ∃ events, s.poll.step label = some (s'.poll, events) := by
  obtain ⟨⟨poll, events⟩, hstep, rfl⟩ := Option.map_eq_some_iff.mp hrun
  exact ⟨rfl, rfl, events, hstep⟩

/-- A step runs a section of the connection, or leaves the connection alone. -/
theorem conn_of_step {s s' : Channel} {label : Label} (hstep : s.step label = some s') :
    s'.conn = s.conn ∨ ∃ section_ events, s.conn.run section_ = some (s'.conn, events) ∧
      s.IsSection label section_ := by
  cases label with
  | send l =>
      simp only [step] at hstep
      split_ifs at hstep with hin
      obtain ⟨events, hrun, -⟩ := runConn_eq_some hstep
      refine .inr ⟨l, events, hrun, ?_⟩
      cases l with
      | send | wakeWait | resumeWait | wakeComplete | resumeComplete => rfl
      | removed | writeCb | readCb | closeconn => cases hin
  | closeconn t =>
      simp only [step] at hstep
      split_ifs at hstep with hdead
      · exact .inl (by rw [← Option.some.inj hstep])
      · obtain ⟨q, hclose, rfl⟩ := Option.map_eq_some_iff.mp hstep
        obtain ⟨events, hrun, -⟩ := runConn_eq_some hclose
        exact .inr ⟨.closeconn, events, hrun, t, rfl, by simpa using hdead⟩
  | blockRemoveFd a =>
      simp only [step] at hstep
      split_ifs at hstep
      exact .inl (runPoll_eq_some hstep).1
  | removed i =>
      obtain ⟨c, -, hback⟩ := Option.bind_eq_some_iff.mp hstep
      split_ifs at hback
      obtain ⟨events, hrun, -⟩ := runConn_eq_some hback
      exact .inr ⟨.removed i, events, hrun, rfl⟩
  | callback r succ choice =>
      obtain ⟨interest, hinterest, hcall⟩ := Option.bind_eq_some_iff.mp hstep
      obtain ⟨q, hq, hsection⟩ := Option.bind_eq_some_iff.mp hcall
      obtain ⟨events, hrun, -⟩ := runConn_eq_some hsection
      rw [(runPoll_eq_some hq).1] at hrun
      refine .inr ⟨_, events, hrun, ?_⟩
      cases interest with
      | read => exact ⟨r, rfl, hinterest⟩
      | write => exact ⟨succ, rfl, hinterest⟩
  | poll l =>
      simp only [step] at hstep
      split_ifs at hstep
      exact .inl (runPoll_eq_some hstep).1

end Channel

end YfsLab.Connection
