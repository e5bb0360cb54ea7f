/-
# Both directions of a connection

Each end of a connection sends and reads, and one flag says that it is dead. Whichever
of its callbacks and callers of `send` finds out sets it, for both directions. Seen from
one direction, everything that the other one does is a section of the sending end or the
closing of the reading end.
-/

import YfsLab.Connection.Link

namespace YfsLab.Connection

open BigEndian Transition Wire

/-- One end of a connection: its write side with the history, `rpdu_`, and the PDUs that
its `got_pdu` has accepted. -/
structure Endpoint where
  sender : Sender := {}
  log : List Event := []
  rpdu : Charbuf := {}
  accepted : List Bytes := []

/-- What the read side works on. -/
def Endpoint.conn (e : Endpoint) : Conn where
  dead := e.sender.dead
  rpdu := e.rpdu

/-- The two ends of a connection, and the bytes on the way from each of them. -/
structure Duplex where
  ends : Bool → Endpoint := fun _ => {}
  wires : Bool → Bytes := fun _ => []

namespace Duplex

/-- Whether a section is `read_cb`, which is a step of its own here. -/
def isReadCb : Sender.Label → Bool
  | .readCb .. => true
  | _ => false

/-- The steps: a section of `send`, `write_cb` or `closeconn`, and a call of `read_cb`,
at one of the ends. -/
inductive Label
  | sender (e : Bool) (label : Sender.Label)
  | readCb (e : Bool) (errno : Errno) (arrivals : List Arrival) (accept : Bool) (choice : ℕ)

/-- A section of the write side. -/
def runSender (d : Duplex) (e : Bool) (label : Sender.Label) : Option Duplex :=
  ((d.ends e).sender.run label).map fun (sender, events) =>
    { ends := Function.update d.ends e
        { d.ends e with sender, log := (d.ends e).log ++ events }
      wires := Function.update d.wires e (d.wires e ++ written events) }

/-- `read_cb`. A failure of `readpdu` is a failure of the whole connection. -/
def readCb (d : Duplex) (e : Bool) (errno : Errno) (arrivals : List Arrival) (accept : Bool)
    (choice : ℕ) : Option Duplex :=
  (Connection.readCb socketOs (fun _ => accept) (d.ends e).conn
    { pending := d.wires !e, arrivals, errno }).map fun ((conn, handed), socket) =>
      let (sender, events) := (d.ends e).sender.readCb (!conn.dead) choice
      { ends := Function.update d.ends e
          { sender, log := (d.ends e).log ++ events, rpdu := conn.rpdu
            accepted := (d.ends e).accepted ++ handed.filter fun _ => accept }
        wires := Function.update d.wires (!e) socket.pending }

/-- One step. -/
def step (d : Duplex) : Label → Option Duplex
  | .sender e label => if isReadCb label then none else d.runSender e label
  | .readCb e errno arrivals accept choice => d.readCb e errno arrivals accept choice

/-- A new connection. -/
def system : System Duplex Label where
  init := {}
  step := step

/-! ## One direction -/

/-- What one end sends and the other one reads. -/
def link (d : Duplex) (e : Bool) : Link where
  sender := (d.ends e).sender
  log := (d.ends e).log
  pending := d.wires e
  conn := (d.ends !e).conn
  accepted := (d.ends !e).accepted

/-- `read_cb` leaves the same flag for both directions. -/
theorem dead_readCb {s : Sender} {rpdu : Charbuf} {os : Os Socket} {gotPdu : Bytes → Bool}
    {conn : Conn} {handed : List Bytes} {socket socket' : Socket} (choice : ℕ)
    (hread : Connection.readCb os gotPdu { dead := s.dead, rpdu } socket =
      some ((conn, handed), socket')) :
    (s.readCb (!conn.dead) choice).1.dead = conn.dead := by
  cases hdead : s.dead with
  | true =>
      obtain ⟨⟨rfl, -⟩, -⟩ := by simpa [Connection.readCb, hdead] using hread
      simp [Sender.readCb, hdead]
  | false =>
      cases hconn : conn.dead with
      | true => simp [Sender.readCb, hdead]
      | false => simp [Sender.readCb, hdead]

theorem written_readCb (s : Sender) (succ : Bool) (choice : ℕ) :
    written (s.readCb succ choice).2 = [] := by
  rw [Sender.readCb]
  split_ifs
  · rfl
  · rfl

/-- The sections of the sending end. -/
theorem link_runSender {d d' : Duplex} {e : Bool} {label : Sender.Label}
    (hrun : d.runSender e label = some d') :
    (d.link e).step (.sender label) = some (d'.link e) := by
  obtain ⟨⟨sender, events⟩, hsection, rfl⟩ := Option.map_eq_some_iff.mp hrun
  have hother : (!e) ≠ e := Bool.not_ne_self e
  simp only [Link.step, link, hsection, Option.map_some, Function.update_self,
    Function.update_of_ne hother]

/-- The sections of the reading end close the connection, or leave the link alone. -/
theorem link_runSender_not {d d' : Duplex} {e : Bool} {label : Sender.Label}
    (hrun : d.runSender (!e) label = some d') :
    d'.link e = d.link e ∨ (d.link e).step .closeconn = some (d'.link e) := by
  obtain ⟨⟨sender, events⟩, hsection, rfl⟩ := Option.map_eq_some_iff.mp hrun
  have hother : e ≠ !e := Bool.self_ne_not e
  have hdead := (Decays.run hsection).dead
  simp only [Link.step, link, Endpoint.conn, Function.update_self, Function.update_of_ne hother]
  cases hbefore : (d.ends !e).sender.dead with
  | true =>
      left
      rw [hdead hbefore]
  | false =>
      cases sender.dead with
      | true => exact .inr rfl
      | false => exact .inl rfl

/-- `read_cb` of the sending end. -/
theorem link_readCb {d d' : Duplex} {e : Bool} {errno : Errno} {arrivals : List Arrival}
    {accept : Bool} {choice : ℕ} (hread : d.readCb e errno arrivals accept choice = some d') :
    ∃ succ, (d.link e).step (.sender (.readCb succ choice)) = some (d'.link e) := by
  obtain ⟨⟨⟨conn, handed⟩, socket⟩, -, rfl⟩ := Option.map_eq_some_iff.mp hread
  have hother : (!e) ≠ e := Bool.not_ne_self e
  refine ⟨!conn.dead, ?_⟩
  simp only [Link.step, link, Sender.run, Option.map_some, Function.update_self,
    Function.update_of_ne hother, Function.update_of_ne hother.symm, written_readCb,
    List.append_nil]

/-- `read_cb` of the reading end. -/
theorem link_readCb_not {d d' : Duplex} {e : Bool} {errno : Errno} {arrivals : List Arrival}
    {accept : Bool} {choice : ℕ} (hread : d.readCb (!e) errno arrivals accept choice = some d') :
    (d.link e).step (.readCb errno arrivals accept) = some (d'.link e) := by
  obtain ⟨⟨⟨conn, handed⟩, socket⟩, hcall, rfl⟩ := Option.map_eq_some_iff.mp hread
  have hother : e ≠ !e := Bool.self_ne_not e
  have hdead := dead_readCb choice hcall
  simp only [Endpoint.conn, Bool.not_not] at hcall
  simp only [Link.step, link, Endpoint.conn, hcall, Option.map_some, Function.update_self,
    Function.update_of_ne hother, Bool.not_not, hdead]

/-- Each direction of a step is a step of a link, or nothing. -/
theorem link_of_step {d d' : Duplex} {label : Label} (hstep : d.step label = some d') (e : Bool) :
    d'.link e = d.link e ∨ ∃ label', (d.link e).step label' = some (d'.link e) := by
  cases label with
  | sender e' label =>
      simp only [step] at hstep
      split_ifs at hstep
      rcases Bool.eq_or_eq_not e' e with rfl | rfl
      · exact .inr ⟨_, link_runSender hstep⟩
      · exact (link_runSender_not hstep).imp_right fun hclosed => ⟨_, hclosed⟩
  | readCb e' errno arrivals accept choice =>
      rcases Bool.eq_or_eq_not e' e with rfl | rfl
      · obtain ⟨succ, hread⟩ := link_readCb hstep
        exact .inr ⟨_, hread⟩
      · exact .inr ⟨_, link_readCb_not hstep⟩

/-- Each direction of a run is a run of a link. -/
theorem exists_link_run {labels : List Label} {d : Duplex} (hrun : system.Run anyStep labels d)
    (e : Bool) : ∃ labels', Link.system.Run anyStep labels' (d.link e) := by
  have hinit : system.init.link e = Link.system.init := rfl
  refine hrun.project (fun d => d.link e) hinit ?_
  intro _ source label target _ _ hstep
  rcases link_of_step hstep e with hsame | ⟨label', hlabel'⟩
  · exact .inl hsame
  · exact .inr ⟨label', trivial, hlabel'⟩

theorem carries_of_run {labels : List Label} {d : Duplex} (hrun : system.Run anyStep labels d)
    (e : Bool) : (d.link e).Carries := by
  obtain ⟨labels', hlink⟩ := exists_link_run hrun e
  exact Link.carries_of_run hlink

/-- A step in terms of the PDUs that one end has written and the other one has accepted. -/
theorem advances_of_step {labels : List Label} {d d' : Duplex} {label : Label}
    (hrun : system.Run anyStep labels d) (hstep : d.step label = some d') (e : Bool)
    {pdus : List Bytes} (hwrote : Link.Wrote (d.ends e).log pdus) :
    ∃ more new, Link.Advances (d.link e) (d'.link e) pdus more new := by
  rcases link_of_step hstep e with hsame | ⟨label', hlabel'⟩
  · rw [hsame]
    exact ⟨[], [], Link.advances_refl hwrote⟩
  · exact (carries_of_run hrun e).advances hlabel' hwrote

end Duplex

end YfsLab.Connection
