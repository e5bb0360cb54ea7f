/-
# Connections carry PDUs

The network of the system moves whole PDUs, and loses none while both ends of a connection
are alive. Here this is what connections do: a connection with its bytes, the pieces they
are written and read in, its callbacks and its waiting senders makes no other moves than a
connection of the network, for both directions at once.
-/

import YfsLab.Connection.Duplex
import YfsLab.Rpc.SystemSteps

namespace YfsLab.Rpc

open BigEndian Transition Wire

namespace Conn

/-! ## The moves of a connection -/

/-- What happens to a connection: a PDU is sent at one of its ends, one arrives there, an
end finds the connection dead, or the last PDUs on the way get lost. -/
inductive Move
  | send (atClient : Bool) (pdu : Bytes)
  | arrive (atClient : Bool) (pdu : Bytes)
  | die (atClient : Bool)
  | lose (up down : ℕ)

/-- One move. A dead end neither sends nor reads, PDUs arrive in the order in which they
were sent, and they get lost only when an end is dead. -/
def move (c : Conn) : Move → Option Conn
  | .send true pdu => if c.cdead then none else some (c.sendUp true pdu)
  | .send false pdu => if c.sdead then none else some (c.sendDown true pdu)
  | .arrive true pdu =>
      if c.cdead = false ∧ c.down.head? = some pdu then some { c with down := c.down.tail }
      else none
  | .arrive false pdu =>
      if c.sdead = false ∧ c.up.head? = some pdu then some { c with up := c.up.tail }
      else none
  | .die atClient => some (c.die atClient)
  | .lose up down => if c.cdead || c.sdead then some (c.lose up down) else none

/-- A connection of its own. -/
def transport (owner : ClientId) : System Conn Move where
  init := { owner }
  step := move

/-- The PDUs that one end has sent. -/
def sentAt (e : Bool) (moves : List Move) : List Bytes :=
  moves.filterMap fun move =>
    match move with
    | .send e' pdu => if e' = e then some pdu else none
    | _ => none

/-- The PDUs that have arrived at one end. -/
def arrivedAt (e : Bool) (moves : List Move) : List Bytes :=
  moves.filterMap fun move =>
    match move with
    | .arrive e' pdu => if e' = e then some pdu else none
    | _ => none

/-- What a step of the system does to a connection is nothing, or a move. -/
theorem move_of_carries {σ : Type} {net : Net σ} {n : ConnId} {conn conn' : Conn}
    {label : Net.Label} (hcarries : Net.Carries net n conn label conn') :
    conn' = conn ∨ ∃ move, conn.move move = some conn' := by
  have hup : ∀ ok pdu, conn.sendUp ok pdu = conn ∨
      ∃ move, conn.move move = some (conn.sendUp ok pdu) := by
    intro ok pdu
    by_cases hdead : conn.cdead = true
    · exact .inl (by simp [sendUp, hdead])
    · cases ok with
      | true => exact .inr ⟨.send true pdu, by simp [move, hdead]⟩
      | false => exact .inr ⟨.die true, by simp [move, die, sendUp, hdead]⟩
  have hdown : ∀ ok pdu, conn.sendDown ok pdu = conn ∨
      ∃ move, conn.move move = some (conn.sendDown ok pdu) := by
    intro ok pdu
    by_cases hdead : conn.sdead = true
    · exact .inl (by simp [sendDown, hdead])
    · cases ok with
      | true => exact .inr ⟨.send false pdu, by simp [move, hdead]⟩
      | false => exact .inr ⟨.die false, by simp [move, die, sendDown, hdead]⟩
  cases hcarries with
  | same => exact .inl rfl
  | sentUp => exact hup _ _
  | @delivered pdu rest hdead hqueue =>
      exact .inr ⟨.arrive true pdu, by simp [move, hdead, hqueue]⟩
  | @received d pdu rest hdead hqueue =>
      exact .inr ⟨.arrive false pdu, by simp [move, hdead, hqueue]⟩
  | replied | refused => exact hdown _ _
  | @died atClient => exact .inr ⟨.die atClient, rfl⟩
  | @lost up down hdead => exact .inr ⟨.lose up down, by simp [move, hdead]⟩
  | restarted => exact .inr ⟨.die false, rfl⟩

/-! ## Both directions at once -/

/-- A connection with these flags and queues at and from its two ends. -/
def of (owner : ClientId) (dead : Bool → Bool) (queue : Bool → List Bytes) : Conn where
  owner := owner
  cdead := dead true
  sdead := dead false
  up := queue true
  down := queue false

variable {owner : ClientId} {dead : Bool → Bool} {queue : Bool → List Bytes} {e : Bool}

theorem move_send {pdu : Bytes} (halive : dead e = false) :
    (of owner dead queue).move (.send e pdu) =
      some (of owner dead (Function.update queue e (queue e ++ [pdu]))) := by
  cases e with
  | true => simp [move, of, sendUp, halive]
  | false => simp [move, of, sendDown, halive]

theorem move_arrive {pdu : Bytes} {rest : List Bytes} (halive : dead (!e) = false)
    (hqueue : queue e = pdu :: rest) :
    (of owner dead queue).move (.arrive (!e) pdu) =
      some (of owner dead (Function.update queue e rest)) := by
  cases e with
  | true =>
      rw [Bool.not_true] at halive
      simp [move, of, halive, hqueue]
  | false =>
      rw [Bool.not_false] at halive
      simp [move, of, halive, hqueue]

theorem move_die :
    (of owner dead queue).move (.die e) =
      some (of owner (Function.update dead e true) queue) := by
  cases e with
  | true => simp [move, of, die]
  | false => simp [move, of, die]

theorem exec_sends {pdus : List Bytes} (halive : pdus ≠ [] → dead e = false) :
    (transport owner).exec (of owner dead queue) (pdus.map (.send e)) =
      some (of owner dead (Function.update queue e (queue e ++ pdus))) := by
  induction pdus generalizing queue with
  | nil => simp [System.exec]
  | cons pdu pdus ih =>
      have halive' : dead e = false := halive (List.cons_ne_nil _ _)
      simp only [List.map_cons, System.exec, transport, move_send halive', Option.bind_some]
      apply (ih fun _ => halive').trans
      simp

theorem exec_arrivals {pdus rest : List Bytes} (halive : pdus ≠ [] → dead (!e) = false)
    (hqueue : queue e = pdus ++ rest) :
    (transport owner).exec (of owner dead queue) (pdus.map (.arrive (!e))) =
      some (of owner dead (Function.update queue e rest)) := by
  induction pdus generalizing queue with
  | nil =>
      rw [List.nil_append] at hqueue
      simp [System.exec, ← hqueue]
  | cons pdu pdus ih =>
      have halive' : dead (!e) = false := halive (List.cons_ne_nil _ _)
      simp only [List.map_cons, System.exec, transport, move_arrive halive' hqueue,
        Option.bind_some]
      apply (ih (fun _ => halive') (Function.update_self ..)).trans
      simp

theorem exec_deaths {ends : List Bool} :
    (transport owner).exec (of owner dead queue) (ends.map .die) =
      some (of owner (fun e => dead e || decide (e ∈ ends)) queue) := by
  induction ends generalizing dead with
  | nil => simp [System.exec]
  | cons e ends ih =>
      simp only [List.map_cons, System.exec, transport, move_die, Option.bind_some]
      apply ih.trans
      congr 2
      funext e'
      by_cases he : e' = e
      · subst he
        simp
      · simp [he]

/-! ## What has been sent and what has arrived -/

@[simp]
theorem sentAt_append (e : Bool) (moves more : List Move) :
    sentAt e (moves ++ more) = sentAt e moves ++ sentAt e more :=
  List.filterMap_append

@[simp]
theorem arrivedAt_append (e : Bool) (moves more : List Move) :
    arrivedAt e (moves ++ more) = arrivedAt e moves ++ arrivedAt e more :=
  List.filterMap_append

@[simp]
theorem sentAt_sends (e e' : Bool) (pdus : List Bytes) :
    sentAt e (pdus.map (.send e')) = if e' = e then pdus else [] := by
  rw [sentAt, List.filterMap_map]
  by_cases he : e' = e
  · simp [he]
  · simp [he]

@[simp]
theorem arrivedAt_arrivals (e e' : Bool) (pdus : List Bytes) :
    arrivedAt e (pdus.map (.arrive e')) = if e' = e then pdus else [] := by
  rw [arrivedAt, List.filterMap_map]
  by_cases he : e' = e
  · simp [he]
  · simp [he]

@[simp]
theorem sentAt_arrivals (e e' : Bool) (pdus : List Bytes) :
    sentAt e (pdus.map (.arrive e')) = [] := by
  simp [sentAt]

@[simp]
theorem arrivedAt_sends (e e' : Bool) (pdus : List Bytes) :
    arrivedAt e (pdus.map (.send e')) = [] := by
  simp [arrivedAt]

@[simp]
theorem sentAt_deaths (e : Bool) (ends : List Bool) : sentAt e (ends.map .die) = [] := by
  simp [sentAt]

@[simp]
theorem arrivedAt_deaths (e : Bool) (ends : List Bool) : arrivedAt e (ends.map .die) = [] := by
  simp [arrivedAt]

/-! ## Matching moves -/

/-- A connection with its bytes and a connection of the network after some moves: the same
ends are dead, the PDUs that were sent are those that have been written, and the PDUs on
the way are those that have not been accepted yet. -/
structure Matches (owner : ClientId) (moves : List Move) (d : Connection.Duplex) (c : Conn)
    (queue : Bool → List Bytes) : Prop where
  eq_of : c = of owner (fun e => (d.ends e).sender.dead) queue
  wrote : ∀ e, Connection.Link.Wrote (d.ends e).log (sentAt e moves)
  sent_eq : ∀ e, sentAt e moves = (d.ends !e).accepted ++ queue e
  arrived_eq : ∀ e, arrivedAt e moves = (d.ends e).accepted

/-- The moves that match a step: sends at both ends, arrivals from both ends, and deaths. -/
def matching (more new : Bool → List Bytes) (ends : List Bool) : List Move :=
  (more true).map (.send true) ++ (more false).map (.send false) ++
    (new true).map (.arrive false) ++ (new false).map (.arrive true) ++ ends.map .die

/-- The sends at both ends. -/
theorem exec_bothSends {more : Bool → List Bytes}
    (halive : ∀ e, more e ≠ [] → dead e = false) :
    (transport owner).exec (of owner dead queue)
        ((more true).map (.send true) ++ (more false).map (.send false)) =
      some (of owner dead fun e => queue e ++ more e) := by
  apply System.exec_append (exec_sends (halive true))
  apply (exec_sends (halive false)).trans
  congr 2
  funext e
  cases e with
  | true | false => simp

/-- The arrivals from both ends. -/
theorem exec_bothArrivals {new rest : Bool → List Bytes}
    (halive : ∀ e, new e ≠ [] → dead (!e) = false) (hqueue : ∀ e, queue e = new e ++ rest e) :
    (transport owner).exec (of owner dead queue)
        ((new true).map (.arrive false) ++ (new false).map (.arrive true)) =
      some (of owner dead rest) := by
  have hother : Function.update queue true (rest true) false = new false ++ rest false :=
    (Function.update_of_ne (by decide) _ _).trans (hqueue false)
  apply System.exec_append (exec_arrivals (e := true) (halive true) (hqueue true))
  apply (exec_arrivals (e := false) (halive false) hother).trans
  congr 2
  funext e
  cases e with
  | true | false => simp

theorem sentAt_matching (e : Bool) (more new : Bool → List Bytes) (ends : List Bool) :
    sentAt e (matching more new ends) = more e := by
  cases e with
  | true | false => simp [matching]

theorem arrivedAt_matching (e : Bool) (more new : Bool → List Bytes) (ends : List Bool) :
    arrivedAt e (matching more new ends) = new (!e) := by
  cases e with
  | true | false => simp [matching]

theorem exec_matching {more new rest : Bool → List Bytes} {ends : List Bool}
    (hsender : ∀ e, more e ≠ [] → dead e = false) (hreader : ∀ e, new e ≠ [] → dead (!e) = false)
    (hqueue : ∀ e, queue e ++ more e = new e ++ rest e) :
    (transport owner).exec (of owner dead queue) (matching more new ends) =
      some (of owner (fun e => dead e || decide (e ∈ ends)) rest) := by
  rw [matching, List.append_assoc _ _ ((new false).map _)]
  apply System.exec_append _ exec_deaths
  exact System.exec_append (exec_bothSends hsender) (exec_bothArrivals hreader hqueue)

theorem matches_start (owner : ClientId) :
    Matches owner [] {} { owner } fun _ => [] where
  eq_of := rfl
  wrote e := ⟨by simp [sentAt], [], .inl rfl, rfl⟩
  sent_eq _ := rfl
  arrived_eq _ := rfl

/-- A step of a connection with its bytes is matched by moves. -/
theorem Matches.step {moves : List Move} {labels : List Connection.Duplex.Label}
    {d d' : Connection.Duplex} {label : Connection.Duplex.Label} {c : Conn}
    (h : Matches owner moves d c queue)
    (hrun : Connection.Duplex.system.Run anyStep labels d) (hstep : d.step label = some d') :
    ∃ taken c' queue', (transport owner).exec c taken = some c' ∧
      Matches owner (moves ++ taken) d' c' queue' := by
  choose more new hadvances using fun e =>
    Connection.Duplex.advances_of_step hrun hstep e (h.wrote e)
  -- what is accepted is the beginning of what is on the way
  have hnew : ∀ e, ∃ rest, queue e ++ more e = new e ++ rest := by
    intro e
    have hcarries := Connection.Duplex.carries_of_run (hrun.snoc trivial hstep) e
    obtain ⟨rest, hrest⟩ := hcarries.accepted_isPrefix (hadvances e).wrote
    rw [(hadvances e).accepted, h.sent_eq e] at hrest
    refine ⟨rest, ?_⟩
    simpa [Connection.Duplex.link] using hrest.symm
  choose rest hrest using hnew
  obtain ⟨ends, hends⟩ : ∃ ends : List Bool, ∀ e, e ∈ ends ↔ (d'.ends e).sender.dead = true := by
    refine ⟨[true, false].filter fun e => (d'.ends e).sender.dead, fun e => ?_⟩
    cases e with
    | true | false => simp
  have hdead : (fun e => (d.link e).sender.dead || decide (e ∈ ends)) =
      fun e => (d'.ends e).sender.dead := by
    funext e
    have hstays := (hadvances e).sender_dead
    simp only [Connection.Duplex.link] at hstays ⊢
    cases hafter : (d'.ends e).sender.dead with
    | true => simp [hends, hafter]
    | false => simpa [hends, hafter] using hstays
  have hexec : (transport owner).exec c (matching more new ends) = _ := h.eq_of ▸
    exec_matching (fun e => (hadvances e).sender_alive) (fun e => (hadvances e).reader_alive) hrest
  rw [hdead] at hexec
  refine ⟨matching more new ends, _, rest, hexec, rfl, fun e => ?_, fun e => ?_, fun e => ?_⟩
  · rw [sentAt_append, sentAt_matching]
    exact (hadvances e).wrote
  · have haccepted := (hadvances e).accepted
    simp only [Connection.Duplex.link] at haccepted
    rw [sentAt_append, sentAt_matching, h.sent_eq, haccepted, List.append_assoc, hrest,
      List.append_assoc]
  · have haccepted := (hadvances (!e)).accepted
    simp only [Connection.Duplex.link, Bool.not_not] at haccepted
    rw [arrivedAt_append, arrivedAt_matching, h.arrived_eq, haccepted]

/-- Connections carry PDUs. Whatever happens to a connection with its bytes is what moves
of the network do: in both directions the PDUs of calls of `send` are sent, each call once
and in the order of the writes, PDUs arrive in this order without loss, and the same ends
are dead. -/
theorem connectionsCarryPdus (owner : ClientId) {labels : List Connection.Duplex.Label}
    {d : Connection.Duplex} (hrun : Connection.Duplex.system.Run anyStep labels d) :
    ∃ moves c, (transport owner).Run anyStep moves c ∧
      c.cdead = (d.ends true).sender.dead ∧ c.sdead = (d.ends false).sender.dead ∧
      sentAt true moves = arrivedAt false moves ++ c.up ∧
      sentAt false moves = arrivedAt true moves ++ c.down ∧
      ∀ e, arrivedAt e moves = (d.ends e).accepted ∧
        ∃ (done : List Connection.Call) (part : Bytes),
          Connection.written (d.ends e).log = done.flatMap Connection.Call.frame ++ part ∧
          (done.map Connection.Call.id).Nodup ∧ (∀ call ∈ done, .began call ∈ (d.ends e).log) ∧
          sentAt e moves = done.map Connection.Call.frame := by
  have hsimulated : ∃ moves c, (transport owner).Run anyStep moves c ∧
      ∃ queue, Matches owner moves d c queue := by
    refine hrun.simulate (fun moves d c => ∃ queue, Matches owner moves d c queue)
      ⟨_, matches_start owner⟩ ?_
    rintro _ _ _ _ _ _ prior ⟨queue, h⟩ - hstep
    obtain ⟨taken, c', queue', hexec, hafter⟩ := h.step prior hstep
    exact ⟨taken, c', hexec, queue', hafter⟩
  obtain ⟨moves, c, hmoves, queue, h⟩ := hsimulated
  have hqueue : c.up = queue true ∧ c.down = queue false := by
    rw [h.eq_of]
    exact ⟨rfl, rfl⟩
  refine ⟨moves, c, hmoves, by rw [h.eq_of]; rfl, by rw [h.eq_of]; rfl, ?_, ?_, fun e => ?_⟩
  · rw [h.sent_eq, h.arrived_eq, hqueue.1]
    rfl
  · rw [h.sent_eq, h.arrived_eq, hqueue.2]
    rfl
  · have hcarries := Connection.Duplex.carries_of_run hrun e
    obtain ⟨-, done, part, hframed⟩ := hcarries.sound
    exact ⟨h.arrived_eq e, done, part, hframed.written_eq, hframed.done_nodup,
      fun call hcall => hframed.began call (List.mem_append_left _ hcall),
      (h.wrote e).unique (hcarries.wrote hframed) rfl⟩

/-- A request whose write is cut, the reply to it, a second request that is on the way when
the client closes the connection. -/
def requestReplyRun : List Connection.Duplex.Label :=
  [.sender true (.send [0, 0, 0, 0, 7] (.accepted 3)), .sender true (.writeCb (.accepted 2) 0),
    .sender true (.resumeComplete 0), .readCb false .other [.upTo 4, .upTo 1] true 0,
    .sender false (.send [0, 0, 0, 0, 8, 9] (.accepted 6)),
    .readCb true .other [.upTo 4, .upTo 2] true 0,
    .sender true (.send [0, 0, 0, 0, 5] (.accepted 5)), .sender true .closeconn]

theorem connectionsCarryPdus_requestReply :
    ∃ d moves c, Connection.Duplex.system.Run anyStep requestReplyRun d ∧
      (transport 0).Run anyStep moves c ∧ c.cdead = true ∧ c.sdead = false ∧
      arrivedAt false moves = [[0, 0, 0, 5, 7]] ∧
      arrivedAt true moves = [[0, 0, 0, 6, 8, 9]] := by
  have hexec : (Connection.Duplex.system.exec Connection.Duplex.system.init requestReplyRun).any
      (fun d => (d.ends true).sender.dead && !(d.ends false).sender.dead &&
        (d.ends false).accepted == [[0, 0, 0, 5, 7]] &&
        (d.ends true).accepted == [[0, 0, 0, 6, 8, 9]]) = true := by
    decide +kernel
  obtain ⟨d, hrun, htest⟩ := System.exists_run_of_exec hexec
  simp only [Bool.and_eq_true, Bool.not_eq_true', beq_iff_eq] at htest
  obtain ⟨⟨⟨hclient, hserver⟩, hrequests⟩, hreplies⟩ := htest
  obtain ⟨moves, c, hmoves, hcdead, hsdead, -, -, hends⟩ := connectionsCarryPdus 0 hrun
  exact ⟨d, moves, c, hrun, hmoves, hcdead.trans hclient, hsdead.trans hserver,
    (hends false).1.trans hrequests, (hends true).1.trans hreplies⟩

/-! ## The connections of the system -/

/-- A move that leaves both ends alive: what is sent joins what is on the way, and what
arrives leaves it. -/
theorem carried_of_move {c c' : Conn} {m : Move} (hmove : c.move m = some c')
    (hclient : c'.cdead = false) (hserver : c'.sdead = false) :
    (c.cdead = false ∧ c.sdead = false) ∧
      c.up ++ sentAt true [m] = arrivedAt false [m] ++ c'.up ∧
        c.down ++ sentAt false [m] = arrivedAt true [m] ++ c'.down := by
  cases m with
  | send atClient pdu =>
      cases atClient with
      | true =>
          obtain ⟨halive, hsent⟩ := Option.ite_none_left_eq_some.mp hmove
          obtain rfl := Option.some.inj hsent
          simp only [sendUp, halive] at hserver ⊢
          simp_all [sentAt, arrivedAt]
      | false =>
          obtain ⟨halive, hsent⟩ := Option.ite_none_left_eq_some.mp hmove
          obtain rfl := Option.some.inj hsent
          simp only [sendDown, halive] at hclient ⊢
          simp_all [sentAt, arrivedAt]
  | arrive atClient pdu =>
      cases atClient with
      | true | false =>
          obtain ⟨⟨-, hhead⟩, harrived⟩ := Option.ite_none_right_eq_some.mp hmove
          obtain rfl := Option.some.inj harrived
          obtain ⟨rest, hqueue⟩ := List.head?_eq_some_iff.mp hhead
          exact ⟨⟨hclient, hserver⟩, by simp [hqueue, sentAt, arrivedAt]⟩
  | die atClient =>
      obtain rfl : c.die atClient = c' := Option.some.inj hmove
      cases atClient with
      | true => cases hclient
      | false => cases hserver
  | lose up down =>
      obtain ⟨hdead, hlost⟩ := Option.ite_none_right_eq_some.mp hmove
      obtain rfl := Option.some.inj hlost
      have hboth : c.cdead = false ∧ c.sdead = false := ⟨hclient, hserver⟩
      simp [hboth] at hdead

/-- While both ends are alive, what has been sent at one of them has arrived at the other
one or is on its way. -/
theorem carried_of_run {moves : List Move} {c : Conn}
    (hrun : (transport owner).Run anyStep moves c) :
    c.cdead = false → c.sdead = false →
      sentAt true moves = arrivedAt false moves ++ c.up ∧
        sentAt false moves = arrivedAt true moves ++ c.down := by
  induction hrun with
  | start => exact fun _ _ => ⟨rfl, rfl⟩
  | snoc prior allowed realized ih =>
      intro hclient hserver
      obtain ⟨halive, hup, hdown⟩ := carried_of_move realized hclient hserver
      obtain ⟨hsentUp, hsentDown⟩ := ih halive.1 halive.2
      rw [sentAt_append, arrivedAt_append, sentAt_append, arrivedAt_append]
      constructor
      · rw [hsentUp, List.append_assoc, hup, List.append_assoc]
      · rw [hsentDown, List.append_assoc, hdown, List.append_assoc]

/-- The clients, the server and the network do nothing to a connection but moves: what the
system assumes of its connections is what connections with their bytes do. -/
theorem moved_of_run {σ : Type} {setup : Setup σ} {labels : List Net.Label} {net : Net σ}
    (hrun : (Net.system setup).Run anyStep labels net) {n : ConnId} {conn : Conn}
    (hconn : net.conns n = some conn) :
    ∃ moves, (transport conn.owner).Run anyStep moves conn ∧
      (conn.cdead = false → conn.sdead = false →
        sentAt true moves = arrivedAt false moves ++ conn.up ∧
          sentAt false moves = arrivedAt true moves ++ conn.down) := by
  have hmoved : ∀ n conn, net.conns n = some conn →
      ∃ moves, (transport conn.owner).Run anyStep moves conn := by
    apply System.Run.invariant (fun net : Net σ => ∀ n conn, net.conns n = some conn →
      ∃ moves, (transport conn.owner).Run anyStep moves conn) _ _ hrun
    · intro n conn hnone
      cases hnone
    · intro labels source label target _ h _ hstep n conn hconn
      rcases Net.conns_of_step hstep hconn with ⟨i, k, -, -, rfl⟩ | ⟨before, hbefore, hcarries⟩
      · exact ⟨[], .start⟩
      · obtain ⟨moves, hmoves⟩ := h n before hbefore
        rcases move_of_carries hcarries with rfl | ⟨move, hmove⟩
        · exact ⟨moves, hmoves⟩
        · rw [hcarries.keeps.1]
          exact ⟨moves ++ [move], hmoves.snoc trivial hmove⟩
  obtain ⟨moves, hmoves⟩ := hmoved n conn hconn
  exact ⟨moves, hmoves, carried_of_run hmoves⟩

end Conn

end YfsLab.Rpc
