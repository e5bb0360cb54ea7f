/-
# What a step of the system does to each of its parts

A step of the system is a section of at most one client and at most one section of
the server, and it touches at most one connection, unless it starts the server
again. So a run of the system is a run of the server when one looks at the server
only, and its history contains the history of that run.
-/

import YfsLab.Rpc.ClientSteps
import YfsLab.Rpc.ServerSteps
import YfsLab.Rpc.System

namespace YfsLab.Rpc.Net

open BigEndian Transition Wire

variable {σ : Type}

/-! ## The parts of a step -/

/-- The section of a client that a step is. -/
def clientLabel (net : Net σ) : Label → Option (ClientId × Client.Label)
  | .start i k proc args => some (i, .start k proc args)
  | .refconn i k connected => some (i, .refconn k (net.chanDead i) connected)
  | .send i k _ last => some (i, .send k last)
  | .wake i k => some (i, .wake k)
  | .expire i k => some (i, .expire k)
  | .retry i k last => some (i, .retry k (net.callDead i k) last)
  | .erase i k => some (i, .erase k)
  | .finish i k => some (i, .finish k)
  | .bind i k => some (i, .bind k)
  | .deliver n =>
      (net.conns n).bind fun conn =>
        conn.down.head?.map fun pdu => (conn.owner, .gotPdu pdu)
  | _ => none

/-- The section of the server that a step is. -/
def serverLabel (net : Net σ) : Label → Option Server.Label
  | .receive d n =>
      (net.conns n).bind fun conn => conn.up.head?.map fun pdu => .receive d n pdu
  | .vet d => some (.vet d)
  | .enroll d => some (.enroll d)
  | .connect d => some (.connect d)
  | .check d => some (.check d)
  | .enter d choice area => some (.enter d choice area)
  | .resume d choice area => some (.resume d choice area)
  | .stir choice => some (.stir choice)
  | .record d => some (.record d)
  | .select d => some (.select d (net.dispatchDead d))
  | .reply d _ _ => some (.send d)
  | .refuse d ret _ _ => some (.refuse d ret)
  | _ => none

/-- Does a step start the server again? -/
def restarts : Label → Bool
  | .restart _ => true
  | _ => false

/-! ## What a run of the system is judged by -/

/-- The events of the system: those of the server, a request that a call has put
together, a call that returns, a client that is bound to a server, and a new
server. -/
inductive Event
  | server (event : Server.Event)
  | issued (i : ClientId) (k : CallId) (request : Request)
  | returned (i : ClientId) (k : CallId) (call : Call)
  | bound (i : ClientId) (nonce : UInt32)
  | restarted (nonce : UInt32)
  deriving DecidableEq

/-- The events of a section of a client. -/
def clientEvents (c : Client) (i : ClientId) : Client.Label → List Event
  | .start k proc args => if c.refuses proc then [] else [.issued i k (c.request proc args)]
  | .finish k => (c.frames k).toList.map fun call => .returned i k call.finish
  | .bind k => ((c.frames k).bind Call.boundTo).toList.map fun nonce => .bound i nonce
  | _ => []

/-- The event of a restart. -/
def restartEvents : Label → List Event
  | .restart nonce => [.restarted nonce]
  | _ => []

/-- The events of a step. -/
def events (app : Service σ) (net : Net σ) (label : Label) : List Event :=
  ((net.clientLabel label).toList.flatMap fun part =>
    clientEvents (net.clients part.1) part.1 part.2) ++
  ((net.serverLabel label).toList.flatMap fun part =>
    (Server.events app net.server part).map .server) ++
  restartEvents label

/-- The server's part of a history. -/
def serverHistory (history : List Event) : List Server.Event :=
  history.filterMap fun event =>
    match event with
    | .server event => some event
    | _ => none

/-- The system with its history. -/
def logged (setup : Setup σ) : System (Net σ × List Event) Label :=
  (system setup).recorded (events setup.app)

/-! ## The server's part of a step -/

@[simp]
theorem server_putConn (net : Net σ) (n : ConnId) (conn : Conn) :
    (net.putConn n conn).server = net.server := rfl

@[simp]
theorem server_putClient (net : Net σ) (i : ClientId) (c : Client) :
    (net.putClient i c).server = net.server := rfl

@[simp]
theorem server_sendDown (net : Net σ) (n : ConnId) (ok : Bool) (pdu : Bytes) :
    (net.sendDown n ok pdu).server = net.server := by
  unfold sendDown
  split <;> rfl

theorem clientStep_eq_some {net target : Net σ} {i : ClientId} {label : Client.Label} :
    net.clientStep i label = some target ↔
      ∃ c, (net.clients i).step label = some c ∧ net.putClient i c = target := by
  simp [clientStep]

theorem serverStep_eq_some {net target : Net σ} {app : Service σ} {label : Server.Label} :
    net.serverStep app label = some target ↔
      ∃ server, net.server.step app label = some server ∧ { net with server } = target := by
  simp [serverStep]

theorem onConn_eq_some {net target : Net σ} {n : ConnId} {allowed : Conn → Bool}
    {change : Conn → Conn} :
    net.onConn n allowed change = some target ↔
      ∃ conn, net.conns n = some conn ∧ allowed conn = true ∧
        net.putConn n (change conn) = target := by
  simp [onConn, Option.bind_eq_some_iff, Option.ite_none_right_eq_some]

/-- What a PDU finds that arrives at the client. -/
theorem deliver_eq_some {net target : Net σ} {n : ConnId} :
    net.deliver n = some target ↔ ∃ conn pdu rest, net.conns n = some conn ∧
      conn.cdead = false ∧ conn.down = pdu :: rest ∧
      (net.putConn n { conn with down := rest }).clientStep conn.owner (.gotPdu pdu) =
        some target := by
  constructor
  · intro hdeliver
    obtain ⟨conn, hconn, hnext⟩ := Option.bind_eq_some_iff.mp hdeliver
    obtain ⟨hdead, hnext⟩ := Option.ite_none_left_eq_some.mp hnext
    cases hdown : conn.down with
    | nil => simp [hdown] at hnext
    | cons pdu rest =>
        simp only [hdown] at hnext
        exact ⟨conn, pdu, rest, hconn, by simpa using hdead, hdown, hnext⟩
  · rintro ⟨conn, pdu, rest, hconn, hdead, hdown, hnext⟩
    rw [deliver, hconn, Option.bind_some, if_neg (by simp [hdead]), hdown]
    exact hnext

/-- What a PDU finds that arrives at the server. -/
theorem receive_eq_some {net target : Net σ} {app : Service σ} {d : DispatchId} {n : ConnId} :
    net.receive app d n = some target ↔ ∃ conn pdu rest, net.conns n = some conn ∧
      conn.sdead = false ∧ conn.up = pdu :: rest ∧
      (net.putConn n { conn with up := rest }).serverStep app (.receive d n pdu) =
        some target := by
  constructor
  · intro hreceive
    obtain ⟨conn, hconn, hnext⟩ := Option.bind_eq_some_iff.mp hreceive
    obtain ⟨hdead, hnext⟩ := Option.ite_none_left_eq_some.mp hnext
    cases hup : conn.up with
    | nil => simp [hup] at hnext
    | cons pdu rest =>
        simp only [hup] at hnext
        exact ⟨conn, pdu, rest, hconn, by simpa using hdead, hup, hnext⟩
  · rintro ⟨conn, pdu, rest, hconn, hdead, hup, hnext⟩
    rw [receive, hconn, Option.bind_some, if_neg (by simp [hdead]), hup]
    exact hnext

/-- What the send at the end of `dispatch` finds. -/
theorem reply_eq_some {net target : Net σ} {app : Service σ} {d : DispatchId} {ok : Bool}
    {junk : Bytes} :
    net.reply app d ok junk = some target ↔ ∃ f, net.server.frames d = some f ∧
      (net.sendDown f.conn ok ((net.server.intact f).getD junk)).serverStep app (.send d) =
        some target := by
  simp only [reply, Server.outgoing, Option.bind_eq_some_iff, Option.map_eq_some_iff]
  constructor
  · rintro ⟨_, ⟨f, hf, rfl⟩, hnext⟩
    exact ⟨f, hf, hnext⟩
  · rintro ⟨f, hf, hnext⟩
    exact ⟨_, ⟨f, hf, rfl⟩, hnext⟩

/-- The connection that a call is sent on, after the send. -/
theorem send_eq_some {net target : Net σ} {i : ClientId} {k : CallId} {ok last : Bool}
    (hsend : net.send i k ok last = some target) :
    ∃ c, (net.clients i).step (.send k last) = some c ∧
      target.clients = Function.update net.clients i c ∧ target.server = net.server ∧
      (target.conns = net.conns ∨ ∃ call n conn, (net.clients i).frames k = some call ∧
        call.ch = some n ∧ net.conns n = some conn ∧
        target.conns =
          Function.update net.conns n (some (conn.sendUp ok call.request.pdu))) := by
  unfold send at hsend
  cases hframe : (net.clients i).frames k with
  | none =>
      simp only [hframe] at hsend
      obtain ⟨c, hc, rfl⟩ := clientStep_eq_some.mp hsend
      exact ⟨c, hc, rfl, rfl, .inl rfl⟩
  | some call =>
      simp only [hframe] at hsend
      cases hch : call.ch with
      | none =>
          simp only [hch] at hsend
          obtain ⟨c, hc, rfl⟩ := clientStep_eq_some.mp hsend
          exact ⟨c, hc, rfl, rfl, .inl rfl⟩
      | some n =>
          simp only [hch] at hsend
          cases hconn : net.conns n with
          | none =>
              simp only [hconn] at hsend
              obtain ⟨c, hc, rfl⟩ := clientStep_eq_some.mp hsend
              exact ⟨c, hc, rfl, rfl, .inl rfl⟩
          | some conn =>
              simp only [hconn] at hsend
              obtain ⟨c, hc, rfl⟩ := clientStep_eq_some.mp hsend
              exact ⟨c, hc, rfl, rfl, .inr ⟨call, n, conn, rfl, hch, hconn, rfl⟩⟩

/-- `get_refconn`: the connection it finds belongs to the client already, or has
just been made. -/
theorem refconn_eq_some {net target : Net σ} {i : ClientId} {k : CallId}
    {connected : Option ConnId} (hrefconn : net.refconn i k connected = some target) :
    ∃ c, (net.clients i).step (.refconn k (net.chanDead i) connected) = some c ∧
      target.clients = Function.update net.clients i c ∧ target.server = net.server ∧
      ∀ n, (net.clients i).refChan (net.chanDead i) connected = some n →
        (net.clients i).chan = some n ∨ target.conns n = some { owner := i } := by
  obtain ⟨_, hnext⟩ := Option.ite_none_right_eq_some.mp hrefconn
  obtain ⟨c, hc, rfl⟩ := clientStep_eq_some.mp hnext
  refine ⟨c, ?_, ?_, ?_, ?_⟩
  · revert hc
    split_ifs <;> cases connected <;> exact id
  · simp only [putClient]
    split_ifs <;> cases connected <;> rfl
  · split_ifs <;> cases connected <;> rfl
  · intro n hn
    unfold Client.refChan at hn
    simp only [putClient]
    split_ifs at hn ⊢ with hneeded
    · subst hn
      exact .inr (Function.update_self ..)
    · exact .inl hn

/-- A step that does not start the server again is a section of the server, or
leaves the server alone. -/
theorem server_of_step {app : Service σ} {net target : Net σ} {label : Label}
    (hstep : net.step app label = some target) (hrestart : restarts label = false) :
    (net.serverLabel label = none ∧ target.server = net.server) ∨
      ∃ part, net.serverLabel label = some part ∧
        net.server.step app part = some target.server := by
  have hserver : ∀ {before : Net σ} {part : Server.Label},
      before.serverStep app part = some target → before.server = net.server →
      net.serverLabel label = some part → (net.serverLabel label = none ∧
        target.server = net.server) ∨ ∃ part, net.serverLabel label = some part ∧
        net.server.step app part = some target.server := by
    intro before part hpart hbefore hlabel
    obtain ⟨server, hnext, rfl⟩ := serverStep_eq_some.mp hpart
    exact .inr ⟨part, hlabel, hbefore ▸ hnext⟩
  cases label with
  | start | wake | expire | retry | erase | finish | bind =>
      obtain ⟨c, _, rfl⟩ := clientStep_eq_some.mp hstep
      exact .inl ⟨rfl, rfl⟩
  | refconn i k connected =>
      obtain ⟨_, _, _, hsame, _⟩ := refconn_eq_some hstep
      exact .inl ⟨rfl, hsame⟩
  | send i k ok last =>
      obtain ⟨_, _, _, hsame, _⟩ := send_eq_some hstep
      exact .inl ⟨rfl, hsame⟩
  | deliver n =>
      obtain ⟨conn, pdu, rest, _, _, _, hnext⟩ := deliver_eq_some.mp hstep
      obtain ⟨c, _, rfl⟩ := clientStep_eq_some.mp hnext
      exact .inl ⟨rfl, rfl⟩
  | receive d n =>
      obtain ⟨conn, pdu, rest, hconn, _, hup, hnext⟩ := receive_eq_some.mp hstep
      exact hserver hnext rfl (by simp [serverLabel, hconn, hup])
  | vet | enroll | connect | check | enter | resume | stir | record | select =>
      exact hserver hstep rfl rfl
  | reply d ok junk =>
      obtain ⟨f, _, hnext⟩ := reply_eq_some.mp hstep
      exact hserver hnext (server_sendDown _ _ _ _) rfl
  | refuse d ret ok area =>
      obtain ⟨f, _, hnext⟩ := Option.bind_eq_some_iff.mp hstep
      exact hserver hnext (server_sendDown _ _ _ _) rfl
  | die | lose =>
      obtain ⟨conn, _, _, rfl⟩ := onConn_eq_some.mp hstep
      exact .inl ⟨rfl, rfl⟩
  | restart nonce => cases hrestart

/-- A step is a section of one client, or leaves all clients alone. -/
theorem clients_of_step {app : Service σ} {net target : Net σ} {label : Label}
    (hstep : net.step app label = some target) :
    (net.clientLabel label = none ∧ target.clients = net.clients) ∨
      ∃ i part c, net.clientLabel label = some (i, part) ∧
        (net.clients i).step part = some c ∧
        target.clients = Function.update net.clients i c := by
  cases label with
  | start | wake | expire | retry | erase | finish | bind =>
      obtain ⟨c, hc, rfl⟩ := clientStep_eq_some.mp hstep
      exact .inr ⟨_, _, c, rfl, hc, rfl⟩
  | refconn i k connected =>
      obtain ⟨c, hc, hclients, _⟩ := refconn_eq_some hstep
      exact .inr ⟨i, _, c, rfl, hc, hclients⟩
  | send i k ok last =>
      obtain ⟨c, hc, hclients, _⟩ := send_eq_some hstep
      exact .inr ⟨i, _, c, rfl, hc, hclients⟩
  | deliver n =>
      obtain ⟨conn, pdu, rest, hconn, _, hdown, hnext⟩ := deliver_eq_some.mp hstep
      obtain ⟨c, hc, rfl⟩ := clientStep_eq_some.mp hnext
      exact .inr ⟨conn.owner, _, c, by simp [clientLabel, hconn, hdown], hc, rfl⟩
  | receive d n =>
      obtain ⟨conn, pdu, rest, _, _, _, hnext⟩ := receive_eq_some.mp hstep
      obtain ⟨server, _, rfl⟩ := serverStep_eq_some.mp hnext
      exact .inl ⟨rfl, rfl⟩
  | vet | enroll | connect | check | enter | resume | stir | record | select =>
      obtain ⟨server, _, rfl⟩ := serverStep_eq_some.mp hstep
      exact .inl ⟨rfl, rfl⟩
  | reply d ok junk =>
      obtain ⟨f, _, hnext⟩ := reply_eq_some.mp hstep
      obtain ⟨server, _, rfl⟩ := serverStep_eq_some.mp hnext
      refine .inl ⟨rfl, ?_⟩
      simp only [sendDown]
      split <;> rfl
  | refuse d ret ok area =>
      obtain ⟨f, _, hnext⟩ := Option.bind_eq_some_iff.mp hstep
      obtain ⟨server, _, rfl⟩ := serverStep_eq_some.mp hnext
      refine .inl ⟨rfl, ?_⟩
      simp only [sendDown]
      split <;> rfl
  | die | lose =>
      obtain ⟨conn, _, _, rfl⟩ := onConn_eq_some.mp hstep
      exact .inl ⟨rfl, rfl⟩
  | restart nonce =>
      obtain rfl := Option.some.inj hstep
      exact .inl ⟨rfl, rfl⟩

/-- A client after a step is as before, or has taken a section. -/
theorem client_of_step {app : Service σ} {net target : Net σ} {label : Label}
    (hstep : net.step app label = some target) (i : ClientId) :
    target.clients i = net.clients i ∨ ∃ part, net.clientLabel label = some (i, part) ∧
      (net.clients i).step part = some (target.clients i) := by
  rcases clients_of_step hstep with ⟨_, hsame⟩ | ⟨j, part, c, hlabel, hc, hclients⟩
  · exact .inl (congrFun hsame i)
  · rw [hclients]
    by_cases hi : i = j
    · subst hi
      rw [Function.update_self]
      exact .inr ⟨part, hlabel, hc⟩
    · rw [Function.update_of_ne hi]
      exact .inl rfl

/-- A call stays, with its request. -/
theorem exists_call_of_step {app : Service σ} {net target : Net σ} {label : Label}
    (hstep : net.step app label = some target) {i : ClientId} {k : CallId} {call : Call}
    (hcall : (net.clients i).frames k = some call) :
    ∃ found, (target.clients i).frames k = some found ∧ found.request = call.request := by
  rcases client_of_step hstep i with hsame | ⟨part, -, hpart⟩
  · exact ⟨call, by rw [hsame, hcall], rfl⟩
  · obtain ⟨found, hfound, hrequest, -⟩ := Client.exists_frame_of_step hpart hcall
    exact ⟨found, hfound, hrequest⟩

/-- The steps that are a given section of a client. -/
def IsPart (net : Net σ) (i : ClientId) (label : Label) : Client.Label → Prop
  | .start k proc args => label = .start i k proc args
  | .refconn k dead connected => label = .refconn i k connected ∧ dead = net.chanDead i
  | .send k last => ∃ ok, label = .send i k ok last
  | .wake k => label = .wake i k
  | .expire k => label = .expire i k
  | .retry k dead last => label = .retry i k last ∧ dead = net.callDead i k
  | .erase k => label = .erase i k
  | .finish k => label = .finish i k
  | .bind k => label = .bind i k
  | .gotPdu b => ∃ n conn, label = .deliver n ∧ net.conns n = some conn ∧ conn.owner = i ∧
      conn.down.head? = some b

theorem isPart_of_clientLabel {net : Net σ} {label : Label} {i : ClientId}
    {part : Client.Label} (hlabel : net.clientLabel label = some (i, part)) :
    IsPart net i label part := by
  cases label with
  | deliver n =>
      obtain ⟨conn, hconn, hpart⟩ := Option.bind_eq_some_iff.mp hlabel
      obtain ⟨pdu, hdown, hpart⟩ := Option.map_eq_some_iff.mp hpart
      obtain ⟨rfl, rfl⟩ := Prod.mk.inj hpart
      exact ⟨n, conn, rfl, hconn, rfl, hdown⟩
  | start | refconn | send | wake | expire | retry | erase | finish | bind =>
      obtain ⟨rfl, rfl⟩ := Prod.mk.inj (Option.some.inj hlabel)
      simp [IsPart]
  | _ => cases hlabel

/-- Where the events of a step come from. -/
theorem mem_events_cases {app : Service σ} {net : Net σ} {label : Label} {event : Event}
    (hmem : event ∈ events app net label) :
    (∃ i part, net.clientLabel label = some (i, part) ∧
      event ∈ clientEvents (net.clients i) i part) ∨
    (∃ part emitted, net.serverLabel label = some part ∧
      emitted ∈ Server.events app net.server part ∧ event = .server emitted) ∨
    ∃ nonce, event = .restarted nonce := by
  rcases List.mem_append.mp hmem with hparts | hrestart
  · rcases List.mem_append.mp hparts with hclient | hserver
    · obtain ⟨⟨i, part⟩, hlabel, hevent⟩ := List.mem_flatMap.mp hclient
      exact .inl ⟨i, part, by simpa using hlabel, hevent⟩
    · obtain ⟨part, hlabel, hevent⟩ := List.mem_flatMap.mp hserver
      obtain ⟨emitted, hemitted, rfl⟩ := List.mem_map.mp hevent
      exact .inr (.inl ⟨part, emitted, by simpa using hlabel, hemitted, rfl⟩)
  · cases label with
    | restart nonce => exact .inr (.inr ⟨nonce, List.mem_singleton.mp hrestart⟩)
    | _ => cases hrestart

/-! ## What a step does to a connection -/

/-- What a step may do to a connection. -/
inductive Carries (net : Net σ) (n : ConnId) (conn : Conn) : Label → Conn → Prop
  | same {label : Label} : Carries net n conn label conn
  | sentUp {i : ClientId} {k : CallId} {ok last : Bool} {call : Call}
      (hframe : (net.clients i).frames k = some call) (hch : call.ch = some n) :
      Carries net n conn (.send i k ok last) (conn.sendUp ok call.request.pdu)
  | delivered {pdu : Bytes} {rest : List Bytes} (hdead : conn.cdead = false)
      (hdown : conn.down = pdu :: rest) :
      Carries net n conn (.deliver n) { conn with down := rest }
  | received {d : DispatchId} {pdu : Bytes} {rest : List Bytes} (hdead : conn.sdead = false)
      (hup : conn.up = pdu :: rest) :
      Carries net n conn (.receive d n) { conn with up := rest }
  | replied {d : DispatchId} {ok : Bool} {junk : Bytes} {f : Dispatch}
      (hframe : net.server.frames d = some f) (hconn : f.conn = n) :
      Carries net n conn (.reply d ok junk)
        (conn.sendDown ok ((net.server.intact f).getD junk))
  | refused {d : DispatchId} {ret : Int32} {ok : Bool} {area : Area} {f : Dispatch}
      (hframe : net.server.frames d = some f) (hconn : f.conn = n) :
      Carries net n conn (.refuse d ret ok area)
        (conn.sendDown ok (Server.refusal f area ret))
  | died {atClient : Bool} : Carries net n conn (.die n atClient) (conn.die atClient)
  | lost {up down : ℕ} (hdead : conn.cdead = true ∨ conn.sdead = true) :
      Carries net n conn (.lose n up down) (conn.lose up down)
  | restarted {nonce : UInt32} : Carries net n conn (.restart nonce) { conn with sdead := true }

/-- The send at the server's end touches one connection at most. -/
theorem sendDown_cases {net : Net σ} {label : Label} {m : ConnId} {ok : Bool} {pdu : Bytes}
    (hcarries : ∀ conn, Carries net m conn label (conn.sendDown ok pdu)) :
    (net.sendDown m ok pdu).conns = net.conns ∨ ∃ before after,
      net.conns m = some before ∧ Carries net m before label after ∧
        (net.sendDown m ok pdu).conns = Function.update net.conns m (some after) := by
  cases hbefore : net.conns m with
  | none => exact .inl (by simp [sendDown, hbefore])
  | some before =>
      exact .inr ⟨before, _, rfl, hcarries before, by simp [sendDown, hbefore, putConn]⟩

/-- The connections after a step: one of them has been made, or one of them has been
changed, or all have been closed at the server's end. -/
theorem conns_cases {app : Service σ} {net target : Net σ} {label : Label}
    (hstep : net.step app label = some target) :
    target.conns = net.conns ∨
    (∃ i k m, label = .refconn i k (some m) ∧ net.conns m = none ∧
      target.conns = Function.update net.conns m (some { owner := i })) ∨
    (∃ m before after, net.conns m = some before ∧ Carries net m before label after ∧
      target.conns = Function.update net.conns m (some after)) ∨
    (∃ nonce, label = .restart nonce ∧ target.conns = fun n =>
      (net.conns n).map fun conn => { conn with sdead := true }) := by
  cases label with
  | start | wake | expire | retry | erase | finish | bind =>
      obtain ⟨c, _, rfl⟩ := clientStep_eq_some.mp hstep
      exact .inl rfl
  | refconn i k connected =>
      obtain ⟨hnew, hnext⟩ := Option.ite_none_right_eq_some.mp hstep
      obtain ⟨c, _, rfl⟩ := clientStep_eq_some.mp hnext
      simp only [putClient]
      split_ifs
      · cases connected with
        | none => exact .inl rfl
        | some m => exact .inr (.inl ⟨i, k, m, rfl, by simpa using hnew, rfl⟩)
      · exact .inl rfl
  | send i k ok last =>
      obtain ⟨_, _, _, _, hsame | ⟨call, m, before, hframe, hch, hbefore, hupdate⟩⟩ :=
        send_eq_some hstep
      · exact .inl hsame
      · exact .inr (.inr (.inl ⟨m, before, _, hbefore, .sentUp hframe hch, hupdate⟩))
  | deliver m =>
      obtain ⟨before, pdu, rest, hbefore, hdead, hdown, hnext⟩ := deliver_eq_some.mp hstep
      obtain ⟨c, _, rfl⟩ := clientStep_eq_some.mp hnext
      exact .inr (.inr (.inl ⟨m, before, _, hbefore, .delivered hdead hdown, rfl⟩))
  | receive d m =>
      obtain ⟨before, pdu, rest, hbefore, hdead, hup, hnext⟩ := receive_eq_some.mp hstep
      obtain ⟨server, _, rfl⟩ := serverStep_eq_some.mp hnext
      exact .inr (.inr (.inl ⟨m, before, _, hbefore, .received hdead hup, rfl⟩))
  | vet | enroll | connect | check | enter | resume | stir | record | select =>
      obtain ⟨server, _, rfl⟩ := serverStep_eq_some.mp hstep
      exact .inl rfl
  | reply d ok junk =>
      obtain ⟨f, hf, hnext⟩ := reply_eq_some.mp hstep
      obtain ⟨server, _, rfl⟩ := serverStep_eq_some.mp hnext
      have hcarries : ∀ conn, Carries net f.conn conn (.reply d ok junk)
          (conn.sendDown ok ((net.server.intact f).getD junk)) := fun _ => .replied hf rfl
      rcases sendDown_cases hcarries with hsame | hchanged
      · exact .inl hsame
      · exact .inr (.inr (.inl ⟨f.conn, hchanged⟩))
  | refuse d ret ok area =>
      obtain ⟨f, hf, hnext⟩ := Option.bind_eq_some_iff.mp hstep
      obtain ⟨server, _, rfl⟩ := serverStep_eq_some.mp hnext
      have hcarries : ∀ conn, Carries net f.conn conn (.refuse d ret ok area)
          (conn.sendDown ok (Server.refusal f area ret)) := fun _ => .refused hf rfl
      rcases sendDown_cases hcarries with hsame | hchanged
      · exact .inl hsame
      · exact .inr (.inr (.inl ⟨f.conn, hchanged⟩))
  | die m atClient =>
      obtain ⟨before, hbefore, _, rfl⟩ := onConn_eq_some.mp hstep
      exact .inr (.inr (.inl ⟨m, before, _, hbefore, .died, rfl⟩))
  | lose m up down =>
      obtain ⟨before, hbefore, hdead, rfl⟩ := onConn_eq_some.mp hstep
      exact .inr (.inr (.inl ⟨m, before, _, hbefore, .lost (by simpa using hdead), rfl⟩))
  | restart nonce =>
      obtain rfl := Option.some.inj hstep
      exact .inr (.inr (.inr ⟨nonce, rfl, rfl⟩))

/-- A connection after a step is new, or what the step has made of it. -/
theorem conns_of_step {app : Service σ} {net target : Net σ} {label : Label}
    (hstep : net.step app label = some target) {n : ConnId} {conn : Conn}
    (hconn : target.conns n = some conn) :
    (∃ i k, label = .refconn i k (some n) ∧ net.conns n = none ∧ conn = { owner := i }) ∨
      ∃ conn', net.conns n = some conn' ∧ Carries net n conn' label conn := by
  rcases conns_cases hstep with hsame | ⟨i, k, m, hlabel, hnone, hnew⟩ |
    ⟨m, before, after, hbefore, hcarries, hchanged⟩ | ⟨nonce, rfl, hrestarted⟩
  · exact .inr ⟨conn, hsame ▸ hconn, .same⟩
  · rw [hnew] at hconn
    by_cases hn : n = m
    · subst hn
      rw [Function.update_self, Option.some.injEq] at hconn
      exact .inl ⟨i, k, hlabel, hnone, hconn.symm⟩
    · rw [Function.update_of_ne hn] at hconn
      exact .inr ⟨conn, hconn, .same⟩
  · rw [hchanged] at hconn
    by_cases hn : n = m
    · subst hn
      rw [Function.update_self, Option.some.injEq] at hconn
      exact .inr ⟨before, hbefore, hconn ▸ hcarries⟩
    · rw [Function.update_of_ne hn] at hconn
      exact .inr ⟨conn, hconn, .same⟩
  · rw [hrestarted] at hconn
    obtain ⟨before, hbefore, rfl⟩ := Option.map_eq_some_iff.mp hconn
    exact .inr ⟨before, hbefore, .restarted⟩

/-- A step changes neither who owns a connection nor revives one of its ends. -/
theorem Carries.keeps {net : Net σ} {n : ConnId} {conn conn' : Conn} {label : Label}
    (h : Carries net n conn label conn') :
    conn'.owner = conn.owner ∧ (conn.cdead = true → conn'.cdead = true) ∧
      (conn.sdead = true → conn'.sdead = true) := by
  cases h with
  | sentUp =>
      unfold Conn.sendUp
      split_ifs <;> simp_all
  | replied | refused =>
      unfold Conn.sendDown
      split_ifs <;> simp_all
  | died =>
      unfold Conn.die
      split_ifs <;> simp_all
  | same | delivered | received | lost | restarted => simp_all [Conn.lose]

/-- A connection stays, and is what the step has made of it. -/
theorem exists_conn_of_step {app : Service σ} {net target : Net σ} {label : Label}
    (hstep : net.step app label = some target) {n : ConnId} {conn : Conn}
    (hconn : net.conns n = some conn) :
    ∃ conn', target.conns n = some conn' ∧ Carries net n conn label conn' := by
  obtain ⟨conn', hconn'⟩ : ∃ conn', target.conns n = some conn' := by
    rcases conns_cases hstep with hsame | ⟨i, k, m, _, _, hchanged⟩ |
      ⟨m, _, _, _, _, hchanged⟩ | ⟨nonce, _, hrestarted⟩
    · exact ⟨conn, hsame ▸ hconn⟩
    · by_cases hn : n = m
      · exact ⟨_, by rw [hchanged, hn, Function.update_self]⟩
      · exact ⟨conn, by rw [hchanged, Function.update_of_ne hn, hconn]⟩
    · by_cases hn : n = m
      · exact ⟨_, by rw [hchanged, hn, Function.update_self]⟩
      · exact ⟨conn, by rw [hchanged, Function.update_of_ne hn, hconn]⟩
    · exact ⟨{ conn with sdead := true }, by simp [hrestarted, hconn]⟩
  rcases conns_of_step hstep hconn' with ⟨_, _, _, hnone, _⟩ | ⟨before, hbefore, hcarries⟩
  · rw [hconn] at hnone
    cases hnone
  · obtain rfl := Option.some.inj (hconn.symm.trans hbefore)
    exact ⟨conn', hconn', hcarries⟩

/-! ## Runs of the server inside runs of the system -/

theorem serverHistory_append (history more : List Event) :
    serverHistory (history ++ more) = serverHistory history ++ serverHistory more :=
  List.filterMap_append

theorem serverHistory_clientEvents (c : Client) (i : ClientId) (part : Client.Label) :
    serverHistory (clientEvents c i part) = [] := by
  cases part with
  | start k proc args =>
      simp only [clientEvents]
      split_ifs <;> rfl
  | finish k => simp [clientEvents, serverHistory]
  | bind k => simp [clientEvents, serverHistory]
  | _ => rfl

theorem serverHistory_map (events : List Server.Event) :
    serverHistory (events.map .server) = events := by
  simp [serverHistory, List.filterMap_map]

theorem mem_serverHistory {history : List Event} {event : Server.Event} :
    event ∈ serverHistory history ↔ .server event ∈ history := by
  simp only [serverHistory, List.mem_filterMap]
  constructor
  · rintro ⟨found, hmem, hfound⟩
    cases found with
    | server inner => exact Option.some.inj hfound ▸ hmem
    | issued | returned | bound | restarted => cases hfound
  · exact fun hmem => ⟨.server event, hmem, rfl⟩

/-- The server's events of a step are those of its section of the server. -/
theorem serverHistory_events (app : Service σ) (net : Net σ) (label : Label) :
    serverHistory (events app net label) =
      (net.serverLabel label).toList.flatMap (Server.events app net.server) := by
  have hclient : serverHistory ((net.clientLabel label).toList.flatMap fun part =>
      clientEvents (net.clients part.1) part.1 part.2) = [] := by
    cases net.clientLabel label with
    | none => rfl
    | some part => simpa using serverHistory_clientEvents _ part.1 part.2
  have hrestart : serverHistory (restartEvents label) = [] := by
    cases label <;> rfl
  rw [events, serverHistory_append, serverHistory_append, hclient, hrestart, List.append_nil,
    List.nil_append]
  cases net.serverLabel label with
  | none => rfl
  | some part => simpa using serverHistory_map _

/-- A condition on the server, as a condition on the system: the server is not
started again, and its sections satisfy the condition. -/
def onServer (guard : Server σ × List Server.Event → Server.Label → Bool)
    (source : Net σ × List Event) (label : Label) : Bool :=
  !restarts label &&
    (source.1.serverLabel label).all (guard (source.1.server, serverHistory source.2))

/-- A run of the system in which the server is not started again is a run of the
server, and the condition on the server's sections carries over. -/
theorem exists_server_run {setup : Setup σ}
    {guard : Server σ × List Server.Event → Server.Label → Bool} {labels : List Label}
    {reached : Net σ × List Event}
    (hrun : (logged setup).Run (fun source label => onServer guard source label = true)
      labels reached) :
    ∃ parts, (Server.logged setup.app setup.srvNonce).Run
      (fun source part => guard source part = true) parts
      (reached.1.server, serverHistory reached.2) := by
  have hinit : ((logged setup).init.1.server, serverHistory (logged setup).init.2) =
      (Server.logged setup.app setup.srvNonce).init := rfl
  refine hrun.project (fun source => (source.1.server, serverHistory source.2)) hinit ?_
  intro labels source label target _ hguard hstep
  obtain ⟨hnext, hlog⟩ := System.recorded_step_eq_some.mp hstep
  obtain ⟨hrestart, hserver⟩ : restarts label = false ∧ ∀ part,
      source.1.serverLabel label = some part →
        guard (source.1.server, serverHistory source.2) part = true := by
    simpa [onServer, Option.all_eq_true] using hguard
  have hevents : serverHistory target.2 = serverHistory source.2 ++
      (source.1.serverLabel label).toList.flatMap
        (Server.events setup.app source.1.server) := by
    rw [hlog, serverHistory_append, serverHistory_events]
  rcases server_of_step hnext hrestart with ⟨hnone, hsame⟩ | ⟨part, hpart, hmoved⟩
  · left
    rw [hevents, hnone, hsame]
    simp
  · right
    refine ⟨part, hserver part hpart, System.recorded_step_eq_some.mpr ⟨hmoved, ?_⟩⟩
    rw [hevents, hpart]
    simp

end YfsLab.Rpc.Net
