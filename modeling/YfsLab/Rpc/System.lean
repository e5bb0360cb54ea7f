/-
# Clients, connections and a server

Any number of `rpcc`s talk to one server address over any number of connections.
A connection carries PDUs in order in both directions. Each of its two ends finds
out for itself that the connection has died, and after the first end has, PDUs that
are still on the way may get lost; before that none are. The server may be
destroyed and started again with another nonce, which closes all connections at
its end.

A step is a section of a client or of the server, together with what it does to
a connection, or something that happens to a connection.
-/

import YfsLab.Rpc.Server

namespace YfsLab.Rpc

open BigEndian Transition Wire

/-- An `rpcc` object. -/
abbrev ClientId := ℕ

/-- A connection: `dead_` of the two connection objects, and the PDUs on the way
from the client and to it. -/
structure Conn where
  owner : ClientId
  cdead : Bool := false
  sdead : Bool := false
  up : List Bytes := []
  down : List Bytes := []
  deriving DecidableEq, Repr

namespace Conn

/-- `send` at the client's end. It fails if the connection is dead, and if it
cannot write the whole PDU it marks the connection dead. -/
def sendUp (c : Conn) (ok : Bool) (pdu : Bytes) : Conn :=
  if c.cdead then c
  else if ok then { c with up := c.up ++ [pdu] }
  else { c with cdead := true }

/-- `send` at the server's end. -/
def sendDown (c : Conn) (ok : Bool) (pdu : Bytes) : Conn :=
  if c.sdead then c
  else if ok then { c with down := c.down ++ [pdu] }
  else { c with sdead := true }

/-- One end finds the connection dead. -/
def die (c : Conn) (atClient : Bool) : Conn :=
  if atClient then { c with cdead := true } else { c with sdead := true }

/-- The last PDUs in either direction get lost. -/
def lose (c : Conn) (up down : ℕ) : Conn :=
  { c with up := c.up.take up, down := c.down.take down }

end Conn

/-- Who takes part: the `clt_nonce`s that the retransmitting clients have drawn,
the nonce of the first server, and the handlers. -/
structure Setup (σ : Type) where
  nonce : ClientId → UInt32
  retrans : ClientId → Bool
  srvNonce : UInt32
  app : Service σ

/-- Retransmitting clients of the server of `rpctest`, with different nonces. -/
def rpctest : Setup Unit where
  nonce i := UInt32.ofNat (i + 1)
  retrans _ := true
  srvNonce := 9
  app := handleFast

/-- Everything. -/
structure Net (σ : Type) where
  clients : ClientId → Client
  conns : ConnId → Option Conn := fun _ => none
  server : Server σ

namespace Net

variable {σ : Type}

/-- `rpcc::rpcc`. -/
def newClient (setup : Setup σ) (i : ClientId) : Client where
  cltNonce := if setup.retrans i then setup.nonce i else 0
  retrans := setup.retrans i

/-- Clients that have not done anything yet, and a new server. -/
def start (setup : Setup σ) : Net σ where
  clients := newClient setup
  server := Server.start setup.app setup.srvNonce

/-- Write a client. -/
def putClient (net : Net σ) (i : ClientId) (c : Client) : Net σ :=
  { net with clients := Function.update net.clients i c }

/-- Write a connection. -/
def putConn (net : Net σ) (n : ConnId) (conn : Conn) : Net σ :=
  { net with conns := Function.update net.conns n (some conn) }

/-- A section of a client. -/
def clientStep (net : Net σ) (i : ClientId) (label : Client.Label) : Option (Net σ) :=
  ((net.clients i).step label).map fun c => net.putClient i c

/-- A section of the server. -/
def serverStep (net : Net σ) (app : Service σ) (label : Server.Label) : Option (Net σ) :=
  (net.server.step app label).map fun server => { net with server }

/-- `isdead` at the client's end. -/
def cdead (net : Net σ) (n : ConnId) : Bool := (net.conns n).any Conn.cdead

/-- `isdead` at the server's end. -/
def sdead (net : Net σ) (n : ConnId) : Bool := (net.conns n).any Conn.sdead

/-- Is the connection that the client uses dead? -/
def chanDead (net : Net σ) (i : ClientId) : Bool :=
  (net.clients i).chan.any net.cdead

/-- Is the connection that a call has last been sent on dead? -/
def callDead (net : Net σ) (i : ClientId) (k : CallId) : Bool :=
  ((net.clients i).frames k).any fun call => call.ch.any net.cdead

/-- Is the connection of a dispatch dead? -/
def dispatchDead (net : Net σ) (d : DispatchId) : Bool :=
  (net.server.frames d).any fun f => net.sdead f.conn

/-- `get_refconn`, and the connection that `connect_to_dst` makes. -/
def refconn (net : Net σ) (i : ClientId) (k : CallId) (connected : Option ConnId) :
    Option (Net σ) :=
  let net' :=
    if (net.clients i).chan.isNone || net.chanDead i then
      match connected with
      | some n => net.putConn n { owner := i }
      | none => net
    else net
  if connected.all fun n => (net.conns n).isNone then
    net'.clientStep i (.refconn k (net.chanDead i) connected)
  else none

/-- The section of `call1` that sends. -/
def send (net : Net σ) (i : ClientId) (k : CallId) (ok last : Bool) : Option (Net σ) :=
  let net' :=
    match (net.clients i).frames k with
    | none => net
    | some call =>
        match call.ch with
        | none => net
        | some n =>
            match net.conns n with
            | none => net
            | some conn => net.putConn n (conn.sendUp ok call.request.pdu)
  net'.clientStep i (.send k last)

/-- A PDU of the server arrives at the client. -/
def deliver (net : Net σ) (n : ConnId) : Option (Net σ) :=
  (net.conns n).bind fun conn =>
    if conn.cdead then none
    else
      match conn.down with
      | [] => none
      | pdu :: rest =>
          (net.putConn n { conn with down := rest }).clientStep conn.owner (.gotPdu pdu)

/-- A PDU of a client arrives at the server. -/
def receive (net : Net σ) (app : Service σ) (d : DispatchId) (n : ConnId) : Option (Net σ) :=
  (net.conns n).bind fun conn =>
    if conn.sdead then none
    else
      match conn.up with
      | [] => none
      | pdu :: rest =>
          (net.putConn n { conn with up := rest }).serverStep app (.receive d n pdu)

/-- Pass the bytes of a dispatch on to a connection. -/
def sendDown (net : Net σ) (n : ConnId) (ok : Bool) (pdu : Bytes) : Net σ :=
  match net.conns n with
  | none => net
  | some conn => net.putConn n (conn.sendDown ok pdu)

/-- The send at the end of `dispatch`. -/
def reply (net : Net σ) (app : Service σ) (d : DispatchId) (ok : Bool) (junk : Bytes) :
    Option (Net σ) :=
  (net.server.outgoing d junk).bind fun (n, pdu) =>
    (net.sendDown n ok pdu).serverStep app (.send d)

/-- The send of a reply that has no result. -/
def refuse (net : Net σ) (app : Service σ) (d : DispatchId) (ret : Int32) (ok : Bool)
    (area : Area) : Option (Net σ) :=
  (net.server.frames d).bind fun f =>
    (net.sendDown f.conn ok (Server.refusal f area ret)).serverStep app (.refuse d ret)

/-- Something happens to a connection. -/
def onConn (net : Net σ) (n : ConnId) (allowed : Conn → Bool) (change : Conn → Conn) :
    Option (Net σ) :=
  (net.conns n).bind fun conn =>
    if allowed conn then some (net.putConn n (change conn)) else none

/-- The server is destroyed, and a new one is started. -/
def restart (net : Net σ) (app : Service σ) (nonce : UInt32) : Net σ where
  clients := net.clients
  conns n := (net.conns n).map fun conn => { conn with sdead := true }
  server := Server.start app nonce

/-- The steps. The sections that have nothing to do with a connection are those of
a client and of the server; the others say which connection they concern. -/
inductive Label
  | start (i : ClientId) (k : CallId) (proc : Int32) (args : Bytes)
  | refconn (i : ClientId) (k : CallId) (connected : Option ConnId)
  | send (i : ClientId) (k : CallId) (ok last : Bool)
  | wake (i : ClientId) (k : CallId)
  | expire (i : ClientId) (k : CallId)
  | retry (i : ClientId) (k : CallId) (last : Bool)
  | erase (i : ClientId) (k : CallId)
  | finish (i : ClientId) (k : CallId)
  | bind (i : ClientId) (k : CallId)
  | deliver (n : ConnId)
  | receive (d : DispatchId) (n : ConnId)
  | vet (d : DispatchId)
  | enroll (d : DispatchId)
  | connect (d : DispatchId)
  | check (d : DispatchId)
  | enter (d : DispatchId) (choice : ℕ) (area : Area)
  | resume (d : DispatchId) (choice : ℕ) (area : Area)
  | stir (choice : ℕ)
  | record (d : DispatchId)
  | select (d : DispatchId)
  | reply (d : DispatchId) (ok : Bool) (junk : Bytes)
  | refuse (d : DispatchId) (ret : Int32) (ok : Bool) (area : Area)
  | die (n : ConnId) (atClient : Bool)
  | lose (n : ConnId) (up down : ℕ)
  | restart (nonce : UInt32)

/-- One step. -/
def step (app : Service σ) (net : Net σ) : Label → Option (Net σ)
  | .start i k proc args => net.clientStep i (.start k proc args)
  | .refconn i k connected => net.refconn i k connected
  | .send i k ok last => net.send i k ok last
  | .wake i k => net.clientStep i (.wake k)
  | .expire i k => net.clientStep i (.expire k)
  | .retry i k last => net.clientStep i (.retry k (net.callDead i k) last)
  | .erase i k => net.clientStep i (.erase k)
  | .finish i k => net.clientStep i (.finish k)
  | .bind i k => net.clientStep i (.bind k)
  | .deliver n => net.deliver n
  | .receive d n => net.receive app d n
  | .vet d => net.serverStep app (.vet d)
  | .enroll d => net.serverStep app (.enroll d)
  | .connect d => net.serverStep app (.connect d)
  | .check d => net.serverStep app (.check d)
  | .enter d choice area => net.serverStep app (.enter d choice area)
  | .resume d choice area => net.serverStep app (.resume d choice area)
  | .stir choice => net.serverStep app (.stir choice)
  | .record d => net.serverStep app (.record d)
  | .select d => net.serverStep app (.select d (net.dispatchDead d))
  | .reply d ok junk => net.reply app d ok junk
  | .refuse d ret ok area => net.refuse app d ret ok area
  | .die n atClient => net.onConn n (fun _ => true) fun conn => conn.die atClient
  | .lose n up down =>
      net.onConn n (fun conn => conn.cdead || conn.sdead) fun conn => conn.lose up down
  | .restart nonce => some (net.restart app nonce)

/-- The system. -/
def system (setup : Setup σ) : System (Net σ) Label where
  init := start setup
  step := step setup.app

end Net

end YfsLab.Rpc
