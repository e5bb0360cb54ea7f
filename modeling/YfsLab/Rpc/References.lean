/-
# The references to the server's connections

A `connection` of the server counts its references. `tcpsconn` holds one for every
connection in its `conns_`, from the constructor on, and `process_accept` gives it back
when it finds the connection dead with no other reference. `got_pdu` takes a reference
for the job that it puts into the queue, the table of the latest connections of the
clients holds one for each of its entries, and `dispatch` gives the reference of its job
back at its end.

The count has a mutex of its own, so that the threads see each other in the middle of
what they do with it: between the tests of `process_accept` and its `decref`, between the
`incref` of `got_pdu` and what `addObjJob` returns, and inside the sections of
`dispatch` in which a client's table entry, or the job, changes from one connection to
another. These are different steps here. The sections of `dispatch` themselves are those
of the server.
-/

import YfsLab.Foundations.SortedMap
import YfsLab.Poll.SelectAIO
import YfsLab.Rpc.Server

namespace YfsLab.Rpc

open BigEndian Poll Transition Wire

/-- A `connection` object: its descriptor, its count and whether it is dead, and whether
it has been deleted. -/
structure ConnObj where
  fd : Fd := 0
  refno : ℤ := 0
  dead : Bool := false
  deleted : Bool := false
  deriving DecidableEq, Repr

/-- `connection::incref`. -/
def ConnObj.incref (o : ConnObj) : ConnObj := { o with refno := o.refno + 1 }

/-- `connection::decref`. It asserts that the count does not get negative, and deletes a
dead connection that nobody refers to any more. -/
def ConnObj.decref (o : ConnObj) : Option ConnObj :=
  if o.refno - 1 < 0 then none
  else
    some { o with
      refno := o.refno - 1
      deleted := o.deleted || (o.refno - 1 == 0 && o.dead) }

/-- Where `process_accept` is, with the new connection and the part of `conns_` that it
has not looked at. -/
inductive Acceptor
  /-- in `select` -/
  | idle
  /-- at the head of its loop -/
  | scanning (ch : ConnId) (todo : List (Fd × ConnId))
  /-- `isdead` has returned true -/
  | found (ch : ConnId) (entry : Fd × ConnId) (todo : List (Fd × ConnId))
  /-- `ref` has returned 1 -/
  | collecting (ch : ConnId) (entry : Fd × ConnId) (todo : List (Fd × ConnId))
  /-- `decref` has been called -/
  | erasing (ch : ConnId) (entry : Fd × ConnId) (todo : List (Fd × ConnId))
  deriving DecidableEq, Repr

/-- The connection that is being inserted. -/
def Acceptor.ch : Acceptor → Option ConnId
  | .idle => none
  | .scanning ch _ | .found ch _ _ | .collecting ch _ _ | .erasing ch _ _ => some ch

/-- The connection in `conns_` whose reference has been given back. -/
def Acceptor.erased : Acceptor → Option ConnId
  | .erasing _ entry _ => some entry.2
  | _ => none

/-- Where `got_pdu` is. -/
inductive Reader
  | idle
  /-- behind `incref` -/
  | counted (c : ConnId) (pdu : Bytes)
  /-- the queue was full -/
  | refused (c : ConnId)
  deriving DecidableEq, Repr

/-- The connection that `got_pdu` holds a reference of. -/
def Reader.conn : Reader → Option ConnId
  | .idle => none
  | .counted c _ | .refused c => some c

/-- The server, its `tcpsconn` and their connections. `swapping` is the dispatch that
holds `conss_m_` and has given a reference back without having taken the other one, with
the connection of the reference; `leaving` are the connections of the jobs that are about
to call `decref` for the last time. `unreturned` records the connections whose jobs have
ended without it. -/
structure Registry (σ : Type) where
  server : Server σ
  made : ℕ := 0
  objs : ConnId → ConnObj := fun _ => {}
  conns : SortedMap Fd ConnId := .empty
  acceptor : Acceptor := .idle
  reader : Reader := .idle
  swapping : Option (DispatchId × ConnId) := none
  leaving : List ConnId := []
  unreturned : List ConnId := []

namespace Registry

variable {σ : Type}

/-- A reference is taken. -/
def incref (s : Registry σ) (c : ConnId) : Registry σ :=
  { s with objs := Function.update s.objs c (s.objs c).incref }

/-- A reference is given back. -/
def decref (s : Registry σ) (c : ConnId) : Option (Registry σ) :=
  (s.objs c).decref.map fun o => { s with objs := Function.update s.objs c o }

/-! ## `process_accept` -/

/-- `accept` returns a descriptor that no connection uses, and the connection for it is
made. -/
def accept (s : Registry σ) (fd : Fd) : Option (Registry σ) :=
  if s.acceptor = .idle ∧
      ((List.range s.made).all fun c => (s.objs c).deleted || (s.objs c).fd != fd) then
    some { s with
      made := s.made + 1
      objs := Function.update s.objs s.made { fd := fd, refno := 1 }
      acceptor := .scanning s.made s.conns.1 }
  else none

/-- The loop looks at the next connection. -/
def isdead (s : Registry σ) : Option (Registry σ) :=
  match s.acceptor with
  | .scanning ch (entry :: todo) =>
      some { s with
        acceptor :=
          if (s.objs entry.2).dead then .found ch entry todo else .scanning ch todo }
  | _ => none

/-- The loop looks at the count of a dead connection. -/
def ref (s : Registry σ) : Option (Registry σ) :=
  match s.acceptor with
  | .found ch entry todo =>
      some { s with
        acceptor :=
          if (s.objs entry.2).refno = 1 then .collecting ch entry todo
          else .scanning ch todo }
  | _ => none

/-- The loop gives the reference of a dead connection back. -/
def collect (s : Registry σ) : Option (Registry σ) :=
  match s.acceptor with
  | .collecting ch entry todo =>
      (s.decref entry.2).map fun s => { s with acceptor := .erasing ch entry todo }
  | _ => none

/-- The loop erases the entry of the connection. -/
def erase (s : Registry σ) : Option (Registry σ) :=
  match s.acceptor with
  | .erasing ch entry todo =>
      some { s with conns := s.conns.erase entry.1, acceptor := .scanning ch todo }
  | _ => none

/-- Behind the loop, the new connection is inserted. -/
def insert (s : Registry σ) : Option (Registry σ) :=
  match s.acceptor with
  | .scanning ch [] =>
      some { s with conns := s.conns.assign (s.objs ch).fd ch, acceptor := .idle }
  | _ => none

/-! ## `got_pdu` -/

/-- `read_cb` has read a PDU of a live connection and calls `got_pdu`, which takes a
reference for the job. -/
def gotPdu (s : Registry σ) (c : ConnId) (pdu : Bytes) : Option (Registry σ) :=
  if s.reader = .idle ∧ c < s.made ∧ (s.objs c).deleted = false ∧ (s.objs c).dead = false then
    some { s.incref c with reader := .counted c pdu }
  else none

/-- `addObjJob` takes the job, unless the queue is full. All that `dispatch` does with a
job whose header is not complete is to drop its reference. -/
def addJob (s : Registry σ) (app : Service σ) (d : DispatchId) (ok : Bool) :
    Option (Registry σ) :=
  match s.reader with
  | .counted c pdu =>
      if ok then
        (s.server.step app (.receive d c pdu)).map fun server =>
          { s with
            server := server
            reader := .idle
            leaving := s.leaving ++ if (decodeRequest pdu).isNone then [c] else [] }
      else some { s with reader := .refused c }
  | _ => none

/-- `got_pdu` gives the reference back that it has taken for a job that was not queued. -/
def giveBack (s : Registry σ) : Option (Registry σ) :=
  match s.reader with
  | .refused c => (s.decref c).map fun s => { s with reader := .idle }
  | _ => none

/-! ## `dispatch` -/

/-- The dispatch that a section belongs to. -/
def dispatchOf : Server.Label → Option DispatchId
  | .receive d _ _ | .vet d | .enroll d | .connect d | .check d | .enter d _ _
  | .resume d _ _ | .record d | .select d _ | .send d | .refuse d _ => some d
  | .stir _ => none

/-- The connection of a dispatch that has just come to its end. -/
def exits (server : Server σ) (label : Server.Label) : List ConnId :=
  ((dispatchOf label).bind fun d =>
    (server.frames d).bind fun f => if f.stage = .ended then some f.conn else none).toList

/-- A dispatch that has refused a request for an old instance returns without
`decref`. -/
def returnsEarly : Server.Label → Bool
  | .refuse _ ret => ret == RpcConst.oldsrvFailure
  | _ => false

/-- A section of `dispatch`. -/
def serve (s : Registry σ) (app : Service σ) (label : Server.Label) : Option (Registry σ) :=
  (s.server.step app label).map fun server =>
    if returnsEarly label then
      { s with server := server, unreturned := s.unreturned ++ exits server label }
    else { s with server := server, leaving := s.leaving ++ exits server label }

/-- The first half of a section under `conss_m_`: the reference of the client's old
connection, or of the job's dead one, is given back. -/
def release (s : Registry σ) (d : DispatchId) : Option (Registry σ) :=
  (s.server.frames d).bind fun f =>
    (s.server.conns f.request.clt).bind fun latest =>
      if s.swapping = none ∧ latest ≠ f.conn then
        if f.stage = .connect then
          (s.decref latest).map fun s => { s with swapping := some (d, latest) }
        else if f.stage = .select ∧ (s.objs f.conn).dead then
          (s.decref f.conn).map fun s => { s with swapping := some (d, f.conn) }
        else none
      else none

/-- The section that saves the latest good connection to the client. -/
def connect (s : Registry σ) (app : Service σ) (d : DispatchId) : Option (Registry σ) :=
  (s.server.frames d).bind fun f =>
    match s.swapping with
    | some (e, _) =>
        if e = d then
          ({ s with swapping := none }.serve app (.connect d)).map (incref · f.conn)
        else none
    | none =>
        if s.server.conns f.request.clt = none then
          (s.serve app (.connect d)).map (incref · f.conn)
        else if s.server.conns f.request.clt = some f.conn then s.serve app (.connect d)
        else none

/-- The section that looks for the latest connection. There is no result if it is
null. -/
def select (s : Registry σ) (app : Service σ) (d : DispatchId) : Option (Registry σ) :=
  (s.server.frames d).bind fun f =>
    match s.swapping with
    | some (e, _) =>
        if e = d then
          (s.server.conns f.request.clt).bind fun latest =>
            ({ s with swapping := none }.serve app (.select d true)).map (incref · latest)
        else none
    | none =>
        if (s.objs f.conn).dead ∧ s.server.conns f.request.clt ≠ some f.conn then none
        else s.serve app (.select d (s.objs f.conn).dead)

/-- A job gives its reference back and is done. -/
def leave (s : Registry σ) (i : ℕ) : Option (Registry σ) :=
  s.leaving[i]?.bind fun c =>
    (s.decref c).map fun s => { s with leaving := s.leaving.eraseIdx i }

/-! ## The steps -/

/-- The steps of `process_accept`, of `got_pdu` and of `dispatch`, and a connection that
is found dead. -/
inductive Label
  | accept (fd : Fd)
  | isdead
  | ref
  | collect
  | erase
  | insert
  | die (c : ConnId)
  | gotPdu (c : ConnId) (pdu : Bytes)
  | addJob (d : DispatchId) (ok : Bool)
  | giveBack
  | dispatch (label : Server.Label)
  | release (d : DispatchId)
  | leave (i : ℕ)

/-- One step. -/
def step (app : Service σ) (s : Registry σ) : Label → Option (Registry σ)
  | .accept fd => s.accept fd
  | .isdead => s.isdead
  | .ref => s.ref
  | .collect => s.collect
  | .erase => s.erase
  | .insert => s.insert
  | .die c =>
      if c < s.made ∧ (s.objs c).deleted = false then
        some { s with objs := Function.update s.objs c { s.objs c with dead := true } }
      else none
  | .gotPdu c pdu => s.gotPdu c pdu
  | .addJob d ok => s.addJob app d ok
  | .giveBack => s.giveBack
  | .dispatch (.receive ..) => none
  | .dispatch (.connect d) => s.connect app d
  | .dispatch (.select d _) => s.select app d
  | .dispatch label => s.serve app label
  | .release d => s.release d
  | .leave i => s.leave i

/-- A new server. -/
def system (app : Service σ) (nonce : UInt32) : System (Registry σ) Label where
  init := { server := Server.start app nonce }
  step := step app

end Registry

end YfsLab.Rpc
