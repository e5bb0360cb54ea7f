/-
# The end of the server

`~rpcs` deletes its `tcpsconn`, then the pool, and then the reply window. `~tcpsconn`
closes its pipe, joins the thread of `accept_conn`, and then goes over `conns_`: it calls
`closeconn` of every connection, which waits for a callback that is at work on it, and
gives the reference back. `~ThrPool` lets the jobs that are queued or running come to
their ends.

All the while the poll thread and the jobs go on. Their steps are those of the server's
connections, and the thread of `accept_conn` takes part until it has been joined.
-/

import YfsLab.Rpc.Collection
import YfsLab.Rpc.StoreHistory

namespace YfsLab.Rpc

open BigEndian Poll Transition Wire

/-- Where `~rpcs` is. -/
inductive Teardown
  /-- it has not been called, or has not joined the thread of `accept_conn` -/
  | accepting
  /-- at the head of the loop over `conns_` -/
  | closing
  /-- behind `closeconn` -/
  | dropping
  /-- in `~ThrPool` -/
  | draining
  /-- it has returned -/
  | returned
  deriving DecidableEq, Repr

/-- The server in its teardown. The `conns_` are what the loop has not passed, and `jobs`
are all jobs that the pool has taken. -/
structure Shutdown (σ : Type) where
  registry : Registry σ
  teardown : Teardown := .accepting
  jobs : List DispatchId := []

/-- The connection that a step of the server's connections calls `decref` of. -/
def Registry.gives {σ : Type} (s : Registry σ) : Registry.Label → Option ConnId
  | .collect =>
      match s.acceptor with
      | .collecting _ entry _ => some entry.2
      | _ => none
  | .giveBack =>
      match s.reader with
      | .refused c => some c
      | _ => none
  | .release d =>
      (s.server.frames d).bind fun f =>
        if f.stage = .connect then s.server.conns f.request.clt else some f.conn
  | .leave i => s.leaving[i]?
  | _ => none

namespace Shutdown

variable {σ : Type}

/-- The job that the pool takes in a step. -/
def takenJob : Registry.Label → Option DispatchId
  | .addJob d true => some d
  | _ => none

/-- A step of the poll thread, of a job, or of the thread of `accept_conn`. -/
def work (s : Shutdown σ) (app : Service σ) (label : Registry.Label) :
    Option (Shutdown σ) :=
  if s.teardown ≠ .returned ∧ (Registry.accepting label = false ∨ s.teardown = .accepting) then
    (s.registry.step app label).map fun registry =>
      { s with registry := registry, jobs := s.jobs ++ (takenJob label).toList }
  else none

/-- The thread of `accept_conn`, in `select`, has found the pipe closed and is joined. -/
def join (s : Shutdown σ) : Option (Shutdown σ) :=
  if s.teardown = .accepting ∧ s.registry.acceptor = .idle then
    some { s with teardown := .closing }
  else none

/-- `closeconn` of the next connection. It waits for `read_cb`. -/
def closeconn (s : Shutdown σ) (app : Service σ) : Option (Shutdown σ) :=
  if s.teardown = .closing then
    s.registry.conns.1.head?.bind fun entry =>
      if s.registry.reader.conn ≠ some entry.2 then
        (s.registry.step app (.die entry.2)).map fun registry =>
          { s with registry := registry, teardown := .dropping }
      else none
  else none

/-- The reference of `conns_` is given back, and the loop passes on. -/
def decref (s : Shutdown σ) : Option (Shutdown σ) :=
  if s.teardown = .dropping then
    s.registry.conns.1.head?.bind fun entry =>
      (s.registry.decref entry.2).map fun registry =>
        { s with
          registry := { registry with conns := registry.conns.erase entry.1 }
          teardown := .closing }
  else none

/-- The loop has come to its end, and the pool is deleted. -/
def drain (s : Shutdown σ) : Option (Shutdown σ) :=
  if s.teardown = .closing ∧ s.registry.conns.1 = [] then
    some { s with teardown := .draining }
  else none

/-- All jobs have come to their ends. `free_reply_window` walks the map in the order of
these clients. -/
def finish (s : Shutdown σ) (clts : List UInt32) : Option (Shutdown σ) :=
  if s.teardown = .draining ∧ s.registry.leaving = [] ∧
      (s.jobs.all fun d => (s.registry.server.frames d).all fun f => f.stage == .ended) then
    (s.registry.server.store.step (.freeReplyWindow clts)).map fun store =>
      { s with
        registry := { s.registry with server := { s.registry.server with store := store } }
        teardown := .returned }
  else none

/-- The steps of the server and of `~rpcs`. -/
inductive Label
  | registry (label : Registry.Label)
  | join
  | closeconn
  | decref
  | drain
  | finish (clts : List UInt32)

/-- One step. -/
def step (app : Service σ) (s : Shutdown σ) : Label → Option (Shutdown σ)
  | .registry label => s.work app label
  | .join => s.join
  | .closeconn => s.closeconn app
  | .decref => s.decref
  | .drain => s.drain
  | .finish clts => s.finish clts

/-- A new server. -/
def system (app : Service σ) (nonce : UInt32) : System (Shutdown σ) Label where
  init := { registry := { server := Server.start app nonce } }
  step := step app

/-! ## What a run is judged by -/

/-- The connection that a step calls `decref` of. -/
def gives (s : Shutdown σ) : Label → Option ConnId
  | .registry label => s.registry.gives label
  | .decref => s.registry.conns.1.head?.map Prod.snd
  | _ => none

/-- The connections that a step deletes: `decref` finds that its reference was the last
one, and that the connection is dead. -/
def deletes (s : Shutdown σ) (label : Label) : List ConnId :=
  ((s.gives label).filter fun c =>
    (s.registry.objs c).refno - 1 == 0 && (s.registry.objs c).dead).toList

/-- The server with the connections that have been deleted. The destructor of a
connection closes its descriptor. -/
def logged (app : Service σ) (nonce : UInt32) : System (Shutdown σ × List ConnId) Label :=
  (system app nonce).recorded deletes

/-- A connection to which nobody counts any more, and that has been deleted once. -/
structure Released (reached : Shutdown σ × List ConnId) (c : ConnId) : Prop where
  refno_eq : (reached.1.registry.objs c).refno = 0
  deleted : (reached.1.registry.objs c).deleted = true
  once : reached.2.count c = 1

end Shutdown

end YfsLab.Rpc
