/-
# What the threads share

A process has any number of `rpcc`s and an `rpcs`, each with its connections. What their
threads share are these objects, and what a thread does to them is a step of a client or of
the server. An access is such a step together with the objects that it is about: the
mutexes that it is made under are those of these objects, and which objects they are a
thread has to find out before it takes them.
-/

import YfsLab.Foundations.Locking
import YfsLab.Rpc.ClientReferences
import YfsLab.Rpc.System
import YfsLab.Rpc.Teardown

namespace YfsLab.Threads

open BigEndian Transition Rpc

/-- Whose connections are meant. -/
inductive End
  | client (i : ClientId)
  | server
  deriving DecidableEq, Repr

/-- The mutexes of the program. -/
inductive Mutex
  /-- `m_` of an `rpcc` -/
  | rpcc (i : ClientId)
  /-- `chan_m_` of an `rpcc` -/
  | chan (i : ClientId)
  /-- `m` of a `caller` -/
  | caller (i : ClientId) (k : CallId)
  /-- `m_` of a `connection` -/
  | conn (e : End) (c : ConnId)
  /-- `ref_m_` of a `connection` -/
  | ref (e : End) (c : ConnId)
  /-- `procs_m_` of `rpcs` -/
  | procs
  /-- `count_m_` of `rpcs` -/
  | count
  /-- `reply_window_m_` of `rpcs` -/
  | replyWindow
  /-- `conss_m_` of `rpcs` -/
  | conss
  /-- `m_` of the queue of the pool -/
  | jobq
  /-- `m_` of `PollMgr` -/
  | pollMgr
  /-- `m_` of `SelectAIO` -/
  | selectAio
  /-- the mutex of the object whose methods the handlers are -/
  | handlers
  deriving DecidableEq, Repr

/-- What a step is about: the caller whose record it reads or writes, the connection whose
count it reads or changes, and the one that it asks whether it is dead, or marks so. -/
structure Touched where
  caller : Option CallId := none
  counted : Option ConnId := none
  tested : Option ConnId := none
  deriving DecidableEq, Repr

/-! ## What a step of a client is about -/

/-- The caller that `got_pdu` finds. -/
def callerOf (s : Links) (b : Bytes) : Option CallId :=
  (decodeReply b).bind fun reply => s.client.calls reply.xid

/-- What a step of a client is about. -/
def clientTouches (s : Links) : Links.Label → Touched
  | .test => { tested := s.uses .test }
  | .drop => { counted := s.gives .drop }
  | .letGo => { counted := s.gives .letGo }
  | .take => { counted := s.uses .take }
  | .client (.wake k) | .client (.expire k) => { caller := some k }
  | .client (.retry k dead last) => { tested := s.uses (.client (.retry k dead last)) }
  | .client (.finish k) => { caller := some k, counted := s.gives (.client (.finish k)) }
  | .client (.gotPdu b) => { caller := callerOf s b }
  | .die c => { tested := some c }
  | .close => { tested := s.uses .close }
  | .discard => { counted := s.gives .discard }
  | _ => {}

/-- The mutex of the `rpcc` that a step is made under. -/
def clientMutexes (i : ClientId) : Links.Label → List Mutex
  | .lock _ | .test | .drop | .connect _ | .letGo | .take | .skip => [.chan i]
  | .client (.start ..) | .client (.erase _) | .client (.gotPdu _) | .client (.bind _) =>
      [.rpcc i]
  | _ => []

/-! ## What a step of the server is about -/

section

variable {σ : Type}

/-- The reference that a section under `conss_m_` gives back: that of the client's old
connection, or of the job's dead one. -/
def replaces (s : Registry σ) (d : DispatchId) : Option ConnId :=
  (s.server.frames d).bind fun f =>
    (s.server.conns f.request.clt).bind fun latest =>
      if latest = f.conn then none
      else if f.stage = .connect then some latest
      else if f.stage = .select ∧ (s.objs f.conn).dead then some f.conn
      else none

/-- The connection that the client's entry is to be, if it is another one. -/
def saves (s : Registry σ) (d : DispatchId) : Option ConnId :=
  (s.server.frames d).bind fun f =>
    if s.server.conns f.request.clt = some f.conn then none else some f.conn

/-- The client's latest connection. -/
def latest (s : Registry σ) (d : DispatchId) : Option ConnId :=
  (s.server.frames d).bind fun f => s.server.conns f.request.clt

/-- The connection of a job. -/
def connOf (s : Registry σ) (d : DispatchId) : Option ConnId :=
  (s.server.frames d).map Dispatch.conn

/-- The connection in `conns_` that `process_accept` looks at. -/
def lookedAt (s : Registry σ) : Option ConnId :=
  match s.acceptor with
  | .scanning _ (entry :: _) | .found _ entry _ => some entry.2
  | _ => none

/-- What a step of the server's connections is about. -/
def registryTouches (s : Registry σ) : Registry.Label → Touched
  | .isdead => { tested := lookedAt s }
  | .ref => { counted := lookedAt s }
  | .collect => { counted := s.gives .collect }
  | .die c => { tested := some c }
  | .gotPdu c _ => { counted := some c, tested := some c }
  | .giveBack => { counted := s.gives .giveBack }
  | .dispatch (.connect d) => { counted := saves s d }
  | .dispatch (.select d _) =>
      if s.swapping.isSome then { counted := latest s d } else { tested := connOf s d }
  | .release d => { counted := s.gives (.release d) }
  | .leave i => { counted := s.gives (.leave i) }
  | _ => {}

/-- What a step of the server is about. -/
def serverTouches (s : Shutdown σ) : Shutdown.Label → Touched
  | .registry label => registryTouches s.registry label
  | .closeconn => { tested := s.registry.conns.1.head?.map Prod.snd }
  | .decref => { counted := s.gives .decref }
  | _ => {}

end

/-- The mutex of `rpcs` that a step is made under. -/
def serverMutexes : Shutdown.Label → List Mutex
  | .registry (.addJob ..) => [.jobq]
  | .registry (.dispatch (.enroll _)) | .registry (.dispatch (.check _))
  | .registry (.dispatch (.record _)) | .finish _ => [.replyWindow]
  | .registry (.dispatch (.connect _)) | .registry (.dispatch (.select ..))
  | .registry (.release _) => [.conss]
  | _ => []

/-! ## Accesses -/

/-- A step with what it is about. A job at its end gives the reference of a connection
back. -/
inductive Access
  | client (i : ClientId) (label : Links.Label) (touched : Touched)
  | server (label : Shutdown.Label) (touched : Touched)
  | leave (c : ConnId)

/-- The mutexes of the objects that a step is about. -/
def Touched.mutexes (touched : Touched) (e : End) : List Mutex :=
  touched.counted.toList.map (.ref e) ++ touched.tested.toList.map (.conn e)

/-- The mutexes that an access is made under. -/
def Access.mutexes : Access → List Mutex
  | .client i label touched =>
      clientMutexes i label ++ touched.caller.toList.map (.caller i) ++
        touched.mutexes (.client i)
  | .server label touched => serverMutexes label ++ touched.mutexes .server
  | .leave c => [.ref .server c]

/-- A process with its clients and its server. -/
structure World (σ : Type) where
  links : ClientId → Links
  server : Shutdown σ

/-- What a process is started with. -/
structure Setup (σ : Type) where
  app : Service σ
  nonce : UInt32
  cltNonce : ClientId → UInt32
  retrans : ClientId → Bool

namespace World

variable {σ : Type}

/-- The connections that have been made. -/
def made (w : World σ) : End → ℕ
  | .client i => (w.links i).made
  | .server => w.server.registry.made

/-- The connection objects. -/
def objs (w : World σ) : End → ConnId → ConnObj
  | .client i => (w.links i).objs
  | .server => w.server.registry.objs

/-- A step of a client. -/
def client (w : World σ) (i : ClientId) (label : Links.Label) : Option (World σ) :=
  ((w.links i).step label).map fun s => { w with links := Function.update w.links i s }

/-- A step of the server. -/
def serve (w : World σ) (app : Service σ) (label : Shutdown.Label) : Option (World σ) :=
  (w.server.step app label).map fun server => { w with server := server }

/-- An access. It is refused if the step is about other objects. -/
def step (app : Service σ) (w : World σ) : Access → Option (World σ)
  | .client i label touched =>
      if clientTouches (w.links i) label = touched then w.client i label else none
  | .server label touched =>
      if serverTouches w.server label = touched then w.serve app label else none
  | .leave c => w.serve app (.registry (.leave (w.server.registry.leaving.idxOf c)))

/-- A new process. -/
def system (setup : Setup σ) : System (World σ) Access where
  init :=
    { links := fun i => { client := { cltNonce := setup.cltNonce i, retrans := setup.retrans i } }
      server := { registry := { server := Server.start setup.app setup.nonce } } }
  step := step setup.app

end World

end YfsLab.Threads
