/-
# The sections of the threads

What a thread runs between two moments at which it has no mutex, for every function that
takes one: a section ends where the function returns, where it has let all mutexes go, and
where it waits for a condition with the mutex that it gives back for that time. Behind the
wait it is another section that takes the mutex again.

What a function reads under its mutexes it looks up in the world, and so it finds the
objects whose mutexes it takes next. What comes from outside is part of the section: what
`read`, `write`, `accept` and `connect_to_dst` do, and what a handler decides.
-/

import YfsLab.Threads.World

namespace YfsLab.Threads

open BigEndian Locking Locking.Code Rpc

variable {σ : Type}

/-- The code of a thread. -/
abbrev Code (σ : Type) := Locking.Code (World σ) Access Mutex

/-! ## `PollMgr` -/

/-- `add_callback`, `del_callback` and `has_callback`, and `block_remove_fd` up to its wait. -/
def callback (next : Code σ) : Code σ :=
  .lock .pollMgr (passing .selectAio (.unlock .pollMgr next))

/-! ## `connection` -/

/-- The connection is marked dead. -/
def die (e : End) (c : ConnId) : Access :=
  match e with
  | .client i => .client i (.die c) { tested := some c }
  | .server => .server (.registry (.die c)) { tested := some c }

/-- `incref`, where there is a connection. -/
def incref (e : End) (o : Option ConnId) (a : Access) (next : Code σ) : Code σ :=
  match o with
  | none => attempt a next
  | some c => under (.ref e c) a next

/-- `isdead` and `closeconn`, where there is a connection. -/
def isdead (e : End) (o : Option ConnId) (a : Access) (next : Code σ) : Code σ :=
  match o with
  | none => attempt a next
  | some c => under (.conn e c) a next

/-- `decref`. A connection whose last reference this was is deleted if it is dead. -/
def decref (e : End) (c : ConnId) (a : Access) (next : Code σ) : Code σ :=
  .lock (.ref e c) <| .access a
    (.look fun w =>
      if (w.objs e c).refno = 0 then
        .lock (.conn e c) <| .look fun w =>
          if (w.objs e c).dead then .unlock (.ref e c) (.unlock (.conn e c) next)
          else .unlock (.conn e c) (.unlock (.ref e c) next)
      else .unlock (.ref e c) next)
    (.unlock (.ref e c) next)

/-- `decref`, where there is a connection. -/
def decrefAny (e : End) (o : Option ConnId) (a : Access) (next : Code σ) : Code σ :=
  match o with
  | none => attempt a next
  | some c => decref e c a next

/-- What `send` comes to: it has to wait, or it finds the connection dead or its PDU
written; `write` fails; or there is more to be written. -/
inductive Sending
  | settled
  | failed
  | more
  deriving DecidableEq, Repr

/-- `send`, up to where it waits or is done. When `write` has failed, `block_remove_fd`
follows, and then `m_` is taken once more. -/
def send (e : End) (c : ConnId) : Sending → Code σ
  | .settled => passing (.conn e c) .stop
  | .failed => under (.conn e c) (die e c) .stop
  | .more => .lock (.conn e c) (callback (.unlock (.conn e c) .stop))

/-- What `write_cb` comes to: there is nothing to be written, `write` fails, or it does not. -/
inductive Writing
  | idle
  | failed
  | written
  deriving DecidableEq, Repr

/-- `write_cb`. -/
def writeCb (e : End) (c : ConnId) : Writing → Code σ
  | .idle => .lock (.conn e c) (callback (.unlock (.conn e c) .stop))
  | .failed => .lock (.conn e c) (callback (attempt (die e c) (.unlock (.conn e c) .stop)))
  | .written => passing (.conn e c) .stop

/-- What `read_cb` comes to: `readpdu` fails, the PDU is not complete yet, or it is. -/
inductive Reading
  | failed
  | short
  | complete
  deriving DecidableEq, Repr

/-- `read_cb`. A complete PDU goes to `got_pdu` of the `chanmgr`. -/
def readCb (e : End) (c : ConnId) (reading : Reading) (gotPdu : Code σ → Code σ) : Code σ :=
  .lock (.conn e c) <| .look fun w =>
    if (w.objs e c).dead then .unlock (.conn e c) .stop
    else
      match reading with
      | .failed => callback (attempt (die e c) (.unlock (.conn e c) .stop))
      | .short => .unlock (.conn e c) .stop
      | .complete => gotPdu (.unlock (.conn e c) .stop)

/-! ## `rpcc` -/

/-- `rpcc::got_pdu`. -/
def gotReply (i : ClientId) (b : Bytes) (next : Code σ) : Code σ :=
  if (decodeReply b).isNone then next
  else
    .lock (.rpcc i) <| .look fun w =>
      match callerOf (w.links i) b with
      | none => attempt (.client i (.client (.gotPdu b)) {}) (.unlock (.rpcc i) next)
      | some k =>
          under (.caller i k) (.client i (.client (.gotPdu b)) { caller := some k })
            (.unlock (.rpcc i) next)

/-- The part of `get_refconn` in which `ch` gets what `chan_` is. -/
def moveRef (i : ClientId) : Code σ :=
  .look fun w =>
    match (w.links i).refconn with
    | .passing _ _ (some _) =>
        let o := (w.links i).gives .letGo
        decrefAny (.client i) o (.client i .letGo { counted := o }) <| .look fun w =>
          let o := (w.links i).uses .take
          incref (.client i) o (.client i .take { counted := o }) (.unlock (.chan i) .stop)
    | _ => attempt (.client i .skip {}) (.unlock (.chan i) .stop)

/-- `connect_to_dst`. The constructor of a connection adds its callback. -/
def connectToDst (i : ClientId) (ok : Bool) (next : Code σ) : Code σ :=
  attempt (.client i (.connect ok) {}) (if ok then callback next else next)

/-- `get_refconn`. -/
def getRefconn (i : ClientId) (k : CallId) (ok : Bool) : Code σ :=
  .lock (.chan i) <| attempt (.client i (.lock k) {}) <| .look fun w =>
    let o := (w.links i).uses .test
    isdead (.client i) o (.client i .test { tested := o }) <| .look fun w =>
      match (w.links i).refconn with
      | .dropping _ =>
          let o := (w.links i).gives .drop
          decrefAny (.client i) o (.client i .drop { counted := o }) <|
            connectToDst i ok (moveRef i)
      | .connecting _ => connectToDst i ok (moveRef i)
      | _ => moveRef i

/-- The other sections of `call1`, and the end of `bind`. -/
def call1 (i : ClientId) (label : Client.Label) : Code σ :=
  match label with
  | .start .. | .erase _ | .bind _ => under (.rpcc i) (.client i (.client label) {}) .stop
  | .wake k | .expire k =>
      under (.caller i k) (.client i (.client label) { caller := some k }) .stop
  | .send .. => attempt (.client i (.client label) {}) .stop
  | .retry .. => .look fun w =>
      let o := (w.links i).uses (.client label)
      isdead (.client i) o (.client i (.client label) { tested := o }) .stop
  | .finish k =>
      .lock (.caller i k) <| .look fun w =>
        let o := (w.links i).gives (.client label)
        decrefAny (.client i) o (.client i (.client label) { caller := some k, counted := o })
          (.unlock (.caller i k) .stop)
  | .refconn .. | .gotPdu _ => .stop

/-- `~rpcc`: `closeconn`, behind which `block_remove_fd` follows. -/
def closeChan (i : ClientId) : Code σ :=
  .look fun w =>
    let o := (w.links i).uses .close
    isdead (.client i) o (.client i .close { tested := o }) .stop

/-- `~rpcc`: `decref`. -/
def discardChan (i : ClientId) : Code σ :=
  .look fun w =>
    let o := (w.links i).gives .discard
    decrefAny (.client i) o (.client i .discard { counted := o }) .stop

/-! ## `rpcs` -/

/-- A step of the server's connections. -/
def registry (label : Registry.Label) (touched : Touched := {}) : Access :=
  .server (.registry label) touched

/-- `rpcs::got_pdu`. -/
def gotRequest (c : ConnId) (pdu : Bytes) (d : DispatchId) (ok : Bool) (next : Code σ) : Code σ :=
  .lock (.ref .server c) <|
    .access (registry (.gotPdu c pdu) { counted := some c, tested := some c })
      (.unlock (.ref .server c) <| under .jobq (registry (.addJob d ok)) <|
        if ok then next else decref .server c (registry .giveBack { counted := some c }) next)
      (.unlock (.ref .server c) next)

/-- `process_accept`, in the parts that take a mutex and in those that take none. -/
def processAccept (label : Registry.Label) : Code σ :=
  match label with
  | .accept _ => attempt (registry label) (callback .stop)
  | .isdead => .look fun w =>
      let o := lookedAt w.server.registry
      isdead .server o (registry label { tested := o }) .stop
  | .ref => .look fun w =>
      let o := lookedAt w.server.registry
      incref .server o (registry label { counted := o }) .stop
  | .collect => .look fun w =>
      let o := w.server.registry.gives label
      decrefAny .server o (registry label { counted := o }) .stop
  | .erase | .insert => attempt (registry label) .stop
  | _ => .stop

/-- The section that saves the latest good connection to the client. -/
def saveConn (d : DispatchId) : Code σ :=
  .lock .conss <| .look fun w =>
    let save : Code σ := .look fun w =>
      let o := saves w.server.registry d
      incref .server o (registry (.dispatch (.connect d)) { counted := o }) (.unlock .conss .stop)
    match replaces w.server.registry d with
    | none => save
    | some c => decref .server c (registry (.release d) { counted := some c }) save

/-- The section that looks for the latest connection to the client. -/
def latestConn (d : DispatchId) (dead : Bool) : Code σ :=
  .lock .conss <| .look fun w =>
    match connOf w.server.registry d with
    | none => .unlock .conss .stop
    | some c =>
        .lock (.conn .server c) <| .look fun w =>
          if replaces w.server.registry d = some c then
            .unlock (.conn .server c) <|
              decref .server c (registry (.release d) { counted := some c }) <| .look fun w =>
                let o := latest w.server.registry d
                incref .server o (registry (.dispatch (.select d dead)) { counted := o })
                  (.unlock .conss .stop)
          else
            attempt (registry (.dispatch (.select d dead)) { tested := some c })
              (.unlock (.conn .server c) (.unlock .conss .stop))

/-- The sections of `dispatch`. A request for an old instance of the server is refused
before the procedure is looked up. -/
def dispatch (label : Server.Label) : Code σ :=
  match label with
  | .vet d => .look fun w =>
      let server := w.server.registry.server
      if (server.frames d).any fun f => server.old f.request then
        attempt (registry (.dispatch label)) .stop
      else under .procs (registry (.dispatch label)) .stop
  | .enroll _ | .check _ | .record _ => under .replyWindow (registry (.dispatch label)) .stop
  | .connect d => saveConn d
  | .select d dead => latestConn d dead
  | .enter .. | .resume .. | .stir _ | .send _ | .refuse .. =>
      attempt (registry (.dispatch label)) .stop
  | .receive .. => .stop

/-- A handler whose object has a mutex. -/
def handler (label : Server.Label) : Code σ :=
  match label with
  | .enter .. | .resume .. | .stir _ => under .handlers (registry (.dispatch label)) .stop
  | _ => .stop

/-- `updatestat`. When it is time to, it looks at the reply window. -/
def updatestat (due : Bool) : Code σ :=
  .lock .count <| if due then passing .replyWindow (.unlock .count .stop) else .unlock .count .stop

/-- `~rpcs`. Before the pool is deleted it gets the jobs that its threads end at. -/
def deleteRpcs (label : Shutdown.Label) : Code σ :=
  match label with
  | .join => attempt (.server label {}) .stop
  | .closeconn => .look fun w =>
      let o := w.server.registry.conns.1.head?.map Prod.snd
      isdead .server o (.server label { tested := o }) .stop
  | .decref => .look fun w =>
      let o := w.server.gives label
      decrefAny .server o (.server label { counted := o }) .stop
  | .drain => under .jobq (.server label {}) .stop
  | .finish _ => under .replyWindow (.server label {}) .stop
  | .registry _ => .stop

/-! ## All sections -/

/-- The sections, with what comes from outside. -/
inductive Section
  | send (e : End) (c : ConnId) (sending : Sending)
  | writeCb (e : End) (c : ConnId) (writing : Writing)
  | readReply (i : ClientId) (c : ConnId) (reading : Reading) (b : Bytes)
  | readRequest (c : ConnId) (reading : Reading) (pdu : Bytes) (d : DispatchId) (ok : Bool)
  | getRefconn (i : ClientId) (k : CallId) (ok : Bool)
  | call1 (i : ClientId) (label : Client.Label)
  | closeChan (i : ClientId)
  | discardChan (i : ClientId)
  | processAccept (label : Registry.Label)
  | dispatch (label : Server.Label)
  | handler (label : Server.Label)
  | updatestat (due : Bool)
  /-- the last `decref` of `dispatch` -/
  | leave (c : ConnId)
  | deleteRpcs (label : Shutdown.Label)
  /-- `add_callback`, `del_callback`, `has_callback` and `block_remove_fd` -/
  | callback
  /-- a function with one mutex in which nothing of the world is touched: `reg1`, the queue,
  `wait_loop`, `wait_ready`, the end of `block_remove_fd` -/
  | passing (m : Mutex)

/-- The code of a section. -/
def program : Section → Code σ
  | .send e c sending => send e c sending
  | .writeCb e c writing => writeCb e c writing
  | .readReply i c reading b => readCb (.client i) c reading (gotReply i b)
  | .readRequest c reading pdu d ok => readCb .server c reading (gotRequest c pdu d ok)
  | .getRefconn i k ok => getRefconn i k ok
  | .call1 i label => call1 i label
  | .closeChan i => closeChan i
  | .discardChan i => discardChan i
  | .processAccept label => processAccept label
  | .dispatch label => dispatch label
  | .handler label => handler label
  | .updatestat due => updatestat due
  | .leave c => decref .server c (.leave c) .stop
  | .deleteRpcs label => deleteRpcs label
  | .callback => callback .stop
  | .passing m => passing m .stop

end YfsLab.Threads
