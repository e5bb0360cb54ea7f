/-
# The RPC server

`rpcs` as a state machine. A received PDU becomes a dispatch, and any number of
threads work on any number of dispatches at the same time. The steps are the
sections of `dispatch` that run under one of the server's mutexes, the entry of the
handler, and the final send. What the rest of the world contributes is part of
the label: whether a connection is dead, what a handler decides, and what is found
in memory that has been freed or not been written.

The handlers belong to objects of the application. A `Service` says which
procedures they are registered for and what they do; a handler may wait inside its
object, and goes on in later steps.
-/

import YfsLab.Foundations.Transition
import YfsLab.Rpc.Client
import YfsLab.Rpc.ReplyWindow

namespace YfsLab.Rpc

open BigEndian Transition Wire

/-! ## Handlers -/

/-- What a handler returns, with its result marshalled. -/
structure Outcome where
  ret : Int32
  result : Bytes := []
  deriving DecidableEq, Repr

/-- The request buffer as a handler gets it, behind the header. -/
def Request.req (request : Request) : Unmarshall where
  buf := request.pdu
  ind := rpcHeaderSz
  ok := true

/-- The arguments that `h1::fn` reads: none if they are not exactly what is behind
the header, and no result at all if it reads outside the buffer. -/
def Request.arguments (request : Request) (ts : List Ty) :
    Option (Option (Vals .lp64 ts)) :=
  (extractAll .lp64 ts request.req).map fun read =>
    if read.2.okdone then some read.1 else none

/-- `h1::fn` for a method that does not use its object. -/
def h1 (ts : List Ty) (result : Ty) (meth : Vals .lp64 ts → Int32 × result.Val .lp64)
    (request : Request) : Option Outcome :=
  (request.arguments ts).map fun args =>
    match args with
    | some args => { ret := (meth args).1, result := result.encode .lp64 (meth args).2 }
    | none => { ret := RpcConst.unmarshalArgsFailure }

/-- The objects behind the registered procedures. A handler that has been entered
has no outcome as long as it waits, and then `resume` goes on with it; `stir` is
what happens in the objects without any handler. -/
structure Service (σ : Type) where
  init : σ
  registered : Int32 → Bool
  enter : σ → DispatchId → Request → ℕ → Option (σ × Option Outcome)
  resume : σ → DispatchId → ℕ → Option (σ × Option Outcome)
  stir : σ → ℕ → Option σ

/-- `rpcs::rpcbind`. -/
def rpcbind (nonce : UInt32) : Request → Option Outcome :=
  h1 [.int] .int fun _ => (0, nonce.toInt32)

/-- The server of `rpctest` with `handle_fast`, which adds one to its argument. -/
def handleFast : Service Unit where
  init := ()
  registered proc := proc == 23
  enter _ _ request _ :=
    (h1 [.int] .int (fun args => (0, (show Int32 from args.1) + 1)) request).map fun outcome =>
      ((), some outcome)
  resume _ _ _ := none
  stir _ _ := none

/-! ## The server -/

/-- Where a dispatch stands. -/
inductive Stage
  /-- in the queue of the pool, or about to look at the header -/
  | queued
  /-- about to make sure that the client has a list -/
  | enroll
  /-- about to save the connection -/
  | connect
  /-- about to call `checkduplicate_and_update` -/
  | check
  /-- about to run the handler -/
  | run
  /-- in the handler -/
  | running
  /-- about to call `add_reply` -/
  | record
  /-- about to look for the latest connection -/
  | select
  /-- about to send `b1` -/
  | send
  /-- about to send a reply that has no result -/
  | refuse (ret : Int32)
  /-- done -/
  | ended
  deriving DecidableEq, Repr

/-- The stages that a section of `dispatch` can lead to. -/
def Stage.leadsTo : Stage → Stage → Bool
  | .queued, .refuse _ | .queued, .ended | .queued, .run | .queued, .enroll => true
  | .enroll, .connect | .connect, .check => true
  | .check, .run | .check, .ended | .check, .send | .check, .refuse _ => true
  | .run, .running | .run, .record | .run, .select => true
  | .running, .running | .running, .record | .running, .select => true
  | .record, .select | .select, .send | .send, .ended | .refuse _, .ended => true
  | _, _ => false

/-- The local variables of `dispatch`. -/
structure Dispatch where
  conn : ConnId
  request : Request
  stage : Stage := .queued
  b1 : Option BufId := none
  sz1 : ℕ := 0
  deriving DecidableEq, Repr

/-- The nonce by which the server knows the client of a request. -/
def Request.clt (request : Request) : UInt32 := request.header.cltNonce

/-- The nonce of the server instance that a request is meant for. -/
def Request.srv (request : Request) : UInt32 := request.header.srvNonce

/-- The procedure of a request. -/
def Request.proc (request : Request) : Int32 := request.header.proc

/-- `rpcs`, with the dispatches at work and the objects of the handlers. -/
structure Server (σ : Type) where
  nonce : UInt32
  service : σ
  store : ReplyStore := {}
  conns : UInt32 → Option ConnId := fun _ => none
  frames : DispatchId → Option Dispatch := fun _ => none

/-- What `malloc` has left behind the fields of a reply header. -/
abbrev Area := Fin 12 → UInt8

namespace Server

variable {σ : Type}

/-- Write the frame of a dispatch. -/
def put (s : Server σ) (d : DispatchId) (f : Dispatch) : Server σ :=
  { s with frames := Function.update s.frames d (some f) }

/-- Go on with a dispatch that stands at a stage. -/
def onFrame (s : Server σ) (d : DispatchId) (stage : Stage)
    (next : Dispatch → Option (Server σ)) : Option (Server σ) :=
  (s.frames d).bind fun f => if f.stage = stage then next f else none

theorem onFrame_eq_some {s target : Server σ} {d : DispatchId} {stage : Stage}
    {next : Dispatch → Option (Server σ)} :
    s.onFrame d stage next = some target ↔
      ∃ f, s.frames d = some f ∧ f.stage = stage ∧ next f = some target := by
  simp [onFrame, Option.bind_eq_some_iff, Option.ite_none_right_eq_some]

/-- `rpcs::got_pdu`, and what `dispatch` does with a header that is not complete. -/
def receive (s : Server σ) (d : DispatchId) (conn : ConnId) (pdu : Bytes) : Server σ :=
  match decodeRequest pdu with
  | none => s
  | some request => s.put d { conn, request }

/-- The tests at the beginning of `dispatch`: is the client sending to an old
instance, and is the procedure registered? -/
def vet (s : Server σ) (registered : Int32 → Bool) (d : DispatchId) (f : Dispatch) :
    Server σ :=
  if f.request.srv ≠ 0 ∧ f.request.srv ≠ s.nonce then
    s.put d { f with stage := .refuse RpcConst.oldsrvFailure }
  else if f.request.proc ≠ RpcConst.bind ∧ registered f.request.proc = false then
    s.put d { f with stage := .ended }
  else s.put d { f with stage := if f.request.clt = 0 then .run else .enroll }

/-- The section that knows the client. -/
def enroll (s : Server σ) (d : DispatchId) (f : Dispatch) : Server σ :=
  { s with store := s.store.enroll f.request.clt }.put d { f with stage := .connect }

/-- The section that saves the latest good connection to the client. -/
def connect (s : Server σ) (d : DispatchId) (f : Dispatch) : Server σ :=
  { s with conns := Function.update s.conns f.request.clt (some f.conn) }.put d
    { f with stage := .check }

/-- Where `dispatch` goes on with a verdict. -/
def follow (f : Dispatch) : Verdict → Dispatch
  | .new => { f with stage := .run }
  | .inProgress => { f with stage := .ended }
  | .done buf sz => { f with stage := .send, b1 := buf, sz1 := sz }
  | .forgotten => { f with stage := .refuse RpcConst.atmostonceFailure }

/-- The duplicate check. -/
def check (s : Server σ) (d : DispatchId) (f : Dispatch) : Server σ :=
  let checked :=
    s.store.checkduplicateAndUpdate f.request.clt f.request.xid f.request.xidRep
  { s with store := checked.1 }.put d (follow f checked.2)

/-- The handler has returned, and the reply is put together in a buffer of its own.
There is no result if the assertion on the return code fails. -/
def finish (s : Server σ) (d : DispatchId) (f : Dispatch) (area : Area) (outcome : Outcome) :
    Option (Server σ) :=
  if 0 ≤ outcome.ret ∨ outcome.ret = RpcConst.unmarshalArgsFailure then
    let rep := replyPdu (List.ofFn area) ⟨f.request.header.xid, outcome.ret⟩ outcome.result
    some ({ s with store :=
        { s.store with heap := Function.update s.store.heap d (some { bytes := rep }) } }.put d
      { f with
        stage := if f.request.clt = 0 then .select else .record
        b1 := some d
        sz1 := rep.length })
  else none

/-- What a handler has come to: it waits, or it has returned. -/
def settle (s : Server σ) (d : DispatchId) (f : Dispatch) (area : Area)
    (result : σ × Option Outcome) : Option (Server σ) :=
  match result.2 with
  | none => some ({ s with service := result.1 }.put d { f with stage := .running })
  | some outcome => { s with service := result.1 }.finish d f area outcome

/-- The handler of a request. -/
def handler (s : Server σ) (app : Service σ) (d : DispatchId) (request : Request)
    (choice : ℕ) : Option (σ × Option Outcome) :=
  if request.proc = RpcConst.bind then
    (rpcbind s.nonce request).map fun outcome => (s.service, some outcome)
  else app.enter s.service d request choice

/-- `add_reply`. -/
def record (s : Server σ) (d : DispatchId) (f : Dispatch) : Option (Server σ) :=
  f.b1.bind fun buf =>
    (s.store.addReply f.request.clt f.request.xid buf f.sz1).map fun store =>
      { s with store }.put d { f with stage := .select }

/-- The section that looks for the latest connection. There is no result if it is
null: `incref` is called on it. -/
def select (s : Server σ) (d : DispatchId) (f : Dispatch) (dead : Bool) :
    Option (Server σ) :=
  if dead ∧ s.conns f.request.clt ≠ some f.conn then
    (s.conns f.request.clt).map fun conn => s.put d { f with conn, stage := .send }
  else some (s.put d { f with stage := .send })

/-- The bytes of a reply buffer, unless it has been freed. -/
def intact (s : Server σ) (f : Dispatch) : Option Bytes :=
  (f.b1.bind s.store.heap).bind fun cell =>
    if cell.freed then none else some (cell.bytes.take f.sz1)

/-- The bytes that a send at the end of `dispatch` passes on. A buffer that has
been freed holds anything. -/
def outgoing (s : Server σ) (d : DispatchId) (junk : Bytes) : Option (ConnId × Bytes) :=
  (s.frames d).map fun f => (f.conn, (s.intact f).getD junk)

/-- The send, after which a reply that has not been recorded is freed. -/
def send (s : Server σ) (d : DispatchId) (f : Dispatch) : Server σ :=
  { s with store := if f.request.clt = 0 then s.store.free f.b1.toList else s.store }.put d
    { f with stage := .ended }

/-- The reply to a request that is refused. -/
def refusal (f : Dispatch) (area : Area) (ret : Int32) : Bytes :=
  replyPdu (List.ofFn area) ⟨f.request.header.xid, ret⟩ []

/-- The sections of `dispatch`, with what the world contributes to each. -/
inductive Label
  | receive (d : DispatchId) (conn : ConnId) (pdu : Bytes)
  | vet (d : DispatchId)
  | enroll (d : DispatchId)
  | connect (d : DispatchId)
  | check (d : DispatchId)
  | enter (d : DispatchId) (choice : ℕ) (area : Area)
  | resume (d : DispatchId) (choice : ℕ) (area : Area)
  | stir (choice : ℕ)
  | record (d : DispatchId)
  | select (d : DispatchId) (dead : Bool)
  | send (d : DispatchId)
  | refuse (d : DispatchId) (ret : Int32)

/-- One section of `rpcs`. -/
def step (app : Service σ) (s : Server σ) : Label → Option (Server σ)
  | .receive d conn pdu => if (s.frames d).isNone then some (s.receive d conn pdu) else none
  | .vet d => s.onFrame d .queued fun f => some (s.vet app.registered d f)
  | .enroll d => s.onFrame d .enroll fun f => some (s.enroll d f)
  | .connect d => s.onFrame d .connect fun f => some (s.connect d f)
  | .check d => s.onFrame d .check fun f => some (s.check d f)
  | .enter d choice area =>
      s.onFrame d .run fun f =>
        (s.handler app d f.request choice).bind (s.settle d f area)
  | .resume d choice area =>
      s.onFrame d .running fun f =>
        (app.resume s.service d choice).bind (s.settle d f area)
  | .stir choice => (app.stir s.service choice).map fun service => { s with service }
  | .record d => s.onFrame d .record fun f => s.record d f
  | .select d dead => s.onFrame d .select fun f => s.select d f dead
  | .send d => s.onFrame d .send fun f => some (s.send d f)
  | .refuse d ret => s.onFrame d (.refuse ret) fun f => some (s.put d { f with stage := .ended })

/-- A new `rpcs` with this nonce. -/
def start (app : Service σ) (nonce : UInt32) : Server σ := { nonce, service := app.init }

/-- A server. -/
def system (app : Service σ) (nonce : UInt32) : System (Server σ) Label where
  init := start app nonce
  step := step app

/-! ## What a run of the server is judged by -/

/-- The events of a server: a duplicate check and its verdict, a handler that is
entered, the reply it has produced, the send of a reply buffer with its bytes
unless it has been freed, and the reply to a refused request. -/
inductive Event
  | checked (d : DispatchId) (conn : ConnId) (request : Request) (verdict : Verdict)
  | entered (d : DispatchId) (conn : ConnId) (request : Request) (nonce : UInt32)
  | produced (d : DispatchId) (request : Request) (pdu : Bytes)
  | sent (d : DispatchId) (conn : ConnId) (request : Request) (pdu : Option Bytes)
  | refused (d : DispatchId) (conn : ConnId) (request : Request) (ret : Int32)
  deriving DecidableEq

/-- The reply that a handler has produced, when it has returned. -/
def productions (d : DispatchId) (f : Dispatch) (area : Area)
    (result : Option (σ × Option Outcome)) : List Event :=
  match result with
  | some (_, some outcome) =>
      [.produced d f.request
        (replyPdu (List.ofFn area) ⟨f.request.header.xid, outcome.ret⟩ outcome.result)]
  | _ => []

/-- The events of a step. -/
def events (app : Service σ) (s : Server σ) : Label → List Event
  | .check d =>
      (s.frames d).toList.map fun f =>
        .checked d f.conn f.request
          (s.store.checkduplicateAndUpdate f.request.clt f.request.xid f.request.xidRep).2
  | .enter d choice area =>
      (s.frames d).toList.flatMap fun f =>
        .entered d f.conn f.request s.nonce ::
          productions d f area (s.handler app d f.request choice)
  | .resume d choice area =>
      (s.frames d).toList.flatMap fun f =>
        productions d f area (app.resume s.service d choice)
  | .send d =>
      (s.frames d).toList.map fun f => .sent d f.conn f.request (s.intact f)
  | .refuse d ret =>
      (s.frames d).toList.map fun f => .refused d f.conn f.request ret
  | _ => []

/-- A server with its history. -/
def logged (app : Service σ) (nonce : UInt32) : System (Server σ × List Event) Label :=
  (system app nonce).recorded (events app)

end Server

end YfsLab.Rpc
