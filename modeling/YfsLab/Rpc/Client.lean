/-
# The RPC client

`rpcc` as a state machine. Its steps are the sections that run under one of its
mutexes: the parts of `call1` for each of any number of concurrent calls, and
`got_pdu`, which the poll thread runs for every PDU that arrives. What the rest of
the world contributes is part of the label: whether a connection is dead, what
`connect_to_dst` returns, and whether the wait that begins is the last one before
the final deadline.
-/

import Mathlib.Logic.Function.Basic
import YfsLab.Foundations.Transition
import YfsLab.Rpc.Message

namespace YfsLab.Rpc

open BigEndian Transition Wire

/-- An invocation of `call1`. -/
abbrev CallId := ℕ

/-- A connection object. -/
abbrev ConnId := ℕ

/-- Where an invocation of `call1` stands. -/
inductive Phase
  /-- about to get a connection, with `transmit` set -/
  | transmit
  /-- about to send on `ch`, if there is one -/
  | sending
  /-- in `pthread_cond_timedwait` -/
  | waiting
  /-- the wait has timed out, and `done` was not set -/
  | expired
  /-- out of the loop, about to erase the call from `calls_` -/
  | erasing
  /-- about to look at `done` and return -/
  | returning
  /-- `call1` has returned this value -/
  | returned (ret : Int32)
  /-- and `bind` has acted on it -/
  | bound (ret : Int32)
  deriving DecidableEq, Repr

/-- The `caller` record and the local variables of `call1`. -/
structure Call where
  request : Request
  xid : UInt32
  done : Bool := false
  intret : Int32 := 0
  un : Unmarshall := {}
  ch : Option ConnId := none
  /-- the final deadline is over: `finaldeadline.tv_sec` is zero -/
  last : Bool := false
  phase : Phase := .transmit
  deriving DecidableEq, Repr

namespace Call

/-- The top of the loop of `call1` when nothing is to be transmitted: leave it if
the final deadline is over, else wait, and note whether this wait is the last. -/
def loop (call : Call) (last : Bool) : Call :=
  if call.last then { call with phase := .erasing }
  else { call with last, phase := .waiting }

/-- After a wait has timed out: transmit again if the connection is dead, or go on
waiting. -/
def retry (call : Call) (retrans dead last : Bool) : Call :=
  if retrans && (call.ch.isNone || dead) then { call with phase := .transmit }
  else call.loop last

/-- The end of `call1`. -/
def finish (call : Call) : Call :=
  { call with phase := .returned (if call.done then call.intret else RpcConst.timeoutFailure) }

/-- What `got_pdu` writes into the caller it finds. -/
def accept (call : Call) (reply : Reply) : Call :=
  if call.done then call
  else { call with un := reply.un, intret := reply.header.ret, done := true }

/-- What `call1` has returned. -/
def result (call : Call) : Option Int32 :=
  match call.phase with
  | .returned ret | .bound ret => some ret
  | _ => none

/-- The nonce that a call of `bind` has delivered, if it has returned zero: `call_m`
unmarshals an `int`. -/
def boundTo (call : Call) : Option UInt32 :=
  match callM .lp64 .int (call.result.getD 0) call.un (0 : Int32) with
  | some (code, r) => if code = 0 then some (Int32.toUInt32 r) else none
  | none => none

/-- A call of `bind` that has returned. -/
def binds (call : Call) : Bool :=
  call.request.header.proc == RpcConst.bind &&
    match call.phase with
    | .returned _ => true
    | _ => false

end Call

/-- `rpcc`. -/
structure Client where
  cltNonce : UInt32
  retrans : Bool
  srvNonce : UInt32 := 0
  bindDone : Bool := false
  xid : UInt32 := 1
  xidRepWindow : List UInt32 := [0]
  chan : Option ConnId := none
  calls : UInt32 → Option CallId := fun _ => none
  frames : CallId → Option Call := fun _ => none

/-! ## The window of xids that are done -/

/-- The second loop of `update_xid_rep`: behind the iterator stands the part of
the list it has passed, whose front is popped while it is one below the element
at the iterator. -/
def compress : List UInt32 → List UInt32 → List UInt32
  | passed, [] => passed
  | passed, it :: rest => compress (passed.dropWhile (fun front => front + 1 == it) ++ [it]) rest

/-- The first loop of `update_xid_rep`: insert before the first larger element. -/
def insertXid (xid : UInt32) : List UInt32 → List UInt32
  | [] => [xid]
  | it :: rest => if xid < it then xid :: it :: rest else it :: insertXid xid rest

/-- `rpcc::update_xid_rep`. -/
def updateXidRep (window : List UInt32) (xid : UInt32) : List UInt32 :=
  if xid ≤ window.headD 0 then window
  else
    match insertXid xid window with
    | [] => []
    | front :: rest => compress [front] rest

namespace Client

/-- Write the frame of a call. -/
def put (c : Client) (k : CallId) (call : Call) : Client :=
  { c with frames := Function.update c.frames k (some call) }

/-- Go on with a call whose frame allows it. -/
def onCall (c : Client) (k : CallId) (allowed : Call → Bool) (next : Call → Client) :
    Option Client :=
  (c.frames k).bind fun call => if allowed call then some (next call) else none

theorem onCall_eq_some {c target : Client} {k : CallId} {allowed : Call → Bool}
    {next : Call → Client} :
    c.onCall k allowed next = some target ↔
      ∃ call, c.frames k = some call ∧ allowed call = true ∧ next call = target := by
  simp [onCall, Option.bind_eq_some_iff, Option.ite_none_right_eq_some]

/-- The frames after one of them has been written. -/
theorem frames_put_eq_some {c : Client} {k j : CallId} {call found : Call} :
    (c.put k call).frames j = some found ↔
      (j = k ∧ found = call) ∨ (j ≠ k ∧ c.frames j = some found) := by
  by_cases hj : j = k
  · subst hj
    simp [put, eq_comm]
  · simp [put, hj]

/-- The test at the beginning of `call1`: only `bind` may be called before a bind
has succeeded, and it may not be called afterwards. -/
def refuses (c : Client) (proc : Int32) : Bool :=
  (proc != RpcConst.bind && !c.bindDone) || (proc == RpcConst.bind && c.bindDone)

/-- The request that the first section of `call1` puts together. -/
def request (c : Client) (proc : Int32) (args : Bytes) : Request where
  header :=
    { xid := c.xid.toInt32, proc, cltNonce := c.cltNonce, srvNonce := c.srvNonce,
      xidRep := (c.xidRepWindow.headD 0).toInt32 }
  args := args

/-- The first section of `call1`. A refused call returns `bind_failure` and
changes nothing. -/
def start (c : Client) (k : CallId) (proc : Int32) (args : Bytes) : Client :=
  if c.refuses proc then c
  else
    { c with xid := c.xid + 1, calls := Function.update c.calls c.xid (some k) }.put k
      { request := c.request proc args, xid := c.xid }

/-- `get_refconn`. If no new connection comes about, `ch` stays what it was. -/
def getRefconn (c : Client) (k : CallId) (call : Call) (dead : Bool)
    (connected : Option ConnId) : Client :=
  let chan := if c.chan.isNone || dead then connected else c.chan
  { c with chan }.put k
    { call with ch := chan.or call.ch, phase := .sending }

/-- The section that erases the call and acknowledges its xid. -/
def erase (c : Client) (k : CallId) (call : Call) : Client :=
  { c with
    calls := Function.update c.calls call.xid none
    xidRepWindow := updateXidRep c.xidRepWindow call.xid }.put k
      { call with phase := .returning }

/-- `rpcc::got_pdu`. -/
def gotPdu (c : Client) (b : Bytes) : Client :=
  match decodeReply b with
  | none => c
  | some reply =>
      let c := { c with xidRepWindow := updateXidRep c.xidRepWindow reply.xid }
      match c.calls reply.xid with
      | none => c
      | some k =>
          match c.frames k with
          | none => c
          | some call => c.put k (call.accept reply)

/-- The end of `bind`: if the call has returned zero the client is bound. -/
def bind (c : Client) (k : CallId) (call : Call) : Client :=
  let c := c.put k { call with phase := .bound (call.result.getD 0) }
  match call.boundTo with
  | some nonce => { c with bindDone := true, srvNonce := nonce }
  | none => c

/-- The sections of `rpcc`, with what the world contributes to each. -/
inductive Label
  | start (k : CallId) (proc : Int32) (args : Bytes)
  | refconn (k : CallId) (dead : Bool) (connected : Option ConnId)
  | send (k : CallId) (last : Bool)
  | wake (k : CallId)
  | expire (k : CallId)
  | retry (k : CallId) (dead last : Bool)
  | erase (k : CallId)
  | finish (k : CallId)
  | gotPdu (b : Bytes)
  | bind (k : CallId)
  deriving DecidableEq, Repr

/-- One section of `rpcc`. -/
def step (c : Client) : Label → Option Client
  | .start k proc args => if (c.frames k).isNone then some (c.start k proc args) else none
  | .refconn k dead connected =>
      c.onCall k (fun call => call.phase == .transmit) fun call =>
        c.getRefconn k call dead connected
  | .send k last =>
      c.onCall k (fun call => call.phase == .sending) fun call => c.put k (call.loop last)
  | .wake k =>
      c.onCall k (fun call => call.phase == .waiting && call.done) fun call =>
        c.put k { call with phase := .erasing }
  | .expire k =>
      c.onCall k (fun call => call.phase == .waiting && !call.done) fun call =>
        c.put k { call with phase := .expired }
  | .retry k dead last =>
      c.onCall k (fun call => call.phase == .expired) fun call =>
        c.put k (call.retry c.retrans dead last)
  | .erase k => c.onCall k (fun call => call.phase == .erasing) fun call => c.erase k call
  | .finish k =>
      c.onCall k (fun call => call.phase == .returning) fun call => c.put k (call.finish)
  | .gotPdu b => some (c.gotPdu b)
  | .bind k => c.onCall k Call.binds fun call => c.bind k call

/-- A new `rpcc`. -/
def system (cltNonce : UInt32) (retrans : Bool) : System Client Label where
  init := { cltNonce, retrans }
  step := step

end Client

end YfsLab.Rpc
