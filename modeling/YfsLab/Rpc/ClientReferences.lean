/-
# The references to a client's connections

`rpcc` holds a reference of the connection in `chan_`, and every invocation of `call1`
one of the connection in its `ch`. When `chan_` is dead, `get_refconn` gives its
reference back and connects again, and then it moves the reference of its caller to the
new connection; if no connection comes about, the caller keeps what it has. `call1` gives
its reference back at its end, and `~rpcc` closes the last connection and drops it.

`get_refconn` runs under `chan_m_`, but the counts have a mutex of their own, so other
calls see them in the middle of what it does, and a connection may die at any time.
These are different steps here. The other sections of `call1` are those of the client.
-/

import YfsLab.Rpc.Accounting
import YfsLab.Rpc.ClientSteps

namespace YfsLab.Rpc

open BigEndian Holders Transition

/-- Where `get_refconn` is, with the call whose thread holds `chan_m_`. -/
inductive Refconn
  | free
  /-- about to test `chan_` -/
  | testing (k : CallId)
  /-- `chan_` is dead -/
  | dropping (k : CallId)
  /-- about to call `connect_to_dst` -/
  | connecting (k : CallId)
  /-- behind the first test, with what `chan_` is now and whether it is new -/
  | passing (k : CallId) (replaced : Bool) (chan : Option ConnId)
  /-- the call has no reference any more and is about to take one of `chan_` -/
  | taking (k : CallId) (replaced : Bool) (chan : ConnId)
  deriving DecidableEq, Repr

/-- Where `~rpcc` is. -/
inductive Ending
  /-- it has not been called -/
  | alive
  /-- behind `closeconn` -/
  | closed
  /-- it has returned -/
  | gone
  deriving DecidableEq, Repr

/-- `rpcc`, with all connections it has made and all calls that have been started. -/
structure Links where
  client : Client
  made : ℕ := 0
  objs : ConnId → ConnObj := fun _ => {}
  refconn : Refconn := .free
  calls : List CallId := []
  ending : Ending := .alive

namespace Links

/-- `chan_`. -/
def chan (s : Links) : Option ConnId :=
  if s.ending = .gone then none
  else
    match s.refconn with
    | .passing _ _ chan => chan
    | .taking _ _ chan => some chan
    | _ => s.client.chan

/-- The `ch` of a call. -/
def ch (s : Links) (k : CallId) : Option ConnId := (s.client.frames k).bind Call.ch

/-- A reference is given back. -/
def decref (s : Links) (c : ConnId) : Option Links :=
  (s.objs c).decref.map fun o => { s with objs := Function.update s.objs c o }

/-- A reference is given back, if there is one. -/
def decrefAny (s : Links) : Option ConnId → Option Links
  | none => some s
  | some c => s.decref c

/-! ## `get_refconn` -/

/-- A call that is to transmit gets `chan_m_`. -/
def lock (s : Links) (k : CallId) : Option Links :=
  if s.refconn = .free ∧ s.ending = .alive ∧
      ((s.client.frames k).any fun call => call.phase == .transmit) then
    some { s with refconn := .testing k }
  else none

/-- Is there a connection, and is it dead? -/
def test (s : Links) : Option Links :=
  match s.refconn with
  | .testing k =>
      some { s with
        refconn :=
          match s.client.chan with
          | none => .connecting k
          | some c => if (s.objs c).dead then .dropping k else .passing k false (some c) }
  | _ => none

/-- The reference of a dead `chan_` is given back. -/
def drop (s : Links) : Option Links :=
  match s.refconn with
  | .dropping k => (s.decrefAny s.client.chan).map fun s => { s with refconn := .connecting k }
  | _ => none

/-- `connect_to_dst` makes a connection, or returns null. -/
def connect (s : Links) (ok : Bool) : Option Links :=
  match s.refconn with
  | .connecting k =>
      if ok then
        some { s with
          made := s.made + 1
          objs := Function.update s.objs s.made { refno := 1 }
          refconn := .passing k true (some s.made) }
      else some { s with refconn := .passing k true none }
  | _ => none

/-- There is a connection: the call gives the reference back that it has. -/
def letGo (s : Links) : Option Links :=
  match s.refconn with
  | .passing k replaced (some chan) =>
      (s.decrefAny (s.ch k)).map fun s => { s with refconn := .taking k replaced chan }
  | _ => none

/-- The call takes a reference of the connection. -/
def take (s : Links) : Option Links :=
  match s.refconn with
  | .taking k replaced chan =>
      (s.client.step (.refconn k replaced (some chan))).map fun client =>
        { s with
          client := client
          objs := Function.update s.objs chan (s.objs chan).incref
          refconn := .free }
  | _ => none

/-- There is no connection: the call keeps what it has. -/
def skip (s : Links) : Option Links :=
  match s.refconn with
  | .passing k replaced none =>
      (s.client.step (.refconn k replaced none)).map fun client =>
        { s with client := client, refconn := .free }
  | _ => none

/-! ## The other sections of `call1` -/

/-- A section of the client that changes no reference. -/
def work (s : Links) (label : Client.Label) : Option Links :=
  if s.ending = .alive then
    (s.client.step label).map fun client => { s with client := client }
  else none

/-- A call is started. -/
def start (s : Links) (k : CallId) (proc : Int32) (args : Bytes) : Option Links :=
  (s.work (.start k proc args)).map fun s => { s with calls := s.calls ++ [k] }

/-- A wait has timed out: is the connection dead? -/
def retry (s : Links) (k : CallId) (last : Bool) : Option Links :=
  s.work (.retry k ((s.ch k).any fun c => (s.objs c).dead) last)

/-- The end of `call1`, which gives the reference of `ch` back. -/
def finish (s : Links) (k : CallId) : Option Links :=
  (s.work (.finish k)).bind fun target => target.decrefAny (s.ch k)

/-! ## `~rpcc` -/

/-- `closeconn`, when no call is outstanding. -/
def close (s : Links) : Option Links :=
  if s.ending = .alive ∧ s.refconn = .free ∧
      (s.calls.all fun k => (s.client.frames k).all fun call => call.result.isSome) then
    match s.client.chan with
    | none => some { s with ending := .gone }
    | some c =>
        some { s with
          objs := Function.update s.objs c { s.objs c with dead := true }
          ending := .closed }
  else none

/-- The reference of `chan_` is given back. -/
def discard (s : Links) : Option Links :=
  if s.ending = .closed then
    (s.decrefAny s.client.chan).map fun s => { s with ending := .gone }
  else none

/-! ## The steps -/

/-- The steps of `get_refconn`, of the rest of `call1`, of `got_pdu` and of `~rpcc`, and
a connection that is found dead. -/
inductive Label
  | lock (k : CallId)
  | test
  | drop
  | connect (ok : Bool)
  | letGo
  | take
  | skip
  | client (label : Client.Label)
  | die (c : ConnId)
  | close
  | discard

/-- One step. -/
def step (s : Links) : Label → Option Links
  | .lock k => s.lock k
  | .test => s.test
  | .drop => s.drop
  | .connect ok => s.connect ok
  | .letGo => s.letGo
  | .take => s.take
  | .skip => s.skip
  | .client (.refconn ..) => none
  | .client (.start k proc args) => s.start k proc args
  | .client (.retry k _ last) => s.retry k last
  | .client (.finish k) => s.finish k
  | .client label => s.work label
  | .die c =>
      if c < s.made ∧ (s.objs c).deleted = false then
        some { s with objs := Function.update s.objs c { s.objs c with dead := true } }
      else none
  | .close => s.close
  | .discard => s.discard

/-- A new `rpcc`. -/
def system (cltNonce : UInt32) (retrans : Bool) : System Links Label where
  init := { client := { cltNonce, retrans } }
  step := step

/-! ## What a run is judged by -/

/-- The `ch` of a call that stands here. -/
def chAt (s : Links) (k : CallId) (phase : Phase) : Option ConnId :=
  if s.ending = .alive then
    (s.client.frames k).bind fun call => if call.phase = phase then call.ch else none
  else none

/-- The connection that a step calls `decref` of, also where `decref` fails. -/
def gives (s : Links) : Label → Option ConnId
  | .drop =>
      match s.refconn with
      | .dropping _ => s.client.chan
      | _ => none
  | .letGo =>
      match s.refconn with
      | .passing k _ (some _) => s.ch k
      | _ => none
  | .client (.finish k) => s.chAt k .returning
  | .discard => if s.ending = .closed then s.client.chan else none
  | _ => none

/-- The connection that a step calls a method of. -/
def uses (s : Links) : Label → Option ConnId
  | .test =>
      match s.refconn with
      | .testing _ => s.client.chan
      | _ => none
  | .take =>
      match s.refconn with
      | .taking _ _ chan => some chan
      | _ => none
  | .close => if s.close.isSome then s.client.chan else none
  | .client (.send k _) => s.chAt k .sending
  | .client (.retry k _ _) => if s.client.retrans then s.chAt k .expired else none
  | label => s.gives label

/-- The connections that a step deletes: `decref` finds that its reference was the last
one, and that the connection is dead. -/
def deletes (s : Links) (label : Label) : List ConnId :=
  ((s.gives label).filter fun c => (s.objs c).refno - 1 == 0 && (s.objs c).dead).toList

/-- The client with the connections that have been deleted. -/
def logged (cltNonce : UInt32) (retrans : Bool) : System (Links × List ConnId) Label :=
  (system cltNonce retrans).recorded deletes

end Links

end YfsLab.Rpc
