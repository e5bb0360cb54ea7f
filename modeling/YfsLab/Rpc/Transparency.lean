/-
# What a call returns

A client that calls a procedure gets what the handler has made of its arguments. Between
the two stand the marshalling of the arguments, the copies of the request, the reply
window, the copies of the reply and the table of calls. The return code that `call1`
delivers is that of a reply which a handler has produced for this client and xid, and
since xids do not repeat it has been produced for this very request.

The replies that a server refuses requests with, and the time-out, are negative. Every
other return code is the handler's.
-/

import YfsLab.Rpc.ClientRouting
import YfsLab.Rpc.Outcomes
import YfsLab.Rpc.Sequential
import YfsLab.Rpc.XidWindow

namespace YfsLab.Rpc

open BigEndian Transition Wire

variable {σ : Type}

/-- What `take_in` leaves of the reply in a PDU. -/
def takenIn (pdu : Bytes) : Unmarshall where
  buf := pdu
  ind := rpcHeaderSz
  ok := true

/-! ## Arguments and results -/

theorem Request.inRange_req {request : Request}
    (hsize : rpcHeaderSz + request.args.length < 2 ^ 31) : request.req.InRange :=
  request.framed_pdu.inRange (request.framed_pdu.length_eq ▸ hsize)

/-- A handler gets the arguments that have been marshalled for it. -/
theorem Request.arguments_of_args {request : Request} {ts : List Ty} {vs : Vals .lp64 ts}
    (hargs : request.args = encodeAll .lp64 ts vs)
    (hsize : rpcHeaderSz + request.args.length < 2 ^ 31) :
    request.arguments ts = some (some vs) := by
  have hremaining : request.req.remaining = encodeAll .lp64 ts vs :=
    hargs ▸ request.framed_pdu.drop_rpcHeaderSz
  obtain ⟨rest, hread, hdone⟩ :=
    (reads_extractAll .lp64 ts vs).okdone (request.inRange_req hsize) rfl hremaining
  simp [Request.arguments, hread, hdone]

/-- `h1::fn` has called the handler, or refused the arguments. -/
theorem h1_eq_some {ts : List Ty} {result : Ty}
    {meth : Vals .lp64 ts → Int32 × result.Val .lp64} {request : Request} {outcome : Outcome}
    (h : h1 ts result meth request = some outcome) :
    (∃ vs, request.arguments ts = some (some vs) ∧
      outcome = { ret := (meth vs).1, result := result.encode .lp64 (meth vs).2 }) ∨
    outcome.ret = RpcConst.unmarshalArgsFailure := by
  obtain ⟨args, hargs, rfl⟩ := Option.map_eq_some_iff.mp h
  cases args with
  | none => exact .inr rfl
  | some vs => exact .inl ⟨vs, hargs, rfl⟩

/-- `call_m` finds in a reply the value that has been marshalled into it. -/
theorem callM_takenIn {request : Request} {result : Ty} {ret : Int32}
    {value : result.Val .lp64} {pdu : Bytes} (hret : 0 ≤ ret)
    (htells : Server.Tells request { ret, result := result.encode .lp64 value } pdu)
    (hsize : rpcHeaderSz + (result.encode .lp64 value).length < 2 ^ 31) :
    callM .lp64 result ret (takenIn pdu) (result.fresh .lp64) = some (ret, value) := by
  obtain ⟨area, rfl⟩ := htells
  have hframed := framed_replyPdu (List.length_ofFn (f := area)) ⟨request.header.xid, ret⟩
    (result.encode .lp64 value)
  obtain ⟨rest, hread, hdone⟩ := (Ty.reads_extract .lp64 result value).okdone
    (hframed.inRange (hframed.length_eq ▸ hsize)) rfl hframed.drop_rpcHeaderSz
  rw [callM, if_neg (Int32.not_lt.mpr hret), takenIn, hread]
  simp [hdone]

end YfsLab.Rpc

namespace YfsLab.Rpc.Net

open BigEndian Transition Wire

variable {σ : Type}

/-! ## Replies on their way -/

/-- A PDU on its way down after a step was there before, or a dispatch on this connection
sends it. -/
theorem mem_down_of_step {app : Service σ} {net target : Net σ} {label : Label}
    (hstep : net.step app label = some target) {n : ConnId} {conn : Conn}
    (hconn : target.conns n = some conn) {pdu : Bytes} (hmem : pdu ∈ conn.down) :
    ∃ before, net.conns n = some before ∧ conn.owner = before.owner ∧
      (pdu ∈ before.down ∨
        (∃ d ok junk f, label = .reply d ok junk ∧ net.server.frames d = some f ∧
          f.conn = n ∧ pdu = (net.server.intact f).getD junk) ∨
        ∃ d ret ok area f, label = .refuse d ret ok area ∧ net.server.frames d = some f ∧
          f.conn = n ∧ pdu = Server.refusal f area ret) := by
  rcases conns_of_step hstep hconn with ⟨_, _, -, -, rfl⟩ | ⟨before, hbefore, hcarries⟩
  · cases hmem
  refine ⟨before, hbefore, hcarries.keeps.1, ?_⟩
  cases hcarries with
  | same | received | restarted => exact .inl hmem
  | sentUp =>
      unfold Conn.sendUp at hmem
      split_ifs at hmem <;> exact .inl hmem
  | delivered _ hdown => exact .inl (hdown ▸ List.mem_cons_of_mem _ hmem)
  | died =>
      unfold Conn.die at hmem
      split_ifs at hmem <;> exact .inl hmem
  | lost => exact .inl (List.mem_of_mem_take hmem)
  | replied hf hfconn =>
      rcases mem_sendDown hmem with hold | hnew
      · exact .inl hold
      · exact .inr (.inl ⟨_, _, _, _, rfl, hf, hfconn, hnew⟩)
  | refused hf hfconn =>
      rcases mem_sendDown hmem with hold | hnew
      · exact .inl hold
      · exact .inr (.inr ⟨_, _, _, _, _, rfl, hf, hfconn, hnew⟩)

/-! ## Which request it was -/

/-- The calls that a client has made. -/
def callsOf (i : ClientId) (history : List Event) : List CallId :=
  history.filterMap fun event =>
    match event with
    | .issued j k _ => if j = i then some k else none
    | _ => none

theorem callsOf_append (i : ClientId) (history more : List Event) :
    callsOf i (history ++ more) = callsOf i history ++ callsOf i more :=
  List.filterMap_append

/-- Only the client's own sections make its calls. -/
theorem callsOf_events (app : Service σ) (net : Net σ) (label : Label) (i : ClientId) :
    callsOf i (events app net label) = (net.clientLabel label).toList.flatMap fun part =>
      callsOf i (clientEvents (net.clients part.1) part.1 part.2) := by
  have hserver : callsOf i ((net.serverLabel label).toList.flatMap fun part =>
      (Server.events app net.server part).map .server) = [] := by
    rw [callsOf, List.filterMap_eq_nil_iff]
    intro event hmem
    obtain ⟨part, -, hevent⟩ := List.mem_flatMap.mp hmem
    obtain ⟨emitted, -, rfl⟩ := List.mem_map.mp hevent
    rfl
  have hrestart : callsOf i (restartEvents label) = [] := by
    cases label <;> rfl
  rw [events, callsOf_append, callsOf_append, hserver, hrestart, List.append_nil,
    List.append_nil]
  cases net.clientLabel label <;> simp [callsOf]

theorem callsOf_clientEvents_of_ne (c : Client) {i j : ClientId} (hne : j ≠ i)
    (part : Client.Label) : callsOf i (clientEvents c j part) = [] := by
  cases part with
  | start k proc args =>
      simp only [clientEvents]
      split_ifs <;> simp [callsOf, hne]
  | finish | bind => simp [clientEvents, callsOf]
  | _ => rfl

/-- A section of a client makes a call when it takes an xid. -/
theorem length_callsOf_clientEvents (c : Client) (i : ClientId) (part : Client.Label) :
    (callsOf i (clientEvents c i part)).length =
      (Client.issued (Client.events c part)).length := by
  cases part with
  | start k proc args =>
      simp only [clientEvents, Client.events]
      split_ifs <;> simp [callsOf, Client.issued, Client.Event.issued]
  | finish | bind => simp [clientEvents, callsOf, Client.events, Client.issued]
  | gotPdu b =>
      simp only [clientEvents, Client.events]
      split <;> rfl
  | _ => rfl

/-- What a client does in a run of the system is a run of the client, which takes as many
xids as the client makes calls. -/
theorem exists_client_run {setup : Setup σ} {guard : Net σ × List Event → Label → Prop}
    {labels : List Label} {reached : Net σ × List Event}
    (hrun : (logged setup).Run guard labels reached) (i : ClientId) :
    ∃ parts history,
      ((Client.system (cltNonce setup i) (setup.retrans i)).recorded Client.events).Run anyStep
        parts (reached.1.clients i, history) ∧
      (Client.issued history).length = (callsOf i reached.2).length := by
  refine hrun.invariant (fun reached => ∃ parts history,
    ((Client.system (cltNonce setup i) (setup.retrans i)).recorded Client.events).Run anyStep
      parts (reached.1.clients i, history) ∧
    (Client.issued history).length = (callsOf i reached.2).length) ⟨[], [], .start, rfl⟩ ?_
  rintro labels source label target - ⟨parts, history, hclient, hlength⟩ - hstep
  obtain ⟨hnext, hlog⟩ := System.recorded_step_eq_some.mp hstep
  have hevents := callsOf_events setup.app source.1 label i
  rw [hlog, callsOf_append]
  rcases clients_of_step hnext with ⟨hnone, hsame⟩ | ⟨j, part, c, hlabel, hc, hclients⟩
  · rw [hnone] at hevents
    have hnil : callsOf i (events setup.app source.1 label) = [] := hevents
    refine ⟨parts, history, ?_, by rw [hnil, List.append_nil, hlength]⟩
    rw [hsame]
    exact hclient
  · rw [hlabel, Option.toList_some, List.flatMap_singleton] at hevents
    rw [hclients, hevents]
    by_cases hj : j = i
    · subst hj
      rw [Function.update_self]
      refine ⟨parts ++ [part], history ++ Client.events (source.1.clients j) part,
        hclient.snoc trivial (System.recorded_step_eq_some.mpr ⟨hc, rfl⟩), ?_⟩
      rw [Client.issued, List.filterMap_append, List.length_append, List.length_append,
        length_callsOf_clientEvents, ← hlength]
      rfl
    · rw [Function.update_of_ne (Ne.symm hj), callsOf_clientEvents_of_ne _ hj, List.append_nil]
      exact ⟨parts, history, hclient, hlength⟩

/-- A request that has been issued is that of a call. -/
theorem frame_of_issued {setup : Setup σ} {guard : Net σ × List Event → Label → Prop}
    {labels : List Label} {reached : Net σ × List Event}
    (hrun : (logged setup).Run guard labels reached) {i : ClientId} {k : CallId}
    {request : Request} (hmem : .issued i k request ∈ reached.2) :
    ∃ call, (reached.1.clients i).frames k = some call ∧ call.request = request := by
  refine hrun.invariant (fun reached => ∀ i k request, .issued i k request ∈ reached.2 →
    ∃ call, (reached.1.clients i).frames k = some call ∧ call.request = request)
    (fun _ _ _ hmem => by cases hmem) ?_ i k request hmem
  intro labels source label target _ h _ hstep i k request hmem
  obtain ⟨hnext, hlog⟩ := System.recorded_step_eq_some.mp hstep
  have hnext' : source.1.step setup.app label = some target.1 := hnext
  rcases issued_of_step hlog hmem with hold | ⟨proc, args, rfl, hrefuses, rfl⟩
  · obtain ⟨call, hcall, rfl⟩ := h i k request hold
    exact exists_call_of_step hnext' hcall
  · rw [client_of_start hnext' hrefuses]
    exact ⟨_, Client.frames_put_eq_some.mpr (.inl ⟨rfl, rfl⟩), rfl⟩

/-- No other client that has made a call has the nonce of this one. -/
def OwnNonce (setup : Setup σ) (i : ClientId) (history : List Event) : Prop :=
  ∀ j k request, .issued j k request ∈ history → cltNonce setup j = cltNonce setup i → j = i

/-! ## Replies that are accepted -/

/-- A section other than `got_pdu` leaves what a call has accepted. -/
theorem accepts_of_moves {c : Client} {k : CallId} {call found : Call} {part : Client.Label}
    (hmoves : Client.Moves c k call part found) :
    (found.done = call.done ∧ found.intret = call.intret ∧ found.un = call.un) ∨
      ∃ b reply, part = .gotPdu b ∧ decodeReply b = some reply ∧
        c.calls reply.xid = some k ∧ found.intret = reply.header.ret ∧ found.un = reply.un := by
  cases hmoves with
  | sent =>
      left
      unfold Call.loop
      split <;> exact ⟨rfl, rfl, rfl⟩
  | retried =>
      left
      unfold Call.retry Call.loop
      split_ifs <;> exact ⟨rfl, rfl, rfl⟩
  | @accepted b reply hreply hcalls =>
      unfold Call.accept
      split_ifs with hdone
      · exact .inl ⟨rfl, rfl, rfl⟩
      · exact .inr ⟨b, reply, rfl, hreply, hcalls, rfl, rfl⟩
  | same | refconn | woken | expired | erased | finished | bound => exact .inl ⟨rfl, rfl, rfl⟩

theorem exists_decode_of_isReply {request : Request} {ret : Int32} {pdu : Bytes}
    (hreply : Server.IsReply request ret pdu) : ∃ reply, decodeReply pdu = some reply := by
  obtain ⟨area, result, rfl⟩ := hreply
  exact ⟨_, decodeReply_replyPdu (List.length_ofFn) _ _⟩

theorem un_of_isReply {request : Request} {ret : Int32} {pdu : Bytes}
    (hreply : Server.IsReply request ret pdu) {reply : Reply}
    (hdecode : decodeReply pdu = some reply) : reply.un = takenIn pdu := by
  obtain ⟨area, result, rfl⟩ := hreply
  rw [decodeReply_replyPdu (List.length_ofFn), Option.some.injEq] at hdecode
  rw [← hdecode]
  rfl

/-- A reply that a handler has produced for a request of the client with this nonce. -/
def ProducedFor (history : List Server.Event) (clt : UInt32) (request : Request) (pdu : Bytes) :
    Prop :=
  ∃ d, .produced d request pdu ∈ history ∧ request.clt = clt

theorem ProducedFor.mono {history more : List Server.Event} {clt : UInt32} {request : Request}
    {pdu : Bytes} (h : ProducedFor history clt request pdu) :
    ProducedFor (history ++ more) clt request pdu := by
  obtain ⟨d, hmem, hclt⟩ := h
  exact ⟨d, List.mem_append_left _ hmem, hclt⟩

/-- A call has accepted a reply that has been produced for a request with its xid. -/
def AnsweredBy (history : List Server.Event) (clt : UInt32) (call : Call) (request : Request)
    (pdu : Bytes) : Prop :=
  ProducedFor history clt request pdu ∧ request.xid = call.xid ∧
    Server.IsReply request call.intret pdu ∧ call.un = takenIn pdu

/-- A server with this nonce refuses this request neither as one for an old instance nor
as one that its client has acknowledged. -/
structure Welcome (nonce : UInt32) (request : Request) : Prop where
  rep_lt : request.xidRep < request.xid
  srv : request.srv = 0 ∨ request.srv = nonce

/-- What holds for a client whose xids have not gone around: its window is below its next
xid and it is bound to the server, if at all; so its requests are welcome, and all it gets
are replies of handlers. -/
structure Served (setup : Setup σ) (i : ClientId) (source : Net σ × List Event) : Prop where
  isWindow : IsWindow (source.1.clients i).xidRepWindow
  window_le : ∀ x ∈ (source.1.clients i).xidRepWindow,
    x.toNat ≤ (callsOf i source.2).length
  srv : (source.1.clients i).srvNonce = 0 ∨ (source.1.clients i).srvNonce = setup.srvNonce
  issued : ∀ k request, .issued i k request ∈ source.2 → Welcome setup.srvNonce request
  refuse : ∀ d f ret, source.1.server.frames d = some f → f.stage = .refuse ret →
    f.request.clt ≠ cltNonce setup i
  down : ∀ n conn, source.1.conns n = some conn → conn.owner = i → ∀ pdu ∈ conn.down,
    ∃ request, ProducedFor (serverHistory source.2) (cltNonce setup i) request pdu
  reply : ∀ k call, (source.1.clients i).frames k = some call → call.done = true →
    ∃ request pdu,
      AnsweredBy (serverHistory source.2) (cltNonce setup i) call request pdu

theorem served_start (setup : Setup σ) (i : ClientId) :
    Served setup i (start setup, []) where
  isWindow := isWindow_start
  window_le x hmem := by
    obtain rfl := List.mem_singleton.mp hmem
    exact Nat.zero_le _
  srv := .inl rfl
  issued := by simp
  refuse := by simp [start, Server.start]
  down := by simp [start]
  reply := by simp [start, newClient]

/-! ### The window and the nonce -/

/-- A section puts an xid into the window when a reply arrives or a call is erased. -/
theorem window_of_step {c target : Client} {part : Client.Label}
    (hstep : c.step part = some target) :
    target.xidRepWindow = c.xidRepWindow ∨
      ∃ x, target.xidRepWindow = updateXidRep c.xidRepWindow x ∧
        ((∃ b reply, part = .gotPdu b ∧ decodeReply b = some reply ∧ x = reply.xid) ∨
          ∃ k call, c.frames k = some call ∧ x = call.xid) := by
  cases Client.section_of_step hstep with
  | erased hcall => exact .inr ⟨_, rfl, .inr ⟨_, _, hcall, rfl⟩⟩
  | noted hreply | accepted hreply => exact .inr ⟨_, rfl, .inl ⟨_, _, rfl, hreply, rfl⟩⟩
  | refused | started | connected | moved | dropped | bound => exact .inl rfl

/-- The xids of a client that makes less than 2^32 calls count them. -/
theorem xids_of_run {setup : Setup σ} {guard : Net σ × List Event → Label → Prop}
    {labels : List Label} {reached : Net σ × List Event}
    (hrun : (logged setup).Run guard labels reached) {i : ClientId}
    (hbound : (callsOf i reached.2).length < 2 ^ 32) :
    (reached.1.clients i).xid = UInt32.ofNat (1 + (callsOf i reached.2).length) ∧
      ∀ k call, (reached.1.clients i).frames k = some call →
        call.xid.toNat ≤ (callsOf i reached.2).length := by
  obtain ⟨_, history, hclient, hlength⟩ := exists_client_run hrun i
  have hrouted : Client.Routed (reached.1.clients i) history :=
    Client.routed_of_run hclient (hlength.trans_le hbound.le)
  rw [← hlength] at hbound ⊢
  refine ⟨hrouted.xid_eq, fun k call hcall => ?_⟩
  have hmem := hrouted.frame_issued k call hcall
  rw [hrouted.issued_eq] at hmem
  obtain ⟨n, hn, heq⟩ := List.mem_map.mp hmem
  have hlt := List.mem_range.mp hn
  have hsize : 1 + n < UInt32.size := by
    simp only [UInt32.size]
    omega
  rw [← heq, UInt32.toNat_ofNat_of_lt' hsize]
  omega

/-- A reply that has been produced for a client has been produced for one of its calls. -/
theorem issued_of_produced_for {setup : Setup σ} {labels : List Label}
    {reached : Net σ × List Event}
    (hrun : (logged setup).Run
      (fun source label => onServer Server.noUndercut source label = true) labels reached)
    {i : ClientId} (hown : OwnNonce setup i reached.2) {request : Request} {pdu : Bytes}
    (hproduced : ProducedFor (serverHistory reached.2) (cltNonce setup i) request pdu) :
    ∃ k call, (reached.1.clients i).frames k = some call ∧ call.request = request ∧
      request.xid = call.xid := by
  obtain ⟨d, hmem, hclt⟩ := hproduced
  obtain ⟨-, haddressed, haccepted⟩ := accepted_of_run hrun
  obtain ⟨j, k, hissued⟩ := produced_issued_of_run hrun hmem
  obtain rfl : j = i :=
    hown j k request hissued ((haddressed.issued j k request hissued).symm.trans hclt)
  obtain ⟨call, hcall, rfl⟩ := frame_of_issued hrun hissued
  exact ⟨k, call, hcall, rfl, haccepted.xid j k call hcall⟩

/-- A reply to a request has its xid. -/
theorem xid_of_produced_for {setup : Setup σ} {labels : List Label}
    {reached : Net σ × List Event}
    (hrun : (logged setup).Run
      (fun source label => onServer Server.noUndercut source label = true) labels reached)
    {clt : UInt32} {request : Request} {pdu : Bytes}
    (hproduced : ProducedFor (serverHistory reached.2) clt request pdu) {reply : Reply}
    (hdecode : decodeReply pdu = some reply) : reply.xid = request.xid := by
  obtain ⟨d, hmem, -⟩ := hproduced
  obtain ⟨_, hserver⟩ := exists_server_run hrun
  obtain ⟨⟨ret, hreply⟩, -⟩ := (Server.acted_of_run hserver).produced d request pdu hmem
  exact (header_of_isReply hreply hdecode).1

/-- The xids in the window are those of calls that have been made. -/
theorem Served.window_of_step {setup : Setup σ} {source target : Net σ × List Event}
    {labels : List Label} {label : Label} {i : ClientId} (h : Served setup i source)
    (hprior : (logged setup).Run
      (fun source label => onServer Server.noUndercut source label = true) labels source)
    (hown : OwnNonce setup i source.2) (hbound : (callsOf i source.2).length < 2 ^ 32)
    (hstep : source.1.step setup.app label = some target.1) :
    IsWindow (target.1.clients i).xidRepWindow ∧
      ∀ x ∈ (target.1.clients i).xidRepWindow, x.toNat ≤ (callsOf i source.2).length := by
  -- the window takes in the xid of a call
  have hupdate : ∀ {k : CallId} {call : Call}, (source.1.clients i).frames k = some call →
      IsWindow (updateXidRep (source.1.clients i).xidRepWindow call.xid) ∧
        ∀ x ∈ updateXidRep (source.1.clients i).xidRepWindow call.xid,
          x.toNat ≤ (callsOf i source.2).length := by
    intro k call hcall
    obtain ⟨hwindow, -, hmem, -⟩ := updateXidRep_spec h.isWindow call.xid
    refine ⟨hwindow, fun x hx => ?_⟩
    rcases ((hmem x).mp hx).1 with hold | rfl
    · exact h.window_le x hold
    · exact (xids_of_run hprior hbound).2 k call hcall
  rcases client_of_step hstep i with hsame | ⟨part, hlabel, hpart⟩
  · rw [hsame]
    exact ⟨h.isWindow, h.window_le⟩
  · rcases Net.window_of_step hpart with hsame | ⟨x, hnew, ⟨b, reply, rfl, hdecode, rfl⟩ |
      ⟨k, call, hcall, rfl⟩⟩
    · rw [hsame]
      exact ⟨h.isWindow, h.window_le⟩
    · obtain ⟨n, conn, -, hconn, howner, hhead⟩ := isPart_of_clientLabel hlabel
      obtain ⟨request, hproduced⟩ := h.down n conn hconn howner b (List.mem_of_mem_head? hhead)
      obtain ⟨k, call, hcall, -, hxid⟩ := issued_of_produced_for hprior hown hproduced
      rw [hnew, xid_of_produced_for hprior hproduced hdecode, hxid]
      exact hupdate hcall
    · rw [hnew]
      exact hupdate hcall

/-- A request that a client puts together is welcome. -/
theorem Served.welcome {setup : Setup σ} {source : Net σ × List Event} {labels : List Label}
    {i : ClientId} (h : Served setup i source)
    (hprior : (logged setup).Run
      (fun source label => onServer Server.noUndercut source label = true) labels source)
    (hroom : (callsOf i source.2).length + 1 < 2 ^ 32) (proc : Int32) (args : Bytes) :
    Welcome setup.srvNonce ((source.1.clients i).request proc args) := by
  have hxid := (xids_of_run hprior (Nat.lt_of_succ_lt hroom)).1
  have hfront : (source.1.clients i).xidRepWindow.headD 0 ∈
      (source.1.clients i).xidRepWindow := by
    cases hwindow : (source.1.clients i).xidRepWindow with
    | nil => exact absurd hwindow h.isWindow.ne_nil
    | cons front rest => exact List.mem_cons_self
  have hle := h.window_le _ hfront
  have hsize : 1 + (callsOf i source.2).length < UInt32.size := by
    simp only [UInt32.size]
    omega
  refine ⟨?_, h.srv⟩
  have hrep : ((source.1.clients i).request proc args).xidRep =
      (source.1.clients i).xidRepWindow.headD 0 := by
    simp [Client.request, Request.xidRep]
  rw [hrep, xid_request, hxid, UInt32.lt_iff_toNat_lt, UInt32.toNat_ofNat_of_lt' hsize]
  omega

/-! ### Refusals -/

/-- A dispatch before its reply works on a welcome request, if it is one of this client. -/
theorem Served.welcome_of_frame {setup : Setup σ} {source : Net σ × List Event} {i : ClientId}
    (h : Served setup i source) (hissued : Issued source) (haddressed : Addressed setup source)
    (hown : OwnNonce setup i source.2) {d : DispatchId} {f : Dispatch}
    (hf : source.1.server.frames d = some f) (hearly : early f.stage = true)
    (hclt : f.request.clt = cltNonce setup i) : Welcome setup.srvNonce f.request := by
  obtain ⟨conn, k, -, hmem⟩ := hissued.dispatch_issued d f hf hearly
  have howner : conn.owner = i := hown conn.owner k f.request hmem
    ((haddressed.issued conn.owner k f.request hmem).symm.trans hclt)
  exact h.issued k f.request (howner ▸ hmem)

/-- The server does not refuse a request of this client. -/
theorem Served.refuse_of_step {setup : Setup σ} {source : Net σ × List Event} {target : Net σ}
    {label : Label} {i : ClientId} (h : Served setup i source) (hissued : Issued source)
    (haddressed : Addressed setup source) (hown : OwnNonce setup i source.2)
    (hnonce : source.1.server.nonce = setup.srvNonce)
    (hstep : source.1.step setup.app label = some target) (hrestart : restarts label = false)
    {d : DispatchId} {f : Dispatch} {ret : Int32} (hf : target.server.frames d = some f)
    (hstage : f.stage = .refuse ret) : f.request.clt ≠ cltNonce setup i := by
  have hkept : ∀ d f, source.1.server.frames d = some f → f.stage = .refuse ret →
      f.request.clt ≠ cltNonce setup i := fun d f => h.refuse d f ret
  rcases server_of_step hstep hrestart with ⟨-, hsame⟩ | ⟨part, -, hpart⟩
  · exact hkept d f (hsame ▸ hf) hstage
  have hsection := Server.section_of_step hpart
  generalize target.server = server at hf hsection
  cases hsection with
  | dropped | stirred => exact hkept d f hf hstage
  | @old e g hg hqueued hzero hother =>
      refine Server.holds_put hkept hf rfl (fun _ hclt => ?_) hstage
      have hwelcome := h.welcome_of_frame hissued haddressed hown hg (by rw [hqueued]; rfl) hclt
      rw [hnonce] at hother
      exact hwelcome.srv.elim hzero hother
  | @checked e g hg hcheck =>
      refine Server.holds_put hkept hf rfl (fun hrefuse hclt => ?_) hstage
      rw [Server.follow_request] at hclt
      have hwelcome := h.welcome_of_frame hissued haddressed hown hg (by rw [hcheck]; rfl) hclt
      rcases source.1.server.store.check_cases g.request.clt g.request.xid g.request.xidRep with
        ⟨hle, -⟩ | ⟨-, -, hverdict⟩ | ⟨-, reply, -, -, hverdict⟩
      · exact UInt32.not_lt.mpr hle hwelcome.rep_lt
      · rw [hverdict] at hrefuse
        cases hrefuse
      · rw [hverdict] at hrefuse
        split_ifs at hrefuse <;> cases hrefuse
  | vetted | returned =>
      refine Server.holds_put hkept hf rfl (fun hrefuse => ?_) hstage
      dsimp only at hrefuse
      split_ifs at hrefuse
  | received | unregistered | enrolled | connected | waits | recorded | switched | stays | sent
  | refused => exact Server.holds_put hkept hf rfl (fun hrefuse => by cases hrefuse) hstage

/-! ### Replies -/

/-- What a step sends down a connection of this client comes from a handler. -/
theorem Served.down_of_step {setup : Setup σ} {source : Net σ × List Event} {target : Net σ}
    {label : Label} {i : ClientId} (h : Served setup i source)
    (haddressed : Addressed setup source)
    (hstep : source.1.step setup.app label = some target) {history : List Server.Event}
    (hhistory : history = serverHistory source.2 ++
      (source.1.serverLabel label).toList.flatMap (Server.events setup.app source.1.server))
    (hintact : Server.SentIntact history) {n : ConnId} {conn : Conn}
    (hconn : target.conns n = some conn) (howner : conn.owner = i) {pdu : Bytes}
    (hmem : pdu ∈ conn.down) : ∃ request, ProducedFor history (cltNonce setup i) request pdu := by
  obtain ⟨before, hbefore, hsame, hold | ⟨d, ok, junk, f, rfl, hf, hfconn, rfl⟩ |
    ⟨d, ret, ok, area, f, rfl, hf, hfconn, -⟩⟩ := mem_down_of_step hstep hconn hmem
  · obtain ⟨request, hproduced⟩ := h.down n before hbefore (hsame.symm.trans howner) pdu hold
    exact ⟨request, hhistory ▸ hproduced.mono⟩
  · have hsent : .sent d f.conn f.request (source.1.server.intact f) ∈ history := by
      simp [hhistory, serverLabel, Server.events, hf]
    obtain ⟨bytes, j, request, hbytes, hproduced, hclt, -⟩ := hintact _ _ _ _ hsent
    obtain ⟨found, hfound, hdispatch⟩ := haddressed.dispatch d f hf
    rw [hfconn, hbefore, Option.some.injEq] at hfound
    subst hfound
    rw [hbytes, Option.getD_some]
    exact ⟨request, j, hproduced, by rw [hclt, ← hdispatch, ← hsame, howner]⟩
  · obtain ⟨_, -, hnext⟩ := Option.bind_eq_some_iff.mp hstep
    obtain ⟨server, hserver, -⟩ := serverStep_eq_some.mp hnext
    rw [server_sendDown] at hserver
    obtain ⟨_, hframe, hstage, -⟩ := Server.onFrame_eq_some.mp hserver
    obtain rfl := Option.some.inj (hf.symm.trans hframe)
    obtain ⟨found, hfound, hdispatch⟩ := haddressed.dispatch d f hf
    rw [hfconn, hbefore, Option.some.injEq] at hfound
    subst hfound
    exact absurd (by rw [← hdispatch, ← hsame, howner]) (h.refuse d f ret hf hstage)

theorem Served.reply_of_step {setup : Setup σ} {source target : Net σ × List Event}
    {labels : List Label} {label : Label} {i : ClientId} (h : Served setup i source)
    (hprior : (logged setup).Run
      (fun source label => onServer Server.noUndercut source label = true) labels source)
    (hstep : source.1.step setup.app label = some target.1)
    (hlog : target.2 = source.2 ++ events setup.app source.1 label) {k : CallId} {found : Call}
    (hfound : (target.1.clients i).frames k = some found) (hdone : found.done = true) :
    ∃ request pdu,
      AnsweredBy (serverHistory target.2) (cltNonce setup i) found request pdu := by
  rw [hlog, serverHistory_append]
  rcases call_of_step hstep hfound with ⟨_, _, _, _, _, rfl⟩ |
    ⟨call, hcall, rfl | ⟨part, hlabel, hmoves⟩⟩
  · cases hdone
  · obtain ⟨request, pdu, hproduced, hrest⟩ := h.reply k found hcall hdone
    exact ⟨request, pdu, hproduced.mono, hrest⟩
  · have hxid := hmoves.keeps.2
    rcases accepts_of_moves hmoves with ⟨hsame, hret, hun⟩ |
      ⟨b, reply, rfl, hdecode, hcalls, hret, hun⟩
    · obtain ⟨request, pdu, hproduced, heq, hreply, hpdu⟩ := h.reply k call hcall (hsame ▸ hdone)
      exact ⟨request, pdu, hproduced.mono, heq.trans hxid.symm, hret ▸ hreply, hun.trans hpdu⟩
    · obtain ⟨n, conn, -, hconn, howner, hhead⟩ := isPart_of_clientLabel hlabel
      obtain ⟨request, d, hmem, hclt⟩ :=
        h.down n conn hconn howner b (List.mem_of_mem_head? hhead)
      obtain ⟨_, hserver⟩ := exists_server_run hprior
      obtain ⟨⟨ret, hreply⟩, -⟩ := (Server.acted_of_run hserver).produced d request b hmem
      obtain ⟨hsame, rfl⟩ := header_of_isReply hreply hdecode
      obtain ⟨-, -, haccepted⟩ := accepted_of_run hprior
      obtain ⟨other, hother, hotherXid⟩ := haccepted.calls _ _ k hcalls
      obtain rfl := Option.some.inj (hcall.symm.trans hother)
      exact ⟨request, b, ProducedFor.mono ⟨d, hmem, hclt⟩, by rw [hxid, hotherXid, hsame],
        hret ▸ hreply, hun.trans (un_of_isReply hreply hdecode)⟩

/-! ## Calls that have returned -/

/-- A call has come to what the handler of its request has returned. -/
def ComesTo (nonce : UInt32) (allows : Request → Outcome → Prop) (call : Call) (ret : Int32) :
    Prop :=
  ∃ outcome pdu, Server.Makes nonce allows call.request outcome ∧ outcome.ret = ret ∧
    Server.Tells call.request outcome pdu ∧ call.un = takenIn pdu

/-- A call that has returned has timed out without a reply, or accepted a reply that a
handler has produced for its own request. -/
theorem Served.producedReply {setup : Setup σ} {labels : List Label}
    {source : Net σ × List Event} {i : ClientId} (h : Served setup i source)
    (hrun : (logged setup).Run
      (fun source label => onServer Server.noUndercut source label = true) labels source)
    (hown : OwnNonce setup i source.2) (hbound : (callsOf i source.2).length < 2 ^ 32)
    {k : CallId} {call : Call} (hcall : (source.1.clients i).frames k = some call) {ret : Int32}
    (hret : call.result = some ret) :
    (call.done = false ∧ ret = RpcConst.timeoutFailure) ∨
      ∃ d pdu, .produced d call.request pdu ∈ serverHistory source.2 ∧
        Server.IsReply call.request ret pdu ∧ call.un = takenIn pdu := by
  obtain ⟨_, history, hclient, hlength⟩ := exists_client_run hrun i
  have hrouted := Client.routed_of_run hclient (hlength.trans_le hbound.le)
  have hresult := hrouted.frame_result k call ret hcall hret
  cases hdone : call.done with
  | false =>
      rw [hdone] at hresult
      exact .inl ⟨rfl, hresult⟩
  | true =>
      rw [hdone, if_pos rfl] at hresult
      subst hresult
      obtain ⟨request, pdu, hproduced, hxid, hreply, hun⟩ :=
        h.reply k call hcall hdone
      obtain ⟨l, other, hother, rfl, hotherXid⟩ :=
        issued_of_produced_for hrun hown hproduced
      -- the two calls have the same xid, so they are one
      obtain rfl := hrouted.frame_distinct l k other call hother hcall
        (hotherXid.symm.trans hxid)
      obtain rfl := Option.some.inj (hother.symm.trans hcall)
      obtain ⟨d, hmem, -⟩ := hproduced
      exact .inr ⟨d, pdu, hmem, hreply, hun⟩

/-- A call that has returned has timed out without a reply, or accepted a reply to its own
request. -/
theorem Served.comesTo {setup : Setup σ} {waits : σ → DispatchId → Request → Prop}
    {allows : Request → Outcome → Prop} (hmeets : setup.app.Meets waits allows)
    {labels : List Label} {source : Net σ × List Event} {i : ClientId}
    (h : Served setup i source)
    (hrun : (logged setup).Run
      (fun source label => onServer Server.noUndercut source label = true) labels source)
    (hown : OwnNonce setup i source.2) (hbound : (callsOf i source.2).length < 2 ^ 32)
    {k : CallId} {call : Call} (hcall : (source.1.clients i).frames k = some call) {ret : Int32}
    (hret : call.result = some ret) :
    (call.done = false ∧ ret = RpcConst.timeoutFailure) ∨
      ComesTo setup.srvNonce allows call ret := by
  rcases h.producedReply hrun hown hbound hcall hret with htimeout | ⟨d, pdu, hmem, hreply, hun⟩
  · exact .inl htimeout
  · obtain ⟨_, hserver⟩ := exists_server_run hrun
    obtain ⟨outcome, hmakes, htells⟩ :=
      (Server.performs_of_run hmeets hserver).produced d _ pdu hmem
    obtain ⟨reply, hdecode⟩ := exists_decode_of_isReply hreply
    have hsame : outcome.ret = ret :=
      (header_of_isReply htells.isReply hdecode).2.symm.trans (header_of_isReply hreply hdecode).2
    exact .inr ⟨outcome, pdu, hmakes, hsame, htells, hun⟩

/-- A client that is bound is bound to this server. -/
theorem ComesTo.boundTo {nonce found : UInt32} {allows : Request → Outcome → Prop}
    {call : Call} {ret : Int32} (h : ComesTo nonce allows call ret)
    (hbind : call.request.proc = RpcConst.bind) (hret : call.result = some ret)
    (hbound : call.boundTo = some found) : found = nonce := by
  obtain ⟨outcome, pdu, hmakes, rfl, htells, hun⟩ := h
  rw [Server.Makes, if_pos hbind] at hmakes
  rcases h1_eq_some hmakes with ⟨vs, -, rfl⟩ | hfailure
  · have hread : callM .lp64 .int 0 (takenIn pdu) (0 : Int32) =
        some ((0, nonce.toInt32) : Int32 × Int32) :=
      callM_takenIn (Int32.le_refl 0) htells
        (by show rpcHeaderSz + 4 < 2 ^ 31; decide)
    rw [Call.boundTo, hret, Option.getD_some, hun, hread] at hbound
    exact (Option.some.inj hbound).symm.trans (by simp)
  · rw [Call.boundTo, hret, Option.getD_some, hfailure] at hbound
    cases hbound

theorem OwnNonce.mono {setup : Setup σ} {i : ClientId} {history more : List Event}
    (h : OwnNonce setup i (history ++ more)) : OwnNonce setup i history :=
  fun j k request hmem => h j k request (List.mem_append_left _ hmem)

/-- A client stays bound to this server. -/
theorem Served.srv_of_step {setup : Setup σ} {waits : σ → DispatchId → Request → Prop}
    {allows : Request → Outcome → Prop} (hmeets : setup.app.Meets waits allows)
    {source : Net σ × List Event} {target : Net σ} {labels : List Label} {label : Label}
    {i : ClientId} (h : Served setup i source)
    (hprior : (logged setup).Run
      (fun source label => onServer Server.noUndercut source label = true) labels source)
    (hown : OwnNonce setup i source.2) (hbound : (callsOf i source.2).length < 2 ^ 32)
    (hstep : source.1.step setup.app label = some target) :
    (target.clients i).srvNonce = 0 ∨ (target.clients i).srvNonce = setup.srvNonce := by
  rcases client_of_step hstep i with hsame | ⟨part, hlabel, hpart⟩
  · rw [hsame]
    exact h.srv
  rcases Client.bound_of_step hpart with ⟨-, hsame⟩ | ⟨k, call, nonce, rfl, hcall, hnonce, hnew⟩
  · rw [hsame]
    exact h.srv
  · obtain ⟨found, hfound, hbinds, -⟩ := Client.onCall_eq_some.mp hpart
    obtain rfl := Option.some.inj (hcall.symm.trans hfound)
    obtain ⟨hproc, hphase⟩ := Bool.and_eq_true_iff.mp hbinds
    obtain ⟨ret, hret⟩ : ∃ ret, call.result = some ret := by
      unfold Call.result
      split at hphase
      · next ret heq => exact ⟨ret, by rw [heq]⟩
      · cases hphase
    rcases h.comesTo hmeets hprior hown hbound hcall hret with ⟨-, rfl⟩ | hcomes
    · rw [Call.boundTo, hret] at hnonce
      cases hnonce
    · right
      rw [hnew]
      exact hcomes.boundTo (beq_iff_eq.mp hproc) hret hnonce

theorem Served.step {setup : Setup σ} {waits : σ → DispatchId → Request → Prop}
    {allows : Request → Outcome → Prop} (hmeets : setup.app.Meets waits allows)
    {source target : Net σ × List Event} {labels : List Label} {label : Label} {i : ClientId}
    (h : Served setup i source)
    (hprior : (logged setup).Run
      (fun source label => onServer Server.noUndercut source label = true) labels source)
    (hguard : onServer Server.noUndercut source label = true)
    (hstep : (logged setup).step source label = some target)
    (hown : OwnNonce setup i target.2) (hbound : (callsOf i target.2).length < 2 ^ 32) :
    Served setup i target := by
  obtain ⟨hnext, hlog⟩ := System.recorded_step_eq_some.mp hstep
  have hnext' : source.1.step setup.app label = some target.1 := hnext
  have hrestart : restarts label = false := by
    simpa using (Bool.and_eq_true_iff.mp hguard).1
  obtain ⟨hissued, haddressed, -⟩ := accepted_of_run hprior
  obtain ⟨_, hserver⟩ := exists_server_run hprior
  obtain ⟨_, hserver'⟩ := exists_server_run (hprior.snoc hguard hstep)
  have hnonce : source.1.server.nonce = setup.srvNonce :=
    (Server.performs_of_run hmeets hserver).nonce_eq
  have hownSource : OwnNonce setup i source.2 := (hlog ▸ hown).mono
  have hlength : (callsOf i target.2).length =
      (callsOf i source.2).length + (callsOf i (events setup.app source.1 label)).length := by
    rw [hlog, callsOf_append, List.length_append]
  have hboundSource : (callsOf i source.2).length < 2 ^ 32 := by omega
  obtain ⟨hwindow, hle⟩ := h.window_of_step hprior hownSource hboundSource hnext'
  refine ⟨hwindow, fun x hx => (hle x hx).trans (by omega),
    h.srv_of_step hmeets hprior hownSource hboundSource hnext', fun k request hmem => ?_,
    fun d f ret hf hstage => h.refuse_of_step hissued haddressed hownSource hnonce hnext'
      hrestart hf hstage,
    fun n conn hconn howner pdu hmem => h.down_of_step haddressed hnext' ?_
      (Server.buffers_of_run hserver').2.2 hconn howner hmem,
    fun k found hfound hdone => h.reply_of_step hprior hnext' hlog hfound hdone⟩
  · rcases issued_of_step hlog hmem with hold | ⟨proc, args, rfl, hrefuses, rfl⟩
    · exact h.issued k request hold
    · apply h.welcome hprior
      have hone : (callsOf i (events setup.app source.1 (.start i k proc args))).length = 1 := by
        rw [callsOf_events]
        simp [clientLabel, clientEvents, hrefuses, callsOf]
      omega
  · rw [hlog, serverHistory_append, serverHistory_events]

/-- What every run keeps in which replies are not freed before they are sent. -/
theorem served_of_run {setup : Setup σ} {waits : σ → DispatchId → Request → Prop}
    {allows : Request → Outcome → Prop} (hmeets : setup.app.Meets waits allows)
    {labels : List Label} {reached : Net σ × List Event}
    (hrun : (logged setup).Run
      (fun source label => onServer Server.noUndercut source label = true) labels reached)
    {i : ClientId} (hown : OwnNonce setup i reached.2)
    (hbound : (callsOf i reached.2).length < 2 ^ 32) : Served setup i reached := by
  refine hrun.invariant (fun reached => OwnNonce setup i reached.2 →
    (callsOf i reached.2).length < 2 ^ 32 → Served setup i reached)
    (fun _ _ => served_start setup i) ?_ hown hbound
  intro labels source label target hprior h hguard hstep hown hbound
  obtain ⟨-, hlog⟩ := System.recorded_step_eq_some.mp hstep
  have hshorter : (callsOf i source.2).length ≤ (callsOf i target.2).length := by
    rw [hlog, callsOf_append, List.length_append]
    exact Nat.le_add_right _ _
  exact (h (hlog ▸ hown).mono (hshorter.trans_lt hbound)).step hmeets hprior hguard hstep hown
    hbound

end YfsLab.Rpc.Net
