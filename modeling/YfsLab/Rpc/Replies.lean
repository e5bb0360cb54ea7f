/-
# What a reply says

A client that accepts a reply learns two things from it: which of its requests has been
answered, by the xid, and what the handler has returned. This module follows a reply
from the handler to the client. What is on its way down a connection has been produced
for a request of the client that owns the connection, or refuses one; so a call that has
accepted a reply with a return code of zero has been executed.
-/

import YfsLab.Rpc.Issued
import YfsLab.Rpc.ReplyBuffers

namespace YfsLab.Rpc.Server

open BigEndian Transition Wire

variable {σ : Type} {app : Service σ}

/-! ## Handlers and their replies -/

/-- The PDU of a reply that a handler has produced. -/
def IsReply (request : Request) (ret : Int32) (pdu : Bytes) : Prop :=
  ∃ (area : Area) (result : Bytes),
    pdu = replyPdu (List.ofFn area) ⟨request.header.xid, ret⟩ result

/-- Handlers that wait or have produced a reply have been entered, refusals are not
zero, and a request that is found new does not acknowledge itself. -/
structure Acted (source : Server σ × List Event) : Prop where
  running : ∀ d f, source.1.frames d = some f → f.stage = .running →
    d ∈ executions source.2 f.request.clt f.request.xid
  produced : ∀ d request pdu, .produced d request pdu ∈ source.2 →
    (∃ ret, IsReply request ret pdu) ∧ d ∈ executions source.2 request.clt request.xid
  refuse : ∀ d f ret, source.1.frames d = some f → f.stage = .refuse ret → ret ≠ 0
  new : ∀ d conn request, .checked d conn request .new ∈ source.2 →
    request.xidRep < request.xid

theorem acted_start (nonce : UInt32) : Acted (start app nonce, []) where
  running := by simp [start]
  produced := by simp
  refuse := by simp [start]
  new := by simp

theorem executions_enter {s : Server σ} {d : DispatchId} {f : Dispatch} (choice : ℕ)
    (area : Area) (hf : s.frames d = some f) :
    d ∈ executions (events app s (.enter d choice area)) f.request.clt f.request.xid := by
  simp only [events, hf, Option.toList_some, List.flatMap_singleton]
  rw [executions_entered]
  simp [isOf]

theorem mem_executions_append {history : List Event} {clt xid : UInt32} {d : DispatchId}
    (more : List Event)
    (hmem : d ∈ executions history clt xid ∨ d ∈ executions more clt xid) :
    d ∈ executions (history ++ more) clt xid := by
  rw [executions_append, List.mem_append]
  exact hmem

/-- A handler that waits has been entered. -/
theorem running_of_section {s target : Server σ} {history : List Event} {label : Label}
    (hsection : Section app s label target) (h : Acted (s, history)) {d : DispatchId}
    {f : Dispatch} (hf : target.frames d = some f) (hstage : f.stage = .running) :
    d ∈ executions (history ++ events app s label) f.request.clt f.request.xid := by
  have hkept : ∀ d f, s.frames d = some f → f.stage = .running →
      d ∈ executions (history ++ events app s label) f.request.clt f.request.xid :=
    fun d f hf hstage => mem_executions_append _ (.inl (h.running d f hf hstage))
  cases hsection with
  | dropped | stirred => exact hkept d f hf hstage
  | @checked e g hg =>
      refine holds_put hkept hf rfl (fun hrunning => ?_) hstage
      cases hverdict : (s.store.checkduplicateAndUpdate g.request.clt g.request.xid
        g.request.xidRep).2 <;> rw [hverdict] at hrunning <;> cases hrunning
  | @waits e g _ _ _ hg hhandles =>
      have hexecuted : e ∈ executions (history ++ events app s label) g.request.clt
          g.request.xid := by
        cases hhandles with
        | entered => exact mem_executions_append _ (.inr (executions_enter _ _ hg))
        | resumed hrunning => exact mem_executions_append _ (.inl (h.running e g hg hrunning))
      exact holds_put hkept hf rfl (fun _ => hexecuted) hstage
  | vetted | returned =>
      refine holds_put hkept hf rfl (fun hrunning => ?_) hstage
      dsimp only at hrunning
      split_ifs at hrunning
  | received | old | unregistered | enrolled | connected | recorded | switched | stays | sent
  | refused => exact holds_put hkept hf rfl (fun hrunning => by cases hrunning) hstage

/-- A reply has the xid of its request, and the handler has been entered before. -/
theorem isReply_of_step {s target : Server σ} {history : List Event} {label : Label}
    (hstep : s.step app label = some target) (h : Acted (s, history)) {d : DispatchId}
    {request : Request} {pdu : Bytes} (hmem : .produced d request pdu ∈ events app s label) :
    (∃ ret, IsReply request ret pdu) ∧
      d ∈ executions (history ++ events app s label) request.clt request.xid := by
  cases emits_of_mem hmem with
  | @produced _ f _ area service outcome hf hlabel =>
      refine ⟨⟨outcome.ret, area, outcome.result, rfl⟩, ?_⟩
      rcases hlabel with ⟨choice, rfl, -⟩ | ⟨choice, rfl, -⟩
      · exact mem_executions_append _ (.inr (executions_enter _ _ hf))
      · obtain ⟨g, hg, hrunning, -⟩ := onFrame_eq_some.mp hstep
        obtain rfl := Option.some.inj (hf.symm.trans hg)
        exact mem_executions_append _ (.inl (h.running d f hf hrunning))

/-- A refusal has one of two return codes. -/
theorem refuse_of_section {s target : Server σ} {label : Label}
    (hsection : Section app s label target)
    (h : ∀ d f ret, s.frames d = some f → f.stage = .refuse ret → ret ≠ 0)
    {d : DispatchId} {f : Dispatch} {ret : Int32} (hf : target.frames d = some f)
    (hstage : f.stage = .refuse ret) : ret ≠ 0 := by
  have hkept : ∀ d f, s.frames d = some f → f.stage = .refuse ret → ret ≠ 0 :=
    fun d f => h d f ret
  cases hsection with
  | dropped | stirred => exact hkept d f hf hstage
  | old =>
      refine holds_put hkept hf rfl (fun hrefuse => ?_) hstage
      cases hrefuse
      decide
  | @checked e g hg =>
      refine holds_put hkept hf rfl (fun hrefuse => ?_) hstage
      cases hverdict : (s.store.checkduplicateAndUpdate g.request.clt g.request.xid
        g.request.xidRep).2 <;> rw [hverdict] at hrefuse <;> cases hrefuse
      decide
  | vetted | returned =>
      refine holds_put hkept hf rfl (fun hrefuse => ?_) hstage
      dsimp only at hrefuse
      split_ifs at hrefuse
  | received | unregistered | enrolled | connected | waits | recorded | switched | stays | sent
  | refused => exact holds_put hkept hf rfl (fun hrefuse => by cases hrefuse) hstage

theorem new_of_mem {s : Server σ} {label : Label} {d : DispatchId} {conn : ConnId}
    {request : Request} (hmem : .checked d conn request .new ∈ events app s label) :
    request.xidRep < request.xid := by
  generalize hevent : Event.checked d conn request .new = event at hmem
  cases emits_of_mem hmem with
  | @checked e f hf =>
      obtain ⟨-, -, rfl, hverdict⟩ := Event.checked.inj hevent
      rcases s.store.check_cases f.request.clt f.request.xid f.request.xidRep with
        ⟨-, hcheck⟩ | ⟨hlt, -⟩ | ⟨hlt, -⟩
      · rw [hcheck] at hverdict
        cases hverdict
      · exact hlt
      · exact hlt
  | entered | produced | sent | refused => cases hevent

theorem Acted.step {nonce : UInt32} {source target : Server σ × List Event} {label : Label}
    (h : Acted source) (hstep : (logged app nonce).step source label = some target) :
    Acted target := by
  obtain ⟨hnext, hlog⟩ := System.recorded_step_eq_some.mp hstep
  have hnext' : source.1.step app label = some target.1 := hnext
  have hsection := section_of_step hnext'
  refine ⟨fun d f hf hstage => ?_, fun d request pdu hmem => ?_,
    fun d f ret hf hstage => refuse_of_section hsection h.refuse hf hstage,
    fun d conn request hmem => ?_⟩
  · rw [hlog]
    exact running_of_section hsection h hf hstage
  · rw [hlog] at hmem ⊢
    rcases List.mem_append.mp hmem with hold | hnew
    · obtain ⟨hreply, hexecuted⟩ := h.produced d request pdu hold
      exact ⟨hreply, mem_executions_append _ (.inl hexecuted)⟩
    · exact isReply_of_step hnext' h hnew
  · rw [hlog] at hmem
    rcases List.mem_append.mp hmem with hold | hnew
    · exact h.new d conn request hold
    · exact new_of_mem hnew

theorem acted_of_run {nonce : UInt32} {guard : Server σ × List Event → Label → Prop}
    {labels : List Label} {reached : Server σ × List Event}
    (hrun : (logged app nonce).Run guard labels reached) : Acted reached :=
  hrun.invariant Acted (acted_start nonce) fun _ h _ hstep => h.step hstep

end YfsLab.Rpc.Server

namespace YfsLab.Rpc.Net

open BigEndian Transition Wire

variable {σ : Type}

/-! ## From the server to the client -/

/-- The nonce that a client puts into its requests. -/
def cltNonce (setup : Setup σ) (i : ClientId) : UInt32 := (newClient setup i).cltNonce

/-- A PDU for the client with this nonce is a reply, and if its return code is zero a
handler has produced it for a request of this client. -/
def Answers (history : List Server.Event) (clt : UInt32) (pdu : Bytes) : Prop :=
  ∃ request ret, Server.IsReply request ret pdu ∧
    (ret = 0 → ∃ d, .produced d request pdu ∈ history ∧ request.clt = clt)

theorem Answers.mono {history more : List Server.Event} {clt : UInt32} {pdu : Bytes}
    (h : Answers history clt pdu) : Answers (history ++ more) clt pdu := by
  obtain ⟨request, ret, hreply, hzero⟩ := h
  refine ⟨request, ret, hreply, fun hret => ?_⟩
  obtain ⟨d, hmem, hclt⟩ := hzero hret
  exact ⟨d, List.mem_append_left _ hmem, hclt⟩

/-- Requests carry the nonces of their clients, connections and dispatches belong to the
clients whose requests they are for, and so do the replies on their way. -/
structure Addressed (setup : Setup σ) (source : Net σ × List Event) : Prop where
  clt : ∀ i, (source.1.clients i).cltNonce = cltNonce setup i
  issued : ∀ i k request, .issued i k request ∈ source.2 → request.clt = cltNonce setup i
  latest : ∀ clt n, source.1.server.conns clt = some n →
    ∃ conn, source.1.conns n = some conn ∧ cltNonce setup conn.owner = clt
  dispatch : ∀ d f, source.1.server.frames d = some f →
    ∃ conn, source.1.conns f.conn = some conn ∧ cltNonce setup conn.owner = f.request.clt
  down : ∀ n conn, source.1.conns n = some conn → ∀ pdu ∈ conn.down,
    Answers (serverHistory source.2) (cltNonce setup conn.owner) pdu

theorem addressed_start (setup : Setup σ) : Addressed setup (start setup, []) where
  clt _ := rfl
  issued := by simp
  latest := by simp [start, Server.start]
  dispatch := by simp [start, Server.start]
  down := by simp [start]

theorem issued_clt_of_mem {app : Service σ} {net : Net σ} {label : Label} {i : ClientId}
    {k : CallId} {request : Request} (hmem : .issued i k request ∈ events app net label) :
    ∃ proc args, label = .start i k proc args ∧ (net.clients i).refuses proc = false ∧
      request = (net.clients i).request proc args := by
  rcases mem_events_cases hmem with ⟨j, part, hlabel, hevent⟩ | ⟨_, _, _, _, heq⟩ | ⟨_, heq⟩
  · cases part with
    | start l proc args =>
        simp only [clientEvents] at hevent
        split_ifs at hevent with hrefuses
        · cases hevent
        · obtain ⟨rfl, rfl, rfl⟩ := Event.issued.inj (List.mem_singleton.mp hevent)
          exact ⟨proc, args, isPart_of_clientLabel hlabel, by simpa using hrefuses, rfl⟩
    | finish l =>
        obtain ⟨call, -, heq⟩ := List.mem_map.mp hevent
        cases heq
    | bind l =>
        obtain ⟨nonce, -, heq⟩ := List.mem_map.mp hevent
        cases heq
    | _ => cases hevent
  · cases heq
  · cases heq

/-- The owner of a connection keeps it. -/
theorem owned_of_step {setup : Setup σ} {net target : Net σ} {label : Label}
    (hstep : net.step setup.app label = some target) {n : ConnId} {clt : UInt32}
    (howned : ∃ conn, net.conns n = some conn ∧ cltNonce setup conn.owner = clt) :
    ∃ conn, target.conns n = some conn ∧ cltNonce setup conn.owner = clt := by
  obtain ⟨conn, hconn, rfl⟩ := howned
  obtain ⟨conn', hconn', howner⟩ := owner_of_step hstep ⟨conn, hconn, rfl⟩
  exact ⟨conn', hconn', by rw [howner]⟩

/-- The latest connection of a client belongs to it. -/
theorem latest_of_step {setup : Setup σ} {source : Net σ × List Event} {target : Net σ}
    {label : Label} (h : Addressed setup source)
    (hstep : source.1.step setup.app label = some target) (hrestart : restarts label = false)
    {clt : UInt32} {n : ConnId} (hlatest : target.server.conns clt = some n) :
    ∃ conn, target.conns n = some conn ∧ cltNonce setup conn.owner = clt := by
  rcases server_of_step hstep hrestart with ⟨-, hsame⟩ | ⟨part, -, hpart⟩
  · exact owned_of_step hstep (h.latest clt n (hsame ▸ hlatest))
  · rcases Server.latest_of_section (Server.section_of_step hpart) hlatest with
      hold | ⟨d, f, -, hf, rfl, rfl⟩
    · exact owned_of_step hstep (h.latest clt n hold)
    · exact owned_of_step hstep (h.dispatch d f hf)

/-- A dispatch stands on a connection of the client whose request it works on. -/
theorem dispatch_of_step {setup : Setup σ} {source : Net σ × List Event} {target : Net σ}
    {label : Label} (h : Addressed setup source) (hissued : Issued source)
    (hstep : source.1.step setup.app label = some target) (hrestart : restarts label = false)
    {d : DispatchId} {f' : Dispatch} (hf' : target.server.frames d = some f') :
    ∃ conn, target.conns f'.conn = some conn ∧
      cltNonce setup conn.owner = f'.request.clt := by
  rcases server_of_step hstep hrestart with ⟨-, hsame⟩ | ⟨part, hlabel, hpart⟩
  · exact owned_of_step hstep (h.dispatch d f' (hsame ▸ hf'))
  · have hsection := Server.section_of_step hpart
    rcases Server.frame_of_section hsection hf' with ⟨pdu, rfl, hdecode, -⟩ |
      ⟨f, hf, hrequest, -⟩
    · obtain ⟨-, conn, hconn, hpdu⟩ := serverLabel_receive hlabel
      obtain ⟨k, request, hmem, rfl⟩ := hissued.up_issued _ conn hconn pdu hpdu
      rw [decodeRequest_pdu, Option.some.injEq] at hdecode
      refine owned_of_step hstep ⟨conn, hconn, ?_⟩
      rw [← hdecode, h.issued conn.owner k request hmem]
    · rw [hrequest]
      rcases Server.conn_of_section hsection hf hf' with hsame | ⟨-, -, hlatest⟩
      · rw [hsame]
        exact owned_of_step hstep (h.dispatch d f hf)
      · exact owned_of_step hstep (h.latest _ _ hlatest)

theorem mem_sendDown {conn : Conn} {ok : Bool} {new pdu : Bytes}
    (hmem : pdu ∈ (conn.sendDown ok new).down) : pdu ∈ conn.down ∨ pdu = new := by
  unfold Conn.sendDown at hmem
  split_ifs at hmem
  · exact .inl hmem
  · rcases List.mem_append.mp hmem with hold | hnew
    · exact .inl hold
    · exact .inr (List.mem_singleton.mp hnew)
  · exact .inl hmem

/-- What a step sends down a connection answers a request of its owner. -/
theorem down_of_step {setup : Setup σ} {source : Net σ × List Event} {target : Net σ}
    {label : Label} (h : Addressed setup source)
    (hacted : Server.Acted (source.1.server, serverHistory source.2))
    (hstep : source.1.step setup.app label = some target) (hrestart : restarts label = false)
    {history : List Server.Event} (hhistory : history = serverHistory source.2 ++
      (source.1.serverLabel label).toList.flatMap (Server.events setup.app source.1.server))
    (hacted' : Server.Acted (target.server, history)) (hintact : Server.SentIntact history)
    {n : ConnId} {conn : Conn} (hconn : target.conns n = some conn) {pdu : Bytes}
    (hmem : pdu ∈ conn.down) : Answers history (cltNonce setup conn.owner) pdu := by
  rcases conns_of_step hstep hconn with ⟨_, _, -, -, rfl⟩ | ⟨before, hbefore, hcarries⟩
  · cases hmem
  have howner := hcarries.keeps.1
  rw [howner]
  have hold : pdu ∈ before.down → Answers history (cltNonce setup before.owner) pdu :=
    fun hold => hhistory ▸ (h.down n before hbefore pdu hold).mono
  cases hcarries with
  | same | received | restarted => exact hold hmem
  | sentUp =>
      unfold Conn.sendUp at hmem
      split_ifs at hmem <;> exact hold hmem
  | delivered _ hdown => exact hold (hdown ▸ List.mem_cons_of_mem _ hmem)
  | died =>
      unfold Conn.die at hmem
      split_ifs at hmem <;> exact hold hmem
  | lost => exact hold (List.mem_of_mem_take hmem)
  | @replied d ok junk f hf hfconn =>
      rcases mem_sendDown hmem with hmem | rfl
      · exact hold hmem
      · have hsent : .sent d f.conn f.request (source.1.server.intact f) ∈ history := by
          simp [hhistory, serverLabel, Server.events, hf]
        obtain ⟨bytes, j, request, hbytes, hproduced, hclt, -⟩ := hintact _ _ _ _ hsent
        obtain ⟨⟨ret, hreply⟩, -⟩ := hacted'.produced j request bytes hproduced
        obtain ⟨_, hsame, hown⟩ := h.dispatch d f hf
        rw [hfconn, hbefore, Option.some.injEq] at hsame
        rw [hbytes, Option.getD_some]
        exact ⟨request, ret, hreply, fun _ => ⟨j, hproduced, by rw [hclt, hsame, hown]⟩⟩
  | @refused d ret ok area f hf hfconn =>
      rcases mem_sendDown hmem with hmem | rfl
      · exact hold hmem
      · rcases server_of_step hstep hrestart with ⟨hnone, -⟩ | ⟨part, hlabel, hpart⟩
        · cases hnone
        · cases hlabel
          obtain ⟨_, hframe, hstage, -⟩ := Server.onFrame_eq_some.mp hpart
          obtain rfl := Option.some.inj (hf.symm.trans hframe)
          have hret := hacted.refuse d f ret hf hstage
          exact ⟨f.request, ret, ⟨area, [], rfl⟩, fun hzero => absurd hzero hret⟩

theorem Addressed.step {setup : Setup σ} {source target : Net σ × List Event} {label : Label}
    (h : Addressed setup source) (hissued : Issued source)
    (hacted : Server.Acted (source.1.server, serverHistory source.2))
    (hrestart : restarts label = false)
    (hstep : (logged setup).step source label = some target)
    (hacted' : Server.Acted (target.1.server, serverHistory target.2))
    (hintact : Server.SentIntact (serverHistory target.2)) : Addressed setup target := by
  obtain ⟨hnext, hlog⟩ := System.recorded_step_eq_some.mp hstep
  have hnext' : source.1.step setup.app label = some target.1 := hnext
  refine ⟨fun i => ?_, fun i k request hmem => ?_,
    fun clt n hlatest => latest_of_step h hnext' hrestart hlatest,
    fun d f hf => dispatch_of_step h hissued hnext' hrestart hf, fun n conn hconn pdu hmem => ?_⟩
  · rcases client_of_step hnext' i with hsame | ⟨part, -, hpart⟩
    · rw [hsame, h.clt i]
    · rw [Client.cltNonce_of_step hpart, h.clt i]
  · rw [hlog] at hmem
    rcases List.mem_append.mp hmem with hold | hnew
    · exact h.issued i k request hold
    · obtain ⟨proc, args, -, -, rfl⟩ := issued_clt_of_mem hnew
      exact h.clt i
  · refine down_of_step h hacted hnext' hrestart ?_ hacted' hintact hconn hmem
    rw [hlog, serverHistory_append, serverHistory_events]

/-! ## Calls that have accepted a reply -/

/-- The calls of a client are known by their xids, and a call that has accepted the
return code zero has been answered by a handler. -/
structure Accepted (setup : Setup σ) (source : Net σ × List Event) : Prop where
  xid : ∀ i k call, (source.1.clients i).frames k = some call → call.request.xid = call.xid
  calls : ∀ i x k, (source.1.clients i).calls x = some k →
    ∃ call, (source.1.clients i).frames k = some call ∧ call.xid = x
  reply : ∀ i k call, (source.1.clients i).frames k = some call → call.done = true →
    call.intret = 0 → ∃ d request pdu, .produced d request pdu ∈ serverHistory source.2 ∧
      request.clt = cltNonce setup i ∧ request.xid = call.xid ∧ Server.IsReply request 0 pdu

theorem accepted_start (setup : Setup σ) : Accepted setup (start setup, []) where
  xid := by simp [start, newClient]
  calls := by simp [start, newClient]
  reply := by simp [start, newClient]

/-- What a client accepts of a reply. -/
theorem header_of_isReply {request : Request} {ret : Int32} {pdu : Bytes}
    (hreply : Server.IsReply request ret pdu) {reply : Reply}
    (hdecode : decodeReply pdu = some reply) :
    reply.xid = request.xid ∧ reply.header.ret = ret := by
  obtain ⟨area, result, rfl⟩ := hreply
  rw [decodeReply_replyPdu (List.length_ofFn), Option.some.injEq] at hdecode
  subst hdecode
  exact ⟨rfl, rfl⟩

/-- A section other than `got_pdu` does not complete a call. -/
theorem done_of_moves {c : Client} {k : CallId} {call found : Call} {part : Client.Label}
    (hmoves : Client.Moves c k call part found) :
    (found.done = call.done ∧ found.intret = call.intret) ∨
      ∃ b reply, part = .gotPdu b ∧ decodeReply b = some reply ∧
        c.calls reply.xid = some k ∧ found.intret = reply.header.ret := by
  cases hmoves with
  | sent =>
      left
      unfold Call.loop
      split <;> exact ⟨rfl, rfl⟩
  | retried =>
      left
      unfold Call.retry Call.loop
      split_ifs <;> exact ⟨rfl, rfl⟩
  | @accepted b reply hreply hcalls =>
      unfold Call.accept
      split_ifs with hdone
      · exact .inl ⟨rfl, rfl⟩
      · exact .inr ⟨b, reply, rfl, hreply, hcalls, rfl⟩
  | same | refconn | woken | expired | erased | finished | bound => exact .inl ⟨rfl, rfl⟩

theorem Accepted.step {setup : Setup σ} {source target : Net σ × List Event} {label : Label}
    (h : Accepted setup source) (haddressed : Addressed setup source)
    (hstep : (logged setup).step source label = some target) : Accepted setup target := by
  obtain ⟨hnext, hlog⟩ := System.recorded_step_eq_some.mp hstep
  have hnext' : source.1.step setup.app label = some target.1 := hnext
  have hsubset : serverHistory source.2 ⊆ serverHistory target.2 := by
    rw [hlog, serverHistory_append]
    exact List.subset_append_left _ _
  refine ⟨fun i k found hfound => ?_, fun i x k hcalls => ?_,
    fun i k found hfound hdone hzero => ?_⟩
  · rcases call_of_step hnext' hfound with ⟨_, _, _, _, _, rfl⟩ |
      ⟨call, hcall, rfl | ⟨part, -, hmoves⟩⟩
    · rfl
    · exact h.xid i k found hcall
    · obtain ⟨hrequest, hxid⟩ := hmoves.keeps
      rw [hrequest, hxid, h.xid i k call hcall]
  · rcases client_of_step hnext' i with hsame | ⟨part, -, hpart⟩
    · rw [hsame] at hcalls ⊢
      exact h.calls i x k hcalls
    · rcases Client.calls_of_step hpart hcalls with hold | ⟨rfl, call, hcall, hxid⟩
      · obtain ⟨call, hcall, hxid⟩ := h.calls i x k hold
        obtain ⟨found, hfound, -, hsame⟩ := Client.exists_frame_of_step hpart hcall
        exact ⟨found, hfound, hsame.trans hxid⟩
      · exact ⟨call, hcall, hxid⟩
  · -- a call that had accepted its reply before
    have hold : ∀ call, (source.1.clients i).frames k = some call → found.xid = call.xid →
        call.done = true → call.intret = 0 →
        ∃ d request pdu, .produced d request pdu ∈ serverHistory target.2 ∧
          request.clt = cltNonce setup i ∧ request.xid = found.xid ∧
          Server.IsReply request 0 pdu := by
      intro call hcall hxid hbefore hret
      obtain ⟨d, request, pdu, hmem, hclt, hsame, hreply⟩ := h.reply i k call hcall hbefore hret
      exact ⟨d, request, pdu, hsubset hmem, hclt, by rw [hsame, hxid], hreply⟩
    rcases call_of_step hnext' hfound with ⟨_, _, _, _, _, rfl⟩ |
      ⟨call, hcall, rfl | ⟨part, hlabel, hmoves⟩⟩
    · cases hdone
    · exact hold found hcall rfl hdone hzero
    · have hxid := hmoves.keeps.2
      rcases done_of_moves hmoves with ⟨hsame, hret⟩ | ⟨b, reply, rfl, hdecode, hcalls, hret⟩
      · exact hold call hcall hxid (hsame ▸ hdone) (hret ▸ hzero)
      · obtain ⟨n, conn, -, hconn, rfl, hhead⟩ := isPart_of_clientLabel hlabel
        obtain ⟨request, ret, hreply, hproduced⟩ :=
          haddressed.down n conn hconn b (List.mem_of_mem_head? hhead)
        obtain ⟨hsame, hcode⟩ := header_of_isReply hreply hdecode
        obtain rfl : ret = 0 := by rw [← hcode, ← hret, hzero]
        obtain ⟨d, hmem, hclt⟩ := hproduced rfl
        obtain ⟨other, hother, hotherXid⟩ := h.calls _ _ k hcalls
        obtain rfl := Option.some.inj (hcall.symm.trans hother)
        exact ⟨d, request, b, hsubset hmem, hclt, by rw [hxid, hotherXid, hsame], hreply⟩

/-- Without freed buffers, a call that has accepted the return code zero has been
answered by a handler. -/
theorem accepted_of_run {setup : Setup σ} {labels : List Label} {reached : Net σ × List Event}
    (hrun : (logged setup).Run
      (fun source label => onServer Server.noUndercut source label = true) labels reached) :
    Issued reached ∧ Addressed setup reached ∧ Accepted setup reached := by
  refine hrun.invariant
    (fun reached => Issued reached ∧ Addressed setup reached ∧ Accepted setup reached)
    ⟨issued_start setup, addressed_start setup, accepted_start setup⟩ ?_
  rintro labels source label target hprior ⟨hissued, haddressed, haccepted⟩ hguard hstep
  have htarget := hprior.snoc hguard hstep
  have hrestart : restarts label = false := by
    simpa using (Bool.and_eq_true_iff.mp hguard).1
  obtain ⟨_, hserver⟩ := exists_server_run hprior
  obtain ⟨_, hserver'⟩ := exists_server_run htarget
  exact ⟨hissued.step hstep,
    haddressed.step hissued (Server.acted_of_run hserver) hrestart hstep
      (Server.acted_of_run hserver') (Server.buffers_of_run hserver').2.2,
    haccepted.step haddressed hstep⟩

end YfsLab.Rpc.Net
