/-
# Requests that are executed once

Lock clients with any number of threads. A call that returns in time has been answered, and
the lock server executes each request once, however many copies of it arrive. So a step of
the system changes the ledger only where it answers a request: it grants a free lock to an
`acquire`, or gives back the lock of a `release`.

This takes a server that neither checks late copies nor frees replies that are still to be
sent, and clients whose xids have not gone around.
-/

import YfsLab.Lock.EndToEnd
import YfsLab.Rpc.Transparency

namespace YfsLab.Lock

open BigEndian Rpc Transition Wire

variable {nonce : ClientId → UInt32} {srvNonce : UInt32}

/-! ## What the system has established -/

/-- Has the server produced a reply to this request? -/
def replied (w : Net State × List Net.Event) (request : Request) : Bool :=
  Server.answered (Net.serverHistory w.2) request

theorem replied_iff {w : Net State × List Net.Event} {request : Request} :
    replied w request = true ↔ ∃ d pdu, .produced d request pdu ∈ Net.serverHistory w.2 :=
  Server.answered_iff

/-- The clients that have made calls have their nonces for themselves, and none of them has
made 2^32 calls. -/
structure Fits (nonce : ClientId → UInt32) (history : List Net.Event) : Prop where
  own : ∀ i k request j l other, .issued i k request ∈ history → .issued j l other ∈ history →
    nonce i = nonce j → i = j
  few : ∀ i, (Net.callsOf i history).length < 2 ^ 32

theorem Fits.ownNonce {history : List Net.Event} (h : Fits nonce history) {i : ClientId}
    {k : CallId} {request : Request} (hissued : .issued i k request ∈ history) :
    Net.OwnNonce (lockSetup nonce srvNonce) i history :=
  fun j l other hmem hsame => h.own j l other i k request hmem hissued hsame

/-- The handlers of the lock server, without a word about what they return. -/
theorem lockService_meets : lockService.Meets (fun _ _ _ => True) fun _ _ => True where
  enter _ := ⟨fun _ _ => trivial, fun _ => trivial, fun _ _ _ _ => trivial⟩
  resume _ _ := ⟨fun _ _ => trivial, fun _ => trivial, fun _ _ _ _ => trivial⟩
  stir _ _ _ _ := trivial

/-- What the runs of lock clients keep, whatever the number of their threads. -/
structure Established (nonce : ClientId → UInt32) (w : Net State × List Net.Event) : Prop where
  issued : Net.Issued w
  clt : ∀ i k request, .issued i k request ∈ w.2 → request.clt = nonce i
  frame : ∀ i k request, .issued i k request ∈ w.2 →
    ∃ call, (w.1.clients i).frames k = some call ∧ call.request = request
  unique : ∀ i k j l request, .issued i k request ∈ w.2 → .issued j l request ∈ w.2 →
    i = j ∧ k = l
  produced : ∀ request, replied w request = true → ∃ i k, .issued i k request ∈ w.2
  reply : ∀ i k call ret, (w.1.clients i).frames k = some call → call.result = some ret →
    ret = RpcConst.timeoutFailure ∨
      ∃ d pdu, .produced d call.request pdu ∈ Net.serverHistory w.2 ∧
        Server.IsReply call.request ret pdu ∧ call.un = takenIn pdu
  bind : ∀ i k call ret, (w.1.clients i).frames k = some call →
    call.request.proc = RpcConst.bind → call.request.args = be32 0 →
    call.result = some ret → ret = RpcConst.timeoutFailure ∨ ∃ found, call.boundTo = some found

/-- `bind` delivers the nonce of the server. -/
theorem boundTo_of_comesTo {allows : Request → Outcome → Prop} {call : Call} {ret : Int32}
    (hcomes : Net.ComesTo srvNonce allows call ret)
    (hproc : call.request.proc = RpcConst.bind) (hargs : call.request.args = be32 0)
    (hret : call.result = some ret) : call.boundTo = some srvNonce := by
  obtain ⟨outcome, pdu, hmakes, rfl, htells, hun⟩ := hcomes
  have hread : call.request.arguments [.int] = some (some ((0 : Int32), ())) := by
    apply Request.arguments_of_args hargs
    rw [hargs]
    decide
  rw [Server.Makes, if_pos hproc, rpcbind, h1, hread] at hmakes
  obtain rfl := Option.some.inj hmakes
  have hvalue : callM .lp64 .int 0 (takenIn pdu) (0 : Int32) =
      some ((0, srvNonce.toInt32) : Int32 × Int32) := by
    apply callM_takenIn (Int32.le_refl 0) htells
    show rpcHeaderSz + 4 < 2 ^ 31
    decide
  rw [Call.boundTo, hret, Option.getD_some, hun, hvalue]
  simp

theorem established_of_run {parts : List Net.Label} {w : Net State × List Net.Event}
    (hrun : (Net.logged (lockSetup nonce srvNonce)).Run
      (fun source part => Net.onServer Net.calm source part = true) parts w)
    (hfits : Fits nonce w.2) : Established nonce w := by
  have hintact := hrun.mono fun _ _ => Net.onServer_mono fun _ _ hcalm =>
    (Bool.and_eq_true_iff.mp hcalm).2
  obtain ⟨hissued, haddressed, haccepted⟩ := Net.accepted_of_run hintact
  -- a call of a client is one of a client with a nonce of its own
  have hserved : ∀ i k call, (w.1.clients i).frames k = some call →
      Net.OwnNonce (lockSetup nonce srvNonce) i w.2 ∧
        Net.Served (lockSetup nonce srvNonce) i w := by
    intro i k call hcall
    have hown : Net.OwnNonce (lockSetup nonce srvNonce) i w.2 :=
      hfits.ownNonce (hissued.call_issued i k call hcall)
    exact ⟨hown, Net.served_of_run lockService_meets hintact hown (hfits.few i)⟩
  refine ⟨hissued, haddressed.issued, fun i k request hmem => Net.frame_of_issued hrun hmem,
    ?_, ?_, ?_, ?_⟩
  · intro i k j l request hi hj
    have hnonce : nonce i = nonce j :=
      (haddressed.issued i k request hi).symm.trans (haddressed.issued j l request hj)
    obtain rfl := hfits.own i k request j l request hi hj hnonce
    obtain ⟨call, hcall, hrequest⟩ := Net.frame_of_issued hrun hi
    obtain ⟨other, hother, hsame⟩ := Net.frame_of_issued hrun hj
    have hxid : call.xid = other.xid := by
      rw [← haccepted.xid i k call hcall, ← haccepted.xid i l other hother, hrequest, hsame]
    obtain ⟨_, history, hclient, hlength⟩ := Net.exists_client_run hrun i
    have hrouted := Client.routed_of_run hclient (hlength.trans_le (hfits.few i).le)
    exact ⟨rfl, hrouted.frame_distinct k l call other hcall hother hxid⟩
  · intro request hreplied
    obtain ⟨d, pdu, hmem⟩ := replied_iff.mp hreplied
    exact Net.produced_issued_of_run hrun hmem
  · intro i k call ret hcall hret
    obtain ⟨hown, hserved⟩ := hserved i k call hcall
    exact (hserved.producedReply hintact hown (hfits.few i) hcall hret).imp_left And.right
  · intro i k call ret hcall hproc hargs hret
    obtain ⟨hown, hserved⟩ := hserved i k call hcall
    rcases hserved.comesTo lockService_meets hintact hown (hfits.few i) hcall hret with
      ⟨-, htimeout⟩ | hcomes
    · exact .inl htimeout
    · exact .inr ⟨_, boundTo_of_comesTo hcomes hproc hargs hret⟩

/-- `call_m` passes a timeout on. -/
theorem callM_timeoutFailure (un : Unmarshall) :
    callM .lp64 .int RpcConst.timeoutFailure un (0 : Int32) =
      some ((RpcConst.timeoutFailure, 0) : Int32 × Int32) :=
  if_pos (by decide)

/-- A call that returns `OK` has been answered. -/
theorem replied_of_ok {w : Net State × List Net.Event} (hestablished : Established nonce w)
    {i : ClientId} {k : CallId} {call : Call} {ret : Int32} {res : Int32 × Int32}
    (hframe : (w.1.clients i).frames k = some call) (hret : call.result = some ret)
    (hres : callM .lp64 .int ret call.un (0 : Int32) = some res) (hok : res.1 = 0) :
    replied w call.request = true := by
  rcases hestablished.reply i k call ret hframe hret with rfl | ⟨d, pdu, hmem, -⟩
  · obtain rfl := Option.some.inj ((callM_timeoutFailure call.un).symm.trans hres)
    cases hok
  · exact replied_iff.mpr ⟨d, pdu, hmem⟩

/-! ## The requests of lock clients -/

theorem lid_of_isCall {proc : Int32} {lid other : LockId} {request : Request}
    (hcall : isCall proc lid request = true) (hother : isCall proc other request = true) :
    lid = other := by
  have hread := lockArguments_eq (args_of_isCall hcall).2
  rw [lockArguments_eq (args_of_isCall hother).2] at hread
  cases hread
  rfl

/-- The requests of lock clients. -/
def FromClient (request : Request) : Prop :=
  (request.proc = RpcConst.bind ∧ request.args = be32 0) ∨
    ∃ lid, isCall LockProtocol.acquire lid request = true ∨
      isCall LockProtocol.release lid request = true

/-- The methods can read what the threads send. -/
theorem FromClient.read {request : Request} (h : FromClient request)
    (hrefused : request.proc = RpcConst.bind ∨ lockArguments request = some none) :
    request.proc = RpcConst.bind := by
  have hreads : ∀ {lid : LockId}, request.args = lockArgs request.clt lid →
      lockArguments request ≠ some none := by
    intro lid hargs hnone
    rw [lockArguments_eq hargs] at hnone
    cases hnone
  rcases hrefused with hbind | hnone
  · exact hbind
  · rcases h with ⟨hbind, -⟩ | ⟨lid, hacquire | hrelease⟩
    · exact hbind
    · exact absurd hnone (hreads (args_of_isCall hacquire).2)
    · exact absurd hnone (hreads (args_of_isCall hrelease).2)

/-- The call of `bind` is that of the constructor. -/
theorem FromClient.args_of_bind {request : Request} (h : FromClient request)
    (hbind : request.proc = RpcConst.bind) : request.args = be32 0 := by
  rcases h with ⟨-, hargs⟩ | ⟨lid, hacquire | hrelease⟩
  · exact hargs
  · have hother := (args_of_isCall hacquire).1.symm.trans hbind
    cases hother
  · have hother := (args_of_isCall hrelease).1.symm.trans hbind
    cases hother

/-! ## Calls that begin -/

/-- A request that has been answered stays so. -/
theorem replied_of_step {setup : Setup State} {source target : Net State × List Net.Event}
    {part : Net.Label} (hstep : (Net.logged setup).step source part = some target)
    {request : Request} (hreplied : replied source request = true) :
    replied target request = true := by
  obtain ⟨-, hlog⟩ := System.recorded_step_eq_some.mp hstep
  rw [replied, hlog, Net.serverHistory_append, Server.answered_append]
  exact Bool.or_eq_true_iff.mpr (.inl hreplied)

theorem subset_of_step {setup : Setup State} {source target : Net State × List Net.Event}
    {part : Net.Label} (hstep : (Net.logged setup).step source part = some target) :
    source.2 ⊆ target.2 := by
  obtain ⟨-, hlog⟩ := System.recorded_step_eq_some.mp hstep
  rw [hlog]
  exact List.subset_append_left _ _

theorem isCall_request (c : Client) (proc : Int32) (lid : LockId) :
    isCall proc lid (c.request proc (lockArgs c.cltNonce lid)) = true := by
  simp [isCall, Client.request, Request.proc, Request.clt]

/-- The request of a call that a step begins. -/
theorem issued_of_start {setup : Setup State} {source target : Net State × List Net.Event}
    {i : ClientId} {k : CallId} {proc : Int32} {args : Bytes}
    (hstep : (Net.logged setup).step source (.start i k proc args) = some target)
    (hrefuses : (source.1.clients i).refuses proc = false) :
    .issued i k ((source.1.clients i).request proc args) ∈ target.2 := by
  obtain ⟨-, hlog⟩ := System.recorded_step_eq_some.mp hstep
  rw [hlog]
  apply List.mem_append_right
  apply Net.clientEvents_subset rfl
  simp [Net.clientEvents, hrefuses]

/-- A call has a number of its own. -/
theorem frames_of_start {setup : Setup State} {source target : Net State × List Net.Event}
    {i : ClientId} {k : CallId} {proc : Int32} {args : Bytes}
    (hstep : (Net.logged setup).step source (.start i k proc args) = some target) :
    (source.1.clients i).frames k = none := by
  obtain ⟨hnext, -⟩ := System.recorded_step_eq_some.mp hstep
  obtain ⟨c, hc, -⟩ := Net.clientStep_eq_some.mp hnext
  obtain ⟨hnew, -⟩ := Option.ite_none_right_eq_some.mp hc
  simpa using hnew

/-- A call that has just begun has not been answered. -/
theorem not_replied_of_start {setup : Setup State} {source target : Net State × List Net.Event}
    {i : ClientId} {k : CallId} {proc : Int32} {args : Bytes}
    (hestablished : Established nonce source) (hnext : Established nonce target)
    (hstep : (Net.logged setup).step source (.start i k proc args) = some target)
    {request : Request} (hissued : .issued i k request ∈ target.2) :
    replied target request = false := by
  by_contra hanswered
  have hreplied : replied source request = true := by
    obtain ⟨-, hlog⟩ := System.recorded_step_eq_some.mp hstep
    obtain ⟨d, pdu, hmem⟩ := replied_iff.mp (Bool.not_eq_false _ ▸ hanswered)
    rcases Net.mem_serverHistory_of_step hlog hmem with hold | ⟨_, hlabel, -⟩
    · exact replied_iff.mpr ⟨d, pdu, hold⟩
    · cases hlabel
  obtain ⟨j, l, hold⟩ := hestablished.produced request hreplied
  obtain ⟨rfl, rfl⟩ := hnext.unique _ _ _ _ request (subset_of_step hstep hold) hissued
  obtain ⟨call, hframe, -⟩ := hestablished.frame j l request hold
  rw [frames_of_start hstep] at hframe
  cases hframe

/-! ## What a step of the system does -/

/-- The handler of this request has returned with this reply, and no other handler has. -/
def Adds (source target : Net State × List Net.Event) (request : Request) (pdu : Bytes) : Prop :=
  ∃ d, ∀ e other bytes, .produced e other bytes ∈ Net.serverHistory target.2 ↔
    .produced e other bytes ∈ Net.serverHistory source.2 ∨
      (e = d ∧ other = request ∧ bytes = pdu)

theorem Adds.replied_eq {source target : Net State × List Net.Event} {request : Request}
    {pdu : Bytes} (h : Adds source target request pdu) (other : Request) :
    replied target other = (replied source other || other == request) := by
  obtain ⟨d, hadds⟩ := h
  rw [Bool.eq_iff_iff, Bool.or_eq_true, replied_iff, replied_iff, beq_iff_eq]
  constructor
  · rintro ⟨e, bytes, hmem⟩
    rcases (hadds e other bytes).mp hmem with hold | ⟨-, hsame, -⟩
    · exact .inl ⟨e, bytes, hold⟩
    · exact .inr hsame
  · rintro (⟨e, bytes, hold⟩ | rfl)
    · exact ⟨e, bytes, (hadds e other bytes).mpr (.inl hold)⟩
    · exact ⟨d, pdu, (hadds d other pdu).mpr (.inr ⟨rfl, rfl, rfl⟩)⟩

/-- What a step does to the ledger and to the replies: neither changes, apart from the
replies to `bind`; or an `acquire` gets a free lock and is answered, or a `release` gives
its lock back and is answered. -/
inductive Effect (source target : Net State × List Net.Event) : Prop
  | quiet (hledger : ledger target.1.server = ledger source.1.server)
      (hproduced : ∀ d request pdu, .produced d request pdu ∈ Net.serverHistory target.2 →
        .produced d request pdu ∈ Net.serverHistory source.2 ∨ request.proc = RpcConst.bind)
  | acquired {i : ClientId} {k : CallId} {request : Request} {lid : LockId} {r : Int32}
      {pdu : Bytes} (hissued : .issued i k request ∈ source.2)
      (hcall : isCall LockProtocol.acquire lid request = true)
      (hopen : replied source request = false) (hadds : Adds source target request pdu)
      (htells : Server.Tells request (answer .ok r) pdu)
      (hfree : ledger source.1.server lid = none)
      (hledger : ledger target.1.server =
        Function.update (ledger source.1.server) lid (some request.clt.toInt32))
  | released {i : ClientId} {k : CallId} {request : Request} {lid : LockId} {r : Int32}
      {pdu : Bytes} (hissued : .issued i k request ∈ source.2)
      (hcall : isCall LockProtocol.release lid request = true)
      (hopen : replied source request = false) (hadds : Adds source target request pdu)
      (htells : Server.Tells request (answer .ok r) pdu)
      (hledger : ledger target.1.server = Function.update (ledger source.1.server) lid none)

/-- A section of a handler. It works on a request that has not been answered, and whoever
sends a `release` holds the lock. -/
theorem effect_of_handles {source target : Net State × List Net.Event} {label : Server.Label}
    (hwaits : Waits source.1.server)
    (hsection : source.1.server.step lockService label = some target.1.server)
    (hhistory : Net.serverHistory target.2 = Net.serverHistory source.2 ++
      Server.events lockService source.1.server label)
    {d : DispatchId} {f : Dispatch} {area : Area} {result : State × Option Outcome}
    (hf : source.1.server.frames d = some f)
    (hhandles : Server.Handles lockService source.1.server d f area result label)
    {i : ClientId} {k : CallId} (hissued : .issued i k f.request ∈ source.2)
    (hfrom : FromClient f.request) (hopen : replied source f.request = false)
    (howns : ∀ lid, isCall LockProtocol.release lid f.request = true →
      ledger source.1.server lid = some f.request.clt.toInt32) : Effect source target := by
  have hledger : ledger target.1.server = result.1.server.holder := by
    rw [ledger, Server.service_of_handles hf hhandles hsection]
  have hproduced : ∀ e other bytes, .produced e other bytes ∈ Net.serverHistory target.2 ↔
      .produced e other bytes ∈ Net.serverHistory source.2 ∨ ∃ outcome,
        result.2 = some outcome ∧ e = d ∧ other = f.request ∧
          bytes = replyPdu (List.ofFn area) ⟨f.request.header.xid, outcome.ret⟩
            outcome.result := by
    intro e other bytes
    rw [hhistory, List.mem_append, Server.mem_produced_of_handles hf hhandles]
  -- a handler of `bind`, and one that has not returned
  have hquiet : result.1.server.holder = ledger source.1.server →
      (∀ outcome, result.2 = some outcome → f.request.proc = RpcConst.bind) →
      Effect source target := by
    intro hsame hbind
    apply Effect.quiet (hledger.trans hsame)
    intro e other bytes hmem
    rcases (hproduced e other bytes).mp hmem with hold | ⟨outcome, hout, -, rfl, -⟩
    · exact .inl hold
    · exact .inr (hbind outcome hout)
  -- one that has returned
  have hadds : ∀ r, result.2 = some (answer .ok r) → Adds source target f.request
      (replyPdu (List.ofFn area) ⟨f.request.header.xid, (answer .ok r).ret⟩
        (answer .ok r).result) := by
    intro r hout
    refine ⟨d, fun e other bytes => ?_⟩
    rw [hproduced, hout]
    simp
  rcases called_of_handles hwaits hf hhandles with ⟨hsame, -, hrefused, -⟩ |
    ⟨args, hargs, hcalled⟩
  · apply hquiet (by rw [hsame]; rfl)
    exact fun _ _ => hfrom.read hrefused
  have hread : ∀ lid, f.request.args = lockArgs f.request.clt lid →
      args = (f.request.clt.toInt32, lid) := by
    intro lid hencode
    rw [lockArguments_eq hencode] at hargs
    exact (Option.some.inj (Option.some.inj hargs)).symm
  rcases hfrom with ⟨hbind, -⟩ | ⟨lid, hacquire | hrelease⟩
  · apply hquiet _ fun _ _ => hbind
    rcases hcalled.ledger with hsame | ⟨hproc, -⟩ | ⟨hproc, -⟩
    · exact hsame
    · rw [hbind] at hproc
      cases hproc
    · rw [hbind] at hproc
      cases hproc
  · obtain ⟨hproc, hencode⟩ := args_of_isCall hacquire
    obtain rfl := hread lid hencode
    rcases hcalled.acquires hproc with ⟨hnone, hsame⟩ | ⟨r, hout, hfree, hgranted⟩
    · apply hquiet hsame
      intro outcome hout
      rw [hnone] at hout
      cases hout
    · exact .acquired hissued hacquire hopen (hadds r hout) ⟨area, rfl⟩ hfree
        (hledger.trans hgranted)
  · obtain ⟨hproc, hencode⟩ := args_of_isCall hrelease
    obtain rfl := hread lid hencode
    obtain ⟨r, hout, hreturned⟩ := hcalled.releases hproc (howns lid hrelease)
    exact .released hissued hrelease hopen (hadds r hout) ⟨area, rfl⟩
      (hledger.trans hreturned)

theorem effect_of_step {parts : List Net.Label} {source target : Net State × List Net.Event}
    {part : Net.Label}
    (hrun : (Net.logged (lockSetup nonce srvNonce)).Run
      (fun source part => Net.onServer Net.calm source part = true) parts source)
    (hguard : Net.onServer Net.calm source part = true)
    (hstep : (Net.logged (lockSetup nonce srvNonce)).step source part = some target)
    (hfrom : ∀ i k request, .issued i k request ∈ source.2 → FromClient request ∧ request.clt ≠ 0)
    (howns : ∀ i k request lid, .issued i k request ∈ source.2 →
      isCall LockProtocol.release lid request = true → replied source request = false →
      ledger source.1.server lid = some request.clt.toInt32) : Effect source target := by
  obtain ⟨hnext, hlog⟩ := System.recorded_step_eq_some.mp hstep
  have hnext' : source.1.step lockService part = some target.1 := hnext
  have hrestart : Net.restarts part = false := by
    simpa using (Bool.and_eq_true_iff.mp hguard).1
  rcases Net.server_of_step hnext' hrestart with ⟨hnone, hsame⟩ | ⟨label, hlabel, hsection⟩
  · apply Effect.quiet (by rw [hsame])
    intro d request pdu hmem
    rcases Net.mem_serverHistory_of_step hlog hmem with hold | ⟨label, hlabel, -⟩
    · exact .inl hold
    · rw [hnone] at hlabel
      cases hlabel
  have hhistory : Net.serverHistory target.2 = Net.serverHistory source.2 ++
      Server.events lockService source.1.server label := by
    rw [hlog, Net.serverHistory_append, Net.serverHistory_events, hlabel]
    exact congrArg _ (List.flatMap_singleton ..)
  obtain ⟨_, hserver⟩ := Net.exists_server_run hrun
  by_cases hhandler : ∃ d f area result, source.1.server.frames d = some f ∧
      Server.Handles lockService source.1.server d f area result label
  · obtain ⟨d, f, area, result, hf, hhandles⟩ := hhandler
    have hearly : Net.early f.stage = true := by
      rcases hhandles.stage with hstage | hstage <;> rw [hstage] <;> rfl
    obtain ⟨conn, k, -, hissued⟩ := (Net.issued_of_run hrun).dispatch_issued d f hf hearly
    obtain ⟨hfrom, hclt⟩ := hfrom conn.owner k f.request hissued
    have hopen : replied source f.request = false := by
      have hnoLateCopy := hserver.mono fun _ _ hcalm => (Bool.and_eq_true_iff.mp hcalm).1
      have hlogged : (Server.logged lockService srvNonce).step
          (source.1.server, Net.serverHistory source.2) label =
            some (target.1.server, Net.serverHistory target.2) :=
        System.recorded_step_eq_some.mpr ⟨hsection, hhistory⟩
      have hall := (Bool.and_eq_true_iff.mp hguard).2
      rw [hlabel] at hall
      exact Server.not_answered_of_handles hnoLateCopy (Bool.and_eq_true_iff.mp hall).1 hlogged
        hf hhandles hclt
    exact effect_of_handles (waits_of_run hserver) hsection hhistory hf hhandles hissued hfrom
      hopen fun lid hrelease => howns conn.owner k f.request lid hissued hrelease hopen
  · apply Effect.quiet
    · rcases Server.service_of_section (Server.section_of_step hsection) with hsame |
        ⟨d, f, area, result, hf, hhandles, -⟩ | ⟨choice, hstir⟩
      · rw [ledger, hsame]
        rfl
      · exact absurd ⟨d, f, area, result, hf, hhandles⟩ hhandler
      · exact (stir_spec hstir).1
    · intro d request pdu hmem
      rw [hhistory] at hmem
      rcases List.mem_append.mp hmem with hold | hnew
      · exact .inl hold
      · obtain ⟨f, area, outcome, hf, -, hhandles, -⟩ := Server.handles_of_produced hsection hnew
        exact absurd ⟨d, f, area, _, hf, hhandles⟩ hhandler

/-! ## Time-outs -/

/-- A call has timed out. -/
def TimedOut (w : Net State × List Net.Event) : Prop :=
  ∃ i k call, (w.1.clients i).frames k = some call ∧
    call.result = some RpcConst.timeoutFailure

/-- What a call has returned it keeps. -/
theorem result_of_moves {c : Client} {k : CallId} {call found : Call} {part : Client.Label}
    (hmoves : Client.Moves c k call part found) {ret : Int32} (hret : call.result = some ret) :
    found.result = some ret := by
  cases hmoves with
  | same => exact hret
  | refconn hphase | sent hphase | woken hphase | expired hphase | retried hphase
  | erased hphase | finished hphase => simp [Call.result, hphase] at hret
  | accepted =>
      unfold Call.accept
      split_ifs
      · exact hret
      · exact hret
  | bound =>
      have hcode : call.result.getD 0 = ret := by rw [hret, Option.getD_some]
      exact congrArg some hcode

theorem TimedOut.step {setup : Setup State} {source target : Net State × List Net.Event}
    {part : Net.Label} (h : TimedOut source)
    (hstep : (Net.logged setup).step source part = some target) : TimedOut target := by
  obtain ⟨i, k, call, hcall, hret⟩ := h
  obtain ⟨hnext, -⟩ := System.recorded_step_eq_some.mp hstep
  have hnext' : source.1.step setup.app part = some target.1 := hnext
  obtain ⟨found, hfound, -⟩ := Net.exists_call_of_step hnext' hcall
  refine ⟨i, k, found, hfound, ?_⟩
  rcases Net.call_of_step hnext' hfound with ⟨_, _, _, _, hnone, _⟩ |
    ⟨old, hold, rfl | ⟨part, -, hmoves⟩⟩
  · rw [hcall] at hnone
    cases hnone
  · rwa [← Option.some.inj (hcall.symm.trans hold)]
  · obtain rfl := Option.some.inj (hcall.symm.trans hold)
    exact result_of_moves hmoves hret

/-! ## Clients that are bound -/

/-- A client that is bound stays bound. -/
theorem bindDone_of_step {setup : Setup State} {source target : Net State × List Net.Event}
    {part : Net.Label} (hstep : (Net.logged setup).step source part = some target)
    {i : ClientId} (hbound : (source.1.clients i).bindDone = true) :
    (target.1.clients i).bindDone = true := by
  obtain ⟨hnext, -⟩ := System.recorded_step_eq_some.mp hstep
  have hnext' : source.1.step setup.app part = some target.1 := hnext
  rcases Net.client_of_step hnext' i with hsame | ⟨label, -, hsection⟩
  · rwa [hsame]
  · generalize target.1.clients i = c at hsection ⊢
    cases Client.section_of_step hsection with
    | bound => rfl
    | refused | started | connected | moved | erased | dropped | noted | accepted => exact hbound

/-- The client has been bound, unless its call has timed out. -/
def BoundOr (w : Net State × List Net.Event) (i : ClientId) : Prop :=
  (w.1.clients i).bindDone = true ∨ TimedOut w

theorem BoundOr.step {setup : Setup State} {source target : Net State × List Net.Event}
    {part : Net.Label} {i : ClientId} (h : BoundOr source i)
    (hstep : (Net.logged setup).step source part = some target) : BoundOr target i :=
  h.imp (bindDone_of_step hstep) fun htimeout => htimeout.step hstep

/-- A call of `bind` that has returned binds the client. -/
theorem boundOr_of_step {setup : Setup State} {source target : Net State × List Net.Event}
    {part : Net.Label} (hestablished : Established nonce source)
    (hfrom : ∀ i k request, .issued i k request ∈ source.2 → FromClient request)
    (h : ∀ i k call ret, (source.1.clients i).frames k = some call → call.phase = .bound ret →
      BoundOr source i)
    (hstep : (Net.logged setup).step source part = some target) {i : ClientId} {k : CallId}
    {found : Call} {ret : Int32} (hfound : (target.1.clients i).frames k = some found)
    (hphase : found.phase = .bound ret) : BoundOr target i := by
  obtain ⟨hnext, -⟩ := System.recorded_step_eq_some.mp hstep
  have hnext' : source.1.step setup.app part = some target.1 := hnext
  rcases Net.call_of_step hnext' hfound with ⟨_, _, _, _, _, rfl⟩ |
    ⟨call, hcall, rfl | ⟨label, hlabel, hmoves⟩⟩
  · cases hphase
  · exact (h i k found ret hcall hphase).step hstep
  have hkept : call.phase = found.phase → BoundOr target i := fun hsame =>
    (h i k call ret hcall (hsame.trans hphase)).step hstep
  cases hmoves with
  | same => exact hkept rfl
  | accepted =>
      apply hkept
      unfold Call.accept
      split_ifs <;> rfl
  | sent =>
      unfold Call.loop at hphase
      split_ifs at hphase
  | retried =>
      unfold Call.retry Call.loop at hphase
      split_ifs at hphase
  | refconn | woken | expired | erased | finished => cases hphase
  | bound hbinds =>
      obtain rfl := Net.isPart_of_clientLabel hlabel
      obtain ⟨hproc, hreturned⟩ := Bool.and_eq_true_iff.mp hbinds
      have hbind : call.request.proc = RpcConst.bind := beq_iff_eq.mp hproc
      have hissued := hestablished.issued.call_issued i k call hcall
      have hargs : call.request.args = be32 0 := (hfrom i k _ hissued).args_of_bind hbind
      obtain ⟨code, hcode⟩ : ∃ code, call.result = some code := by
        unfold Call.result
        split at hreturned
        · next code hcode => exact ⟨code, by rw [hcode]⟩
        · cases hreturned
      rcases hestablished.bind i k call code hcall hbind hargs hcode with rfl | ⟨found, hto⟩
      · have htimeout : TimedOut source := ⟨i, k, call, hcall, hcode⟩
        exact .inr (htimeout.step hstep)
      · left
        obtain ⟨c, hc, hclients⟩ := Net.clientStep_eq_some.mp hnext'
        obtain ⟨other, hother, -, rfl⟩ := Client.onCall_eq_some.mp hc
        obtain rfl := Option.some.inj (hcall.symm.trans hother)
        rw [← hclients, Client.bind, hto]
        simp [Net.putClient]

end YfsLab.Lock
