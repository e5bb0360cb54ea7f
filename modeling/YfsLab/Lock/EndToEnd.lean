/-
# Lock clients and the lock server, end to end

A `lock_client` holds a lock from the moment its call of `acquire` returns `OK` until it
issues the call of `release`. In between, the ledger of the lock server names this client,
as long as nothing is executed that the client does not wait for: the server has granted
the lock before the reply was sent, every `release` that the client has issued before has
been executed already, and nobody else can give the lock back.

A late copy of a `release` is executed once more, and frees a lock that the client has
acquired again since.
-/

import YfsLab.Lock.Service
import YfsLab.Rpc.Sequential

namespace YfsLab.Lock

open BigEndian Ownership Rpc Transition Wire

/-! ## Who holds a lock -/

/-- The server of `lock_smain`, and `lock_client`s with these nonces. -/
def lockSetup (nonce : ClientId → UInt32) (srvNonce : UInt32) : Setup State where
  nonce
  retrans _ := true
  srvNonce
  app := lockService

/-- A request for this procedure and lock, in the name of the client that sends it. -/
def isCall (proc : Int32) (lid : LockId) (request : Request) : Bool :=
  request.proc == proc && request.args == lockArgs request.clt lid

/-- Does a client hold a lock? It does from the moment its `acquire` returns `OK` until
it issues a `release`. -/
def holds (history : List Net.Event) (i : ClientId) (lid : LockId) : Bool :=
  history.foldl (fun held event =>
    match event with
    | .returned j _ call =>
        held || (j == i && isCall LockProtocol.acquire lid call.request && call.result == some 0)
    | .issued j _ request => held && !(j == i && isCall LockProtocol.release lid request)
    | _ => held) false

/-- The calls of a `lock_client`: `bind`, and then its three methods; and it releases
only what it holds. -/
def ofLockClient (source : Net State × List Net.Event) : Net.Label → Bool
  | .start i _ proc args =>
      let request := (source.1.clients i).request proc args
      proc == RpcConst.bind ||
        match lockArguments request with
        | some (some (_, lid)) =>
            isCall LockProtocol.acquire lid request || isCall LockProtocol.stat lid request ||
              isCall LockProtocol.release lid request && holds source.2 i lid
        | _ => false
  | _ => true

/-- The steps of `n` lock clients, each with a single thread, and one server. -/
def lockClients (n : ℕ) (source : Net State × List Net.Event) (label : Net.Label) : Bool :=
  !Net.restarts label && Net.sequential n source label && ofLockClient source label

/-- What makes a client hold a lock after further events. -/
theorem holds_append {history more : List Net.Event} {i : ClientId} {lid : LockId}
    (hholds : holds (history ++ more) i lid = true) :
    (holds history i lid = true ∧ ∀ k request, .issued i k request ∈ more →
      isCall LockProtocol.release lid request = false) ∨
    ∃ k call, .returned i k call ∈ more ∧
      isCall LockProtocol.acquire lid call.request = true ∧ call.result = some 0 := by
  induction more using List.reverseRecOn with
  | nil => exact .inl ⟨by simpa using hholds, by simp⟩
  | append_singleton more event ih =>
      rw [← List.append_assoc, holds, List.foldl_append] at hholds
      have hstay : holds (history ++ more) i lid = true →
          (∀ k request, .issued i k request = event →
            isCall LockProtocol.release lid request = false) →
          (holds history i lid = true ∧ ∀ k request, .issued i k request ∈ more ++ [event] →
            isCall LockProtocol.release lid request = false) ∨
          ∃ k call, .returned i k call ∈ more ++ [event] ∧
            isCall LockProtocol.acquire lid call.request = true ∧ call.result = some 0 := by
        intro hbefore hevent
        rcases ih hbefore with ⟨hold, hnone⟩ | ⟨k, call, hmem, hrest⟩
        · refine .inl ⟨hold, fun k request hmem => ?_⟩
          rcases List.mem_append.mp hmem with hmem | hmem
          · exact hnone k request hmem
          · exact hevent k request (List.mem_singleton.mp hmem)
        · exact .inr ⟨k, call, List.mem_append_left _ hmem, hrest⟩
      cases event with
      | returned j k call =>
          rcases Bool.or_eq_true_iff.mp hholds with hbefore | hnew
          · exact hstay hbefore nofun
          · obtain ⟨⟨rfl, hcall⟩, hresult⟩ :
                (j = i ∧ isCall LockProtocol.acquire lid call.request = true) ∧
                  call.result = some 0 := by simpa using hnew
            exact .inr ⟨k, call, by simp, hcall, hresult⟩
      | issued j k request =>
          obtain ⟨hbefore, hnot⟩ := Bool.and_eq_true_iff.mp hholds
          refine hstay hbefore fun l other heq => ?_
          obtain ⟨rfl, rfl, rfl⟩ := Net.Event.issued.inj heq
          simpa using hnot
      | server | bound | restarted => exact hstay hholds nofun

/-! ## What the parts have established -/

/-- What runs of the clients with the server keep. -/
structure Regular (n : ℕ) (setup : Setup State) (source : Net State × List Net.Event) :
    Prop where
  issued : Net.Issued source
  addressed : Net.Addressed setup source
  accepted : Net.Accepted setup source
  sequential : Net.Sequential n setup source
  waits : Waits source.1.server
  once : ∀ i < n, ∀ xid, (Server.executions (Net.serverHistory source.2)
    (Net.cltNonce setup i) xid).length ≤ 1
  pos : ∀ i xid, i < n → Net.WasExecuted setup source.2 i xid → xid ≠ 0
  produced : ∀ d request pdu, .produced d request pdu ∈ Net.serverHistory source.2 →
    ∃ i k, .issued i k request ∈ source.2
  own : ∀ i k request, .issued i k request ∈ source.2 →
    request.proc = LockProtocol.acquire ∨ request.proc = LockProtocol.release →
    ∃ lid, request.args = lockArgs request.clt lid

/-- The steps of lock clients, and of a server that keeps to its part. -/
def calmLockClients (n : ℕ) (source : Net State × List Net.Event) (label : Net.Label) : Bool :=
  Net.onServer Net.calm source label && lockClients n source label

theorem orderly_of_calmLockClients {n : ℕ} {source : Net State × List Net.Event}
    {label : Net.Label} (hguard : calmLockClients n source label = true) :
    Net.orderly n source label = true := by
  obtain ⟨hcalm, hclients⟩ := Bool.and_eq_true_iff.mp hguard
  obtain ⟨hclients, -⟩ := Bool.and_eq_true_iff.mp hclients
  exact Bool.and_eq_true_iff.mpr ⟨hcalm, (Bool.and_eq_true_iff.mp hclients).2⟩

theorem args_of_isCall {proc : Int32} {lid : LockId} {request : Request}
    (hcall : isCall proc lid request = true) :
    request.proc = proc ∧ request.args = lockArgs request.clt lid := by
  simpa [isCall] using hcall

theorem isCall_of_args {lid : LockId} {request : Request}
    (hargs : request.args = lockArgs request.clt lid) :
    isCall request.proc lid request = true := by
  simp [isCall, hargs]

/-- `lock_client` calls `acquire` and `release` with its own id. -/
theorem args_of_ofLockClient {source : Net State × List Net.Event} {i : ClientId} {k : CallId}
    {proc : Int32} {args : Bytes} (hguard : ofLockClient source (.start i k proc args) = true)
    (hproc : proc = LockProtocol.acquire ∨ proc = LockProtocol.release) :
    ∃ lid, args = lockArgs ((source.1.clients i).request proc args).clt lid := by
  rcases Bool.or_eq_true_iff.mp hguard with hbind | hmethod
  · obtain rfl : proc = RpcConst.bind := by simpa using hbind
    rcases hproc with hproc | hproc <;> cases hproc
  · split at hmethod
    · next clt lid _ =>
        refine ⟨lid, ?_⟩
        rcases Bool.or_eq_true_iff.mp hmethod with hcall | hrelease
        · rcases Bool.or_eq_true_iff.mp hcall with hcall | hcall <;>
            exact (args_of_isCall hcall).2
        · exact (args_of_isCall (Bool.and_eq_true_iff.mp hrelease).1).2
    · cases hmethod

theorem regular_of_run {n : ℕ} {nonce : ClientId → UInt32} {srvNonce : UInt32}
    (hne : ∀ i < n, nonce i ≠ 0) {labels : List Net.Label}
    {reached : Net State × List Net.Event}
    (hrun : (Net.logged (lockSetup nonce srvNonce)).Run
      (fun source label => calmLockClients n source label = true) labels reached) :
    Regular n (lockSetup nonce srvNonce) reached := by
  have horderly := hrun.mono fun _ _ hguard => orderly_of_calmLockClients hguard
  obtain ⟨hissued, haddressed, haccepted⟩ := Net.accepted_of_run
    (horderly.mono fun _ _ hguard => Net.noUndercut_of_orderly hguard)
  have hnoLateCopy := horderly.mono fun _ _ hguard => Net.noLateCopy_of_orderly hguard
  obtain ⟨_, hserver⟩ := Net.exists_server_run hnoLateCopy
  refine ⟨hissued, haddressed, haccepted, Net.sequential_of_run hne horderly,
    waits_of_run hserver, fun i hi xid => Server.length_executions_of_run hserver (hne i hi),
    fun i xid hi => Net.xid_ne_zero_of_run hnoLateCopy (hne i hi),
    fun d request pdu hmem => Net.produced_issued_of_run hrun hmem, ?_⟩
  refine hrun.invariant (fun reached => ∀ i k request, .issued i k request ∈ reached.2 →
    request.proc = LockProtocol.acquire ∨ request.proc = LockProtocol.release →
    ∃ lid, request.args = lockArgs request.clt lid) (fun i k request hmem => by cases hmem) ?_
  intro labels source label target _ h hguard hstep i k request hmem hproc
  obtain ⟨-, hlog⟩ := System.recorded_step_eq_some.mp hstep
  obtain ⟨-, hclient⟩ := Bool.and_eq_true_iff.mp (Bool.and_eq_true_iff.mp hguard).2
  rcases Net.issued_of_step hlog hmem with hold | ⟨proc, args, rfl, -, rfl⟩
  · exact h i k request hold hproc
  · exact args_of_ofLockClient hclient hproc

/-! ## The ledger -/

/-- Every release of this lock that the client has issued has been executed. -/
def Returned (setup : Setup State) (history : List Net.Event) (i : ClientId) (lid : LockId) :
    Prop :=
  ∀ k request, .issued i k request ∈ history →
    isCall LockProtocol.release lid request = true →
    Net.WasExecuted setup history i request.xid

/-- The server has executed a request at most once, so it does not enter the handler of
one that has been executed. -/
theorem not_executed_again {n : ℕ} {setup : Setup State}
    {source target : Net State × List Net.Event} {label : Net.Label}
    (h' : Regular n setup target)
    (hlog : target.2 = source.2 ++ Net.events setup.app source.1 label) {d : DispatchId}
    {choice : ℕ} {area : Area}
    (hlabel : source.1.serverLabel label = some (.enter d choice area)) {f : Dispatch}
    (hf : source.1.server.frames d = some f) {i : ClientId} (hi : i < n)
    (hclt : f.request.clt = Net.cltNonce setup i) :
    ¬ Net.WasExecuted setup source.2 i f.request.xid := by
  rintro ⟨e, hbefore⟩
  have hagain : d ∈ Server.executions (Server.events setup.app source.1.server
      (.enter d choice area)) (Net.cltNonce setup i) f.request.xid :=
    hclt ▸ Server.executions_enter choice area hf
  have honce := h'.once i hi f.request.xid
  rw [hlog, Net.serverHistory_append, Net.serverHistory_events, hlabel, Option.toList_some,
    List.flatMap_singleton, Server.executions_append, List.length_append] at honce
  have := List.length_pos_of_mem hbefore
  have := List.length_pos_of_mem hagain
  omega

theorem toInt32_injective {a b : UInt32} (heq : a.toInt32 = b.toInt32) : a = b := by
  simpa using congrArg Int32.toUInt32 heq

/-- A request of this client has been issued by it. -/
theorem Regular.issuer {n : ℕ} {nonce : ClientId → UInt32} {srvNonce : UInt32}
    {source : Net State × List Net.Event} (h : Regular n (lockSetup nonce srvNonce) source)
    (hinj : ∀ i < n, ∀ j < n, nonce i = nonce j → i = j) {i j : ClientId} {k : CallId}
    {request : Request} (hi : i < n) (hmem : .issued j k request ∈ source.2)
    (hclt : request.clt = nonce i) : j = i :=
  hinj j (h.sequential.member j k request hmem) i hi
    ((h.addressed.issued j k request hmem).symm.trans hclt)

/-- A client whose releases have been executed keeps its lock. -/
theorem ledger_of_step {n : ℕ} {nonce : ClientId → UInt32} {srvNonce : UInt32}
    {source target : Net State × List Net.Event} {label : Net.Label}
    (hinj : ∀ i < n, ∀ j < n, nonce i = nonce j → i = j)
    (h : Regular n (lockSetup nonce srvNonce) source)
    (h' : Regular n (lockSetup nonce srvNonce) target)
    (hrestart : Net.restarts label = false)
    (hstep : (Net.logged (lockSetup nonce srvNonce)).step source label = some target)
    {i : ClientId} {lid : LockId} (hi : i < n)
    (hreturned : Returned (lockSetup nonce srvNonce) source.2 i lid)
    (hledger : ledger source.1.server lid = some (nonce i).toInt32) :
    ledger target.1.server lid = some (nonce i).toInt32 := by
  obtain ⟨hnext, hlog⟩ := System.recorded_step_eq_some.mp hstep
  have hnext' : source.1.step lockService label = some target.1 := hnext
  rcases Net.server_of_step hnext' hrestart with ⟨-, hsame⟩ | ⟨part, hlabel, hpart⟩
  · rw [hsame, hledger]
  rcases ledger_of_section h.waits (Server.section_of_step hpart) with
    hsame | ⟨d, f, args, hf, hargs, ⟨hfree, hgranted⟩ | ⟨hstage, hentered, hproc, howned, hgiven⟩⟩
  · rw [hsame, hledger]
  · by_cases hlid : lid = args.2
    · rw [hlid, hfree] at hledger
      cases hledger
    · rw [hgranted, Function.update_of_ne hlid, hledger]
  · by_cases hlid : lid = args.2
    · -- the release is one of the client's own, and has been executed before
      exfalso
      subst hlid
      obtain ⟨choice, area, rfl⟩ := hentered
      obtain ⟨conn, k, -, hmem⟩ := h.issued.dispatch_issued d f hf (by rw [hstage]; rfl)
      obtain ⟨mine, hmine⟩ := h.own _ k f.request hmem (.inr hproc)
      have hread := lockArguments_eq hmine
      rw [hargs, Option.some.injEq, Option.some.injEq] at hread
      have hclt : f.request.clt = nonce i := by
        refine toInt32_injective ?_
        rw [howned _ hledger, hread]
      obtain rfl : conn.owner = i := h.issuer hinj hi hmem hclt
      have hcall : isCall LockProtocol.release args.2 f.request = true := by
        have hlock : args.2 = mine := by rw [hread]
        rw [hlock, ← hproc]
        exact isCall_of_args hmine
      exact not_executed_again h' hlog hlabel hf hi hclt (hreturned k f.request hmem hcall)
    · rw [hgiven, Function.update_of_ne hlid, hledger]

/-! ## The clients and the ledger agree -/

/-- A client that holds a lock is the one that the ledger names, and so is a client whose
call of `acquire` is still open but has been answered; and what a client holds it has no
release under way for. -/
structure Agrees (n : ℕ) (setup : Setup State) (source : Net State × List Net.Event) :
    Prop where
  member : ∀ i lid, holds source.2 i lid = true → i < n
  returned : ∀ i lid, holds source.2 i lid = true → Returned setup source.2 i lid
  held : ∀ i lid, holds source.2 i lid = true →
    ledger source.1.server lid = some (Net.cltNonce setup i).toInt32
  granted : ∀ i k call lid, (source.1.clients i).frames k = some call → call.result = none →
    isCall LockProtocol.acquire lid call.request = true → ∀ d request pdu,
    .produced d request pdu ∈ Net.serverHistory source.2 →
    request.clt = Net.cltNonce setup i → request.xid = call.request.xid →
    Server.IsReply request 0 pdu →
    ledger source.1.server lid = some (Net.cltNonce setup i).toInt32

theorem agrees_start (n : ℕ) (setup : Setup State) : Agrees n setup (Net.start setup, []) where
  member _ _ hholds := by cases hholds
  returned _ _ hholds := by cases hholds
  held _ _ hholds := by cases hholds
  granted := by simp [Net.start, Net.newClient]

/-- While a call of `acquire` is open, every release that its client has issued has been
executed. -/
theorem Regular.returned_of_open {n : ℕ} {setup : Setup State}
    {source : Net State × List Net.Event} (h : Regular n setup source) {i : ClientId}
    {k : CallId} {call : Call} (hcall : (source.1.clients i).frames k = some call)
    (hopen : call.result = none) {lid : LockId}
    (hacquire : isCall LockProtocol.acquire lid call.request = true) (other : LockId) :
    Returned setup source.2 i other := by
  intro l request hmem hrelease
  refine h.sequential.others i k call hcall hopen l request hmem ?_
  rintro rfl
  obtain ⟨frame, hframe, rfl⟩ := h.sequential.frame i l request hmem
  obtain rfl := Option.some.inj (hcall.symm.trans hframe)
  have hproc := (args_of_isCall hacquire).1.symm.trans (args_of_isCall hrelease).1
  cases hproc

/-- What has been produced has been issued before. -/
theorem Returned.mono {setup : Setup State} {history more : List Net.Event} {i : ClientId}
    {lid : LockId} (h : Returned setup history i lid)
    (hnone : ∀ k request, .issued i k request ∈ more →
      isCall LockProtocol.release lid request = false) :
    Returned setup (history ++ more) i lid := by
  intro k request hmem hrelease
  rcases List.mem_append.mp hmem with hold | hnew
  · exact (h k request hold hrelease).mono
  · rw [hnone k request hnew] at hrelease
    cases hrelease

/-- A call of `acquire` that returns `OK` has been granted. -/
theorem granted_of_finish {n : ℕ} {setup : Setup State}
    {source : Net State × List Net.Event} (h : Regular n setup source)
    (hagrees : Agrees n setup source) {i : ClientId} {k : CallId} {before : Call}
    (hframe : (source.1.clients i).frames k = some before) (hphase : before.phase = .returning)
    {lid : LockId} (hacquire : isCall LockProtocol.acquire lid before.request = true)
    (hzero : before.finish.result = some 0) :
    before.result = none ∧
      ledger source.1.server lid = some (Net.cltNonce setup i).toInt32 := by
  have hopen : before.result = none := by simp [Call.result, hphase]
  have hret : (if before.done then before.intret else RpcConst.timeoutFailure) = 0 :=
    Option.some.inj hzero
  split_ifs at hret with hdone
  · obtain ⟨d, request, pdu, hmem, hclt, hxid, hreply⟩ :=
      h.accepted.reply i k before hframe hdone hret
    rw [← h.accepted.xid i k before hframe] at hxid
    exact ⟨hopen, hagrees.granted i k before lid hframe hopen hacquire d request pdu hmem hclt
      hxid hreply⟩
  · cases hret

/-- The server has granted a lock before it answers the call. -/
theorem granted_of_produced {n : ℕ} {nonce : ClientId → UInt32} {srvNonce : UInt32}
    {source target : Net State × List Net.Event}
    (hinj : ∀ i < n, ∀ j < n, nonce i = nonce j → i = j)
    (h : Regular n (lockSetup nonce srvNonce) source)
    (h' : Regular n (lockSetup nonce srvNonce) target) (hsubset : source.2 ⊆ target.2)
    {part : Server.Label} (hpart : source.1.server.step lockService part = some target.1.server)
    {d : DispatchId} {request : Request} {pdu : Bytes}
    (hmem : .produced d request pdu ∈ Server.events lockService source.1.server part)
    {i : ClientId} {k : CallId} {call : Request} (hcall : .issued i k call ∈ target.2)
    {lid : LockId} (hacquire : isCall LockProtocol.acquire lid call = true)
    (hclt : request.clt = nonce i) (hxid : request.xid = call.xid)
    (hreply : Server.IsReply request 0 pdu) :
    ledger target.1.server lid = some (nonce i).toInt32 := by
  obtain ⟨f, area, outcome, hf, rfl, hhandles, rfl⟩ := Server.handles_of_produced hpart hmem
  have hearly : Net.early f.stage = true := by
    rcases hhandles.stage with hstage | hstage <;> rw [hstage] <;> rfl
  obtain ⟨conn, l, -, hissued⟩ := h.issued.dispatch_issued d f hf hearly
  have hi : i < n := h'.sequential.member i k call hcall
  obtain rfl : conn.owner = i := h.issuer hinj hi hissued hclt
  obtain rfl : f.request = call :=
    h'.sequential.unique _ l f.request k call (hsubset hissued) hcall hxid
  obtain ⟨hproc, hargs⟩ := args_of_isCall hacquire
  have hzero : outcome.ret = 0 :=
    (Net.header_of_isReply hreply (decodeReply_replyPdu List.length_ofFn _ _)).2
  rcases called_of_handles h.waits hf hhandles with ⟨-, -, -, hrefused⟩ |
      ⟨args, hread, hcalled⟩
  · exact absurd hzero (hrefused outcome rfl hproc)
  · rw [lockArguments_eq hargs, Option.some.injEq, Option.some.injEq] at hread
    have hgranted := hcalled.granted hproc outcome rfl
    rw [← hread, hclt] at hgranted
    exact hgranted

/-- What the ledger says about the open calls of `acquire` after a step. -/
theorem granted_of_step {n : ℕ} {nonce : ClientId → UInt32} {srvNonce : UInt32}
    {source target : Net State × List Net.Event} {label : Net.Label}
    (hinj : ∀ i < n, ∀ j < n, nonce i = nonce j → i = j)
    (h : Regular n (lockSetup nonce srvNonce) source)
    (h' : Regular n (lockSetup nonce srvNonce) target)
    (hagrees : Agrees n (lockSetup nonce srvNonce) source)
    (hrestart : Net.restarts label = false) (hguard : Net.sequential n source label = true)
    (hstep : (Net.logged (lockSetup nonce srvNonce)).step source label = some target)
    {i : ClientId} {k : CallId} {found : Call} {lid : LockId}
    (hfound : (target.1.clients i).frames k = some found) (hopen : found.result = none)
    (hacquire : isCall LockProtocol.acquire lid found.request = true) {d : DispatchId}
    {request : Request} {pdu : Bytes}
    (hmem : .produced d request pdu ∈ Net.serverHistory target.2)
    (hclt : request.clt = nonce i) (hxid : request.xid = found.request.xid)
    (hreply : Server.IsReply request 0 pdu) :
    ledger target.1.server lid = some (nonce i).toInt32 := by
  obtain ⟨hnext, hlog⟩ := System.recorded_step_eq_some.mp hstep
  have hnext' : source.1.step lockService label = some target.1 := hnext
  have hcall : .issued i k found.request ∈ target.2 := h'.issued.call_issued i k found hfound
  have hi : i < n := h'.sequential.member i k found.request hcall
  rcases Net.mem_serverHistory_of_step hlog hmem with hold | ⟨part, hlabel, hnew⟩
  · obtain ⟨j, l, hissued⟩ := h.produced d request pdu hold
    obtain rfl : j = i := h.issuer hinj hi hissued hclt
    rcases Net.open_of_step hnext' hfound hopen with ⟨proc, args, rfl, -, hrequest⟩ |
      ⟨call, hframe, hrequest, hcallOpen⟩
    · -- a call that begins has not been answered yet
      rw [hrequest, Net.xid_request] at hxid
      exact absurd hxid (h.sequential.xid_ne h.pos hguard hissued)
    · rw [hrequest] at hacquire hxid
      have hledger := hagrees.granted j k call lid hframe hcallOpen hacquire d request pdu hold
        hclt hxid hreply
      exact ledger_of_step hinj h h' hrestart hstep hi
        (h.returned_of_open hframe hcallOpen hacquire lid) hledger
  · rcases Net.server_of_step hnext' hrestart with ⟨hnone, -⟩ | ⟨part', hlabel', hpart⟩
    · rw [hlabel] at hnone
      cases hnone
    · obtain rfl := Option.some.inj (hlabel.symm.trans hlabel')
      exact granted_of_produced hinj h h' (hlog ▸ List.subset_append_left _ _) hpart hnew hcall
        hacquire hclt hxid hreply

theorem Agrees.step {n : ℕ} {nonce : ClientId → UInt32} {srvNonce : UInt32}
    {source target : Net State × List Net.Event} {label : Net.Label}
    (hagrees : Agrees n (lockSetup nonce srvNonce) source)
    (hinj : ∀ i < n, ∀ j < n, nonce i = nonce j → i = j)
    (h : Regular n (lockSetup nonce srvNonce) source)
    (h' : Regular n (lockSetup nonce srvNonce) target)
    (hrestart : Net.restarts label = false) (hguard : Net.sequential n source label = true)
    (hstep : (Net.logged (lockSetup nonce srvNonce)).step source label = some target) :
    Agrees n (lockSetup nonce srvNonce) target := by
  obtain ⟨hnext, hlog⟩ := System.recorded_step_eq_some.mp hstep
  have hnext' : source.1.step lockService label = some target.1 := hnext
  have hnow : ∀ i lid, holds target.2 i lid = true → i < n ∧
      Returned (lockSetup nonce srvNonce) target.2 i lid ∧
      ledger target.1.server lid = some (nonce i).toInt32 := by
    intro i lid hholds
    rw [hlog] at hholds
    rcases holds_append hholds with ⟨hbefore, hnone⟩ | ⟨k, call, hmem, hacquire, hzero⟩
    · have hi := hagrees.member i lid hbefore
      have hreturned := hagrees.returned i lid hbefore
      refine ⟨hi, hlog ▸ hreturned.mono hnone, ?_⟩
      exact ledger_of_step hinj h h' hrestart hstep hi hreturned (hagrees.held i lid hbefore)
    · obtain ⟨rfl, before, hframe, hphase, rfl, -⟩ := Net.returned_of_mem hnext' hmem
      obtain ⟨hopen, hledger⟩ := granted_of_finish h hagrees hframe hphase hacquire hzero
      have hi : i < n := h.sequential.member i k _ (h.issued.call_issued i k before hframe)
      have hreturned := h.returned_of_open hframe hopen hacquire lid
      refine ⟨hi, hlog ▸ hreturned.mono fun l request hissued => ?_,
        ledger_of_step hinj h h' hrestart hstep hi hreturned hledger⟩
      obtain ⟨_, _, hlabel, -⟩ := Net.issued_clt_of_mem hissued
      cases hlabel
  exact ⟨fun i lid hholds => (hnow i lid hholds).1, fun i lid hholds => (hnow i lid hholds).2.1,
    fun i lid hholds => (hnow i lid hholds).2.2,
    fun i k call lid hcall hopen hacquire d request pdu hmem hclt hxid hreply =>
      granted_of_step hinj h h' hagrees hrestart hguard hstep hcall hopen hacquire hmem hclt
        hxid hreply⟩

/-! ## Mutual exclusion -/

/-- In every run of lock clients with different nonces in which no late copy of a request
is checked, and no check frees a reply that is still to be sent, no two clients hold the
same lock. -/
theorem endToEndExclusion {n : ℕ} {nonce : ClientId → UInt32} {srvNonce : UInt32}
    (hinj : ∀ i < n, ∀ j < n, nonce i = nonce j → i = j) (hne : ∀ i < n, nonce i ≠ 0)
    {labels : List Net.Label} {reached : Net State × List Net.Event}
    (hrun : (Net.logged (lockSetup nonce srvNonce)).Run
      (fun source label => calmLockClients n source label = true) labels reached)
    {i j : ClientId} {lid : LockId} (hi : holds reached.2 i lid = true)
    (hj : holds reached.2 j lid = true) : i = j := by
  have hagrees : Agrees n (lockSetup nonce srvNonce) reached := by
    refine hrun.invariant (Agrees n (lockSetup nonce srvNonce)) (agrees_start n _) ?_
    intro labels source label target hprior hagrees hguard hstep
    have horderly := orderly_of_calmLockClients hguard
    have hrestart : Net.restarts label = false := by
      simpa using (Bool.and_eq_true_iff.mp (Bool.and_eq_true_iff.mp hguard).1).1
    exact hagrees.step hinj (regular_of_run hne hprior)
      (regular_of_run hne (hprior.snoc hguard hstep)) hrestart
      (Bool.and_eq_true_iff.mp horderly).2 hstep
  refine hinj i (hagrees.member i lid hi) j (hagrees.member j lid hj) (toInt32_injective ?_)
  exact Option.some.inj ((hagrees.held i lid hi).symm.trans (hagrees.held j lid hj))

/-- Two clients. -/
def twoClients : Setup State := lockSetup (fun i => if i = 0 then 1 else 2) 9

/-- A call up to the entry of its handler. -/
def asked (i : ClientId) (k : CallId) (d : DispatchId) (n : ConnId) (connected : Option ConnId)
    (proc : Int32) (args : Bytes) : List Net.Label :=
  [.start i k proc args, .refconn i k connected, .send i k true false, .receive d n, .vet d,
    .enroll d, .connect d, .check d, .enter d 0 fun _ => 0]

/-- The handler has returned, the reply is sent, and the call returns. -/
def answered (i : ClientId) (k : CallId) (d : DispatchId) (n : ConnId) : List Net.Label :=
  [.record d, .select d, .reply d true [], .deliver n, .wake i k, .erase i k, .finish i k]

/-- A client binds on a new connection. -/
def bound (i : ClientId) (d : DispatchId) (n : ConnId) : List Net.Label :=
  asked i 0 d n (some n) RpcConst.bind (be32 0) ++ answered i 0 d n ++ [.bind i 0]

/-- Two clients ask for a lock, and the second one has to wait. Its connection dies, and
it asks again on another one, which is known to be in progress. Then the first client
releases the lock, and the second one gets it. -/
def contendedRun : List Net.Label :=
  bound 0 0 0 ++ asked 0 1 1 0 none LockProtocol.acquire (lockArgs 1 7) ++ answered 0 1 1 0 ++
  bound 1 2 1 ++ asked 1 1 3 1 none LockProtocol.acquire (lockArgs 2 7) ++
  [.die 1 true, .die 1 false, .expire 1 1, .retry 1 1 false, .refconn 1 1 (some 2),
    .send 1 1 true false, .receive 4 2, .vet 4, .enroll 4, .connect 4, .check 4] ++
  asked 0 2 5 0 none LockProtocol.release (lockArgs 1 7) ++ answered 0 2 5 0 ++
  .resume 3 0 (fun _ => 0) :: answered 1 1 3 2

theorem endToEndExclusion_contended :
    ∃ reached, (Net.logged twoClients).Run
        (fun source label => calmLockClients 2 source label = true) contendedRun reached ∧
      holds reached.2 1 7 = true ∧ ∀ i, holds reached.2 i 7 = true → i = 1 := by
  have hexec : ((Net.logged twoClients).execIf (calmLockClients 2) (Net.logged twoClients).init
      contendedRun).any (fun reached => holds reached.2 1 7) = true := by
    decide +kernel
  obtain ⟨reached, hrun, hholds⟩ := System.exists_run_of_execIf hexec
  refine ⟨reached, hrun, hholds, fun i hi => ?_⟩
  exact endToEndExclusion (by decide) (by decide) hrun hi hholds

/-! ## A late release -/

/-- The first client acquires a lock and releases it. The first copy of the release is
slow in the server, its connection dies, and the second copy is executed and answered.
The client acquires the lock again, and its next call drops the entry of the release.
Then the first copy is checked, and the second client asks for the lock. -/
def lateReleaseRun : List Net.Label :=
  bound 0 0 0 ++ asked 0 1 1 0 none LockProtocol.acquire (lockArgs 1 7) ++ answered 0 1 1 0 ++
  [.start 0 2 LockProtocol.release (lockArgs 1 7), .refconn 0 2 none, .send 0 2 true false,
    .receive 2 0, .vet 2, .enroll 2, .connect 2, .die 0 true, .expire 0 2, .retry 0 2 false,
    .refconn 0 2 (some 1), .send 0 2 true false, .receive 3 1, .vet 3, .enroll 3, .connect 3,
    .check 3, .enter 3 0 fun _ => 0] ++ answered 0 2 3 1 ++
  asked 0 3 4 1 none LockProtocol.acquire (lockArgs 1 7) ++ answered 0 3 4 1 ++
  asked 0 4 5 1 none LockProtocol.stat (lockArgs 1 7) ++ answered 0 4 5 1 ++
  [.check 2, .enter 2 0 fun _ => 0] ++
  bound 1 6 2 ++ asked 1 1 7 2 none LockProtocol.acquire (lockArgs 2 7) ++ answered 1 1 7 2

/-- Did all calls that have returned return zero? -/
def allReturnZero (history : List Net.Event) : Bool :=
  history.all fun event =>
    match event with
    | .returned _ _ call => call.result == some 0
    | _ => true

/-- Both clients hold the lock, and no call has timed out or failed. -/
theorem lateRelease_heldByBoth :
    ∃ reached, (Net.logged twoClients).Run
        (fun source label => lockClients 2 source label = true) lateReleaseRun reached ∧
      allReturnZero reached.2 = true ∧ holds reached.2 0 7 = true ∧
      holds reached.2 1 7 = true := by
  have hexec : ((Net.logged twoClients).execIf (lockClients 2) (Net.logged twoClients).init
      lateReleaseRun).any (fun reached =>
        allReturnZero reached.2 && (holds reached.2 0 7 && holds reached.2 1 7)) = true := by
    decide +kernel
  obtain ⟨reached, hrun, htest⟩ := System.exists_run_of_execIf hexec
  obtain ⟨hzero, hboth⟩ := Bool.and_eq_true_iff.mp htest
  obtain ⟨hfirst, hsecond⟩ := Bool.and_eq_true_iff.mp hboth
  exact ⟨reached, hrun, hzero, hfirst, hsecond⟩

end YfsLab.Lock
