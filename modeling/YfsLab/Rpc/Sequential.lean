/-
# Clients that make one call at a time

A client that waits for each call to return before it begins the next one, and stops
when a call fails, has at most one request that the server may still execute: all the
others have been executed, and without late copies they are not executed again. Its
xids do not repeat either. They could only after the xid zero, and a request with that
xid is refused.
-/

import YfsLab.Rpc.Replies

namespace YfsLab.Rpc.Net

open BigEndian Transition Wire

variable {σ : Type}

/-- A call has returned zero. -/
def returnsZero (i : ClientId) (k : CallId) : Event → Bool
  | .returned j l call => j == i && l == k && call.result == some 0
  | _ => false

/-- A call is one of the first `n` clients', and begins when all calls of its client have
returned zero. -/
def sequential (n : ℕ) (source : Net σ × List Event) : Label → Bool
  | .start i _ _ _ => decide (i < n) && source.2.all fun event =>
      match event with
      | .issued j k _ => j != i || source.2.any (returnsZero i k)
      | _ => true
  | _ => true

/-- The server does not check late copies and does not free replies that are still to
be sent. -/
def calm (source : Server σ × List Server.Event) (label : Server.Label) : Bool :=
  Server.noLateCopy source label && Server.noUndercut source label

/-- The steps of such clients with such a server. -/
def orderly (n : ℕ) (source : Net σ × List Event) (label : Label) : Bool :=
  onServer calm source label && sequential n source label

/-- The server has executed a request of the client with this xid. -/
def WasExecuted (setup : Setup σ) (history : List Event) (i : ClientId) (xid : UInt32) : Prop :=
  ∃ d, d ∈ Server.executions (serverHistory history) (cltNonce setup i) xid

/-- Calls and their requests: a call that has returned zero has been executed, and so
have all others while one call is open; and xids do not repeat. -/
structure Sequential (n : ℕ) (setup : Setup σ) (source : Net σ × List Event) : Prop where
  member : ∀ i k request, .issued i k request ∈ source.2 → i < n
  frame : ∀ i k request, .issued i k request ∈ source.2 →
    ∃ call, (source.1.clients i).frames k = some call ∧ call.request = request
  returned : ∀ i k call, .returned i k call ∈ source.2 →
    .issued i k call.request ∈ source.2 ∧
      (∀ found, (source.1.clients i).frames k = some found → found.result ≠ none) ∧
      (call.result = some 0 → WasExecuted setup source.2 i call.request.xid)
  others : ∀ i k call, (source.1.clients i).frames k = some call → call.result = none →
    ∀ l request, .issued i l request ∈ source.2 → l ≠ k →
      WasExecuted setup source.2 i request.xid
  xids : ∀ i, (∀ k request, .issued i k request ∈ source.2 → request.xid ≠ 0 ∧
      ((source.1.clients i).xid ≠ 0 → request.xid < (source.1.clients i).xid)) ∨
    ∃ k request, .issued i k request ∈ source.2 ∧ request.xid = 0
  unique : ∀ i k request l request', .issued i k request ∈ source.2 →
    .issued i l request' ∈ source.2 → request.xid = request'.xid → request = request'

theorem sequential_start (n : ℕ) (setup : Setup σ) :
    Sequential n setup (start setup, []) where
  member := by simp
  frame := by simp
  returned := by simp
  others := by simp
  xids _ := .inl (by simp)
  unique := by simp

theorem WasExecuted.mono {setup : Setup σ} {history more : List Event} {i : ClientId}
    {xid : UInt32} (h : WasExecuted setup history i xid) :
    WasExecuted setup (history ++ more) i xid := by
  obtain ⟨d, hmem⟩ := h
  refine ⟨d, ?_⟩
  rw [serverHistory_append, Server.executions_append]
  exact List.mem_append_left _ hmem

/-! ## Steps -/

/-- A call that has not returned after a section had not returned before. -/
theorem result_of_moves {c : Client} {k : CallId} {call found : Call} {part : Client.Label}
    (hmoves : Client.Moves c k call part found) (hopen : found.result = none) :
    call.result = none := by
  cases hmoves with
  | same => exact hopen
  | refconn hphase | sent hphase | woken hphase | expired hphase | retried hphase
  | erased hphase | finished hphase => simp [Call.result, hphase]
  | accepted =>
      unfold Call.accept at hopen
      split_ifs at hopen <;> exact hopen
  | bound => cases hopen

/-- A call after a step that has not returned is open already, or has just begun. -/
theorem open_of_step {app : Service σ} {net target : Net σ} {label : Label}
    (hstep : net.step app label = some target) {i : ClientId} {k : CallId} {found : Call}
    (hfound : (target.clients i).frames k = some found) (hopen : found.result = none) :
    (∃ proc args, label = .start i k proc args ∧ (net.clients i).frames k = none ∧
      found.request = (net.clients i).request proc args) ∨
    ∃ call, (net.clients i).frames k = some call ∧ found.request = call.request ∧
      call.result = none := by
  rcases call_of_step hstep hfound with ⟨proc, args, rfl, -, hnone, rfl⟩ |
    ⟨call, hcall, rfl | ⟨part, -, hmoves⟩⟩
  · exact .inl ⟨proc, args, rfl, hnone, rfl⟩
  · exact .inr ⟨found, hcall, rfl, hopen⟩
  · exact .inr ⟨call, hcall, hmoves.keeps.1, result_of_moves hmoves hopen⟩

/-- A call that returns. -/
theorem returned_of_mem {app : Service σ} {net target : Net σ} {label : Label}
    (hstep : net.step app label = some target) {i : ClientId} {k : CallId} {call : Call}
    (hmem : .returned i k call ∈ events app net label) :
    label = .finish i k ∧ ∃ before, (net.clients i).frames k = some before ∧
      before.phase = .returning ∧ call = before.finish ∧
      (target.clients i).frames k = some call := by
  rcases mem_events_cases hmem with ⟨j, part, hlabel, hevent⟩ | ⟨_, _, _, _, heq⟩ | ⟨_, heq⟩
  · cases part with
    | start l proc args =>
        simp only [clientEvents] at hevent
        split_ifs at hevent
        · cases hevent
        · cases List.mem_singleton.mp hevent
    | finish l =>
        obtain ⟨before, hbefore, heq⟩ := List.mem_map.mp hevent
        obtain ⟨rfl, rfl, rfl⟩ := Event.returned.inj heq
        obtain rfl := isPart_of_clientLabel hlabel
        have hframe : (net.clients j).frames l = some before := by simpa using hbefore
        obtain ⟨c, hc, rfl⟩ := clientStep_eq_some.mp hstep
        obtain ⟨_, hsame, hphase, rfl⟩ := Client.onCall_eq_some.mp hc
        obtain rfl := Option.some.inj (hframe.symm.trans hsame)
        refine ⟨rfl, before, hframe, by simpa using hphase, rfl, ?_⟩
        simp [putClient, Client.put]
    | bind l =>
        obtain ⟨nonce, -, heq⟩ := List.mem_map.mp hevent
        cases heq
    | _ => cases hevent
  · cases heq
  · cases heq

/-- The xid of a client after a step. -/
theorem xid_of_step {app : Service σ} {net target : Net σ} {label : Label}
    (hstep : net.step app label = some target) (i : ClientId) :
    (target.clients i).xid = (net.clients i).xid ∨
      ∃ k proc args, label = .start i k proc args ∧ (net.clients i).refuses proc = false ∧
        (target.clients i).xid = (net.clients i).xid + 1 := by
  rcases client_of_step hstep i with hsame | ⟨part, hlabel, hpart⟩
  · exact .inl (by rw [hsame])
  · rcases Client.xid_of_step hpart with hsame | ⟨k, proc, args, rfl, hrefuses, hnext⟩
    · exact .inl hsame
    · exact .inr ⟨k, proc, args, isPart_of_clientLabel hlabel, hrefuses, hnext⟩

/-- The client that begins a call. -/
theorem client_of_start {app : Service σ} {net target : Net σ} {i : ClientId} {k : CallId}
    {proc : Int32} {args : Bytes} (hstep : net.step app (.start i k proc args) = some target)
    (hrefuses : (net.clients i).refuses proc = false) :
    target.clients i =
      { net.clients i with
        xid := (net.clients i).xid + 1
        calls := Function.update (net.clients i).calls (net.clients i).xid (some k) }.put k
          { request := (net.clients i).request proc args, xid := (net.clients i).xid } := by
  obtain ⟨c, hc, rfl⟩ := clientStep_eq_some.mp hstep
  obtain ⟨-, hstart⟩ := Option.ite_none_right_eq_some.mp hc
  obtain rfl := Option.some.inj hstart
  simp [putClient, Client.start, hrefuses]

theorem xid_request (c : Client) (proc : Int32) (args : Bytes) :
    (c.request proc args).xid = c.xid := by
  simp [Client.request, Request.xid]

/-! ## One call after another -/

/-- When a call begins, all requests of its client have been executed. -/
theorem Sequential.executed_of_start {n : ℕ} {setup : Setup σ} {source : Net σ × List Event}
    (h : Sequential n setup source) {i : ClientId} {k : CallId} {proc : Int32} {args : Bytes}
    (hguard : sequential n source (.start i k proc args) = true) {l : CallId}
    {request : Request} (hmem : .issued i l request ∈ source.2) :
    (∃ call, .returned i l call ∈ source.2) ∧ WasExecuted setup source.2 i request.xid := by
  obtain ⟨-, hall⟩ := Bool.and_eq_true_iff.mp hguard
  have hzero : source.2.any (returnsZero i l) = true := by
    simpa using List.all_eq_true.mp hall _ hmem
  obtain ⟨event, hevent, hreturns⟩ := List.any_eq_true.mp hzero
  cases event with
  | returned j m call =>
      obtain ⟨⟨rfl, rfl⟩, hresult⟩ : (j = i ∧ m = l) ∧ call.result = some 0 := by
        simpa [returnsZero] using hreturns
      obtain ⟨hissued, -, hexecuted⟩ := h.returned j m call hevent
      obtain ⟨frame, hframe, hrequest⟩ := h.frame j m request hmem
      obtain ⟨frame', hframe', hrequest'⟩ := h.frame j m call.request hissued
      obtain rfl := Option.some.inj (hframe.symm.trans hframe')
      refine ⟨⟨call, hevent⟩, ?_⟩
      rw [← hrequest, hrequest']
      exact hexecuted hresult
  | server | issued | bound | restarted => cases hreturns

/-- A call that begins has a new xid. -/
theorem Sequential.fresh {n : ℕ} {setup : Setup σ} {source : Net σ × List Event}
    (h : Sequential n setup source)
    (hpos : ∀ i xid, i < n → WasExecuted setup source.2 i xid → xid ≠ 0) {i : ClientId}
    {k : CallId} {proc : Int32} {args : Bytes}
    (hguard : sequential n source (.start i k proc args) = true) {l : CallId}
    {request : Request} (hmem : .issued i l request ∈ source.2) :
    request.xid ≠ 0 ∧ ((source.1.clients i).xid ≠ 0 → request.xid < (source.1.clients i).xid) := by
  rcases h.xids i with hbelow | ⟨m, other, hother, hzero⟩
  · exact hbelow l request hmem
  · have hexecuted := (h.executed_of_start hguard hother).2
    exact absurd hzero (hpos i _ (h.member i m other hother) hexecuted)

theorem Sequential.xid_ne {n : ℕ} {setup : Setup σ} {source : Net σ × List Event}
    (h : Sequential n setup source)
    (hpos : ∀ i xid, i < n → WasExecuted setup source.2 i xid → xid ≠ 0) {i : ClientId}
    {k : CallId} {proc : Int32} {args : Bytes}
    (hguard : sequential n source (.start i k proc args) = true) {l : CallId}
    {request : Request} (hmem : .issued i l request ∈ source.2) :
    request.xid ≠ (source.1.clients i).xid := by
  obtain ⟨hzero, hlt⟩ := h.fresh hpos hguard hmem
  intro heq
  rw [heq] at hzero hlt
  exact absurd (hlt hzero) (UInt32.lt_irrefl _)

/-- A request that is issued at a step. -/
theorem issued_of_step {setup : Setup σ} {source target : Net σ × List Event} {label : Label}
    (hlog : target.2 = source.2 ++ events setup.app source.1 label) {i : ClientId} {k : CallId}
    {request : Request} (hmem : .issued i k request ∈ target.2) :
    .issued i k request ∈ source.2 ∨ ∃ proc args, label = .start i k proc args ∧
      (source.1.clients i).refuses proc = false ∧
      request = (source.1.clients i).request proc args := by
  rw [hlog] at hmem
  rcases List.mem_append.mp hmem with hold | hnew
  · exact .inl hold
  · exact .inr (issued_clt_of_mem hnew)

theorem call_of_issued {n : ℕ} {setup : Setup σ} {source target : Net σ × List Event}
    {label : Label} (h : Sequential n setup source)
    (hstep : source.1.step setup.app label = some target.1)
    (hlog : target.2 = source.2 ++ events setup.app source.1 label) {i : ClientId} {k : CallId}
    {request : Request} (hmem : .issued i k request ∈ target.2) :
    ∃ call, (target.1.clients i).frames k = some call ∧ call.request = request := by
  rcases issued_of_step hlog hmem with hold | ⟨proc, args, rfl, hrefuses, rfl⟩
  · obtain ⟨call, hcall, rfl⟩ := h.frame i k request hold
    exact exists_call_of_step hstep hcall
  · rw [client_of_start hstep hrefuses]
    exact ⟨_, Client.frames_put_eq_some.mpr (.inl ⟨rfl, rfl⟩), rfl⟩

theorem returned_of_step {n : ℕ} {setup : Setup σ} {source target : Net σ × List Event}
    {label : Label} (h : Sequential n setup source) (hissued : Issued source)
    (hdone : ∀ i k call, (source.1.clients i).frames k = some call → call.done = true →
      call.intret = 0 → WasExecuted setup source.2 i call.request.xid)
    (hstep : source.1.step setup.app label = some target.1)
    (hlog : target.2 = source.2 ++ events setup.app source.1 label) {i : ClientId} {k : CallId}
    {call : Call} (hmem : .returned i k call ∈ target.2) :
    .issued i k call.request ∈ target.2 ∧
      (∀ found, (target.1.clients i).frames k = some found → found.result ≠ none) ∧
      (call.result = some 0 → WasExecuted setup target.2 i call.request.xid) := by
  rw [hlog] at hmem ⊢
  rcases List.mem_append.mp hmem with hold | hnew
  · obtain ⟨hcall, hclosed, hexecuted⟩ := h.returned i k call hold
    refine ⟨List.mem_append_left _ hcall, fun found hfound hopen => ?_,
      fun hzero => (hexecuted hzero).mono⟩
    obtain ⟨frame, hframe, -⟩ := h.frame i k call.request hcall
    rcases open_of_step hstep hfound hopen with ⟨_, _, -, hnone, -⟩ | ⟨before, hbefore, -, hopen⟩
    · rw [hframe] at hnone
      cases hnone
    · exact hclosed before hbefore hopen
  · obtain ⟨-, before, hbefore, -, rfl, htarget⟩ := returned_of_mem hstep hnew
    refine ⟨List.mem_append_left _ (hissued.call_issued i k before hbefore), fun found hfound => ?_,
      fun hzero => ?_⟩
    · obtain rfl := Option.some.inj (htarget.symm.trans hfound)
      simp [Call.finish, Call.result]
    · have hret : (if before.done then before.intret else RpcConst.timeoutFailure) = 0 :=
        Option.some.inj hzero
      split_ifs at hret with hreply
      · exact (hdone i k before hbefore hreply hret).mono
      · cases hret

theorem others_of_step {n : ℕ} {setup : Setup σ} {source target : Net σ × List Event}
    {label : Label} (h : Sequential n setup source) (hissued : Issued source)
    (hguard : sequential n source label = true)
    (hstep : source.1.step setup.app label = some target.1)
    (hlog : target.2 = source.2 ++ events setup.app source.1 label) {i : ClientId} {k : CallId}
    {found : Call} (hfound : (target.1.clients i).frames k = some found)
    (hopen : found.result = none) {l : CallId} {request : Request}
    (hmem : .issued i l request ∈ target.2) (hne : l ≠ k) :
    WasExecuted setup target.2 i request.xid := by
  have hissuedTarget := issued_of_step hlog hmem
  rw [hlog]
  rcases open_of_step hstep hfound hopen with ⟨proc, args, rfl, -, -⟩ |
    ⟨call, hcall, hrequest, hcallOpen⟩
  · rcases hissuedTarget with hold | ⟨_, _, hlabel, -, -⟩
    · exact (h.executed_of_start hguard hold).2.mono
    · cases hlabel
      exact absurd rfl hne
  · rcases hissuedTarget with hold | ⟨proc, args, rfl, -, -⟩
    · exact (h.others i k call hcall hcallOpen l request hold hne).mono
    · -- no call begins while another one is open
      obtain ⟨⟨old, hreturned⟩, -⟩ :=
        h.executed_of_start hguard (hissued.call_issued i k call hcall)
      exact absurd hcallOpen ((h.returned i k old hreturned).2.1 call hcall)

theorem xids_of_step {n : ℕ} {setup : Setup σ} {source target : Net σ × List Event}
    {label : Label} (h : Sequential n setup source)
    (hpos : ∀ i xid, i < n → WasExecuted setup source.2 i xid → xid ≠ 0)
    (hguard : sequential n source label = true)
    (hstep : source.1.step setup.app label = some target.1)
    (hlog : target.2 = source.2 ++ events setup.app source.1 label) (i : ClientId) :
    (∀ k request, .issued i k request ∈ target.2 → request.xid ≠ 0 ∧
      ((target.1.clients i).xid ≠ 0 → request.xid < (target.1.clients i).xid)) ∨
    ∃ k request, .issued i k request ∈ target.2 ∧ request.xid = 0 := by
  by_cases hstart : ∃ k proc args, label = .start i k proc args ∧
      (source.1.clients i).refuses proc = false
  · obtain ⟨k, proc, args, rfl, hrefuses⟩ := hstart
    by_cases hx : (source.1.clients i).xid = 0
    · refine .inr ⟨k, (source.1.clients i).request proc args, ?_, by rw [xid_request, hx]⟩
      rw [hlog]
      refine List.mem_append_right _ (clientEvents_subset rfl ?_)
      simp [clientEvents, hrefuses]
    · have hnext : (target.1.clients i).xid = (source.1.clients i).xid + 1 := by
        rw [client_of_start hstep hrefuses]
        rfl
      refine .inl fun l request hmem => ?_
      rw [hnext]
      rcases issued_of_step hlog hmem with hold | ⟨_, _, hlabel, -, rfl⟩
      · obtain ⟨hzero, hlt⟩ := h.fresh hpos hguard hold
        refine ⟨hzero, fun hlast => ?_⟩
        have := hlt hx
        grind
      · cases hlabel
        rw [xid_request]
        exact ⟨hx, fun hlast => by grind⟩
  · have hold : ∀ k request, .issued i k request ∈ target.2 → .issued i k request ∈ source.2 := by
      intro k request hmem
      rcases issued_of_step hlog hmem with hold | ⟨proc, args, hlabel, hrefuses, -⟩
      · exact hold
      · exact absurd ⟨k, proc, args, hlabel, hrefuses⟩ hstart
    rcases xid_of_step hstep i with hsame | ⟨k, proc, args, hlabel, hrefuses, -⟩
    · rw [hsame]
      rcases h.xids i with hbelow | ⟨m, other, hother, hzero⟩
      · exact .inl fun k request hmem => hbelow k request (hold k request hmem)
      · exact .inr ⟨m, other, hlog ▸ List.mem_append_left _ hother, hzero⟩
    · exact absurd ⟨k, proc, args, hlabel, hrefuses⟩ hstart

theorem unique_of_step {n : ℕ} {setup : Setup σ} {source target : Net σ × List Event}
    {label : Label} (h : Sequential n setup source)
    (hpos : ∀ i xid, i < n → WasExecuted setup source.2 i xid → xid ≠ 0)
    (hguard : sequential n source label = true)
    (hlog : target.2 = source.2 ++ events setup.app source.1 label) {i : ClientId}
    {k l : CallId} {request request' : Request} (hmem : .issued i k request ∈ target.2)
    (hmem' : .issued i l request' ∈ target.2) (hxid : request.xid = request'.xid) :
    request = request' := by
  rcases issued_of_step hlog hmem with hold | ⟨proc, args, rfl, -, rfl⟩
  · rcases issued_of_step hlog hmem' with hold' | ⟨proc, args, rfl, -, rfl⟩
    · exact h.unique i k request l request' hold hold' hxid
    · rw [xid_request] at hxid
      exact absurd hxid (h.xid_ne hpos hguard hold)
  · rcases issued_of_step hlog hmem' with hold' | ⟨_, _, hlabel, -, rfl⟩
    · rw [xid_request] at hxid
      exact absurd hxid.symm (h.xid_ne hpos hguard hold')
    · cases hlabel
      rfl

theorem Sequential.step {n : ℕ} {setup : Setup σ} {source target : Net σ × List Event}
    {label : Label} (h : Sequential n setup source) (hissued : Issued source)
    (hdone : ∀ i k call, (source.1.clients i).frames k = some call → call.done = true →
      call.intret = 0 → WasExecuted setup source.2 i call.request.xid)
    (hpos : ∀ i xid, i < n → WasExecuted setup source.2 i xid → xid ≠ 0)
    (hguard : sequential n source label = true)
    (hstep : (logged setup).step source label = some target) : Sequential n setup target := by
  obtain ⟨hnext, hlog⟩ := System.recorded_step_eq_some.mp hstep
  have hnext' : source.1.step setup.app label = some target.1 := hnext
  refine ⟨fun i k request hmem => ?_, fun i k request hmem => call_of_issued h hnext' hlog hmem,
    fun i k call hmem => returned_of_step h hissued hdone hnext' hlog hmem,
    fun i k call hcall hopen l request hmem hne =>
      others_of_step h hissued hguard hnext' hlog hcall hopen hmem hne,
    fun i => xids_of_step h hpos hguard hnext' hlog i,
    fun i k request l request' hmem hmem' hxid =>
      unique_of_step h hpos hguard hlog hmem hmem' hxid⟩
  rcases issued_of_step hlog hmem with hold | ⟨proc, args, rfl, -, -⟩
  · exact h.member i k request hold
  · simpa using (Bool.and_eq_true_iff.mp hguard).1

/-! ## Runs -/

/-- What is in the server's part of a history after a step. -/
theorem mem_serverHistory_of_step {setup : Setup σ} {source target : Net σ × List Event}
    {label : Label} (hlog : target.2 = source.2 ++ events setup.app source.1 label)
    {event : Server.Event} (hmem : event ∈ serverHistory target.2) :
    event ∈ serverHistory source.2 ∨ ∃ part, source.1.serverLabel label = some part ∧
      event ∈ Server.events setup.app source.1.server part := by
  rw [hlog, serverHistory_append, serverHistory_events] at hmem
  rcases List.mem_append.mp hmem with hold | hnew
  · exact .inl hold
  · obtain ⟨part, hlabel, hevent⟩ := List.mem_flatMap.mp hnew
    exact .inr ⟨part, by simpa using hlabel, hevent⟩

/-- A request whose handler produces a reply has been issued. -/
theorem issued_of_produced {setup : Setup σ} {source : Net σ × List Event} {target : Net σ}
    {label : Label} (h : Issued source) (hstep : source.1.step setup.app label = some target)
    {part : Server.Label} (hlabel : source.1.serverLabel label = some part)
    {d : DispatchId} {request : Request} {pdu : Bytes}
    (hmem : .produced d request pdu ∈ Server.events setup.app source.1.server part) :
    ∃ i k, .issued i k request ∈ source.2 := by
  have hrestart : restarts label = false := by
    cases label with
    | restart => cases hlabel
    | _ => rfl
  rcases server_of_step hstep hrestart with ⟨hnone, -⟩ | ⟨part', hlabel', hpart⟩
  · rw [hlabel] at hnone
    cases hnone
  · obtain rfl := Option.some.inj (hlabel.symm.trans hlabel')
    obtain ⟨f, area, outcome, hf, rfl, hhandles, -⟩ := Server.handles_of_produced hpart hmem
    have hearly : early f.stage = true := by
      rcases hhandles.stage with hstage | hstage <;> rw [hstage] <;> rfl
    obtain ⟨conn, k, -, hissued⟩ := h.dispatch_issued d f hf hearly
    exact ⟨conn.owner, k, hissued⟩

theorem produced_issued_of_run {setup : Setup σ} {guard : Net σ × List Event → Label → Prop}
    {labels : List Label} {reached : Net σ × List Event}
    (hrun : (logged setup).Run guard labels reached) {d : DispatchId} {request : Request}
    {pdu : Bytes} (hmem : .produced d request pdu ∈ serverHistory reached.2) :
    ∃ i k, .issued i k request ∈ reached.2 := by
  refine hrun.invariant (fun reached => ∀ d request pdu,
    .produced d request pdu ∈ serverHistory reached.2 → ∃ i k, .issued i k request ∈ reached.2)
    (fun _ _ _ hmem => by cases hmem) ?_ d request pdu hmem
  intro labels source label target hprior h _ hstep d request pdu hmem
  obtain ⟨hnext, hlog⟩ := System.recorded_step_eq_some.mp hstep
  have hsubset : source.2 ⊆ target.2 := hlog ▸ List.subset_append_left _ _
  rcases mem_serverHistory_of_step hlog hmem with hold | ⟨part, hlabel, hnew⟩
  · obtain ⟨i, k, hissued⟩ := h d request pdu hold
    exact ⟨i, k, hsubset hissued⟩
  · obtain ⟨i, k, hissued⟩ := issued_of_produced (issued_of_run hprior) hnext hlabel hnew
    exact ⟨i, k, hsubset hissued⟩

theorem onServer_mono {guard weaker : Server σ × List Server.Event → Server.Label → Bool}
    (himp : ∀ source label, guard source label = true → weaker source label = true)
    {source : Net σ × List Event} {label : Label} (hguard : onServer guard source label = true) :
    onServer weaker source label = true := by
  obtain ⟨hrestart, hserver⟩ := Bool.and_eq_true_iff.mp hguard
  refine Bool.and_eq_true_iff.mpr ⟨hrestart, ?_⟩
  cases hlabel : source.1.serverLabel label with
  | none => rfl
  | some part =>
      rw [hlabel] at hserver
      exact himp _ part hserver

theorem noLateCopy_of_orderly {n : ℕ} {source : Net σ × List Event} {label : Label}
    (hguard : orderly n source label = true) :
    onServer Server.noLateCopy source label = true :=
  onServer_mono (fun _ _ hcalm => (Bool.and_eq_true_iff.mp hcalm).1)
    (Bool.and_eq_true_iff.mp hguard).1

theorem noUndercut_of_orderly {n : ℕ} {source : Net σ × List Event} {label : Label}
    (hguard : orderly n source label = true) :
    onServer Server.noUndercut source label = true :=
  onServer_mono (fun _ _ hcalm => (Bool.and_eq_true_iff.mp hcalm).2)
    (Bool.and_eq_true_iff.mp hguard).1

/-- A request with the xid zero is never new, so it is not executed. -/
theorem xid_ne_zero_of_run {setup : Setup σ} {labels : List Label}
    {reached : Net σ × List Event}
    (hrun : (logged setup).Run
      (fun source label => onServer Server.noLateCopy source label = true) labels reached)
    {i : ClientId} {xid : UInt32} (hne : cltNonce setup i ≠ 0)
    (hexecuted : WasExecuted setup reached.2 i xid) : xid ≠ 0 := by
  rintro rfl
  obtain ⟨d, hmem⟩ := hexecuted
  obtain ⟨_, hserver⟩ := exists_server_run hrun
  obtain ⟨-, hexecuted, -⟩ := Server.executed_of_run hserver
  obtain ⟨conn, request, hchecked, hof⟩ :=
    Server.checked_of_mem_news (hexecuted.new_of_mem _ _ d hne hmem)
  have hlt := (Server.acted_of_run hserver).new d conn request hchecked
  rw [(Server.isOf_iff.mp hof).2] at hlt
  exact absurd hlt UInt32.not_lt_zero

/-- The clients make one call after another, in every run that they take part in. -/
theorem sequential_of_run {n : ℕ} {setup : Setup σ} (hne : ∀ i < n, cltNonce setup i ≠ 0)
    {labels : List Label} {reached : Net σ × List Event}
    (hrun : (logged setup).Run (fun source label => orderly n source label = true) labels
      reached) : Sequential n setup reached := by
  refine hrun.invariant (Sequential n setup) (sequential_start n setup) ?_
  intro labels source label target hprior h hguard hstep
  obtain ⟨hissued, -, haccepted⟩ :=
    accepted_of_run (hprior.mono fun _ _ hguard => noUndercut_of_orderly hguard)
  have hnoLateCopy := hprior.mono fun _ _ hguard => noLateCopy_of_orderly hguard
  obtain ⟨_, hserver⟩ := exists_server_run hnoLateCopy
  have hacted := Server.acted_of_run hserver
  refine h.step hissued ?_ (fun i xid hi => xid_ne_zero_of_run hnoLateCopy (hne i hi))
    (Bool.and_eq_true_iff.mp hguard).2 hstep
  intro i k call hcall hdone hzero
  obtain ⟨d, request, pdu, hmem, hclt, hxid, -⟩ := haccepted.reply i k call hcall hdone hzero
  refine ⟨d, ?_⟩
  rw [haccepted.xid i k call hcall, ← hxid, ← hclt]
  exact (hacted.produced d request pdu hmem).2

end YfsLab.Rpc.Net
