/-
# Requests on their way

A request is put together by a call, goes up a connection of the client that made
the call, and becomes a dispatch. Nothing on the way makes up requests or mixes up
connections: whatever the server works on has been issued by the client that owns
the connection it came from.
-/

import YfsLab.Rpc.SystemSteps

namespace YfsLab.Rpc.Net

open BigEndian Transition Wire

variable {σ : Type}

/-- The stages of a dispatch up to the choice of the connection for the reply. -/
def early : Stage → Bool
  | .send | .ended => false
  | _ => true

/-- Calls, connections, PDUs on their way to the server and dispatches belong
together. -/
structure Issued (source : Net σ × List Event) : Prop where
  call_issued : ∀ i k call, (source.1.clients i).frames k = some call →
    .issued i k call.request ∈ source.2
  call_conn : ∀ i k call n, (source.1.clients i).frames k = some call → call.ch = some n →
    ∃ conn, source.1.conns n = some conn ∧ conn.owner = i
  chan_conn : ∀ i n, (source.1.clients i).chan = some n →
    ∃ conn, source.1.conns n = some conn ∧ conn.owner = i
  up_issued : ∀ n conn, source.1.conns n = some conn → ∀ pdu ∈ conn.up,
    ∃ k request, .issued conn.owner k request ∈ source.2 ∧ pdu = request.pdu
  dispatch_issued : ∀ d f, source.1.server.frames d = some f → early f.stage = true →
    ∃ conn k, source.1.conns f.conn = some conn ∧ .issued conn.owner k f.request ∈ source.2

theorem issued_start (setup : Setup σ) : Issued (start setup, []) where
  call_issued := by simp [start, newClient]
  call_conn := by simp [start, newClient]
  chan_conn := by simp [start, newClient]
  up_issued := by simp [start]
  dispatch_issued := by simp [start, Server.start]

/-- An owner keeps its connections. -/
theorem owner_of_step {app : Service σ} {net target : Net σ} {label : Label}
    (hstep : net.step app label = some target) {n : ConnId} {i : ClientId}
    (hconn : ∃ conn, net.conns n = some conn ∧ conn.owner = i) :
    ∃ conn, target.conns n = some conn ∧ conn.owner = i := by
  obtain ⟨conn, hconn, rfl⟩ := hconn
  obtain ⟨conn', hconn', hcarries⟩ := exists_conn_of_step hstep hconn
  exact ⟨conn', hconn', hcarries.keeps.1⟩

/-- The events of a client's section are events of the step. -/
theorem clientEvents_subset {app : Service σ} {net : Net σ} {label : Label} {i : ClientId}
    {part : Client.Label} (hlabel : net.clientLabel label = some (i, part)) :
    clientEvents (net.clients i) i part ⊆ events app net label := by
  intro event hmem
  simp only [events, hlabel, Option.toList_some, List.flatMap_singleton, List.mem_append]
  exact .inl (.inl hmem)

/-- A call after a step was there before, with the same request, or has just been
issued. -/
theorem call_of_step {app : Service σ} {net target : Net σ} {label : Label}
    (hstep : net.step app label = some target) {i : ClientId} {k : CallId} {found : Call}
    (hfound : (target.clients i).frames k = some found) :
    (∃ proc args, label = .start i k proc args ∧ (net.clients i).refuses proc = false ∧
      (net.clients i).frames k = none ∧
      found = { request := (net.clients i).request proc args, xid := (net.clients i).xid }) ∨
    ∃ call, (net.clients i).frames k = some call ∧
      (found = call ∨ ∃ part, net.clientLabel label = some (i, part) ∧
        Client.Moves (net.clients i) k call part found) := by
  rcases client_of_step hstep i with hsame | ⟨part, hlabel, hpart⟩
  · exact .inr ⟨found, hsame ▸ hfound, .inl rfl⟩
  · rcases Client.frame_of_step hpart hfound with
      ⟨proc, args, rfl, hrefuses, hnew, rfl⟩ | ⟨call, hcall, hmoves⟩
    · exact .inl ⟨proc, args, isPart_of_clientLabel hlabel, hrefuses, hnew, rfl⟩
    · exact .inr ⟨call, hcall, .inr ⟨part, hlabel, hmoves⟩⟩

/-- The connection of a call after a step belongs to its client. -/
theorem call_conn_of_step {app : Service σ} {source : Net σ × List Event} {target : Net σ}
    {label : Label} (h : Issued source) (hstep : source.1.step app label = some target)
    {i : ClientId} {k : CallId} {found : Call} {n : ConnId}
    (hfound : (target.clients i).frames k = some found) (hch : found.ch = some n) :
    ∃ conn, target.conns n = some conn ∧ conn.owner = i := by
  rcases call_of_step hstep hfound with ⟨_, _, _, _, _, rfl⟩ |
    ⟨call, hcall, rfl | ⟨part, hlabel, hmoves⟩⟩
  · cases hch
  · exact owner_of_step hstep (h.call_conn i k found n hcall hch)
  · have hsame : found.ch = call.ch →
        ∃ conn, target.conns n = some conn ∧ conn.owner = i :=
      fun heq => owner_of_step hstep (h.call_conn i k call n hcall (heq ▸ hch))
    cases hmoves with
    | @refconn dead connected =>
        obtain ⟨rfl, rfl⟩ := isPart_of_clientLabel hlabel
        obtain ⟨c, _, _, _, hfresh⟩ := refconn_eq_some hstep
        rcases Option.or_eq_some_iff.mp hch with hnew | ⟨_, hold⟩
        · rcases hfresh n hnew with hchan | hmade
          · exact owner_of_step hstep (h.chan_conn i n hchan)
          · exact ⟨_, hmade, rfl⟩
        · exact owner_of_step hstep (h.call_conn i k call n hcall hold)
    | sent =>
        refine hsame ?_
        unfold Call.loop
        split <;> rfl
    | retried =>
        refine hsame ?_
        unfold Call.retry Call.loop
        split_ifs <;> rfl
    | accepted =>
        refine hsame ?_
        unfold Call.accept
        split <;> rfl
    | same | woken | expired | erased | finished | bound => exact hsame rfl

/-- The connection of a client after a step belongs to it. -/
theorem chan_conn_of_step {app : Service σ} {source : Net σ × List Event} {target : Net σ}
    {label : Label} (h : Issued source) (hstep : source.1.step app label = some target)
    {i : ClientId} {n : ConnId} (hchan : (target.clients i).chan = some n) :
    ∃ conn, target.conns n = some conn ∧ conn.owner = i := by
  rcases client_of_step hstep i with hsame | ⟨part, hlabel, hpart⟩
  · exact owner_of_step hstep (h.chan_conn i n (hsame ▸ hchan))
  · rcases Client.chan_of_step hpart with hsame | ⟨k, dead, connected, rfl, hnew⟩
    · exact owner_of_step hstep (h.chan_conn i n (hsame ▸ hchan))
    · obtain ⟨rfl, rfl⟩ := isPart_of_clientLabel hlabel
      obtain ⟨c, _, _, _, hfresh⟩ := refconn_eq_some hstep
      rcases hfresh n (hnew ▸ hchan) with hold | hmade
      · exact owner_of_step hstep (h.chan_conn i n hold)
      · exact ⟨_, hmade, rfl⟩

/-- What is on its way to the server after a step was on its way before, or has just
been sent by a call that owns the connection. -/
theorem up_issued_of_step {app : Service σ} {source : Net σ × List Event} {target : Net σ}
    {label : Label} (h : Issued source) (hstep : source.1.step app label = some target)
    {n : ConnId} {conn : Conn} (hconn : target.conns n = some conn) {pdu : Bytes}
    (hpdu : pdu ∈ conn.up) :
    ∃ k request, .issued conn.owner k request ∈ source.2 ∧ pdu = request.pdu := by
  rcases conns_of_step hstep hconn with ⟨i, k, _, _, rfl⟩ | ⟨before, hbefore, hcarries⟩
  · cases hpdu
  · obtain ⟨howner, _⟩ := hcarries.keeps
    rw [howner]
    have hold : pdu ∈ before.up →
        ∃ k request, .issued before.owner k request ∈ source.2 ∧ pdu = request.pdu :=
      h.up_issued n before hbefore pdu
    cases hcarries with
    | @sentUp i k ok last call hframe hch =>
        unfold Conn.sendUp at hpdu
        split_ifs at hpdu
        · exact hold hpdu
        · rcases List.mem_append.mp hpdu with hmem | hnew
          · exact hold hmem
          · obtain ⟨mine, hmine, rfl⟩ := h.call_conn i k call n hframe hch
            obtain rfl := Option.some.inj (hbefore.symm.trans hmine)
            exact ⟨k, call.request, h.call_issued _ k call hframe, List.mem_singleton.mp hnew⟩
        · exact hold hpdu
    | received _ hup => exact hold (hup ▸ List.mem_cons_of_mem _ hpdu)
    | replied | refused =>
        unfold Conn.sendDown at hpdu
        split_ifs at hpdu <;> exact hold hpdu
    | died =>
        unfold Conn.die at hpdu
        split_ifs at hpdu <;> exact hold hpdu
    | lost => exact hold (List.mem_of_mem_take hpdu)
    | same | delivered | restarted => exact hold hpdu

theorem early_of_leadsTo {stage next : Stage} (hearly : early next = true)
    (hleads : stage.leadsTo next = true) : early stage = true := by
  cases stage <;> cases next <;>
    first
    | rfl
    | exact absurd hleads Bool.false_ne_true
    | exact absurd hearly Bool.false_ne_true

/-- The PDU that a step receives. -/
theorem serverLabel_receive {net : Net σ} {label : Label} {d : DispatchId} {n : ConnId}
    {pdu : Bytes} (hlabel : net.serverLabel label = some (.receive d n pdu)) :
    label = .receive d n ∧ ∃ conn, net.conns n = some conn ∧ pdu ∈ conn.up := by
  cases label with
  | receive e m =>
      obtain ⟨conn, hconn, hpart⟩ := Option.bind_eq_some_iff.mp hlabel
      obtain ⟨head, hup, hpart⟩ := Option.map_eq_some_iff.mp hpart
      cases hpart
      exact ⟨rfl, conn, hconn, List.mem_of_mem_head? hup⟩
  | vet | enroll | connect | check | enter | resume | stir | record | select | reply | refuse =>
      simp [serverLabel] at hlabel
  | _ => cases hlabel

/-- What the server works on after a step it has worked on before, or has just
received. -/
theorem dispatch_issued_of_step {app : Service σ} {source : Net σ × List Event}
    {target : Net σ} {label : Label} (h : Issued source)
    (hstep : source.1.step app label = some target) {d : DispatchId} {f' : Dispatch}
    (hf' : target.server.frames d = some f') (hearly : early f'.stage = true) :
    ∃ conn k, target.conns f'.conn = some conn ∧ .issued conn.owner k f'.request ∈ source.2 := by
  -- a connection keeps its owner
  have hkeep : ∀ {conn : Conn} {n : ConnId} {k : CallId} {request : Request},
      source.1.conns n = some conn → .issued conn.owner k request ∈ source.2 →
      ∃ conn k, target.conns n = some conn ∧ .issued conn.owner k request ∈ source.2 := by
    intro conn n k request hconn hissued
    obtain ⟨conn', hconn', howner⟩ := owner_of_step hstep ⟨conn, hconn, rfl⟩
    exact ⟨conn', k, hconn', howner ▸ hissued⟩
  cases hrestart : restarts label with
  | true =>
      cases label <;> simp [restarts] at hrestart
      obtain rfl := Option.some.inj hstep
      cases hf'
  | false =>
      rcases server_of_step hstep hrestart with ⟨_, hsame⟩ | ⟨part, hlabel, hpart⟩
      · rw [hsame] at hf'
        obtain ⟨conn, k, hconn, hissued⟩ := h.dispatch_issued d f' hf' hearly
        exact hkeep hconn hissued
      · have hsection := Server.section_of_step hpart
        rcases Server.frame_of_section hsection hf' with ⟨pdu, rfl, hdecode, _⟩ |
          ⟨f, hf, hrequest, hmoved⟩
        · obtain ⟨_, conn, hconn, hpdu⟩ := serverLabel_receive hlabel
          obtain ⟨k, request, hissued, rfl⟩ := h.up_issued _ conn hconn pdu hpdu
          rw [decodeRequest_pdu, Option.some.injEq] at hdecode
          exact hkeep hconn (hdecode ▸ hissued)
        · have hbefore : early f.stage = true := by
            rcases hmoved with rfl | hleads
            · exact hearly
            · exact early_of_leadsTo hearly hleads
          obtain ⟨conn, k, hconn, hissued⟩ := h.dispatch_issued d f hf hbefore
          rcases Server.conn_of_section hsection hf hf' with hsame | ⟨_, hsend, _⟩
          · rw [hsame, hrequest]
            exact hkeep hconn hissued
          · rw [hsend] at hearly
            cases hearly

theorem Issued.step {setup : Setup σ} {source target : Net σ × List Event} {label : Label}
    (h : Issued source) (hstep : (logged setup).step source label = some target) :
    Issued target := by
  obtain ⟨hnext, hlog⟩ := System.recorded_step_eq_some.mp hstep
  have hnext' : source.1.step setup.app label = some target.1 := hnext
  have hsubset : source.2 ⊆ target.2 := hlog ▸ List.subset_append_left _ _
  refine ⟨?_, ?_, ?_, ?_, ?_⟩
  · intro i k found hfound
    rcases client_of_step hnext' i with hsame | ⟨part, hlabel, hpart⟩
    · exact hsubset (h.call_issued i k found (hsame ▸ hfound))
    · rcases Client.frame_of_step hpart hfound with
        ⟨proc, args, rfl, hrefuses, _, rfl⟩ | ⟨call, hcall, hmoves⟩
      · rw [hlog]
        refine List.mem_append_right _ (clientEvents_subset hlabel ?_)
        simp [clientEvents, hrefuses]
      · rw [hmoves.keeps.1]
        exact hsubset (h.call_issued i k call hcall)
  · exact fun i k call n hcall hch => call_conn_of_step h hnext' hcall hch
  · exact fun i n hchan => chan_conn_of_step h hnext' hchan
  · intro n conn hconn pdu hpdu
    obtain ⟨k, request, hissued, heq⟩ := up_issued_of_step h hnext' hconn hpdu
    exact ⟨k, request, hsubset hissued, heq⟩
  · intro d f hf hearly
    obtain ⟨conn, k, hconn, hissued⟩ := dispatch_issued_of_step h hnext' hf hearly
    exact ⟨conn, k, hconn, hsubset hissued⟩

/-- Every run keeps what belongs together. -/
theorem issued_of_run {setup : Setup σ} {guard : Net σ × List Event → Label → Prop}
    {labels : List Label} {reached : Net σ × List Event}
    (hrun : (logged setup).Run guard labels reached) : Issued reached :=
  hrun.invariant Issued (issued_start setup) fun _ h _ hstep => h.step hstep

end YfsLab.Rpc.Net
