/-
# Lost replies

A call that waits on a live connection does not transmit again, so it depends on the
copy of its request that it has sent on this connection. That copy is on its way, or a
dispatch has come from it, and the dispatch stays on the connection as long as that is
alive. If it ends without a reply because the request is in progress, the reply has to
come from the dispatch that works on the request. Nothing makes that one choose this
connection: it stays on its own unless its own is dead at the server's end. Unless it
chooses so, the call waits for a reply that has gone elsewhere.
-/

import YfsLab.Rpc.Duplicates
import YfsLab.Rpc.Issued

namespace YfsLab.Rpc.Net

open BigEndian Transition Wire

variable {σ : Type} {app : Service σ}

/-- A connection that neither end has found dead. -/
def alive (net : Net σ) (n : ConnId) : Bool :=
  (net.conns n).any fun conn => !conn.cdead && !conn.sdead

/-- The call waits, and will not transmit again as long as its connection lives. -/
def pending (call : Call) : Bool :=
  call.phase == .waiting || call.phase == .expired

/-- A reply has been lost: the handler has returned, all dispatches of the request have
ended, no copy of it is on its way, and the call waits on a live connection on which no
reply has been sent. -/
structure LostReply (source : Net σ × List Event) (i : ClientId) (k : CallId) (call : Call)
    (n : ConnId) : Prop where
  frame : (source.1.clients i).frames k = some call
  waits : pending call = true ∧ call.done = false
  ch : call.ch = some n
  alive : source.1.alive n = true
  consumed : ∀ m conn, source.1.conns m = some conn → call.request.pdu ∉ conn.up
  ended : ∀ d f, source.1.server.frames d = some f →
    Server.isOf call.request.clt call.request.xid f.request = true → f.stage = .ended
  finished : ∃ d pdu, .server (.produced d call.request pdu) ∈ source.2
  unanswered : ∀ event, .server event ∈ source.2 →
    event.answers call.request.clt call.request.xid n = false

/-- The connection that the section behind `add_reply` chooses reaches the duplicates
that have been dropped. -/
def choosesReaching (source : Net σ × List Event) : Label → Bool
  | .select d =>
      (source.1.server.frames d).all fun f =>
        Server.reaches source.1.alive (source.1.server, serverHistory source.2) f
          (source.1.dispatchDead d)
  | _ => true

/-! ## Copies on a live connection -/

/-- A copy of a request is on its way up a connection, or the server has received it. -/
def Arrives (net : Net σ) (n : ConnId) (request : Request) : Prop :=
  (∃ conn, net.conns n = some conn ∧ request.pdu ∈ conn.up) ∨
    ∃ d f, net.server.frames d = some f ∧ f.request = request ∧ f.conn = n

theorem alive_iff {net : Net σ} {n : ConnId} :
    net.alive n = true ↔
      ∃ conn, net.conns n = some conn ∧ conn.cdead = false ∧ conn.sdead = false := by
  simp [alive, Option.any_eq_true]

/-- A connection that is alive after a step was alive before, or is new. -/
theorem alive_of_step {net target : Net σ} {label : Label}
    (hstep : net.step app label = some target) {n : ConnId} (halive : target.alive n = true) :
    net.alive n = true ∨ net.conns n = none ∧ net.serverLabel label = none := by
  obtain ⟨conn', hconn', hcdead, hsdead⟩ := alive_iff.mp halive
  rcases conns_of_step hstep hconn' with ⟨_, _, rfl, hnone, _⟩ | ⟨conn, hconn, hcarries⟩
  · exact .inr ⟨hnone, rfl⟩
  · obtain ⟨_, hc, hs⟩ := hcarries.keeps
    refine .inl (alive_iff.mpr ⟨conn, hconn, ?_, ?_⟩)
    · by_contra hdead
      rw [hc (by simpa using hdead)] at hcdead
      cases hcdead
    · by_contra hdead
      rw [hs (by simpa using hdead)] at hsdead
      cases hsdead

theorem not_alive_of_sdead {net : Net σ} {n : ConnId} (hdead : net.sdead n = true) :
    net.alive n = false := by
  by_contra halive
  obtain ⟨conn, hconn, -, hsdead⟩ := alive_iff.mp (by simpa using halive)
  simp [sdead, hconn, hsdead] at hdead

/-- No connection is alive after a restart. -/
theorem not_alive_restart (net : Net σ) (app : Service σ) (nonce : UInt32) (n : ConnId) :
    (net.restart app nonce).alive n = false := by
  cases hconn : net.conns n <;> simp [alive, restart, hconn]

/-- What is on its way up a live connection stays there until it is received. -/
theorem up_of_carries {net : Net σ} {n : ConnId} {conn conn' : Conn} {label : Label}
    (hcarries : Carries net n conn label conn') (hcdead : conn'.cdead = false)
    (hsdead : conn'.sdead = false) {pdu : Bytes} (hmem : pdu ∈ conn.up) :
    pdu ∈ conn'.up ∨ ∃ d, label = .receive d n ∧ conn.up.head? = some pdu := by
  cases hcarries with
  | same | delivered => exact .inl hmem
  | sentUp =>
      left
      unfold Conn.sendUp
      split_ifs
      · exact hmem
      · exact List.mem_append_left _ hmem
      · exact hmem
  | @received d head rest _ hup =>
      rw [hup] at hmem
      rcases List.mem_cons.mp hmem with rfl | hrest
      · exact .inr ⟨d, rfl, by rw [hup]; rfl⟩
      · exact .inl hrest
  | replied | refused =>
      left
      unfold Conn.sendDown
      split_ifs <;> exact hmem
  | died =>
      left
      unfold Conn.die
      split_ifs <;> exact hmem
  | lost hdead =>
      rcases hdead with hdead | hdead
      · exact absurd (hdead.symm.trans hcdead) nofun
      · exact absurd (hdead.symm.trans hsdead) nofun
  | restarted => cases hsdead

theorem dispatchDead_eq {net : Net σ} {d : DispatchId} {f : Dispatch}
    (hf : net.server.frames d = some f) : net.dispatchDead d = net.sdead f.conn := by
  simp [dispatchDead, hf]

/-- The section of the server that looks for the latest connection. -/
theorem serverLabel_select {net : Net σ} {label : Label} {d : DispatchId} {dead : Bool}
    (hlabel : net.serverLabel label = some (.select d dead)) :
    label = .select d ∧ dead = net.dispatchDead d := by
  cases label with
  | select e =>
      cases hlabel
      exact ⟨rfl, rfl⟩
  | receive e m =>
      obtain ⟨conn, -, hpart⟩ := Option.bind_eq_some_iff.mp hlabel
      obtain ⟨pdu, -, hpart⟩ := Option.map_eq_some_iff.mp hpart
      cases hpart
  | _ => cases hlabel

/-- A dispatch stays on its connection as long as that is alive. -/
theorem frame_of_step {net target : Net σ} {label : Label}
    (hstep : net.step app label = some target) {d : DispatchId} {f : Dispatch}
    (hf : net.server.frames d = some f) (halive : target.alive f.conn = true) :
    ∃ f', target.server.frames d = some f' ∧ f'.request = f.request ∧ f'.conn = f.conn := by
  cases hrestart : restarts label with
  | true =>
      cases label <;> cases hrestart
      obtain rfl := Option.some.inj hstep
      rw [not_alive_restart] at halive
      cases halive
  | false =>
      rcases server_of_step hstep hrestart with ⟨-, hsame⟩ | ⟨part, hlabel, hpart⟩
      · exact ⟨f, by rw [hsame, hf], rfl, rfl⟩
      · have hsection := Server.section_of_step hpart
        obtain ⟨f', hf', hrequest, -⟩ := Server.follows_of_section hsection hf
        refine ⟨f', hf', hrequest, ?_⟩
        rcases Server.conn_of_section hsection hf hf' with hconn | ⟨rfl, -⟩
        · exact hconn
        · obtain ⟨rfl, hdead⟩ := serverLabel_select hlabel
          rw [dispatchDead_eq hf] at hdead
          rcases alive_of_step hstep halive with hbefore | ⟨hnone, -⟩
          · rw [not_alive_of_sdead hdead.symm] at hbefore
            cases hbefore
          · simp [sdead, hnone] at hdead

/-- A copy on a live connection arrives. -/
theorem Arrives.step {net target : Net σ} {label : Label}
    (hstep : net.step app label = some target) {n : ConnId} {request : Request}
    (harrives : Arrives net n request) (halive : target.alive n = true) :
    Arrives target n request := by
  rcases harrives with ⟨conn, hconn, hmem⟩ | ⟨d, f, hf, hrequest, rfl⟩
  · obtain ⟨conn', hconn', hcarries⟩ := exists_conn_of_step hstep hconn
    obtain ⟨_, hsame, hcdead, hsdead⟩ := alive_iff.mp halive
    obtain rfl := Option.some.inj (hconn'.symm.trans hsame)
    rcases up_of_carries hcarries hcdead hsdead hmem with hup | ⟨d, rfl, hhead⟩
    · exact .inl ⟨conn', hconn', hup⟩
    · rcases server_of_step hstep rfl with ⟨hnone, -⟩ | ⟨part, hlabel, hpart⟩
      · simp [serverLabel, hconn, hhead] at hnone
      · obtain rfl : .receive d n request.pdu = part := by
          simpa [serverLabel, hconn, hhead] using hlabel
        obtain ⟨-, hreceive⟩ := Option.ite_none_right_eq_some.mp hpart
        have htarget := Option.some.inj hreceive
        rw [Server.receive, decodeRequest_pdu] at htarget
        exact .inr ⟨d, _, by rw [← htarget, Server.frames_put_self], rfl, rfl⟩
  · obtain ⟨f', hf', hrequest', hconn⟩ := frame_of_step hstep hf halive
    exact .inr ⟨d, f', hf', hrequest'.trans hrequest, hconn⟩

/-- What a call that waits on a live connection has sent on it arrives. -/
def Delivered (net : Net σ) : Prop :=
  ∀ i k call n, (net.clients i).frames k = some call → pending call = true →
    call.ch = some n → net.alive n = true → Arrives net n call.request

/-- A call that waits after a step has waited before, on the same connection, or has just
sent its request. -/
theorem pending_of_moves {c : Client} {k : CallId} {call found : Call} {part : Client.Label}
    (hmoves : Client.Moves c k call part found) (hpending : pending found = true) :
    found.request = call.request ∧ found.ch = call.ch ∧
      (pending call = true ∨ ∃ last, part = .send k last) := by
  cases hmoves with
  | same => exact ⟨rfl, rfl, .inl hpending⟩
  | refconn | woken | erased | finished | bound => cases hpending
  | @sent last hphase =>
      refine ⟨?_, ?_, .inr ⟨last, rfl⟩⟩ <;> unfold Call.loop <;> split <;> rfl
  | expired hphase => exact ⟨rfl, rfl, .inl (by simp [pending, hphase])⟩
  | retried hphase =>
      refine ⟨?_, ?_, .inl (by simp [pending, hphase])⟩ <;> unfold Call.retry Call.loop <;>
        split_ifs <;> rfl
  | accepted =>
      unfold Call.accept at hpending ⊢
      split_ifs at hpending ⊢
      · exact ⟨rfl, rfl, .inl hpending⟩
      · exact ⟨rfl, rfl, .inl hpending⟩

/-- What is sent on a connection that is alive afterwards is on its way. -/
theorem arrives_send {net target : Net σ} {i : ClientId} {k : CallId} {ok last : Bool}
    (hstep : net.step app (.send i k ok last) = some target) {call : Call}
    (hcall : (net.clients i).frames k = some call) {n : ConnId} (hch : call.ch = some n)
    {conn : Conn} (hconn : net.conns n = some conn) (halive : target.alive n = true) :
    Arrives target n call.request := by
  have hsend : (net.putConn n (conn.sendUp ok call.request.pdu)).clientStep i (.send k last) =
      some target := by
    simpa [Net.step, send, hcall, hch, hconn] using hstep
  obtain ⟨c, -, rfl⟩ := clientStep_eq_some.mp hsend
  have hsent : ((net.putConn n (conn.sendUp ok call.request.pdu)).putClient i c).conns n =
      some (conn.sendUp ok call.request.pdu) := Function.update_self ..
  obtain ⟨_, hsame, hcdead, -⟩ := alive_iff.mp halive
  obtain rfl := Option.some.inj (hsent.symm.trans hsame)
  refine .inl ⟨_, hsent, ?_⟩
  unfold Conn.sendUp at hcdead ⊢
  split_ifs at hcdead ⊢ with hdead
  · exact absurd (hdead.symm.trans hcdead) nofun
  · exact List.mem_append_right _ (List.mem_singleton_self _)

/-- What has been sent on live connections keeps arriving. -/
theorem delivered_of_step {source : Net σ × List Event} {target : Net σ} {label : Label}
    (hissued : Issued source) (hdelivered : Delivered source.1)
    (hstep : source.1.step app label = some target) : Delivered target := by
  intro i k found n hfound hpending hch halive
  rcases call_of_step hstep hfound with ⟨_, _, _, _, _, rfl⟩ | ⟨call, hcall, hmoved⟩
  · cases hpending
  obtain ⟨hrequest, hsame, hbefore⟩ : found.request = call.request ∧ found.ch = call.ch ∧
      (pending call = true ∨ ∃ last, source.1.clientLabel label = some (i, .send k last)) := by
    rcases hmoved with rfl | ⟨part, hlabel, hmoves⟩
    · exact ⟨rfl, rfl, .inl hpending⟩
    · obtain ⟨hrequest, hsame, hbefore | ⟨last, rfl⟩⟩ := pending_of_moves hmoves hpending
      · exact ⟨hrequest, hsame, .inl hbefore⟩
      · exact ⟨hrequest, hsame, .inr ⟨last, hlabel⟩⟩
  rw [hsame] at hch
  rw [hrequest]
  obtain ⟨conn, hconn, -⟩ := hissued.call_conn i k call n hcall hch
  rcases hbefore with hbefore | ⟨last, hlabel⟩
  · rcases alive_of_step hstep halive with hlive | ⟨hnone, -⟩
    · exact (hdelivered i k call n hcall hbefore hch hlive).step hstep halive
    · rw [hconn] at hnone
      cases hnone
  · obtain ⟨ok, rfl⟩ := isPart_of_clientLabel hlabel
    exact arrives_send hstep hcall hch hconn halive

/-! ## What the runs keep -/

/-- The duplicates that have been dropped are answered, and the copies of requests on
live connections arrive. -/
structure Covered (app : Service σ) (source : Net σ × List Event) : Prop where
  progress : Server.Progress app (source.1.server, serverHistory source.2)
  dropped_conn : ∀ clt xid n,
    (∃ event ∈ serverHistory source.2, event.drops clt xid n = true) →
      ∃ conn, source.1.conns n = some conn
  noneLost : Server.NoneLost source.1.alive (source.1.server, serverHistory source.2)
  delivered : Delivered source.1

theorem covered_start (setup : Setup σ) : Covered setup.app (start setup, []) where
  progress := Server.progress_start _
  dropped_conn := by simp [serverHistory]
  noneLost := by simp [Server.NoneLost, serverHistory]
  delivered := by simp [Delivered, start, newClient]

/-- A duplicate is dropped on a connection that has been made. -/
theorem conn_of_drops {source : Net σ × List Event} {target : Net σ} {label : Label}
    (hissued : Issued source) (hstep : source.1.step app label = some target)
    {part : Server.Label} (hpart : source.1.server.step app part = some target.server)
    {event : Server.Event} (hmem : event ∈ Server.events app source.1.server part)
    {clt xid : UInt32} {n : ConnId} (hdrops : event.drops clt xid n = true) :
    ∃ conn, target.conns n = some conn := by
  cases Server.emits_of_mem hmem with
  | @checked d f hf =>
      obtain ⟨_, hframe, hstage, -⟩ := Server.onFrame_eq_some.mp hpart
      obtain rfl := Option.some.inj (hf.symm.trans hframe)
      obtain ⟨conn, _, hconn, -⟩ := hissued.dispatch_issued d f hf (by rw [hstage]; rfl)
      obtain rfl : f.conn = n := by
        unfold Server.Event.drops at hdrops
        split at hdrops
        · next heq =>
            obtain ⟨rfl, rfl, -⟩ := Server.Event.checked.inj heq
            simpa using (Bool.and_eq_true_iff.mp hdrops).1
        · cases hdrops
      obtain ⟨conn', hconn', -⟩ := exists_conn_of_step hstep hconn
      exact ⟨conn', hconn'⟩
  | entered | produced | sent | refused => cases hdrops

theorem exists_conn {net target : Net σ} {label : Label}
    (hstep : net.step app label = some target) {n : ConnId}
    (hconn : ∃ conn, net.conns n = some conn) : ∃ conn, target.conns n = some conn := by
  obtain ⟨conn, hconn⟩ := hconn
  obtain ⟨conn', hconn', -⟩ := exists_conn_of_step hstep hconn
  exact ⟨conn', hconn'⟩

/-- A restart closes all connections. -/
theorem Covered.restart {source : Net σ × List Event} {target : Net σ} {nonce : UInt32}
    (h : Covered app source) (hissued : Issued source)
    (hstep : source.1.step app (.restart nonce) = some target) {history : List Event}
    (hhistory : serverHistory history = serverHistory source.2) :
    Covered app (target, history) := by
  have hdelivered := delivered_of_step hissued h.delivered hstep
  have hconns := fun n => exists_conn hstep (n := n)
  obtain rfl := Option.some.inj hstep
  refine ⟨?_, fun clt xid n hdrops => ?_, fun clt xid n _ halive => ?_, hdelivered⟩
  · rw [hhistory]
    exact h.progress.restart nonce
  · rw [hhistory] at hdrops
    exact hconns n (h.dropped_conn clt xid n hdrops)
  · rw [not_alive_restart] at halive
    cases halive

theorem Covered.step {setup : Setup σ} {source target : Net σ × List Event} {label : Label}
    (h : Covered setup.app source) (hissued : Issued source)
    (hguard : choosesReaching source label = true)
    (hstep : (logged setup).step source label = some target) : Covered setup.app target := by
  obtain ⟨hnext, hlog⟩ := System.recorded_step_eq_some.mp hstep
  have hnext' : source.1.step setup.app label = some target.1 := hnext
  have hhistory : serverHistory target.2 = serverHistory source.2 ++
      (source.1.serverLabel label).toList.flatMap
        (Server.events setup.app source.1.server) := by
    rw [hlog, serverHistory_append, serverHistory_events]
  have hdelivered := delivered_of_step hissued h.delivered hnext'
  cases hrestart : restarts label with
  | true =>
      cases label <;> cases hrestart
      exact h.restart hissued hnext' (by simpa [serverLabel] using hhistory)
  | false =>
      rcases server_of_step hnext' hrestart with ⟨hnone, hsame⟩ | ⟨part, hlabel, hpart⟩
      · have hsource : (target.1.server, serverHistory target.2) =
            (source.1.server, serverHistory source.2) := by
          rw [hhistory, hnone, hsame]
          simp
        have hdropped : ∀ clt xid n,
            (∃ event ∈ serverHistory target.2, event.drops clt xid n = true) →
              ∃ event ∈ serverHistory source.2, event.drops clt xid n = true :=
          fun _ _ _ hdrops => (Prod.mk.inj hsource).2 ▸ hdrops
        refine ⟨hsource ▸ h.progress, fun clt xid n hdrops =>
          exists_conn hnext' (h.dropped_conn clt xid n (hdropped clt xid n hdrops)),
          fun clt xid n hdrops halive => ?_, hdelivered⟩
        rw [hsource]
        rcases alive_of_step hnext' halive with hlive | ⟨hnew, -⟩
        · exact h.noneLost clt xid n (hdropped clt xid n hdrops) hlive
        · obtain ⟨conn, hconn⟩ := h.dropped_conn clt xid n (hdropped clt xid n hdrops)
          rw [hconn] at hnew
          cases hnew
      · have hmore : serverHistory target.2 = serverHistory source.2 ++
            Server.events setup.app source.1.server part := by
          simpa [hlabel] using hhistory
        have hmoved : (Server.logged setup.app setup.srvNonce).step
            (source.1.server, serverHistory source.2) part =
              some (target.1.server, serverHistory target.2) :=
          System.recorded_step_eq_some.mpr ⟨hpart, hmore⟩
        have hlive : ∀ n, target.1.alive n = true → source.1.alive n = true := by
          intro n halive
          rcases alive_of_step hnext' halive with hlive | ⟨-, hnone⟩
          · exact hlive
          · rw [hlabel] at hnone
            cases hnone
        refine ⟨h.progress.step hmoved, ?_, h.noneLost.step h.progress hmoved hlive ?_,
          hdelivered⟩
        · rintro clt xid n ⟨event, hmem, hdrops⟩
          rw [hmore] at hmem
          rcases List.mem_append.mp hmem with hold | hnew
          · exact exists_conn hnext' (h.dropped_conn clt xid n ⟨event, hold, hdrops⟩)
          · exact conn_of_drops hissued hnext' hpart hnew hdrops
        · rintro d dead f rfl hf
          obtain ⟨rfl, rfl⟩ := serverLabel_select hlabel
          have hf' : source.1.server.frames d = some f := hf
          refine ⟨by simpa [choosesReaching, hf'] using hguard, fun hdead => ?_⟩
          exact not_alive_of_sdead ((dispatchDead_eq hf').symm.trans hdead)

/-! ## The claim -/

/-- No lost reply, for the runs in which the reply of a dispatch goes to the connections
of the duplicates that have been dropped, unless these are dead: no call waits on a live
connection for a request whose handler has returned, whose copies have all been consumed
and whose reply has not been sent on this connection. -/
theorem noLostReply {setup : Setup σ} {labels : List Label} {reached : Net σ × List Event}
    (hrun : (logged setup).Run (fun source label => choosesReaching source label = true)
      labels reached)
    (i : ClientId) (k : CallId) (call : Call) (n : ConnId) :
    ¬ LostReply reached i k call n := by
  obtain ⟨-, hcovered⟩ : Issued reached ∧ Covered setup.app reached := by
    refine hrun.invariant (fun reached => Issued reached ∧ Covered setup.app reached)
      ⟨issued_start setup, covered_start setup⟩ ?_
    rintro _ source label target - ⟨hissued, hcovered⟩ hguard hstep
    exact ⟨hissued.step hstep, hcovered.step hissued hguard hstep⟩
  intro hlost
  rcases hcovered.delivered i k call n hlost.frame hlost.waits.1 hlost.ch hlost.alive with
    ⟨conn, hconn, hup⟩ | ⟨d, f, hf, hrequest, rfl⟩
  · exact hlost.consumed n conn hconn hup
  · have hended := hlost.ended d f hf (by simp [hrequest, Server.isOf])
    have hnot : ∀ event ∈ serverHistory reached.2,
        ¬ event.answers call.request.clt call.request.xid f.conn = true := by
      intro event hmem hanswers
      rw [hlost.unanswered event (mem_serverHistory.mp hmem)] at hanswers
      cases hanswers
    rcases hcovered.progress.concluded d f hf hended with ⟨event, hmem, hanswers⟩ |
      hunhandled | ⟨e, hchecked⟩
    · exact hnot event hmem (hrequest ▸ hanswers)
    · obtain ⟨e, pdu, hproduced⟩ := hlost.finished
      have hhandled :=
        hcovered.progress.produced e call.request pdu (mem_serverHistory.mpr hproduced)
      rw [← hrequest, hunhandled] at hhandled
      cases hhandled
    · have hdrops : Server.Event.drops call.request.clt call.request.xid f.conn
          (.checked e f.conn f.request .inProgress) = true := by
        simp [Server.Event.drops, Server.isOf, hrequest]
      rcases hcovered.noneLost _ _ f.conn ⟨_, hchecked, hdrops⟩ hlost.alive with
        ⟨event, hmem, hanswers⟩ | ⟨e, g, hg, hkey, howes⟩
      · exact hnot event hmem hanswers
      · have hgone := hlost.ended e g hg hkey
        simp [Server.owes, hgone] at howes

/-- A call whose connection dies at both ends transmits again on another one. The copy is
dropped, and the first dispatch finds its own connection dead and takes the new one. -/
def switchedRun : List Label :=
  [.start 0 0 1 (be32 0), .refconn 0 0 (some 0), .send 0 0 true false, .receive 0 0, .vet 0,
    .enroll 0, .connect 0, .check 0, .die 0 true, .die 0 false, .expire 0 0, .retry 0 0 false,
    .refconn 0 0 (some 1), .send 0 0 true false, .receive 1 1, .vet 1, .enroll 1, .connect 1,
    .check 1, .enter 0 0 fun _ => 0, .record 0, .select 0, .reply 0 true []]

theorem noLostReply_switched :
    ∃ reached, (logged rpctest).Run (fun source label => choosesReaching source label = true)
        switchedRun reached ∧ reached.1.alive 1 = true ∧
      (∃ event ∈ serverHistory reached.2, Server.Event.drops 1 1 1 event = true) ∧
      ∀ i k call n, ¬ LostReply reached i k call n := by
  have hexec : ((logged rpctest).execIf choosesReaching (logged rpctest).init switchedRun).any
      (fun reached => reached.1.alive 1 &&
        (serverHistory reached.2).any (Server.Event.drops 1 1 1)) = true := by
    decide +kernel
  obtain ⟨reached, hrun, hreached⟩ := System.exists_run_of_execIf hexec
  rw [Bool.and_eq_true, List.any_eq_true] at hreached
  exact ⟨reached, hrun, hreached.1, hreached.2, fun i k call n => noLostReply hrun i k call n⟩

/-! ## A reply that is lost

The connection dies at the client's end only, and the call transmits again. Its copy is
dropped as in progress. The first dispatch does not know that its connection is dead and
sends the reply there. -/

/-- The connection that a step may make. -/
def makesConn : Label → Option ConnId
  | .refconn _ _ connected => connected
  | _ => none

/-- The dispatch that a step may make. -/
def makesDispatch : Label → Option DispatchId
  | .receive d _ => some d
  | _ => none

/-- The connections and dispatches of a run are those that its steps have made. -/
theorem made_of_run {setup : Setup σ} {guard : Net σ × List Event → Label → Prop}
    {labels : List Label} {reached : Net σ × List Event}
    (hrun : (logged setup).Run guard labels reached) :
    (∀ n conn, reached.1.conns n = some conn → n ∈ labels.filterMap makesConn) ∧
      ∀ d f, reached.1.server.frames d = some f → d ∈ labels.filterMap makesDispatch := by
  refine hrun.invariantOn (fun labels reached =>
    (∀ n conn, reached.1.conns n = some conn → n ∈ labels.filterMap makesConn) ∧
      ∀ d f, reached.1.server.frames d = some f → d ∈ labels.filterMap makesDispatch)
    ⟨nofun, nofun⟩ ?_
  rintro labels source label target - ⟨hconns, hframes⟩ - hstep
  obtain ⟨hnext, -⟩ := System.recorded_step_eq_some.mp hstep
  have hnext' : source.1.step setup.app label = some target.1 := hnext
  refine ⟨fun n conn' hconn' => ?_, fun d f' hf' => ?_⟩ <;>
    rw [List.filterMap_append, List.mem_append]
  · rcases conns_of_step hnext' hconn' with ⟨i, k, rfl, -, -⟩ | ⟨conn, hconn, -⟩
    · exact .inr (by simp [makesConn])
    · exact .inl (hconns n conn hconn)
  · cases hrestart : restarts label with
    | true =>
        cases label <;> cases hrestart
        rw [← Option.some.inj hnext'] at hf'
        cases hf'
    | false =>
        rcases server_of_step hnext' hrestart with ⟨-, hsame⟩ | ⟨part, hlabel, hpart⟩
        · exact .inl (hframes d f' (hsame ▸ hf'))
        · rcases Server.frame_of_section (Server.section_of_step hpart) hf' with
            ⟨pdu, rfl, -⟩ | ⟨f, hf, -⟩
          · obtain ⟨rfl, -⟩ := serverLabel_receive hlabel
            exact .inr (by simp [makesDispatch])
          · exact .inl (hframes d f hf)

/-- The first copy is received and the connection dies at the client's end; the second
copy is dropped, and the first dispatch replies on its own connection. -/
def lostRun : List Label :=
  [.start 0 0 1 (be32 0), .refconn 0 0 (some 0), .send 0 0 true false, .receive 0 0, .vet 0,
    .enroll 0, .connect 0, .check 0, .die 0 true, .expire 0 0, .retry 0 0 false,
    .refconn 0 0 (some 1), .send 0 0 true false, .receive 1 1, .vet 1, .enroll 1, .connect 1,
    .check 1, .enter 0 0 fun _ => 0, .record 0, .select 0, .reply 0 true []]

/-- The handler of a request ends. -/
def produces (request : Request) : Event → Bool
  | .server (.produced _ served _) => served == request
  | _ => false

/-- The reply of the first dispatch is lost. -/
theorem halfDead_losesReply :
    ∃ reached, (logged rpctest).Run anyStep lostRun reached ∧
      ∃ call, LostReply reached 0 0 call 1 := by
  have hexec : ((logged rpctest).exec (logged rpctest).init lostRun).any (fun reached =>
      ((reached.1.clients 0).frames 0).any fun call =>
        pending call && !call.done && call.ch == some 1 && reached.1.alive 1 &&
          (lostRun.filterMap makesConn).all (fun m =>
            (reached.1.conns m).all fun conn => conn.up.isEmpty) &&
          (lostRun.filterMap makesDispatch).all (fun d =>
            (reached.1.server.frames d).all fun f => f.stage == .ended) &&
          reached.2.any (produces call.request) &&
          (serverHistory reached.2).all fun event =>
            !event.answers call.request.clt call.request.xid 1) = true := by
    decide +kernel
  obtain ⟨reached, hrun, hreached⟩ := System.exists_run_of_exec hexec
  obtain ⟨call, hcall, htest⟩ := (Option.any_eq_true _ _).mp hreached
  simp only [Bool.and_eq_true, Bool.not_eq_true', beq_iff_eq, List.any_eq_true,
    List.all_eq_true, mem_serverHistory] at htest
  obtain ⟨⟨⟨⟨⟨⟨⟨hpending, hdone⟩, hch⟩, halive⟩, hup⟩, hended⟩, hfinished⟩, hunanswered⟩ := htest
  obtain ⟨hconns, hframes⟩ := made_of_run hrun
  refine ⟨reached, hrun, call, hcall, ⟨hpending, hdone⟩, hch, halive, fun m conn hconn hmem => ?_,
    fun d f hf _ => ?_, ?_, hunanswered⟩
  · have hempty := hup m (hconns m conn hconn)
    rw [hconn, Option.all_some, List.isEmpty_iff] at hempty
    rw [hempty] at hmem
    cases hmem
  · have hstage := hended d (hframes d f hf)
    rw [hf, Option.all_some, beq_iff_eq] at hstage
    exact hstage
  · obtain ⟨event, hmem, hevent⟩ := hfinished
    unfold produces at hevent
    split at hevent
    · next d request pdu =>
        obtain rfl : request = call.request := by simpa using hevent
        exact ⟨d, pdu, hmem⟩
    · cases hevent

end YfsLab.Rpc.Net
