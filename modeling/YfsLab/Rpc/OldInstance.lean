/-
# Requests for an old server

A client that has bound stamps its requests with the nonce it got, and a server
refuses what is stamped with another nonce than its own. The stamp zero stands for
a client that has not bound yet, and is let through; so a server whose nonce is
zero cannot be told from no server, and what is stamped with its nonce is executed
by every server that comes after it. Apart from such requests, a handler is only
entered by the server that the client is bound to.
-/

import YfsLab.Rpc.Issued

namespace YfsLab.Rpc.Net

open BigEndian Transition Wire

variable {σ : Type}

/-- The step does not look at a request stamped with zero, other than `bind`, at a
server whose nonce is not zero. -/
def heedsStamp (source : Net σ × List Event) : Label → Bool
  | .vet d => (source.1.server.frames d).all fun f =>
      f.request.proc == RpcConst.bind || f.request.srv != 0 || source.1.server.nonce == 0
  | _ => true

/-- The stages from the look at the header to the entry of the handler. -/
def vetted : Stage → Bool
  | .enroll | .connect | .check | .run => true
  | _ => false

/-- Requests other than `bind` carry a nonce that their client has been bound to, and
those that have been let through carry the server's. -/
structure Stamped (source : Net σ × List Event) : Prop where
  client_bound : ∀ i, (source.1.clients i).bindDone = true →
    .bound i (source.1.clients i).srvNonce ∈ source.2
  issued_bound : ∀ i k request, .issued i k request ∈ source.2 →
    request.proc ≠ RpcConst.bind → .bound i request.srv ∈ source.2
  vetted_srv : ∀ d f, source.1.server.frames d = some f → vetted f.stage = true →
    f.request.proc ≠ RpcConst.bind → f.request.srv = source.1.server.nonce
  entered_bound : ∀ d n request nonce, .server (.entered d n request nonce) ∈ source.2 →
    request.proc ≠ RpcConst.bind →
    ∃ conn, source.1.conns n = some conn ∧ .bound conn.owner nonce ∈ source.2

theorem stamped_start (setup : Setup σ) : Stamped (start setup, []) where
  client_bound := by simp [start, newClient]
  issued_bound := by simp
  vetted_srv := by simp [start, Server.start]
  entered_bound := by simp

/-- A client that is bound has been told so. -/
theorem client_bound_of_step {app : Service σ} {source : Net σ × List Event} {target : Net σ}
    {label : Label} (h : Stamped source) (hstep : source.1.step app label = some target)
    {i : ClientId} (hbound : (target.clients i).bindDone = true) :
    .bound i (target.clients i).srvNonce ∈ source.2 ++ events app source.1 label := by
  rcases client_of_step hstep i with hsame | ⟨part, hlabel, hpart⟩
  · rw [hsame] at hbound ⊢
    exact List.mem_append_left _ (h.client_bound i hbound)
  · rcases Client.bound_of_step hpart with ⟨hdone, hnonce⟩ | ⟨k, call, nonce, rfl, hcall, hto, heq⟩
    · rw [hnonce]
      exact List.mem_append_left _ (h.client_bound i (hdone ▸ hbound))
    · refine List.mem_append_right _ (clientEvents_subset hlabel ?_)
      simp [clientEvents, hcall, hto, heq]

/-- A request that is issued carries what the client is bound to. -/
theorem issued_bound_of_step {app : Service σ} {source : Net σ × List Event} {label : Label}
    (h : Stamped source) {i : ClientId} {k : CallId} {request : Request}
    (hissued : .issued i k request ∈ source.2 ++ events app source.1 label)
    (hproc : request.proc ≠ RpcConst.bind) :
    .bound i request.srv ∈ source.2 ++ events app source.1 label := by
  refine List.mem_append_left _ ?_
  rcases List.mem_append.mp hissued with hold | hnew
  · exact h.issued_bound i k request hold hproc
  · rcases mem_events_cases hnew with ⟨j, part, _, hevent⟩ | ⟨_, _, _, _, hother⟩ | ⟨_, hother⟩
    · cases part with
      | start k' proc args =>
          simp only [clientEvents] at hevent
          split_ifs at hevent with hrefuses
          · cases hevent
          · cases List.mem_singleton.mp hevent
            have hbound : (source.1.clients i).bindDone = true := by
              have hproc' : proc ≠ RpcConst.bind := hproc
              simpa [Client.refuses, hproc'] using hrefuses
            exact h.client_bound i hbound
      | finish | bind => simp [clientEvents] at hevent
      | _ => cases hevent
    · cases hother
    · cases hother

theorem queued_of_leadsTo {stage next : Stage} (hvetted : vetted next = true)
    (hbefore : vetted stage = false) (hleads : stage.leadsTo next = true) :
    stage = .queued := by
  cases stage <;> cases next <;>
    first
    | rfl
    | exact absurd hleads Bool.false_ne_true
    | exact absurd hvetted Bool.false_ne_true
    | exact absurd hbefore.symm Bool.false_ne_true

/-- A dispatch is let through by the look at its header only. -/
theorem vetted_of_section {app : Service σ} {s target : Server σ} {part : Server.Label}
    (hsection : Server.Section app s part target) {d : DispatchId} {f f' : Dispatch}
    (hf : s.frames d = some f) (hqueued : f.stage = .queued)
    (hf' : target.frames d = some f') (hvetted : vetted f'.stage = true) :
    part = .vet d ∧ (f.request.srv = 0 ∨ f.request.srv = s.nonce) := by
  have hstays : ¬ target.frames d = some f := by
    intro hsame
    obtain rfl := Option.some.inj (hsame.symm.trans hf')
    rw [hqueued] at hvetted
    cases hvetted
  -- a section that writes another dispatch, or this one at another stage
  have hother : ∀ {base : Server σ} {j : DispatchId} {g g' : Dispatch},
      target = base.put j g' → base.frames = s.frames → s.frames j = some g →
      g.stage = .queued := by
    rintro base j g g' rfl hbase hg
    by_cases hj : d = j
    · subst hj
      obtain rfl := Option.some.inj (hf.symm.trans hg)
      exact hqueued
    · exact absurd (by rw [Server.frames_put_of_ne base hj, hbase, hf]) hstays
  cases hsection with
  | dropped | stirred => exact absurd hf hstays
  | received hfresh =>
      rcases Server.frames_put_eq_some.mp hf' with ⟨rfl, _⟩ | ⟨_, hsame⟩
      · rw [hfresh] at hf
        cases hf
      · exact absurd (by rw [hf', ← hsame, hf]) hstays
  | old hg | unregistered hg =>
      rcases Server.frames_put_eq_some.mp hf' with ⟨_, rfl⟩ | ⟨_, hsame⟩
      · cases hvetted
      · exact absurd (by rw [hf', ← hsame, hf]) hstays
  | vetted hg _ hsrv =>
      rcases Server.frames_put_eq_some.mp hf' with ⟨rfl, _⟩ | ⟨_, hsame⟩
      · obtain rfl := Option.some.inj (hf.symm.trans hg)
        exact ⟨rfl, hsrv⟩
      · exact absurd (by rw [hf', ← hsame, hf]) hstays
  | enrolled hg hstage | connected hg hstage | checked hg hstage | recorded hg hstage
  | switched hg hstage | stays hg hstage | sent hg hstage | refused hg hstage =>
      have hcontra := hother rfl rfl hg
      rw [hstage] at hcontra
      cases hcontra
  | waits hg hhandles | returned hg hhandles =>
      have hcontra := hother rfl rfl hg
      rcases hhandles.stage with hstage | hstage <;> rw [hstage] at hcontra <;> cases hcontra

theorem serverLabel_vet {net : Net σ} {label : Label} {d : DispatchId}
    (hlabel : net.serverLabel label = some (.vet d)) : label = .vet d := by
  cases label with
  | receive e m =>
      obtain ⟨conn, _, hpart⟩ := Option.bind_eq_some_iff.mp hlabel
      obtain ⟨head, _, hpart⟩ := Option.map_eq_some_iff.mp hpart
      cases hpart
  | vet e =>
      cases hlabel
      rfl
  | enroll | connect | check | enter | resume | stir | record | select | reply | refuse =>
      simp [serverLabel] at hlabel
  | _ => cases hlabel

/-- A server lets through what carries its nonce. -/
theorem vetted_srv_of_step {app : Service σ} {source : Net σ × List Event} {target : Net σ}
    {label : Label} (h : Stamped source) (hguard : heedsStamp source label = true)
    (hstep : source.1.step app label = some target) {d : DispatchId} {f : Dispatch}
    (hf : target.server.frames d = some f) (hvetted : vetted f.stage = true)
    (hproc : f.request.proc ≠ RpcConst.bind) : f.request.srv = target.server.nonce := by
  cases hrestart : restarts label with
  | true =>
      cases label <;> simp [restarts] at hrestart
      obtain rfl := Option.some.inj hstep
      cases hf
  | false =>
      rcases server_of_step hstep hrestart with ⟨_, hsame⟩ | ⟨part, hlabel, hpart⟩
      · rw [hsame] at hf ⊢
        exact h.vetted_srv d f hf hvetted hproc
      · have hsection := Server.section_of_step hpart
        rw [Server.nonce_of_section hsection]
        rcases Server.frame_of_section hsection hf with ⟨_, _, _, hqueued⟩ |
          ⟨g, hg, hrequest, hmoved⟩
        · rw [hqueued] at hvetted
          cases hvetted
        · by_cases hbefore : vetted g.stage = true
          · rw [hrequest] at hproc ⊢
            exact h.vetted_srv d g hg hbefore hproc
          · rcases hmoved with rfl | hleads
            · exact absurd hvetted hbefore
            · have hqueued := queued_of_leadsTo hvetted (by simpa using hbefore) hleads
              obtain ⟨rfl, hsrv⟩ := vetted_of_section hsection hg hqueued hf hvetted
              rw [hrequest] at hproc ⊢
              obtain rfl := serverLabel_vet hlabel
              rcases hsrv with hzero | hsrv
              · have hnonce : source.1.server.nonce = 0 := by
                  simpa [heedsStamp, hg, hproc, hzero] using hguard
                rw [hzero, hnonce]
              · exact hsrv

/-- A handler that is entered works for a client that is bound to the server. -/
theorem entered_bound_of_step {app : Service σ} {source : Net σ × List Event}
    {target : Net σ} {label : Label} (hissued : Issued source) (h : Stamped source)
    (hstep : source.1.step app label = some target) {d : DispatchId} {n : ConnId}
    {request : Request} {nonce : UInt32}
    (hentered : .server (.entered d n request nonce) ∈ source.2 ++ events app source.1 label)
    (hproc : request.proc ≠ RpcConst.bind) :
    ∃ conn, target.conns n = some conn ∧
      .bound conn.owner nonce ∈ source.2 ++ events app source.1 label := by
  -- an owner that was bound before still is
  have hkeep : (∃ conn, source.1.conns n = some conn ∧ .bound conn.owner nonce ∈ source.2) →
      ∃ conn, target.conns n = some conn ∧
        .bound conn.owner nonce ∈ source.2 ++ events app source.1 label := by
    rintro ⟨conn, hconn, hbound⟩
    obtain ⟨conn', hconn', howner⟩ := owner_of_step hstep ⟨conn, hconn, rfl⟩
    exact ⟨conn', hconn', List.mem_append_left _ (howner ▸ hbound)⟩
  rcases List.mem_append.mp hentered with hold | hnew
  · exact hkeep (h.entered_bound d n request nonce hold hproc)
  · rcases mem_events_cases hnew with ⟨i, part, _, hevent⟩ | ⟨part, emitted, hlabel, hevent, heq⟩ |
      ⟨_, hother⟩
    · cases part with
      | start =>
          simp only [clientEvents] at hevent
          split_ifs at hevent <;> simp at hevent
      | finish | bind => simp [clientEvents] at hevent
      | _ => cases hevent
    · obtain rfl := Event.server.inj heq
      cases Server.emits_of_mem hevent with
      | @entered _ f choice area hf =>
          have hstage : f.stage = .run := by
            rcases server_of_step hstep (by cases label <;> simp_all [serverLabel, restarts]) with
              ⟨hnone, _⟩ | ⟨part, hpart, hmoved⟩
            · rw [hnone] at hlabel
              cases hlabel
            · obtain rfl := Option.some.inj (hlabel.symm.trans hpart)
              obtain ⟨g, hg, hat, _⟩ := Server.onFrame_eq_some.mp hmoved
              obtain rfl := Option.some.inj (hf.symm.trans hg)
              exact hat
          obtain ⟨conn, k, hconn, hmine⟩ :=
            hissued.dispatch_issued d f hf (by rw [hstage]; rfl)
          have hsrv := h.vetted_srv d f hf (by rw [hstage]; rfl) hproc
          exact hkeep ⟨conn, hconn, hsrv ▸ h.issued_bound _ k f.request hmine hproc⟩
    · cases hother

theorem Stamped.step {setup : Setup σ} {source target : Net σ × List Event} {label : Label}
    (hissued : Issued source) (h : Stamped source) (hguard : heedsStamp source label = true)
    (hstep : (logged setup).step source label = some target) : Stamped target := by
  obtain ⟨hnext, hlog⟩ := System.recorded_step_eq_some.mp hstep
  have hnext' : source.1.step setup.app label = some target.1 := hnext
  refine ⟨?_, ?_, ?_, ?_⟩
  · intro i hbound
    rw [hlog]
    exact client_bound_of_step h hnext' hbound
  · intro i k request hmem hproc
    rw [hlog] at hmem ⊢
    exact issued_bound_of_step h hmem hproc
  · exact fun d f hf hvetted hproc => vetted_srv_of_step h hguard hnext' hf hvetted hproc
  · intro d n request nonce hmem hproc
    rw [hlog] at hmem ⊢
    exact entered_bound_of_step hissued h hnext' hmem hproc

/-- Old-instance filtering, for the runs of any clients and any number of servers in
which no request stamped with zero, other than `bind`, is looked at by a server whose
nonce is not zero: a handler other than `bind` is entered for a request only by a
server whose nonce a successful bind of the client that sent it has returned. -/
theorem executedByBoundServer {setup : Setup σ} {labels : List Label}
    {reached : Net σ × List Event}
    (hrun : (logged setup).Run (fun source label => heedsStamp source label = true)
      labels reached) {d : DispatchId} {n : ConnId} {request : Request} {nonce : UInt32}
    (hentered : .server (.entered d n request nonce) ∈ reached.2)
    (hproc : request.proc ≠ RpcConst.bind) :
    ∃ conn, reached.1.conns n = some conn ∧ .bound conn.owner nonce ∈ reached.2 := by
  have hstamped : Stamped reached :=
    hrun.invariant Stamped (stamped_start setup) fun prior h hguard hstep =>
      h.step (issued_of_run prior) hguard hstep
  exact hstamped.entered_bound d n request nonce hentered hproc

/-- One client is bound to a server, which is replaced and refuses the client's next
call. Another client is bound to the new server, and its call is executed. -/
def replacedRun : List Label :=
  [.start 0 0 1 (be32 0), .refconn 0 0 (some 0), .send 0 0 true false, .receive 0 0, .vet 0,
    .enroll 0, .connect 0, .check 0, .enter 0 0 fun _ => 0, .record 0, .select 0,
    .reply 0 true [], .deliver 0, .wake 0 0, .erase 0 0, .finish 0 0, .bind 0 0,
    .restart 5, .die 0 true,
    .start 0 1 23 (be32 7), .refconn 0 1 (some 1), .send 0 1 true false, .receive 1 1, .vet 1,
    .start 1 0 1 (be32 0), .refconn 1 0 (some 2), .send 1 0 true false, .receive 2 2, .vet 2,
    .enroll 2, .connect 2, .check 2, .enter 2 0 fun _ => 0, .record 2, .select 2,
    .reply 2 true [], .deliver 2, .wake 1 0, .erase 1 0, .finish 1 0, .bind 1 0,
    .start 1 1 23 (be32 7), .refconn 1 1 none, .send 1 1 true false, .receive 3 2, .vet 3,
    .enroll 3, .connect 3, .check 3, .enter 3 0 fun _ => 0]

/-- The request of the second client's call. -/
def freshRequest : Request where
  header := { xid := 2, proc := 23, cltNonce := 2, srvNonce := 5, xidRep := 1 }
  args := be32 7

theorem executedByBoundServer_replaced :
    ∃ reached, (logged rpctest).Run (fun source label => heedsStamp source label = true)
        replacedRun reached ∧
      ∃ conn, reached.1.conns 2 = some conn ∧ .bound conn.owner 5 ∈ reached.2 := by
  have hexec : ((logged rpctest).execIf heedsStamp (logged rpctest).init replacedRun).any
      (fun reached => reached.2.contains (.server (.entered 3 2 freshRequest 5))) = true := by
    decide +kernel
  obtain ⟨reached, hrun, hentered⟩ := System.exists_run_of_execIf hexec
  exact ⟨reached, hrun, executedByBoundServer hrun (by simpa using hentered) (by decide)⟩

/-! ## The server whose nonce is zero -/

/-- `rpctest`, when `random()` has drawn zero for the first server. -/
def drewZero : Setup Unit := { rpctest with srvNonce := 0 }

/-- A client is bound to a server with nonce zero, which is replaced. Its next call is
lost with the connection to the old server, and sent once more to the new one. -/
def zeroRun : List Label :=
  [.start 0 0 1 (be32 0), .refconn 0 0 (some 0), .send 0 0 true false, .receive 0 0, .vet 0,
    .enroll 0, .connect 0, .check 0, .enter 0 0 fun _ => 0, .record 0, .select 0,
    .reply 0 true [], .deliver 0, .wake 0 0, .erase 0 0, .finish 0 0, .bind 0 0,
    .restart 5, .start 0 1 23 (be32 7), .refconn 0 1 none, .send 0 1 true false, .die 0 true,
    .expire 0 1, .retry 0 1 false, .refconn 0 1 (some 1), .send 0 1 true false,
    .receive 1 1, .vet 1, .enroll 1, .connect 1, .check 1, .enter 1 0 fun _ => 0]

/-- The request of the call that was made for the old server. -/
def zeroRequest : Request where
  header := { xid := 2, proc := 23, cltNonce := 1, srvNonce := 0, xidRep := 1 }
  args := be32 7

/-- The call is executed by the new server, to which the client is not bound. -/
theorem zeroStamp_executedByOther :
    ∃ reached, (logged drewZero).Run anyStep zeroRun reached ∧
      .server (.entered 1 1 zeroRequest 5) ∈ reached.2 ∧
      ¬ ∃ conn, reached.1.conns 1 = some conn ∧ .bound conn.owner 5 ∈ reached.2 := by
  have hexec : ((logged drewZero).exec (logged drewZero).init zeroRun).any
      (fun reached => reached.2.contains (.server (.entered 1 1 zeroRequest 5)) &&
        !(reached.1.conns 1).any fun conn => reached.2.contains (.bound conn.owner 5))
      = true := by
    decide +kernel
  obtain ⟨reached, hrun, hreached⟩ := System.exists_run_of_exec hexec
  rw [Bool.and_eq_true] at hreached
  refine ⟨reached, hrun, by simpa using hreached.1, ?_⟩
  rintro ⟨conn, hconn, hbound⟩
  simp [hconn, hbound] at hreached

end YfsLab.Rpc.Net
