/-
# The jobs that leave a reference behind

A job whose request is for an old instance of the server ends without giving its
reference back. A job of a client that retransmits, for a procedure that there is, saves
its connection in the table of the clients, and the entry takes a reference of its own;
from then on the client always has an entry. No other job leaves anything behind. So when
all jobs have ended, what is left tells whether there has been such a job.
-/

import YfsLab.Rpc.ReplyConnection

namespace YfsLab.Rpc

open BigEndian Holders Poll Transition Wire

namespace Server

variable {σ : Type} {app : Service σ}

/-- A request for an old instance of the server. -/
def old (s : Server σ) (request : Request) : Bool :=
  request.srv != 0 && request.srv != s.nonce

/-- A job for this request leaves a reference behind: its own, or that of the entry of
its client. -/
def leavesReference (app : Service σ) (s : Server σ) (request : Request) : Bool :=
  s.old request || (handled app request.proc && request.clt != 0)

/-! ## How a dispatch moves on -/

/-- Where a dispatch goes on behind the look at its header. -/
def vettedStage (app : Service σ) (s : Server σ) (request : Request) : Stage :=
  if s.old request then .refuse RpcConst.oldsrvFailure
  else if handled app request.proc then if request.clt = 0 then .run else .enroll
  else .ended

theorem vet_eq (app : Service σ) (s : Server σ) (d : DispatchId) (f : Dispatch) :
    s.vet app.registered d f = s.put d { f with stage := s.vettedStage app f.request } := by
  simp only [vet, vettedStage, old, handled, Bool.and_eq_true, bne_iff_ne, Bool.or_eq_true,
    beq_iff_eq]
  by_cases hold : f.request.srv ≠ 0 ∧ f.request.srv ≠ s.nonce
  · simp only [if_pos hold]
  · simp only [if_neg hold]
    by_cases hbind : f.request.proc = RpcConst.bind
    · simp [hbind]
    · cases hregistered : app.registered f.request.proc <;> simp [hbind]

/-- A section that changes a dispatch is one of its own. -/
theorem label_of_changed {s target : Server σ} {label : Label}
    (hstep : s.step app label = some target) {j : DispatchId} {f : Dispatch}
    (hf : s.frames j = some f) (hne : target.frames j ≠ some f) :
    (f.stage = .queued → label = .vet j) ∧
      ∀ ret, f.stage = .refuse ret → label = .refuse j ret := by
  -- a section writes one frame
  have hown : ∀ {base : Server σ} {d : DispatchId} {g g' : Dispatch},
      target = base.put d g' → base.frames = s.frames → s.frames d = some g →
      d = j ∧ g.stage = f.stage := by
    rintro base d g g' rfl hbase hg
    by_cases hj : j = d
    · subst hj
      obtain rfl := Option.some.inj (hf.symm.trans hg)
      exact ⟨rfl, rfl⟩
    · exact absurd (by rw [frames_put_of_ne base hj, hbase, hf]) hne
  cases section_of_step hstep with
  | dropped | stirred => exact absurd hf hne
  | @received d _ _ _ hfresh =>
      have hj : j ≠ d := by
        rintro rfl
        rw [hfresh] at hf
        cases hf
      exact absurd ((frames_put_of_ne s hj _).trans hf) hne
  | old hg hstage | unregistered hg hstage | vetted hg hstage | refused hg hstage =>
      obtain ⟨rfl, hsame⟩ := hown rfl rfl hg
      rw [← hsame, hstage]
      simp
  | enrolled hg hstage | connected hg hstage | checked hg hstage | recorded hg hstage
  | switched hg hstage | stays hg hstage | sent hg hstage =>
      obtain ⟨-, hsame⟩ := hown rfl rfl hg
      rw [← hsame, hstage]
      simp
  | waits hg hhandles | returned hg hhandles =>
      obtain ⟨-, hsame⟩ := hown rfl rfl hg
      rw [← hsame]
      rcases hhandles.stage with hstage | hstage <;> simp [hstage]

/-- A dispatch after a step has been received by it, is as before, or has gone on; behind
the look at the header it is where its request belongs. -/
theorem moved_of_step {s target : Server σ} {label : Label}
    (hstep : s.step app label = some target) {j : DispatchId} {f' : Dispatch}
    (hf' : target.frames j = some f') :
    f'.stage = .queued ∨ ∃ f, s.frames j = some f ∧ f'.request = f.request ∧
      (f' = f ∨ (f.stage = .queued ∧ f'.stage = s.vettedStage app f.request) ∨
        (f.stage ≠ .queued ∧ f.stage.leadsTo f'.stage = true)) := by
  rcases frame_of_section (section_of_step hstep) hf' with ⟨_, -, -, hqueued⟩ |
    ⟨f, hf, hrequest, hmoved⟩
  · exact .inl hqueued
  refine .inr ⟨f, hf, hrequest, hmoved.imp_right fun hleads => ?_⟩
  by_cases hqueued : f.stage = .queued
  · refine .inl ⟨hqueued, ?_⟩
    have hne : target.frames j ≠ some f := by
      intro hsame
      obtain rfl := Option.some.inj (hf'.symm.trans hsame)
      rw [hqueued] at hleads
      cases hleads
    obtain rfl := (label_of_changed hstep hf hne).1 hqueued
    obtain ⟨g, hg, -, hnext⟩ := onFrame_eq_some.mp hstep
    obtain rfl := Option.some.inj (hf.symm.trans hg)
    obtain rfl := Option.some.inj hnext
    rw [vet_eq, frames_put_self] at hf'
    obtain rfl := Option.some.inj hf'
    rfl
  · exact .inr ⟨hqueued, hleads⟩

/-! ## What the requests say -/

/-- Only requests for the running instance pass the look at the header, those of a client
that retransmits reach the section that saves the connection, and behind it the client
has an entry. -/
structure Traced (app : Service σ) (s : Server σ) : Prop where
  tabled : s.Tabled
  handled : ∀ d f, s.frames d = some f → beforeReply f.stage = true →
    Server.handled app f.request.proc = true
  old : ∀ d f, s.frames d = some f → s.old f.request = true →
    f.stage = .queued ∨ f.stage = .refuse RpcConst.oldsrvFailure ∨ f.stage = .ended
  refused : ∀ d f, s.frames d = some f → f.stage = .refuse RpcConst.oldsrvFailure →
    s.old f.request = true
  joined : ∀ d f, s.frames d = some f → s.old f.request = false →
    Server.handled app f.request.proc = true → f.request.clt ≠ 0 →
    f.stage = .queued ∨ f.stage = .enroll ∨ f.stage = .connect ∨ s.conns f.request.clt ≠ none
  entry : ∀ clt, s.conns clt ≠ none →
    ∃ d f, s.frames d = some f ∧ s.leavesReference app f.request = true

theorem traced_start (nonce : UInt32) : Traced app (start app nonce) :=
  ⟨⟨rfl, nofun, nofun⟩, nofun, nofun, nofun, nofun, fun _ hentry => absurd rfl hentry⟩

theorem leavesReference_of_nonce {s target : Server σ} (hnonce : target.nonce = s.nonce)
    (request : Request) :
    target.leavesReference app request = s.leavesReference app request := by
  rw [leavesReference, old, hnonce]
  rfl

/-- A client's entry stays. -/
theorem entry_of_section {s target : Server σ} {label : Label}
    (hsection : Section app s label target) {clt : UInt32} (hentry : s.conns clt ≠ none) :
    target.conns clt ≠ none := by
  cases hsection with
  | @connected d f =>
      by_cases hclt : clt = f.request.clt
      · subst hclt
        simp [put]
      · simpa only [put, Function.update_of_ne hclt] using hentry
  | _ => exact hentry

/-- A request that has left a mark still is that of a dispatch. -/
theorem leaves_of_section {s target : Server σ} {label : Label}
    (hsection : Section app s label target)
    (h : ∃ d f, s.frames d = some f ∧ s.leavesReference app f.request = true) :
    ∃ d f, target.frames d = some f ∧ target.leavesReference app f.request = true := by
  obtain ⟨d, f, hf, hleaves⟩ := h
  obtain ⟨f', hf', hrequest, -⟩ := follows_of_section hsection hf
  refine ⟨d, f', hf', ?_⟩
  rwa [leavesReference_of_nonce (nonce_of_section hsection), hrequest]

/-- Only the look at the header leads to the refusal of a request as one for an old
instance. -/
theorem refused_of_section {s target : Server σ} {label : Label}
    (hsection : Section app s label target)
    (h : ∀ d f, s.frames d = some f → f.stage = .refuse RpcConst.oldsrvFailure →
      s.old f.request = true)
    {d : DispatchId} {f : Dispatch} (hf : target.frames d = some f)
    (hrefused : f.stage = .refuse RpcConst.oldsrvFailure) : s.old f.request = true := by
  cases hsection with
  | dropped | stirred => exact h d f hf hrefused
  | old _ _ hzero hnonce =>
      refine holds_put h hf rfl (fun _ => ?_) hrefused
      simp [Server.old, hzero, hnonce]
  | @checked e g =>
      refine holds_put h hf rfl (fun hstage => ?_) hrefused
      cases hverdict : (s.store.checkduplicateAndUpdate g.request.clt g.request.xid
        g.request.xidRep).2 <;> rw [hverdict] at hstage <;> cases hstage
  | vetted | returned =>
      refine holds_put h hf rfl (fun hstage => ?_) hrefused
      dsimp only at hstage
      split_ifs at hstage
  | received | unregistered | enrolled | connected | waits | recorded | switched | stays | sent
  | refused => exact holds_put h hf rfl (fun hstage => by cases hstage) hrefused

theorem ended_of_leadsTo {ret : Int32} {stage : Stage}
    (hleads : (Stage.refuse ret).leadsTo stage = true) : stage = .ended := by
  cases stage <;> first | rfl | cases hleads

theorem connect_of_leadsTo {stage : Stage} (hleads : Stage.enroll.leadsTo stage = true) :
    stage = .connect := by
  cases stage <;> first | rfl | cases hleads

theorem saved_of_leadsTo {stage : Stage} (hleads : Stage.connect.leadsTo stage = true) :
    saved stage = true := by
  cases stage <;> first | rfl | cases hleads

theorem Traced.step {s target : Server σ} (h : Traced app s) {label : Label}
    (hstep : s.step app label = some target) : Traced app target := by
  have hsection := section_of_step hstep
  have hnonce : ∀ request, target.old request = s.old request := by
    intro request
    rw [Server.old, nonce_of_section hsection]
    rfl
  have htabled := h.tabled.of_section hsection
  refine ⟨htabled, fun d f hf => handled_of_step hstep h.handled hf, fun d f hf hold => ?_, ?_,
    fun d f hf hold hhandled hclt => ?_, fun clt hentry => ?_⟩
  · rcases moved_of_step hstep hf with hqueued | ⟨g, hg, hrequest, hmoved⟩
    · exact .inl hqueued
    rw [hnonce, hrequest] at hold
    rcases hmoved with rfl | ⟨-, hvetted⟩ | ⟨hne, hleads⟩
    · exact h.old d f hg hold
    · rw [vettedStage, if_pos hold] at hvetted
      exact .inr (.inl hvetted)
    · rcases h.old d g hg hold with hqueued | hrefused | hended
      · exact absurd hqueued hne
      · rw [hrefused] at hleads
        exact .inr (.inr (ended_of_leadsTo hleads))
      · rw [hended] at hleads
        cases hleads
  · intro d f hf hrefused
    rw [hnonce]
    exact refused_of_section hsection h.refused hf hrefused
  · rcases moved_of_step hstep hf with hqueued | ⟨g, hg, hrequest, hmoved⟩
    · exact .inl hqueued
    have hbefore := h.joined d g hg (by rwa [hnonce, hrequest] at hold) (hrequest ▸ hhandled)
      (hrequest ▸ hclt)
    rcases hmoved with rfl | ⟨-, hvetted⟩ | ⟨hne, hleads⟩
    · exact hbefore.imp_right (Or.imp_right (Or.imp_right (entry_of_section hsection)))
    · rw [hnonce, hrequest] at hold
      rw [hrequest] at hhandled hclt
      rw [vettedStage, hold, hhandled, if_neg hclt] at hvetted
      exact .inr (.inl (by simpa using hvetted))
    · rcases hbefore with hqueued | henroll | hconnect | hentry
      · exact absurd hqueued hne
      · rw [henroll] at hleads
        exact .inr (.inr (.inl (connect_of_leadsTo hleads)))
      · rw [hconnect] at hleads
        exact .inr (.inr (.inr (htabled.entry d f hf (saved_of_leadsTo hleads) hclt)))
      · rw [← hrequest] at hentry
        exact .inr (.inr (.inr (entry_of_section hsection hentry)))
  · refine leaves_of_section hsection ?_
    obtain ⟨n, hlatest⟩ := Option.ne_none_iff_exists'.mp hentry
    rcases latest_of_section hsection hlatest with hbefore | ⟨d, f, rfl, hf, rfl, -⟩
    · exact h.entry clt (by simp [hbefore])
    · obtain ⟨g, hg, hstage, -⟩ := onFrame_eq_some.mp hstep
      obtain rfl := Option.some.inj (hf.symm.trans hg)
      refine ⟨d, f, hf, ?_⟩
      have hknown := h.tabled.known d f hf (by rw [hstage]; rfl)
      simp [leavesReference, h.handled d f hf (by rw [hstage]; rfl), hknown]

end Server

namespace Registry

variable {σ : Type} {app : Service σ} {s s' : Registry σ}

/-- What is left behind comes from the requests that leave a reference behind, and the
job of a request for an old instance that has ended has left its own. -/
structure Left (app : Service σ) (s : Registry σ) : Prop where
  traced : s.server.Traced app
  kept : ∀ d f, s.server.frames d = some f → s.server.old f.request = true →
    f.stage = .ended → f.conn ∈ s.unreturned
  left : s.unreturned ≠ [] →
    ∃ d f, s.server.frames d = some f ∧ s.server.leavesReference app f.request = true

/-- A job that ends refuses its request as one for an old instance, and its connection is
recorded. -/
theorem mem_exits_of_refused {server target : Server σ} {d : DispatchId} {f f' : Dispatch}
    {ret : Int32} (hstep : server.step app (.refuse d ret) = some target)
    (hf : server.frames d = some f) (hf' : target.frames d = some f') :
    f'.conn ∈ exits target (.refuse d ret) := by
  obtain ⟨g, hg, -, hnext⟩ := Server.onFrame_eq_some.mp hstep
  obtain rfl := Option.some.inj (hf.symm.trans hg)
  obtain rfl := Option.some.inj hnext
  rw [Server.frames_put_self] at hf'
  obtain rfl := Option.some.inj hf'
  simp [exits, dispatchOf]

theorem Left.step (h : s.Left app) (haccounted : s.Accounted) {label : Label}
    (hstep : s.step app label = some s') : s'.Left app := by
  rcases server_of_step haccounted hstep with ⟨hserver, hlist⟩ | ⟨l, hserver, -, -, hlist⟩
  · refine ⟨hserver ▸ h.traced, fun d f hf hold hended => ?_, fun hsome => ?_⟩
    · rw [hserver] at hf hold
      rw [hlist]
      exact h.kept d f hf hold hended
    · rw [hserver]
      exact h.left (hlist ▸ hsome)
  have hsection := Server.section_of_step hserver
  refine ⟨h.traced.step hserver, fun d f' hf' hold hended => ?_, fun hsome => ?_⟩
  · have hbefore : s.server.old f'.request = true := by
      rwa [Server.old, Server.nonce_of_section hsection] at hold
    rcases Server.moved_of_step hserver hf' with hqueued | ⟨f, hf, hrequest, hmoved⟩
    · rw [hended] at hqueued
      cases hqueued
    rw [hrequest] at hbefore
    rcases hmoved with rfl | ⟨-, hvetted⟩ | ⟨hne, hleads⟩
    · rw [hlist]
      exact List.mem_append_left _ (h.kept d f' hf hbefore hended)
    · rw [Server.vettedStage, if_pos hbefore, hended] at hvetted
      cases hvetted
    · rcases h.traced.old d f hf hbefore with hqueued | hrefused | hstays
      · exact absurd hqueued hne
      · have hchanged : s'.server.frames d ≠ some f := by
          intro hsame
          obtain rfl := Option.some.inj (hf'.symm.trans hsame)
          rw [hended] at hrefused
          cases hrefused
        obtain rfl := (Server.label_of_changed hserver hf hchanged).2 _ hrefused
        rw [hlist, if_pos (by rfl)]
        exact List.mem_append_right _ (mem_exits_of_refused hserver hf hf')
      · rw [hstays] at hleads
        cases hleads
  · refine Server.leaves_of_section hsection ?_
    by_cases hbefore : s.unreturned = []
    · rw [hlist, hbefore, List.nil_append] at hsome
      split_ifs at hsome with hearly
      · cases l with
        | refuse d ret =>
            obtain rfl : ret = RpcConst.oldsrvFailure := by simpa [returnsEarly] using hearly
            obtain ⟨f, hf, hstage, -⟩ := Server.onFrame_eq_some.mp hserver
            have hold := h.traced.refused d f hf hstage
            exact ⟨d, f, hf, by simp [Server.leavesReference, hold]⟩
        | _ => cases hearly
      · exact absurd rfl hsome
    · exact h.left hbefore

/-- When all jobs have ended, nothing is left behind if and only if no request leaves a
reference behind. -/
theorem Left.spared_iff (h : s.Left app)
    (hended : ∀ d f, s.server.frames d = some f → f.stage = .ended) :
    ((∀ clt, s.server.conns clt = none) ∧ s.unreturned = []) ↔
      ∀ d f, s.server.frames d = some f → s.server.leavesReference app f.request = false := by
  constructor
  · rintro ⟨hconns, hlist⟩ d f hf
    by_contra hleaves
    have hstage := hended d f hf
    cases hold : s.server.old f.request with
    | true =>
        have hmem := h.kept d f hf hold hstage
        rw [hlist] at hmem
        cases hmem
    | false =>
        obtain ⟨hhandled, hclt⟩ : Server.handled app f.request.proc = true ∧ f.request.clt ≠ 0 := by
          simpa [Server.leavesReference, hold] using hleaves
        have hjoined := h.traced.joined d f hf hold hhandled hclt
        rw [hstage] at hjoined
        simp [hconns] at hjoined
  · intro hnone
    have hleft : ¬ ∃ d f, s.server.frames d = some f ∧
        s.server.leavesReference app f.request = true := by
      rintro ⟨d, f, hf, hleaves⟩
      rw [hnone d f hf] at hleaves
      cases hleaves
    exact ⟨fun clt => by_contra fun hentry => hleft (h.traced.entry clt hentry),
      by_contra fun hsome => hleft (h.left hsome)⟩

end Registry

end YfsLab.Rpc
