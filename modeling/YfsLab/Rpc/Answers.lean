/-
# How a dispatch comes to its end

A dispatch ends when it has sent a reply on the connection that it has at that time, when
nobody has registered the procedure, or when it finds its request in progress. In the
last case another dispatch of the same request has not recorded its reply yet, and it is
up to that one to answer on the connection of the duplicate: it is told by the choice
that it makes when it looks for the latest connection.
-/

import YfsLab.Rpc.ReplyBuffers
import YfsLab.Rpc.StoreHistory

namespace YfsLab.Rpc.Server

open BigEndian Transition Wire

variable {σ : Type} {app : Service σ}

/-! ## What a dispatch has come to -/

/-- A reply to the request of this client with this xid goes out on a connection. -/
def Event.answers (clt xid : UInt32) (n : ConnId) : Event → Bool
  | .sent _ conn request _ | .refused _ conn request _ => conn == n && isOf clt xid request
  | _ => false

/-- There is a handler for the procedure. -/
def handled (app : Service σ) (proc : Int32) : Bool :=
  proc == RpcConst.bind || app.registered proc

/-- The stages between the look at the header and the end of the handler. -/
def beforeReply : Stage → Bool
  | .enroll | .connect | .check | .run | .running => true
  | _ => false

/-- The stages at which the client is known to use the reply window. -/
def knows : Stage → Bool
  | .enroll | .connect | .check => true
  | _ => false

/-- The stages from the handler to `add_reply`. -/
def producing : Stage → Bool
  | .run | .running | .record => true
  | _ => false

/-- A dispatch has answered, or there was nothing to do for it. -/
def Concluded (app : Service σ) (history : List Event) (f : Dispatch) : Prop :=
  (∃ event ∈ history, event.answers f.request.clt f.request.xid f.conn = true) ∨
    handled app f.request.proc = false ∨
    ∃ d, .checked d f.conn f.request .inProgress ∈ history

/-- Entries without a reply have a dispatch that will record one, handlers run for
registered procedures only, and dispatches that have ended have answered. -/
structure Progress (app : Service σ) (source : Server σ × List Event) : Prop where
  nodup : ∀ clt, (source.1.store.xids clt).Nodup
  known : ∀ d f, source.1.frames d = some f → knows f.stage = true → f.request.clt ≠ 0
  maker : ∀ clt, clt ≠ 0 → ∀ entry ∈ source.1.store.entries clt, entry.cbPresent = false →
    ∃ d f, source.1.frames d = some f ∧ isOf clt entry.xid f.request = true ∧
      producing f.stage = true
  handled : ∀ d f, source.1.frames d = some f → beforeReply f.stage = true →
    handled app f.request.proc = true
  produced : ∀ d request pdu, .produced d request pdu ∈ source.2 →
    Server.handled app request.proc = true
  concluded : ∀ d f, source.1.frames d = some f → f.stage = .ended →
    Concluded app source.2 f

theorem Concluded.mono {history more : List Event} {f : Dispatch}
    (h : Concluded app history f) : Concluded app (history ++ more) f := by
  rcases h with ⟨event, hmem, hanswers⟩ | hunhandled | ⟨d, hchecked⟩
  · exact .inl ⟨event, List.mem_append_left _ hmem, hanswers⟩
  · exact .inr (.inl hunhandled)
  · exact .inr (.inr ⟨d, List.mem_append_left _ hchecked⟩)

/-! ## The entries of the window -/

/-- A check makes an entry for an xid only if there is none. -/
theorem nodup_check {s : ReplyStore} (h : ∀ clt, (s.xids clt).Nodup)
    (clt xid xidRep other : UInt32) :
    ((s.checkduplicateAndUpdate clt xid xidRep).1.xids other).Nodup := by
  have hkept : ((s.kept clt xidRep).map ReplyEntry.xid).Nodup :=
    (h clt).sublist (List.filter_sublist.map _)
  rcases s.check_cases clt xid xidRep with ⟨-, hcheck⟩ | ⟨-, hnone, hcheck⟩ | ⟨-, _, _, _, hcheck⟩
  · rw [hcheck]
    exact h other
  · rw [hcheck, ReplyStore.xids, ReplyStore.entries_put]
    split_ifs
    · rw [List.map_append, List.nodup_append]
      refine ⟨hkept, by simp, fun x hx y hy => ?_⟩
      obtain ⟨reply, hreply, rfl⟩ := List.mem_map.mp hx
      obtain rfl : y = xid := by simpa using hy
      exact hnone reply (ReplyStore.mem_kept.mp hreply).1
    · exact h other
  · rw [hcheck, ReplyStore.xids, ReplyStore.entries_put]
    split_ifs
    · exact hkept
    · exact h other

theorem nodup_of_section {s target : Server σ} {label : Label}
    (hsection : Section app s label target) (h : ∀ clt, (s.store.xids clt).Nodup)
    (clt : UInt32) : (target.store.xids clt).Nodup := by
  by_cases hcheck : ∀ d, label ≠ .check d
  · rw [xids_of_section hsection hcheck]
    exact h clt
  · obtain ⟨d, rfl⟩ := not_forall_not.mp hcheck
    cases hsection with
    | checked => exact nodup_check h ..
    | waits _ hhandles | returned _ hhandles => cases hhandles

/-- A dispatch that will record a reply goes on to do so, until it does. -/
theorem producing_of_section {s target : Server σ} {label : Label}
    (hsection : Section app s label target) {d : DispatchId} {f : Dispatch}
    (hf : s.frames d = some f) (hproducing : producing f.stage = true)
    (hclt : f.request.clt ≠ 0) (hrecord : label ≠ .record d) :
    ∃ f', target.frames d = some f' ∧ f'.request = f.request ∧ producing f'.stage = true := by
  cases hsection with
  | dropped | stirred => exact ⟨f, hf, rfl, hproducing⟩
  | @received e _ _ _ hfresh =>
      have hd : d ≠ e := by
        rintro rfl
        rw [hfresh] at hf
        cases hf
      exact ⟨f, by rwa [frames_put_of_ne s hd], rfl, hproducing⟩
  | checked hg hstage =>
      refine kept_put rfl hg (follow_request _ _) (fun _ hproducing => ?_) hf hproducing
      rw [hstage] at hproducing
      cases hproducing
  | waits hg => exact kept_put rfl hg rfl (fun _ _ => rfl) hf hproducing
  | returned hg =>
      refine kept_put rfl hg rfl (fun hd _ => ?_) hf hproducing
      subst hd
      obtain rfl := Option.some.inj (hf.symm.trans hg)
      dsimp only
      rw [if_neg hclt]
      rfl
  | recorded hg =>
      exact kept_put rfl hg rfl (fun heq => absurd (heq ▸ rfl) hrecord) hf hproducing
  | old hg hstage | unregistered hg hstage | vetted hg hstage | enrolled hg hstage
  | connected hg hstage | switched hg hstage | stays hg hstage | sent hg hstage
  | refused hg hstage =>
      refine kept_put rfl hg rfl (fun _ hproducing => ?_) hf hproducing
      rw [hstage] at hproducing
      cases hproducing

/-- A check leaves no entry without somebody to fill it. -/
theorem maker_check {s : Server σ} {history : List Event} (h : Progress app (s, history))
    {d : DispatchId} {f : Dispatch} (hf : s.frames d = some f) (hstage : f.stage = .check)
    {clt : UInt32} (hclt : clt ≠ 0) {entry : ReplyEntry}
    (hmem : entry ∈ (s.check d f).store.entries clt) (hopen : entry.cbPresent = false) :
    ∃ e g, (s.check d f).frames e = some g ∧ isOf clt entry.xid g.request = true ∧
      producing g.stage = true := by
  have hold : entry ∈ s.store.entries clt →
      ∃ e g, (s.check d f).frames e = some g ∧ isOf clt entry.xid g.request = true ∧
        producing g.stage = true := by
    intro hentry
    obtain ⟨e, g, hg, hkey, hproducing⟩ := h.maker clt hclt entry hentry hopen
    have hne : e ≠ d := by
      rintro rfl
      obtain rfl := Option.some.inj (hf.symm.trans hg)
      rw [hstage] at hproducing
      cases hproducing
    exact ⟨e, g, (frames_put_of_ne _ hne _).trans hg, hkey, hproducing⟩
  have hverdict : (s.check d f).frames d = some (follow f
      (s.store.checkduplicateAndUpdate f.request.clt f.request.xid f.request.xidRep).2) :=
    frames_put_self ..
  rw [store_check] at hmem
  rcases s.store.check_cases f.request.clt f.request.xid f.request.xidRep with
    ⟨-, hcheck⟩ | ⟨-, -, hcheck⟩ | ⟨-, _, _, _, hcheck⟩
  · rw [hcheck] at hmem
    exact hold hmem
  · rw [hcheck] at hmem hverdict
    rw [ReplyStore.entries_put] at hmem
    split_ifs at hmem with heq
    · rcases List.mem_append.mp hmem with hkept | hnew
      · exact hold (heq ▸ (ReplyStore.mem_kept.mp hkept).1)
      · obtain rfl := List.mem_singleton.mp hnew
        exact ⟨d, _, hverdict, by simp [follow, isOf, heq], rfl⟩
    · exact hold hmem
  · rw [hcheck, ReplyStore.entries_put] at hmem
    split_ifs at hmem with heq
    · exact hold (heq ▸ (ReplyStore.mem_kept.mp hmem).1)
    · exact hold hmem

/-- A reply is recorded in the entry of its request, and the others keep their
dispatches. -/
theorem maker_record {s target : Server σ} {history : List Event}
    (h : Progress app (s, history)) {d : DispatchId}
    (hsection : Section app s (.record d) target) {clt : UInt32} (hclt : clt ≠ 0)
    {entry : ReplyEntry} (hmem : entry ∈ target.store.entries clt)
    (hopen : entry.cbPresent = false) :
    ∃ e g, target.frames e = some g ∧ isOf clt entry.xid g.request = true ∧
      producing g.stage = true := by
  cases hsection with
  | waits _ hhandles | returned _ hhandles => cases hhandles
  | @recorded _ f buf l hf hstage hbuf hl =>
      have hkeep : entry ∈ s.store.entries clt →
          ¬ (clt = f.request.clt ∧ entry.xid = f.request.xid) →
          ∃ e g, e ≠ d ∧ s.frames e = some g ∧ isOf clt entry.xid g.request = true ∧
            producing g.stage = true := by
        intro hentry hother
        obtain ⟨e, g, hg, hkey, hproducing⟩ := h.maker clt hclt entry hentry hopen
        refine ⟨e, g, ?_, hg, hkey, hproducing⟩
        rintro rfl
        obtain rfl := Option.some.inj (hf.symm.trans hg)
        obtain ⟨hc, hx⟩ := isOf_iff.mp hkey
        exact hother ⟨hc.symm, hx.symm⟩
      have hentries : s.store.entries f.request.clt = l := by simp [ReplyStore.entries, hl]
      have hnodup : (l.map ReplyEntry.xid).Nodup := hentries ▸ h.nodup f.request.clt
      obtain ⟨e, g, hne, hg, hkey, hproducing⟩ : ∃ e g, e ≠ d ∧ s.frames e = some g ∧
          isOf clt entry.xid g.request = true ∧ producing g.stage = true := by
        simp only [store_put, ReplyStore.entries_put] at hmem
        split_ifs at hmem with heq
        · rcases ReplyStore.mem_setReply_of_nodup hnodup hmem with ⟨hold, hne⟩ | rfl
          · exact hkeep (by rw [heq, hentries]; exact hold) fun hsame => hne hsame.2
          · cases hopen
        · exact hkeep hmem fun hsame => heq hsame.1
      exact ⟨e, g, (frames_put_of_ne _ hne _).trans hg, hkey, hproducing⟩

/-- The sections other than the check and `add_reply` leave the entries alone. -/
theorem entries_of_section {s target : Server σ} {label : Label}
    (hsection : Section app s label target) (hcheck : ∀ d, label ≠ .check d)
    (hrecord : ∀ d, label ≠ .record d) (clt : UInt32) :
    target.store.entries clt = s.store.entries clt := by
  cases hsection with
  | checked => exact absurd rfl (hcheck _)
  | recorded => exact absurd rfl (hrecord _)
  | enrolled => simp
  | @sent d f => exact entries_send s d f clt
  | _ => rfl

theorem maker_of_section {s target : Server σ} {history : List Event} {label : Label}
    (h : Progress app (s, history)) (hsection : Section app s label target) {clt : UInt32}
    (hclt : clt ≠ 0) {entry : ReplyEntry} (hmem : entry ∈ target.store.entries clt)
    (hopen : entry.cbPresent = false) :
    ∃ e g, target.frames e = some g ∧ isOf clt entry.xid g.request = true ∧
      producing g.stage = true := by
  by_cases hcheck : ∃ d, label = .check d
  · obtain ⟨d, rfl⟩ := hcheck
    cases hsection with
    | checked hf hstage => exact maker_check h hf hstage hclt hmem hopen
    | waits _ hhandles | returned _ hhandles => cases hhandles
  by_cases hrecord : ∃ d, label = .record d
  · obtain ⟨d, rfl⟩ := hrecord
    exact maker_record h hsection hclt hmem hopen
  rw [entries_of_section hsection (not_exists.mp hcheck) (not_exists.mp hrecord)] at hmem
  obtain ⟨e, g, hg, hkey, hproducing⟩ := h.maker clt hclt entry hmem hopen
  obtain ⟨hgclt, hgxid⟩ := isOf_iff.mp hkey
  obtain ⟨g', hg', hrequest, hproducing'⟩ :=
    producing_of_section hsection hg hproducing (hgclt ▸ hclt) (not_exists.mp hrecord e)
  exact ⟨e, g', hg', by rw [hrequest, hkey], hproducing'⟩

/-! ## The dispatches -/

theorem known_of_section {s target : Server σ} {label : Label}
    (hsection : Section app s label target)
    (h : ∀ d f, s.frames d = some f → knows f.stage = true → f.request.clt ≠ 0)
    {d : DispatchId} {f : Dispatch} (hf : target.frames d = some f)
    (hknows : knows f.stage = true) : f.request.clt ≠ 0 := by
  cases hsection with
  | dropped | stirred => exact h d f hf hknows
  | vetted =>
      refine holds_put h hf rfl (fun hstage => ?_) hknows
      dsimp only at hstage ⊢
      split_ifs at hstage with hclt
      · cases hstage
      · exact hclt
  | @checked e g hg =>
      refine holds_put h hf rfl (fun hstage => ?_) hknows
      cases hverdict : (s.store.checkduplicateAndUpdate g.request.clt g.request.xid
        g.request.xidRep).2 <;> rw [hverdict] at hstage <;> cases hstage
  | enrolled hg hstage | connected hg hstage =>
      have hclt := h _ _ hg (by rw [hstage]; rfl)
      exact holds_put h hf rfl (fun _ => hclt) hknows
  | returned =>
      refine holds_put h hf rfl (fun hstage => ?_) hknows
      dsimp only at hstage
      split_ifs at hstage <;> cases hstage
  | received | old | unregistered | waits | recorded | switched | stays | sent | refused =>
      exact holds_put h hf rfl (fun hstage => by cases hstage) hknows

/-- A dispatch that leaves the queue for a handler is for a registered procedure. -/
theorem handled_vet {s : Server σ} {d j : DispatchId} {g f : Dispatch}
    (h : ∀ d f, s.frames d = some f → beforeReply f.stage = true →
      handled app f.request.proc = true)
    (hf : (s.vet app.registered d g).frames j = some f) (hbefore : beforeReply f.stage = true) :
    handled app f.request.proc = true := by
  unfold vet at hf
  split_ifs at hf with hold hproc
  · exact holds_put h hf rfl (fun hrefused => by cases hrefused) hbefore
  · exact holds_put h hf rfl (fun hended => by cases hended) hbefore
  all_goals
    refine holds_put h hf rfl (fun _ => ?_) hbefore
    have hregistered : g.request.proc ≠ RpcConst.bind → app.registered g.request.proc = true :=
      fun hbind => by simpa using fun hnone => hproc ⟨hbind, hnone⟩
    by_cases hbind : g.request.proc = RpcConst.bind
    · simp [handled, hbind]
    · simp [handled, hregistered hbind]

/-- Behind the look at the header, the procedure has a handler. -/
theorem handled_of_step {s target : Server σ} {label : Label}
    (hstep : s.step app label = some target)
    (h : ∀ d f, s.frames d = some f → beforeReply f.stage = true →
      handled app f.request.proc = true)
    {d : DispatchId} {f : Dispatch} (hf : target.frames d = some f)
    (hbefore : beforeReply f.stage = true) : handled app f.request.proc = true := by
  -- a section that moves a dispatch on
  have hput : ∀ {base : Server σ} {e : DispatchId} {g g' : Dispatch},
      (base.put e g').frames d = some f → base.frames = s.frames → s.frames e = some g →
      g'.request = g.request → (beforeReply g'.stage = true → beforeReply g.stage = true) →
      handled app f.request.proc = true := by
    intro base e g g' hmoved hbase hg hrequest hstage
    refine holds_put h hmoved hbase (fun hmore => ?_) hbefore
    rw [hrequest]
    exact h e g hg (hstage hmore)
  by_cases hvet : ∃ e, label = .vet e
  · obtain ⟨e, rfl⟩ := hvet
    obtain ⟨g, -, -, hnext⟩ := onFrame_eq_some.mp hstep
    obtain rfl := Option.some.inj hnext
    exact handled_vet h hf hbefore
  cases section_of_step hstep with
  | dropped | stirred => exact h d f hf hbefore
  | received => exact holds_put h hf rfl (fun hqueued => by cases hqueued) hbefore
  | old | unregistered | vetted => exact absurd ⟨_, rfl⟩ hvet
  | checked hg hstage =>
      exact hput hf rfl hg (follow_request _ _) fun _ => by rw [hstage]; rfl
  | waits hg hhandles | returned hg hhandles =>
      refine hput hf rfl hg rfl fun _ => ?_
      rcases hhandles.stage with hstage | hstage <;> rw [hstage] <;> rfl
  | enrolled hg hstage | connected hg hstage =>
      exact hput hf rfl hg rfl fun _ => by rw [hstage]; rfl
  | recorded hg | switched hg | stays hg | sent hg | refused hg =>
      exact hput hf rfl hg rfl fun hafter => by cases hafter

/-- Handlers that have returned were entered for registered procedures. -/
theorem produced_of_step {s target : Server σ} {label : Label}
    (hstep : s.step app label = some target)
    (h : ∀ d f, s.frames d = some f → beforeReply f.stage = true →
      handled app f.request.proc = true)
    {d : DispatchId} {request : Request} {pdu : Bytes}
    (hmem : .produced d request pdu ∈ events app s label) :
    handled app request.proc = true := by
  cases emits_of_mem hmem with
  | @produced _ f _ area service outcome hf hlabel =>
      refine h d f hf ?_
      rcases hlabel with ⟨choice, rfl, -⟩ | ⟨choice, rfl, -⟩
      · obtain ⟨g, hg, hstage, -⟩ := onFrame_eq_some.mp hstep
        obtain rfl := Option.some.inj (hf.symm.trans hg)
        rw [hstage]
        rfl
      · obtain ⟨g, hg, hstage, -⟩ := onFrame_eq_some.mp hstep
        obtain rfl := Option.some.inj (hf.symm.trans hg)
        rw [hstage]
        rfl

/-- A dispatch ends with a reply, or because there is nothing to do for it. -/
theorem concluded_of_section {s target : Server σ} {history : List Event} {label : Label}
    (hsection : Section app s label target)
    (h : ∀ d f, s.frames d = some f → f.stage = .ended → Concluded app history f)
    {d : DispatchId} {f : Dispatch} (hf : target.frames d = some f)
    (hended : f.stage = .ended) : Concluded app (history ++ events app s label) f := by
  have hkept : ∀ d f, s.frames d = some f → f.stage = .ended →
      Concluded app (history ++ events app s label) f := fun d f hf hended => (h d f hf hended).mono
  cases hsection with
  | dropped | stirred => exact hkept d f hf hended
  | unregistered _ _ hbind hregistered =>
      refine holds_put hkept hf rfl (fun _ => .inr (.inl ?_)) hended
      simp [handled, hbind, hregistered]
  | vetted =>
      refine holds_put hkept hf rfl (fun hstage => ?_) hended
      dsimp only at hstage
      split_ifs at hstage
  | @checked e g hg =>
      refine holds_put hkept hf rfl
        (fun hstage => .inr (.inr ⟨e, List.mem_append_right _ ?_⟩)) hended
      cases hverdict : (s.store.checkduplicateAndUpdate g.request.clt g.request.xid
        g.request.xidRep).2 <;> rw [hverdict] at hstage <;> try cases hstage
      simp [events, hg, follow, hverdict]
  | returned =>
      refine holds_put hkept hf rfl (fun hstage => ?_) hended
      dsimp only at hstage
      split_ifs at hstage
  | @sent e g hg =>
      refine holds_put hkept hf rfl
        (fun _ => .inl ⟨.sent e g.conn g.request (s.intact g), ?_, ?_⟩) hended
      · simp [events, hg]
      · simp [Event.answers, isOf]
  | @refused e g ret hg =>
      refine holds_put hkept hf rfl
        (fun _ => .inl ⟨.refused e g.conn g.request ret, ?_, ?_⟩) hended
      · simp [events, hg]
      · simp [Event.answers, isOf]
  | received | old | enrolled | connected | waits | recorded | switched | stays =>
      exact holds_put hkept hf rfl (fun hstage => by cases hstage) hended

/-- The invariant is kept. -/
theorem Progress.step {nonce : UInt32} {source target : Server σ × List Event} {label : Label}
    (h : Progress app source) (hstep : (logged app nonce).step source label = some target) :
    Progress app target := by
  obtain ⟨hnext, hlog⟩ := System.recorded_step_eq_some.mp hstep
  have hnext' : source.1.step app label = some target.1 := hnext
  have hsection := section_of_step hnext'
  refine ⟨nodup_of_section hsection h.nodup, fun d f hf => known_of_section hsection h.known hf,
    fun clt hclt entry hmem hopen => maker_of_section h hsection hclt hmem hopen,
    fun d f hf => handled_of_step hnext' h.handled hf, fun d request pdu hmem => ?_,
    fun d f hf hended => ?_⟩
  · rw [hlog] at hmem
    rcases List.mem_append.mp hmem with hold | hnew
    · exact h.produced d request pdu hold
    · exact produced_of_step hnext' h.handled hnew
  · rw [hlog]
    exact concluded_of_section hsection h.concluded hf hended

/-- A new server has nothing to answer. -/
theorem Progress.restart {source : Server σ × List Event} (h : Progress app source)
    (nonce : UInt32) : Progress app (start app nonce, source.2) where
  nodup := by simp [start, ReplyStore.xids, ReplyStore.entries]
  known := by simp [start]
  maker := by simp [start, ReplyStore.entries]
  handled := by simp [start]
  produced := h.produced
  concluded := by simp [start]

theorem progress_start (nonce : UInt32) : Progress app (start app nonce, []) where
  nodup := by simp [start, ReplyStore.xids, ReplyStore.entries]
  known := by simp [start]
  maker := by simp [start, ReplyStore.entries]
  handled := by simp [start]
  produced := by simp
  concluded := by simp [start]

end YfsLab.Rpc.Server
