/-
# Dead connections are collected

When no job has ended without giving its reference back, the count of a connection is
one for its place in `conns_`, one for each client's entry and one for each job. So a dead
connection without entries and jobs has the count 1, and stays so: nothing gets hold
of it any more. The next call of `process_accept` finds it and deletes it.

`dispatch` gives the reference back at all its ends except one: the return behind the
refusal of a request for an old instance of the server.
-/

import YfsLab.Rpc.Balance

namespace YfsLab.Rpc.Registry

open BigEndian Holders Poll Transition Wire

variable {σ : Type} {app : Service σ} {s s' : Registry σ}

/-! ## What a step finds and leaves -/

/-- What a step of `process_accept`, `got_pdu` or `dispatch` finds and leaves. -/
inductive Section (app : Service σ) (s : Registry σ) : Label → Registry σ → Prop
  | accepted {fd : Fd} (hacceptor : s.acceptor = .idle) :
      Section app s (.accept fd)
        { s with
          made := s.made + 1
          objs := Function.update s.objs s.made { fd := fd, refno := 1 }
          acceptor := .scanning s.made s.conns.1 }
  | lookedAt {ch : ConnId} {entry : Fd × ConnId} {todo : List (Fd × ConnId)}
      (hacceptor : s.acceptor = .scanning ch (entry :: todo)) :
      Section app s .isdead
        { s with
          acceptor :=
            if (s.objs entry.2).dead then .found ch entry todo else .scanning ch todo }
  | counted {ch : ConnId} {entry : Fd × ConnId} {todo : List (Fd × ConnId)}
      (hacceptor : s.acceptor = .found ch entry todo) :
      Section app s .ref
        { s with
          acceptor :=
            if (s.objs entry.2).refno = 1 then .collecting ch entry todo
            else .scanning ch todo }
  | collected {ch : ConnId} {entry : Fd × ConnId} {todo : List (Fd × ConnId)}
      {objs : ConnId → ConnObj} (hacceptor : s.acceptor = .collecting ch entry todo)
      (hdropped : Dropped s.objs objs entry.2) :
      Section app s .collect { s with objs := objs, acceptor := .erasing ch entry todo }
  | erased {ch : ConnId} {entry : Fd × ConnId} {todo : List (Fd × ConnId)}
      (hacceptor : s.acceptor = .erasing ch entry todo) :
      Section app s .erase
        { s with conns := s.conns.erase entry.1, acceptor := .scanning ch todo }
  | inserted {ch : ConnId} (hacceptor : s.acceptor = .scanning ch []) :
      Section app s .insert
        { s with conns := s.conns.assign (s.objs ch).fd ch, acceptor := .idle }
  | died {c : ConnId} :
      Section app s (.die c)
        { s with objs := Function.update s.objs c { s.objs c with dead := true } }
  | taken {c : ConnId} {pdu : Bytes} (hthere : (s.objs c).deleted = false)
      (halive : (s.objs c).dead = false) :
      Section app s (.gotPdu c pdu) { s.incref c with reader := .counted c pdu }
  | full {d : DispatchId} {c : ConnId} {pdu : Bytes} (hreader : s.reader = .counted c pdu) :
      Section app s (.addJob d false) { s with reader := .refused c }
  | short {d : DispatchId} {c : ConnId} {pdu : Bytes} (hreader : s.reader = .counted c pdu)
      (hpdu : decodeRequest pdu = none) :
      Section app s (.addJob d true)
        { s with reader := .idle, leaving := s.leaving ++ [c] }
  | queued {d : DispatchId} {c : ConnId} {pdu : Bytes} {request : Request}
      (hreader : s.reader = .counted c pdu) (hpdu : decodeRequest pdu = some request)
      (hfresh : s.server.frames d = none) :
      Section app s (.addJob d true)
        { s with server := s.server.put d { conn := c, request }, reader := .idle }
  | gaveBack {c : ConnId} {objs : ConnId → ConnObj} (hreader : s.reader = .refused c)
      (hdropped : Dropped s.objs objs c) :
      Section app s .giveBack { s with objs := objs, reader := .idle }
  | released {d : DispatchId} {c : ConnId} {objs : ConnId → ConnObj}
      (hdropped : Dropped s.objs objs c) :
      Section app s (.release d) { s with objs := objs, swapping := some (d, c) }
  | left {i : ℕ} {c : ConnId} {objs : ConnId → ConnObj} (hdropped : Dropped s.objs objs c) :
      Section app s (.leave i) { s with objs := objs, leaving := s.leaving.eraseIdx i }
  | replaced {d : DispatchId} {f : Dispatch} {c : ConnId}
      (hf : s.server.frames d = some f) (hstage : f.stage = .connect)
      (hswap : s.swapping = some (d, c)) :
      Section app s (.dispatch (.connect d))
        ({ s with swapping := none, server := s.server.connect d f }.incref f.conn)
  | saved {d : DispatchId} {f : Dispatch} (hf : s.server.frames d = some f)
      (hstage : f.stage = .connect) (hfree : s.swapping = none) :
      Section app s (.dispatch (.connect d))
        ({ s with server := s.server.connect d f }.incref f.conn)
  | kept {d : DispatchId} {f : Dispatch} (hf : s.server.frames d = some f)
      (hstage : f.stage = .connect) :
      Section app s (.dispatch (.connect d)) { s with server := s.server.connect d f }
  | switched {d : DispatchId} {f : Dispatch} {latest : ConnId} {dead : Bool}
      (hf : s.server.frames d = some f) (hstage : f.stage = .select)
      (hswap : s.swapping = some (d, f.conn))
      (hlatest : s.server.conns f.request.clt = some latest) (hne : latest ≠ f.conn) :
      Section app s (.dispatch (.select d dead))
        ({ s with
          swapping := none
          server := s.server.put d { f with conn := latest, stage := .send } }.incref latest)
  | stayed {d : DispatchId} {f : Dispatch} {dead : Bool} (hf : s.server.frames d = some f)
      (hstage : f.stage = .select) :
      Section app s (.dispatch (.select d dead))
        { s with server := s.server.put d { f with stage := .send } }
  | served {label : Server.Label} {s' : Registry σ} (hkeeps : keepsConns label = true)
      (hserve : s.serve app label = some s') : Section app s (.dispatch label) s'

theorem section_of_step (h : s.Accounted) {label : Label} (hstep : s.step app label = some s') :
    Section app s label s' := by
  cases label with
  | accept fd =>
      obtain ⟨⟨hacceptor, -⟩, heq⟩ := Option.ite_none_right_eq_some.mp hstep
      obtain rfl := Option.some.inj heq
      exact .accepted hacceptor
  | isdead =>
      simp only [Registry.step, Registry.isdead] at hstep
      split at hstep
      · next hacceptor =>
          obtain rfl := Option.some.inj hstep
          exact .lookedAt hacceptor
      · cases hstep
  | ref =>
      simp only [Registry.step, Registry.ref] at hstep
      split at hstep
      · next hacceptor =>
          obtain rfl := Option.some.inj hstep
          exact .counted hacceptor
      · cases hstep
  | collect =>
      simp only [Registry.step, Registry.collect] at hstep
      split at hstep
      · next hacceptor =>
          obtain ⟨s₁, hdecref, rfl⟩ := Option.map_eq_some_iff.mp hstep
          obtain ⟨objs, rfl, hdropped⟩ := decref_eq_some hdecref
          exact .collected hacceptor hdropped
      · cases hstep
  | erase =>
      simp only [Registry.step, Registry.erase] at hstep
      split at hstep
      · next hacceptor =>
          obtain rfl := Option.some.inj hstep
          exact .erased hacceptor
      · cases hstep
  | insert =>
      simp only [Registry.step, Registry.insert] at hstep
      split at hstep
      · next hacceptor =>
          obtain rfl := Option.some.inj hstep
          exact .inserted hacceptor
      · cases hstep
  | die c =>
      obtain ⟨-, heq⟩ := Option.ite_none_right_eq_some.mp hstep
      obtain rfl := Option.some.inj heq
      exact .died
  | gotPdu c pdu =>
      obtain ⟨⟨-, -, hthere, halive⟩, heq⟩ := Option.ite_none_right_eq_some.mp hstep
      obtain rfl := Option.some.inj heq
      exact .taken hthere halive
  | addJob d ok =>
      cases ok with
      | false =>
          simp only [Registry.step, Registry.addJob] at hstep
          split at hstep
          · next hreader =>
              obtain rfl := Option.some.inj hstep
              exact .full hreader
          · cases hstep
      | true =>
          obtain ⟨c, pdu, hreader, ⟨hpdu, rfl⟩ | ⟨request, hpdu, hfresh, rfl⟩⟩ :=
            addJob_cases hstep
          · exact .short hreader hpdu
          · exact .queued hreader hpdu hfresh
  | giveBack =>
      simp only [Registry.step, Registry.giveBack] at hstep
      split at hstep
      · next hreader =>
          obtain ⟨s₁, hdecref, rfl⟩ := Option.map_eq_some_iff.mp hstep
          obtain ⟨objs, rfl, hdropped⟩ := decref_eq_some hdecref
          exact .gaveBack hreader hdropped
      · cases hstep
  | release d =>
      obtain ⟨c, objs, -, -, hdropped, rfl⟩ := release_cases hstep
      exact .released hdropped
  | leave i =>
      obtain ⟨c, -, hdrop⟩ := Option.bind_eq_some_iff.mp hstep
      obtain ⟨s₁, hdecref, rfl⟩ := Option.map_eq_some_iff.mp hdrop
      obtain ⟨objs, rfl, hdropped⟩ := decref_eq_some hdecref
      exact .left hdropped
  | dispatch l =>
      cases l with
      | receive => cases hstep
      | connect d =>
          obtain ⟨f, hf, hstage, ⟨c, hswap, rfl⟩ | ⟨hfree, -, rfl⟩ | ⟨-, -, rfl⟩⟩ :=
            connect_cases hstep
          · exact .replaced hf hstage hswap
          · exact .saved hf hstage hfree
          · exact .kept hf hstage
      | select d dead =>
          obtain ⟨f, hf, hstage, ⟨latest, hswap, hlatest, hne, rfl⟩ | ⟨-, rfl⟩⟩ :=
            select_cases h hstep
          · exact .switched hf hstage hswap hlatest hne
          · exact .stayed hf hstage
      | _ => exact .served rfl hstep

/-! ## Requests for the running instance -/

/-- `dispatch` does not refuse a request as one for an old instance. -/
def sameInstance (s : Registry σ) : Label → Bool
  | .dispatch (.vet d) =>
      (s.server.frames d).all fun f => f.request.srv == 0 || f.request.srv == s.server.nonce
  | _ => true

/-- A step of `process_accept` is about nothing but `conns_` and the objects. -/
def accepting : Label → Bool
  | .accept _ | .isdead | .ref | .collect | .erase | .insert => true
  | _ => false

/-- The section of the server in a step, if there is one. -/
theorem server_of_step (h : s.Accounted) {label : Label} (hstep : s.step app label = some s') :
    (s'.server = s.server ∧ s'.unreturned = s.unreturned) ∨
      ∃ l, s.server.step app l = some s'.server ∧
        (∀ d, l = .vet d → label = .dispatch (.vet d)) ∧
        (∀ d c pdu, l = .receive d c pdu → label = .addJob d true ∧ s.reader = .counted c pdu) ∧
        s'.unreturned = s.unreturned ++ if returnsEarly l then exits s'.server l else [] := by
  have hconnect : ∀ {d f}, s.server.frames d = some f → f.stage = .connect →
      s.server.step app (.connect d) = some (s.server.connect d f) :=
    fun hf hstage => Server.onFrame_eq_some.mpr ⟨_, hf, hstage, rfl⟩
  cases section_of_step h hstep with
  | @queued d c pdu _ hreader hpdu hfresh =>
      refine .inr ⟨.receive d c pdu, ?_, by simp, fun d' c' pdu' heq => ?_, by simp [returnsEarly]⟩
      · simp [Server.step, Server.receive, hpdu, hfresh]
      · cases heq
        exact ⟨rfl, hreader⟩
  | replaced hf hstage | saved hf hstage | kept hf hstage =>
      exact .inr ⟨_, hconnect hf hstage, by simp, by simp, by simp [returnsEarly, incref]⟩
  | switched hf hstage _ hlatest hne =>
      refine .inr ⟨.select _ true, Server.onFrame_eq_some.mpr ⟨_, hf, hstage, ?_⟩,
        by simp, by simp, by simp [returnsEarly, incref]⟩
      rw [Server.select, if_pos ⟨rfl, by simpa [hlatest] using hne⟩, hlatest]
      rfl
  | stayed hf hstage =>
      exact .inr ⟨.select _ false, Server.onFrame_eq_some.mpr ⟨_, hf, hstage,
        by simp [Server.select]⟩, by simp, by simp, by simp [returnsEarly]⟩
  | @served l _ hkeeps hserve =>
      have hnone : ∀ d c pdu, l ≠ .receive d c pdu := by
        rintro d c pdu rfl
        cases hkeeps
      obtain ⟨server, hserver, ⟨hearly, rfl⟩ | ⟨hlate, rfl⟩⟩ := serve_eq_some hserve
      · exact .inr ⟨_, hserver, (fun d heq => by rw [heq]),
          (fun d c pdu heq => absurd heq (hnone d c pdu)), by simp [hearly]⟩
      · exact .inr ⟨_, hserver, (fun d heq => by rw [heq]),
          (fun d c pdu heq => absurd heq (hnone d c pdu)), by simp [hlate]⟩
  | _ => exact .inl ⟨rfl, rfl⟩

/-- No dispatch is about to refuse a request as one for an old instance, and none has. -/
structure Returned (s : Registry σ) : Prop where
  unreturned : s.unreturned = []
  stage : ∀ d f, s.server.frames d = some f → f.stage ≠ .refuse RpcConst.oldsrvFailure

/-- Only the look at the header leads to such a refusal. -/
theorem stage_of_section {server target : Server σ} {label : Server.Label}
    (hsection : Server.Section app server label target)
    (hsame : ∀ d f, label = .vet d → server.frames d = some f →
      f.request.srv = 0 ∨ f.request.srv = server.nonce)
    (hstage : ∀ d f, server.frames d = some f → f.stage ≠ .refuse RpcConst.oldsrvFailure)
    (d : DispatchId) (f : Dispatch) (hf : target.frames d = some f) :
    f.stage ≠ .refuse RpcConst.oldsrvFailure := by
  cases hsection with
  | dropped | stirred => exact hstage d f hf
  | old hg _ hzero hnonce =>
      rcases hsame _ _ rfl hg with hsrv | hsrv
      · exact absurd hsrv hzero
      · exact absurd hsrv hnonce
  | vetted | returned =>
      refine Server.holds_put hstage hf rfl ?_
      dsimp only
      split_ifs <;> simp
  | @checked e g hg =>
      refine Server.holds_put hstage hf rfl ?_
      cases (server.store.checkduplicateAndUpdate g.request.clt g.request.xid
        g.request.xidRep).2 <;> simp [Server.follow, RpcConst.oldsrvFailure,
          RpcConst.atmostonceFailure]
  | received | unregistered | enrolled | connected | waits | recorded | switched | stays | sent
  | refused => exact Server.holds_put hstage hf rfl (by simp)

theorem returned_of_run {nonce : UInt32} {labels : List Label} {reached : Registry σ}
    (hrun : (system app nonce).Run (fun source label => sameInstance source label = true) labels
      reached) : reached.Returned := by
  refine hrun.invariant Returned ⟨rfl, (fun d f hf => by cases hf)⟩ ?_
  intro _ source label target hprior h hsame hstep
  rcases server_of_step (accounted_of_run hprior).1 hstep with ⟨hserver, hlist⟩ |
    ⟨l, hserver, hvet, -, hlist⟩
  · exact ⟨hlist.trans h.unreturned, fun d f hf => h.stage d f (hserver ▸ hf)⟩
  · refine ⟨?_, stage_of_section (Server.section_of_step hserver) (fun d f hl hf => ?_) h.stage⟩
    · rw [hlist, h.unreturned, List.nil_append, if_neg]
      cases l with
      | refuse d ret =>
          obtain ⟨f, hf, hstage, -⟩ := Server.onFrame_eq_some.mp hserver
          have hne := h.stage d f hf
          rw [hstage] at hne
          simpa [returnsEarly] using hne
      | _ => exact Bool.false_ne_true
    · rw [hvet d hl] at hsame
      simpa [sameInstance, hf] using hsame

/-! ## A dead connection that nobody else uses -/

/-- No entry of a client and no job has this connection. -/
def Unused (s : Registry σ) (c : ConnId) : Prop :=
  (∀ clt, s.server.conns clt ≠ some c) ∧ (∀ d, atWork s.server.frames d ≠ some c) ∧
    c ∉ s.leaving

/-- A connection on which nothing can happen any more. -/
structure Idle (s : Registry σ) (c : ConnId) : Prop where
  lt_made : c < s.made
  dead : (s.objs c).dead = true
  reader : s.reader.conn ≠ some c
  unused : s.Unused c
  returned : c ∉ s.unreturned

/-- What a step does to the objects. A reference is only taken of a connection that has
not been deleted, or that a client's entry or a job has a reference of. -/
inductive Touches (s : Registry σ) : (ConnId → ConnObj) → Prop
  | same : Touches s s.objs
  | taken {c : ConnId}
      (hthere : (s.objs c).deleted = false ∨ s.swapping.map Prod.snd ≠ some c ∧
        0 < count s.server.conns c + count (atWork s.server.frames) c) :
      Touches s (s.incref c).objs
  | given {c : ConnId} {objs : ConnId → ConnObj} (hdropped : Dropped s.objs objs c) :
      Touches s objs
  | died {c : ConnId} : Touches s (Function.update s.objs c { s.objs c with dead := true })
  | made {fd : Fd} : Touches s (Function.update s.objs s.made { fd := fd, refno := 1 })

/-- The connection of a job can be taken once more when its client's entry is written. -/
theorem touches_connect (h : s.Accounted) {d : DispatchId} {f : Dispatch}
    (hf : s.server.frames d = some f) (hstage : f.stage = .connect)
    (hswap : s.swapping = none ∨ ∃ c₀, s.swapping = some (d, c₀)) :
    Touches s (s.incref f.conn).objs := by
  have hpos := count_pos h.jobs (atWork_of_stage hf (by simp [hstage]))
  refine .taken (.inr ⟨?_, by omega⟩)
  rcases hswap with hnone | ⟨c₀, hswap⟩
  · simp [hnone]
  · simpa [hswap] using (h.swapped_connect hf hstage hswap).2

/-- Every step touches the objects in one of these ways, and only `process_accept` moves
itself on. -/
theorem touches_of_step (h : s.Accounted) {label : Label} (hstep : s.step app label = some s') :
    Touches s s'.objs ∧ s.made ≤ s'.made ∧
      (accepting label = false → s'.acceptor = s.acceptor) := by
  cases section_of_step h hstep with
  | accepted => exact ⟨.made, Nat.le_succ _, fun hnot => by cases hnot⟩
  | collected _ hdropped => exact ⟨.given hdropped, le_rfl, fun hnot => by cases hnot⟩
  | lookedAt | counted | erased | inserted => exact ⟨.same, le_rfl, fun hnot => by cases hnot⟩
  | died => exact ⟨.died, le_rfl, fun _ => rfl⟩
  | taken hthere => exact ⟨.taken (.inl hthere), le_rfl, fun _ => rfl⟩
  | gaveBack _ hdropped | released hdropped | left hdropped =>
      exact ⟨.given hdropped, le_rfl, fun _ => rfl⟩
  | replaced hf hstage hswap =>
      exact ⟨touches_connect h hf hstage (.inr ⟨_, hswap⟩), le_rfl, fun _ => rfl⟩
  | saved hf hstage hfree =>
      exact ⟨touches_connect h hf hstage (.inl hfree), le_rfl, fun _ => rfl⟩
  | switched hf hstage hswap hlatest hne =>
      have hpos := count_pos h.entries hlatest
      refine ⟨.taken (.inr ⟨?_, by omega⟩), le_rfl, fun _ => rfl⟩
      simpa [hswap] using hne.symm
  | served _ hserve =>
      obtain ⟨server, -, ⟨-, rfl⟩ | ⟨-, rfl⟩⟩ := serve_eq_some hserve <;>
        exact ⟨.same, le_rfl, fun _ => rfl⟩
  | full | short | queued | kept | stayed => exact ⟨.same, le_rfl, fun _ => rfl⟩

/-- A connection that has been made stays what it is, except that it dies and is
deleted. -/
theorem Touches.keeps {objs : ConnId → ConnObj} (h : Touches s objs) {c : ConnId}
    (hc : c < s.made) : ((s.objs c).dead = true → (objs c).dead = true) ∧
      ((s.objs c).deleted = true → (objs c).deleted = true) := by
  cases h with
  | same => exact ⟨id, id⟩
  | @taken c₀ =>
      by_cases hne : c = c₀
      · subst hne
        simp [incref, ConnObj.incref]
      · simp [incref, hne]
  | @given c₀ _ hdropped =>
      refine ⟨fun hdead => (hdropped.dead c).trans hdead, fun hdel => ?_⟩
      by_cases hne : c = c₀
      · subst hne
        exact hdropped.deleted.mpr (.inl hdel)
      · rw [hdropped.others c hne]
        exact hdel
  | @died c₀ =>
      by_cases hne : c = c₀
      · subst hne
        simp
      · simp [hne]
  | made =>
      rw [Function.update_of_ne (Nat.ne_of_lt hc)]
      exact ⟨id, id⟩

/-- The same, for a step. -/
theorem objs_of_step (h : s.Accounted) {label : Label} (hstep : s.step app label = some s')
    {c : ConnId} (hc : c < s.made) :
    c < s'.made ∧ ((s.objs c).dead = true → (s'.objs c).dead = true) ∧
      ((s.objs c).deleted = true → (s'.objs c).deleted = true) ∧
      (accepting label = false → s'.acceptor = s.acceptor) := by
  obtain ⟨htouches, hmade, hacceptor⟩ := touches_of_step h hstep
  obtain ⟨hdead, hdeleted⟩ := htouches.keeps hc
  exact ⟨hc.trans_le hmade, hdead, hdeleted, hacceptor⟩

/-- Writing a frame brings in no connection but its own. -/
theorem atWork_update_ne {frames : DispatchId → Option Dispatch} {c : ConnId}
    (h : ∀ d, atWork frames d ≠ some c) {d : DispatchId} {f : Dispatch} (hf : f.conn ≠ c)
    (e : DispatchId) : atWork (Function.update frames d (some f)) e ≠ some c := by
  rw [atWork_update]
  by_cases he : e = d
  · subst he
    rw [Function.update_self, Dispatch.working]
    split_ifs
    · simp
    · simpa using hf
  · rw [Function.update_of_ne he]
    exact h e

/-- A section in which connections stay what they are hands none on but its own. -/
theorem Idle.serve {c : ConnId} (h : s.Idle c) {label : Server.Label}
    (hkeeps : keepsConns label = true) (hstep : s.serve app label = some s') : s'.Idle c := by
  obtain ⟨hentries, hjobs, hleaving⟩ := h.unused
  obtain ⟨server, hserver, hcases⟩ := serve_eq_some hstep
  obtain ⟨hconns, hframes⟩ := frames_of_step hkeeps hserver
  have hwork : (∀ d, atWork server.frames d ≠ some c) ∧ c ∉ exits server label := by
    rcases hframes with ⟨hnone, hsame⟩ | ⟨d, g, g', hd, hg, hstage, -, -, hupdate, hconn⟩
    · rw [hsame]
      exact ⟨hjobs, by simp [exits, hnone]⟩
    · have hne : g'.conn ≠ c := by
        rw [hconn]
        intro heq
        apply hjobs d
        rw [atWork_of_stage hg hstage, heq]
      rw [hupdate]
      refine ⟨atWork_update_ne hjobs hne, ?_⟩
      rw [exits, hd, Option.bind_some, hupdate, Function.update_self, Option.bind_some]
      split_ifs
      · simpa using hne.symm
      · simp
  rcases hcases with ⟨-, rfl⟩ | ⟨-, rfl⟩
  · refine ⟨h.lt_made, h.dead, h.reader, ⟨hconns ▸ hentries, hwork.1, hleaving⟩, fun hmem => ?_⟩
    rcases List.mem_append.mp hmem with hold | hnew
    · exact h.returned hold
    · exact hwork.2 hnew
  · refine ⟨h.lt_made, h.dead, h.reader, ⟨hconns ▸ hentries, hwork.1, fun hmem => ?_⟩,
      h.returned⟩
    rcases List.mem_append.mp hmem with hold | hnew
    · exact hleaving hold
    · exact hwork.2 hnew

/-- Nobody takes hold of the connection. -/
theorem Idle.step {c : ConnId} (h : s.Idle c) (haccounted : s.Accounted) {label : Label}
    (hstep : s.step app label = some s') : s'.Idle c := by
  obtain ⟨hmade, hdead, -⟩ := objs_of_step haccounted hstep h.lt_made
  obtain ⟨hentries, hjobs, hleaving⟩ := h.unused
  have hkeep : s'.reader = s.reader → s'.server = s.server →
      (∀ c', c' ∈ s'.leaving → c' ∈ s.leaving) → s'.unreturned = s.unreturned → s'.Idle c := by
    intro hreader hserver hsub hlist
    refine ⟨hmade, hdead h.dead, hreader ▸ h.reader, ?_, hlist ▸ h.returned⟩
    rw [Unused, hserver]
    exact ⟨hentries, hjobs, fun hmem => hleaving (hsub c hmem)⟩
  -- the connection of a job is another one
  have hjob : ∀ {d f}, s.server.frames d = some f → f.stage ≠ .ended → f.conn ≠ c := by
    intro d f hf hstage heq
    apply hjobs d
    rw [atWork_of_stage hf hstage, heq]
  -- a job's connection is saved as the latest one of its client
  have hconnect : ∀ {d f}, s.server.frames d = some f → f.stage = .connect →
      (∀ clt, (s.server.connect d f).conns clt ≠ some c) ∧
        ∀ e, atWork (s.server.connect d f).frames e ≠ some c := by
    intro d f hf hstage
    have hne := hjob hf (by simp [hstage])
    refine ⟨fun clt => ?_, atWork_update_ne (f := { f with stage := .check }) hjobs hne⟩
    simp only [Server.connect, Server.put]
    by_cases hclt : clt = f.request.clt
    · subst hclt
      simpa using hne
    · rw [Function.update_of_ne hclt]
      exact hentries clt
  cases section_of_step haccounted hstep with
  | accepted | lookedAt | counted | collected | erased | inserted | died | released =>
      exact hkeep rfl rfl (fun _ => id) rfl
  | left => exact hkeep rfl rfl (fun c' hmem => (List.eraseIdx_sublist _ _).subset hmem) rfl
  | taken _ halive =>
      refine ⟨hmade, hdead h.dead, fun hsame => ?_, h.unused, h.returned⟩
      obtain rfl := Option.some.inj hsame
      rw [h.dead] at halive
      cases halive
  | full hreader =>
      have hne := h.reader
      rw [hreader] at hne
      exact ⟨hmade, hdead h.dead, hne, h.unused, h.returned⟩
  | @short _ c₀ _ hreader =>
      have hne : c₀ ≠ c := fun heq => h.reader (by rw [hreader, heq]; rfl)
      refine ⟨hmade, hdead h.dead, by simp [Reader.conn], ⟨hentries, hjobs, fun hmem => ?_⟩,
        h.returned⟩
      rcases List.mem_append.mp hmem with hold | hnew
      · exact hleaving hold
      · exact hne (List.mem_singleton.mp hnew).symm
  | @queued _ c₀ _ _ hreader =>
      have hne : c₀ ≠ c := fun heq => h.reader (by rw [hreader, heq]; rfl)
      exact ⟨hmade, hdead h.dead, by simp [Reader.conn],
        ⟨hentries, atWork_update_ne hjobs hne, hleaving⟩, h.returned⟩
  | gaveBack => exact ⟨hmade, hdead h.dead, by simp [Reader.conn], h.unused, h.returned⟩
  | replaced hf hstage | saved hf hstage | kept hf hstage =>
      obtain ⟨hconns, hframes⟩ := hconnect hf hstage
      exact ⟨hmade, hdead h.dead, h.reader, ⟨hconns, hframes, hleaving⟩, h.returned⟩
  | @switched d f latest _ _ _ _ hlatest =>
      have hne : latest ≠ c := fun heq => hentries _ (heq ▸ hlatest)
      exact ⟨hmade, hdead h.dead, h.reader, ⟨hentries,
        atWork_update_ne (f := { f with conn := latest, stage := .send }) hjobs hne,
        hleaving⟩, h.returned⟩
  | @stayed d f _ hf hstage =>
      have hne : f.conn ≠ c := hjob hf (by simp [hstage])
      exact ⟨hmade, hdead h.dead, h.reader, ⟨hentries,
        atWork_update_ne (f := { f with stage := .send }) hjobs hne, hleaving⟩, h.returned⟩
  | served hkeeps hserve => exact h.serve hkeeps hserve

/-- The count of such a connection. -/
theorem Idle.refno_eq {c : ConnId} (h : s.Idle c) (haccounted : s.Accounted)
    (herased : s.acceptor.erased ≠ some c) :
    (s.objs c).refno = s.conns.values.count c + one s.acceptor.ch c := by
  have hrefno := haccounted.refno_eq c
  have hswap := haccounted.one_swapping_le c
  obtain ⟨hentries, hjobs, hleaving⟩ := h.unused
  rw [count_eq_zero hentries, count_eq_zero hjobs] at hswap
  simp only [released, held, one_of_ne herased, count_eq_zero hentries, count_eq_zero hjobs,
    List.count_eq_zero_of_not_mem hleaving, one_of_ne h.reader,
    List.count_eq_zero_of_not_mem h.returned] at hrefno
  omega

/-- A connection in `conns_` is there once, and is not the one that is being inserted. -/
theorem Placed.count_eq (h : s.Placed) {c : ConnId} (hmem : c ∈ s.conns.values) :
    s.conns.values.count c = 1 ∧ s.acceptor.ch ≠ some c := by
  obtain ⟨-, hnodup, hdisjoint⟩ := List.nodup_append.mp h.nodup
  exact ⟨List.count_eq_one_of_mem hnodup hmem,
    fun hch => hdisjoint c (by simp [hch]) c hmem rfl⟩

/-- `process_accept` will still come to the connection, unless it is deleted. -/
def Due (s : Registry σ) (c : ConnId) : Prop :=
  (s.objs c).deleted = true ∨
    (s.acceptor.erased ≠ some c ∧ ∃ entry ∈ pending s.acceptor, entry.2 = c)

/-- `process_accept` does not pass by a dead connection that nobody else uses. -/
theorem Due.step {c : ConnId} (h : s.Due c) (hidle : s.Idle c) (haccounted : s.Accounted)
    (hplaced : s.Placed) {label : Label} (hstep : s.step app label = some s') : s'.Due c := by
  obtain ⟨-, -, hdeleted, hacceptor⟩ := objs_of_step haccounted hstep hidle.lt_made
  rcases h with hgone | ⟨herased, entry, hentry, rfl⟩
  · exact .inl (hdeleted hgone)
  have hone : (s.objs entry.2).refno = 1 := by
    have hmem : entry.2 ∈ s.conns.values := List.mem_map_of_mem (hplaced.pending.subset hentry)
    obtain ⟨hcount, hch⟩ := hplaced.count_eq hmem
    rw [hidle.refno_eq haccounted herased, hcount, one_of_ne hch]
    rfl
  cases section_of_step haccounted hstep with
  | accepted hnone =>
      rw [hnone] at hentry
      cases hentry
  | lookedAt hscan =>
      rw [hscan] at hentry
      right
      simp only
      split_ifs with hdead
      · exact ⟨by simp [Acceptor.erased], entry, hentry, rfl⟩
      · refine ⟨by simp [Acceptor.erased], entry, ?_, rfl⟩
        rcases List.mem_cons.mp hentry with rfl | hrest
        · exact absurd hidle.dead hdead
        · exact hrest
  | counted hscan =>
      rw [hscan] at hentry
      right
      simp only
      split_ifs with hrefno
      · exact ⟨by simp [Acceptor.erased], entry, hentry, rfl⟩
      · refine ⟨by simp [Acceptor.erased], entry, ?_, rfl⟩
        rcases List.mem_cons.mp hentry with rfl | hrest
        · exact absurd hone hrefno
        · exact hrest
  | @collected _ head _ _ hscan hd =>
      rw [hscan] at hentry
      by_cases hhead : head.2 = entry.2
      · have hrefno := hd.refno entry.2
        rw [hhead, one_self, hone] at hrefno
        left
        rw [← hhead]
        refine hd.deleted.mpr (.inr ⟨?_, hhead ▸ hidle.dead⟩)
        rw [hhead]
        omega
      · exact .inr ⟨by simpa [Acceptor.erased] using hhead, entry, hentry, rfl⟩
  | erased hscan =>
      rw [hscan] at hentry herased
      refine .inr ⟨by simp [Acceptor.erased], entry, ?_, rfl⟩
      rcases List.mem_cons.mp hentry with rfl | hrest
      · exact absurd rfl herased
      · exact hrest
  | inserted hscan =>
      rw [hscan] at hentry
      cases hentry
  | _ =>
      right
      rw [hacceptor rfl]
      exact ⟨herased, entry, hentry, rfl⟩

/-- When `process_accept` has come to its end, the connection is gone. -/
theorem collected {nonce : UInt32} {c : ConnId} {labels : List Label} (hdue : s.Due c)
    (hidle : s.Idle c) (h : s.Accounted ∧ s.Placed)
    (hexec : (system app nonce).exec s labels = some s') (hend : s'.acceptor = .idle) :
    (s'.objs c).deleted = true ∧ c ∉ s'.conns.values := by
  induction labels generalizing s with
  | nil =>
      obtain rfl := Option.some.inj hexec
      rcases hdue with hgone | ⟨-, entry, hentry, -⟩
      · refine ⟨hgone, fun hmem => ?_⟩
        rw [h.2.intact c ⟨by simp [hend, Acceptor.erased], .inl hmem⟩] at hgone
        cases hgone
      · rw [hend] at hentry
        cases hentry
  | cons label labels ih =>
      obtain ⟨s₁, hstep, hrest⟩ := Option.bind_eq_some_iff.mp hexec
      exact ih (hdue.step hidle h.1 h.2 hstep) (hidle.step h.1 hstep) (accounted_step h hstep) hrest

/-! ## The counts -/

/-- The references that there should be: one for `conns_` of `tcpsconn`, one for every
entry of a client, and one for every job that is queued or running. -/
noncomputable def references (s : Registry σ) (c : ConnId) : ℕ :=
  (if c ∈ s.conns.values ∨ s.acceptor.ch = some c then 1 else 0) + count s.server.conns c +
    (count (atWork s.server.frames) c + s.leaving.count c)

/-- Nobody is in `got_pdu`, between `decref` and `erase` in `process_accept`, or in the
middle of a section under `conss_m_`. -/
def Quiet (s : Registry σ) : Prop :=
  s.reader = .idle ∧ s.acceptor.erased = none ∧ s.swapping = none

/-- The count of a connection, and what has not been given back. -/
theorem refno_eq_of_quiet (h : s.Accounted ∧ s.Placed) (hquiet : s.Quiet) (c : ConnId) :
    (s.objs c).refno = s.references c + s.unreturned.count c := by
  obtain ⟨hreader, herased, hswap⟩ := hquiet
  have hrefno := h.1.refno_eq c
  have hplace : s.conns.values.count c + one s.acceptor.ch c =
      if c ∈ s.conns.values ∨ s.acceptor.ch = some c then 1 else 0 := by
    by_cases hmem : c ∈ s.conns.values
    · obtain ⟨hcount, hch⟩ := h.2.count_eq hmem
      rw [hcount, one_of_ne hch, if_pos (.inl hmem)]
    · rw [List.count_eq_zero_of_not_mem hmem, one]
      simp only [hmem, false_or, Nat.zero_add]
  simp only [released, held, hreader, herased, hswap, Reader.conn, Option.map_none,
    one_none] at hrefno
  rw [references, ← hplace]
  omega

/-- A connection in `conns_` that has no other reference is used by nobody else. -/
theorem unused_of_references_eq_one (h : s.Accounted) {c : ConnId} (hmem : c ∈ s.conns.values)
    (hone : s.references c = 1) : s.Unused c := by
  rw [references, if_pos (.inl hmem)] at hone
  refine ⟨fun clt hclt => ?_, fun d hd => ?_, fun hleaving => ?_⟩
  · have hpos := count_pos h.entries hclt
    omega
  · have hpos := count_pos h.jobs hd
    omega
  · have hpos := List.count_pos_iff.mpr hleaving
    omega

/-- The counts balance in every run in which `dispatch` refuses no request as one for an
old instance, and a dead connection that nobody else uses has the count 1 and is deleted
by the next call of `process_accept`. -/
theorem referencesBalance {nonce : UInt32} {labels : List Label} {reached : Registry σ}
    (hrun : (system app nonce).Run (fun source label => sameInstance source label = true) labels
      reached) (hquiet : reached.Quiet) :
    (∀ c, c < reached.made → (reached.objs c).deleted = false →
        (reached.objs c).refno = reached.references c) ∧
      ∀ c, c ∈ reached.conns.values → (reached.objs c).dead = true → reached.Unused c →
        (reached.objs c).refno = 1 ∧
          ∀ fd rest final,
            (system app nonce).exec reached (.accept fd :: rest) = some final →
            final.acceptor = .idle →
            (final.objs c).deleted = true ∧ c ∉ final.conns.values := by
  have h := accounted_of_run hrun
  have hreturned := (returned_of_run hrun).unreturned
  have hidle : ∀ c, c ∈ reached.conns.values → (reached.objs c).dead = true →
      reached.Unused c → reached.Idle c := by
    intro c hmem hdead hunused
    obtain ⟨entry, hentry, rfl⟩ := List.mem_map.mp hmem
    exact ⟨(h.2.entry entry hentry).1, hdead, by simp [hquiet.1, Reader.conn], hunused,
      by simp [hreturned]⟩
  refine ⟨fun c _ _ => ?_, fun c hmem hdead hunused => ⟨?_, ?_⟩⟩
  · rw [refno_eq_of_quiet h hquiet c, hreturned]
    simp
  · obtain ⟨hcount, hch⟩ := h.2.count_eq hmem
    rw [(hidle c hmem hdead hunused).refno_eq h.1 (by simp [hquiet.2.1]), hcount, one_of_ne hch]
    rfl
  · intro fd rest final hexec hend
    obtain ⟨s₁, hstep, hrest⟩ := Option.bind_eq_some_iff.mp hexec
    have haccept : reached.step app (.accept fd) = some s₁ := hstep
    refine collected ?_ ((hidle c hmem hdead hunused).step h.1 haccept)
      (accounted_step h haccept) hrest hend
    obtain ⟨entry, hentry, rfl⟩ := List.mem_map.mp hmem
    obtain ⟨-, heq⟩ := Option.ite_none_right_eq_some.mp haccept
    obtain rfl := Option.some.inj heq
    exact .inr ⟨by simp [Acceptor.erased], entry, hentry, rfl⟩

/-- The PDU of a client's call of `bind`, with the nonce of a server in it. -/
def bindCall (srvNonce : UInt32) : Bytes :=
  Request.pdu
    { header := { xid := 1, proc := 1, cltNonce := 1, srvNonce, xidRep := 0 }
      args := be32 0 }

/-- A client binds; its connection dies, and it sends the request again on another
one. -/
def reconnectRun : List Label :=
  [.accept 5, .insert, .gotPdu 0 (bindCall 0), .addJob 0 true, .dispatch (.vet 0),
    .dispatch (.enroll 0), .dispatch (.connect 0), .dispatch (.check 0),
    .dispatch (.enter 0 0 fun _ => 0), .dispatch (.record 0), .dispatch (.select 0 false),
    .dispatch (.send 0), .leave 0, .die 0,
    .accept 6, .isdead, .ref, .insert, .gotPdu 1 (bindCall 0), .addJob 1 true,
    .dispatch (.vet 1), .dispatch (.enroll 1), .release 1, .dispatch (.connect 1),
    .dispatch (.check 1), .dispatch (.send 1), .leave 0]

/-- The steps in which a third connection is accepted. -/
def acceptRun : List Label :=
  [.accept 7, .isdead, .ref, .collect, .erase, .isdead, .insert]

theorem referencesBalance_reconnect :
    ∃ reached final, (system handleFast 9).Run
        (fun source label => sameInstance source label = true) reconnectRun reached ∧
      ((reached.objs 1).refno = reached.references 1 ∧ (reached.objs 0).refno = 1) ∧
      (system handleFast 9).exec reached acceptRun = some final ∧
      (final.objs 0).deleted = true ∧ 0 ∉ final.conns.values := by
  have hexec : ((system handleFast 9).execIf sameInstance (system handleFast 9).init
      reconnectRun).any (fun s =>
        decide (s.reader = .idle) && s.acceptor.erased.isNone && s.swapping.isNone &&
          s.conns.values.contains 0 && (s.objs 0).dead && (s.objs 0).refno == 1 &&
          s.made == 2 && !(s.objs 0).deleted && !(s.objs 1).deleted &&
          ((system handleFast 9).exec s acceptRun).any
            fun final => decide (final.acceptor = .idle)) = true := by
    decide +kernel
  obtain ⟨reached, hrun, htest⟩ := System.exists_run_of_execIf hexec
  simp only [Bool.and_eq_true, decide_eq_true_eq, Option.isNone_iff_eq_none,
    List.contains_iff_mem, beq_iff_eq, Bool.not_eq_true', Option.any_eq_true] at htest
  obtain ⟨⟨⟨⟨⟨⟨⟨⟨⟨hreader, herased⟩, hswap⟩, hmem⟩, hdead⟩, hone⟩, hmade⟩, halive⟩, hother⟩, final,
    hfinal, hend⟩ := htest
  obtain ⟨hbalanced, hcollected⟩ := referencesBalance hrun ⟨hreader, herased, hswap⟩
  have hreferences := hbalanced 0 (by omega) halive
  rw [hone] at hreferences
  have hunused := unused_of_references_eq_one (accounted_of_run hrun).1 hmem (by omega)
  obtain ⟨hrefno, hnext⟩ := hcollected 0 hmem hdead hunused
  exact ⟨reached, final, hrun, ⟨hbalanced 1 (by omega) hother, hrefno⟩, hfinal,
    hnext 7 _ final hfinal hend⟩

/-- A request for an old instance arrives on a connection, which then dies; another one is
accepted. -/
def oldInstanceRun : List Label :=
  [.accept 5, .insert, .gotPdu 0 (bindCall 5), .addJob 0 true, .dispatch (.vet 0),
    .dispatch (.refuse 0 RpcConst.oldsrvFailure), .die 0, .accept 6, .isdead, .ref, .insert]

/-- The reference of the job has not been given back, and the connection is not
collected. -/
theorem oldInstance_keepsReference :
    ∃ reached, (system handleFast 9).Run anyStep oldInstanceRun reached ∧
      reached.Quiet ∧ 0 < reached.made ∧
      ((reached.objs 0).dead = true ∧ (reached.objs 0).deleted = false ∧
        0 ∈ reached.conns.values ∧ reached.Unused 0) ∧
      (reached.objs 0).refno = 2 ∧ reached.references 0 = 1 := by
  have hexec : ((system handleFast 9).exec (system handleFast 9).init oldInstanceRun).any
      (fun s => decide (s.reader = .idle) && s.acceptor.erased.isNone && s.swapping.isNone &&
        decide (0 < s.made) && (s.objs 0).dead && !(s.objs 0).deleted &&
        s.conns.values.contains 0 && (s.objs 0).refno == 2 && s.unreturned == [0]) = true := by
    decide +kernel
  obtain ⟨reached, hrun, htest⟩ := System.exists_run_of_exec hexec
  simp only [Bool.and_eq_true, decide_eq_true_eq, Option.isNone_iff_eq_none,
    List.contains_iff_mem, beq_iff_eq, Bool.not_eq_true'] at htest
  obtain ⟨⟨⟨⟨⟨⟨⟨⟨hreader, herased⟩, hswap⟩, hmade⟩, hdead⟩, halive⟩, hmem⟩, hrefno⟩, hlist⟩ := htest
  have hquiet : reached.Quiet := ⟨hreader, herased, hswap⟩
  have h := accounted_of_run hrun
  have hcount := refno_eq_of_quiet h hquiet 0
  rw [hrefno, hlist, List.count_singleton_self] at hcount
  have hone : reached.references 0 = 1 := by omega
  exact ⟨reached, hrun, hquiet, hmade,
    ⟨hdead, halive, hmem, unused_of_references_eq_one h.1 hmem hone⟩, hrefno, hone⟩

end YfsLab.Rpc.Registry
