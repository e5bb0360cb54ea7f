/-
# What a section of the server does

The sections of `dispatch`, by cases. Each case says where the dispatch stands, what
was found, and which server is left; the proofs about runs of the server start
from this list and do not look into the definitions of the sections again.
-/

import YfsLab.Rpc.Server

namespace YfsLab.Rpc.Server

open BigEndian Transition Wire

variable {σ : Type} {app : Service σ}

/-- A handler is entered, or goes on, with this result. -/
inductive Handles (app : Service σ) (s : Server σ) (d : DispatchId) (f : Dispatch)
    (area : Area) (result : σ × Option Outcome) : Label → Prop
  | entered {choice : ℕ} (hstage : f.stage = .run)
      (hresult : s.handler app d f.request choice = some result) :
      Handles app s d f area result (.enter d choice area)
  | resumed {choice : ℕ} (hstage : f.stage = .running)
      (hresult : app.resume s.service d choice = some result) :
      Handles app s d f area result (.resume d choice area)

/-- What a section of the server finds and what it leaves. -/
inductive Section (app : Service σ) (s : Server σ) : Label → Server σ → Prop
  | dropped {d : DispatchId} {conn : ConnId} {pdu : Bytes}
      (hpdu : decodeRequest pdu = none) : Section app s (.receive d conn pdu) s
  | received {d : DispatchId} {conn : ConnId} {pdu : Bytes} {request : Request}
      (hfresh : s.frames d = none) (hpdu : decodeRequest pdu = some request) :
      Section app s (.receive d conn pdu) (s.put d { conn, request })
  | old {d : DispatchId} {f : Dispatch} (hf : s.frames d = some f)
      (hstage : f.stage = .queued) (hzero : f.request.srv ≠ 0)
      (hnonce : f.request.srv ≠ s.nonce) :
      Section app s (.vet d) (s.put d { f with stage := .refuse RpcConst.oldsrvFailure })
  | unregistered {d : DispatchId} {f : Dispatch} (hf : s.frames d = some f)
      (hstage : f.stage = .queued) (hbind : f.request.proc ≠ RpcConst.bind)
      (hregistered : app.registered f.request.proc = false) :
      Section app s (.vet d) (s.put d { f with stage := .ended })
  | vetted {d : DispatchId} {f : Dispatch} (hf : s.frames d = some f)
      (hstage : f.stage = .queued) (hsrv : f.request.srv = 0 ∨ f.request.srv = s.nonce) :
      Section app s (.vet d)
        (s.put d { f with stage := if f.request.clt = 0 then .run else .enroll })
  | enrolled {d : DispatchId} {f : Dispatch} (hf : s.frames d = some f)
      (hstage : f.stage = .enroll) :
      Section app s (.enroll d)
        ({ s with store := s.store.enroll f.request.clt }.put d { f with stage := .connect })
  | connected {d : DispatchId} {f : Dispatch} (hf : s.frames d = some f)
      (hstage : f.stage = .connect) :
      Section app s (.connect d)
        ({ s with conns := Function.update s.conns f.request.clt (some f.conn) }.put d
          { f with stage := .check })
  | checked {d : DispatchId} {f : Dispatch} (hf : s.frames d = some f)
      (hstage : f.stage = .check) : Section app s (.check d) (s.check d f)
  | waits {d : DispatchId} {f : Dispatch} {label : Label} {area : Area} {service : σ}
      (hf : s.frames d = some f) (hhandles : Handles app s d f area (service, none) label) :
      Section app s label ({ s with service }.put d { f with stage := .running })
  | returned {d : DispatchId} {f : Dispatch} {label : Label} {area : Area} {service : σ}
      {outcome : Outcome} {rep : Bytes} (hf : s.frames d = some f)
      (hhandles : Handles app s d f area (service, some outcome) label)
      (hrep : rep = replyPdu (List.ofFn area) ⟨f.request.header.xid, outcome.ret⟩
        outcome.result) :
      Section app s label
        ({ s with
            service := service
            store := { s.store with
              heap := Function.update s.store.heap d (some { bytes := rep }) } }.put d
          { f with
            stage := if f.request.clt = 0 then .select else .record
            b1 := some d
            sz1 := rep.length })
  | stirred {choice : ℕ} {service : σ} (hstir : app.stir s.service choice = some service) :
      Section app s (.stir choice) { s with service }
  | recorded {d : DispatchId} {f : Dispatch} {buf : BufId} {l : List ReplyEntry}
      (hf : s.frames d = some f) (hstage : f.stage = .record) (hbuf : f.b1 = some buf)
      (hl : s.store.window f.request.clt = some l) :
      Section app s (.record d)
        ({ s with
            store := s.store.put f.request.clt
              (ReplyStore.setReply f.request.xid buf f.sz1 l) }.put d
          { f with stage := .select })
  | switched {d : DispatchId} {f : Dispatch} {conn : ConnId} (hf : s.frames d = some f)
      (hstage : f.stage = .select) (hconn : s.conns f.request.clt = some conn) :
      Section app s (.select d true) (s.put d { f with conn, stage := .send })
  | stays {d : DispatchId} {f : Dispatch} {dead : Bool} (hf : s.frames d = some f)
      (hstage : f.stage = .select)
      (halive : dead = true → s.conns f.request.clt = some f.conn) :
      Section app s (.select d dead) (s.put d { f with stage := .send })
  | sent {d : DispatchId} {f : Dispatch} (hf : s.frames d = some f)
      (hstage : f.stage = .send) : Section app s (.send d) (s.send d f)
  | refused {d : DispatchId} {f : Dispatch} {ret : Int32} (hf : s.frames d = some f)
      (hstage : f.stage = .refuse ret) :
      Section app s (.refuse d ret) (s.put d { f with stage := .ended })

/-- The end of `enter` and `resume`. -/
theorem section_of_settle {s target : Server σ} {d : DispatchId} {f : Dispatch}
    {label : Label} {area : Area} {result : σ × Option Outcome} (hf : s.frames d = some f)
    (hhandles : Handles app s d f area result label)
    (hsettle : s.settle d f area result = some target) : Section app s label target := by
  obtain ⟨service, _ | outcome⟩ := result
  · obtain rfl := Option.some.inj hsettle
    exact .waits hf hhandles
  · obtain ⟨_, htarget⟩ := Option.ite_none_right_eq_some.mp hsettle
    obtain rfl := Option.some.inj htarget
    exact .returned hf hhandles rfl

/-- Every step of the server is one of these sections. -/
theorem section_of_step {s target : Server σ} {label : Label}
    (hstep : s.step app label = some target) : Section app s label target := by
  cases label with
  | receive d conn pdu =>
      simp only [step, Option.isNone_iff_eq_none] at hstep
      split_ifs at hstep with hfresh
      obtain rfl := Option.some.inj hstep
      cases hpdu : decodeRequest pdu with
      | none => simpa only [receive, hpdu] using Section.dropped hpdu
      | some request => simpa only [receive, hpdu] using Section.received hfresh hpdu
  | vet d =>
      obtain ⟨f, hf, hstage, hnext⟩ := onFrame_eq_some.mp hstep
      obtain rfl := Option.some.inj hnext
      by_cases hold : f.request.srv ≠ 0 ∧ f.request.srv ≠ s.nonce
      · rw [vet, if_pos hold]
        exact .old hf hstage hold.1 hold.2
      rw [vet, if_neg hold]
      by_cases hunregistered :
          f.request.proc ≠ RpcConst.bind ∧ app.registered f.request.proc = false
      · rw [if_pos hunregistered]
        exact .unregistered hf hstage hunregistered.1 hunregistered.2
      · rw [if_neg hunregistered]
        exact .vetted hf hstage (by tauto)
  | enroll d =>
      obtain ⟨f, hf, hstage, hnext⟩ := onFrame_eq_some.mp hstep
      obtain rfl := Option.some.inj hnext
      exact .enrolled hf hstage
  | connect d =>
      obtain ⟨f, hf, hstage, hnext⟩ := onFrame_eq_some.mp hstep
      obtain rfl := Option.some.inj hnext
      exact .connected hf hstage
  | check d =>
      obtain ⟨f, hf, hstage, hnext⟩ := onFrame_eq_some.mp hstep
      obtain rfl := Option.some.inj hnext
      exact .checked hf hstage
  | enter d choice area =>
      obtain ⟨f, hf, hstage, hnext⟩ := onFrame_eq_some.mp hstep
      obtain ⟨result, hresult, hsettle⟩ := Option.bind_eq_some_iff.mp hnext
      exact section_of_settle hf (.entered hstage hresult) hsettle
  | resume d choice area =>
      obtain ⟨f, hf, hstage, hnext⟩ := onFrame_eq_some.mp hstep
      obtain ⟨result, hresult, hsettle⟩ := Option.bind_eq_some_iff.mp hnext
      exact section_of_settle hf (.resumed hstage hresult) hsettle
  | stir choice =>
      obtain ⟨service, hstir, rfl⟩ := Option.map_eq_some_iff.mp hstep
      exact .stirred hstir
  | record d =>
      obtain ⟨f, hf, hstage, hnext⟩ := onFrame_eq_some.mp hstep
      obtain ⟨buf, hbuf, hnext⟩ := Option.bind_eq_some_iff.mp hnext
      obtain ⟨store, hstore, rfl⟩ := Option.map_eq_some_iff.mp hnext
      obtain ⟨l, hl, rfl⟩ := Option.map_eq_some_iff.mp hstore
      exact .recorded hf hstage hbuf hl
  | select d dead =>
      obtain ⟨f, hf, hstage, hnext⟩ := onFrame_eq_some.mp hstep
      unfold select at hnext
      split_ifs at hnext with hswitch
      · obtain ⟨conn, hconn, rfl⟩ := Option.map_eq_some_iff.mp hnext
        obtain ⟨rfl, _⟩ := hswitch
        exact .switched hf hstage hconn
      · obtain rfl := Option.some.inj hnext
        exact .stays hf hstage (by simpa using hswitch)
  | send d =>
      obtain ⟨f, hf, hstage, hnext⟩ := onFrame_eq_some.mp hstep
      obtain rfl := Option.some.inj hnext
      exact .sent hf hstage
  | refuse d ret =>
      obtain ⟨f, hf, hstage, hnext⟩ := onFrame_eq_some.mp hstep
      obtain rfl := Option.some.inj hnext
      exact .refused hf hstage

/-! ## What a section emits -/

/-- The events of a section, one by one. -/
inductive Emits (app : Service σ) (s : Server σ) : Label → Event → Prop
  | checked {d : DispatchId} {f : Dispatch} (hf : s.frames d = some f) :
      Emits app s (.check d) (.checked d f.conn f.request
        (s.store.checkduplicateAndUpdate f.request.clt f.request.xid f.request.xidRep).2)
  | entered {d : DispatchId} {f : Dispatch} {choice : ℕ} {area : Area}
      (hf : s.frames d = some f) :
      Emits app s (.enter d choice area) (.entered d f.conn f.request s.nonce)
  | produced {d : DispatchId} {f : Dispatch} {label : Label} {area : Area} {service : σ}
      {outcome : Outcome} (hf : s.frames d = some f)
      (hlabel : (∃ choice, label = .enter d choice area ∧
          s.handler app d f.request choice = some (service, some outcome)) ∨
        ∃ choice, label = .resume d choice area ∧
          app.resume s.service d choice = some (service, some outcome)) :
      Emits app s label (.produced d f.request
        (replyPdu (List.ofFn area) ⟨f.request.header.xid, outcome.ret⟩ outcome.result))
  | sent {d : DispatchId} {f : Dispatch} (hf : s.frames d = some f) :
      Emits app s (.send d) (.sent d f.conn f.request (s.intact f))
  | refused {d : DispatchId} {f : Dispatch} {ret : Int32} (hf : s.frames d = some f) :
      Emits app s (.refuse d ret) (.refused d f.conn f.request ret)

theorem mem_productions {d : DispatchId} {f : Dispatch} {area : Area}
    {result : Option (σ × Option Outcome)} {event : Event}
    (hmem : event ∈ productions d f area result) :
    ∃ service outcome, result = some (service, some outcome) ∧
      event = .produced d f.request
        (replyPdu (List.ofFn area) ⟨f.request.header.xid, outcome.ret⟩ outcome.result) := by
  unfold productions at hmem
  split at hmem
  · exact ⟨_, _, rfl, List.mem_singleton.mp hmem⟩
  · cases hmem

theorem emits_of_mem {s : Server σ} {label : Label} {event : Event}
    (hmem : event ∈ events app s label) : Emits app s label event := by
  cases label with
  | check d =>
      obtain ⟨f, hf, rfl⟩ := List.mem_map.mp hmem
      exact .checked (by simpa using hf)
  | enter d choice area =>
      obtain ⟨f, hf, hmem⟩ := List.mem_flatMap.mp hmem
      rcases List.mem_cons.mp hmem with rfl | hmem
      · exact .entered (by simpa using hf)
      · obtain ⟨service, outcome, hresult, rfl⟩ := mem_productions hmem
        exact .produced (by simpa using hf) (.inl ⟨choice, rfl, hresult⟩)
  | resume d choice area =>
      obtain ⟨f, hf, hmem⟩ := List.mem_flatMap.mp hmem
      obtain ⟨service, outcome, hresult, rfl⟩ := mem_productions hmem
      exact .produced (by simpa using hf) (.inr ⟨choice, rfl, hresult⟩)
  | send d =>
      obtain ⟨f, hf, rfl⟩ := List.mem_map.mp hmem
      exact .sent (by simpa using hf)
  | refuse d ret =>
      obtain ⟨f, hf, rfl⟩ := List.mem_map.mp hmem
      exact .refused (by simpa using hf)
  | _ => cases hmem

/-! ## What happens to the dispatches -/

/-- The frames after one of them has been written. -/
theorem frames_put_eq_some {s : Server σ} {d j : DispatchId} {f' g : Dispatch} :
    (s.put d f').frames j = some g ↔ (j = d ∧ g = f') ∨ (j ≠ d ∧ s.frames j = some g) := by
  by_cases hj : j = d
  · subst hj
    simp [put, eq_comm]
  · simp [put, hj]

@[simp]
theorem frames_put_self (s : Server σ) (d : DispatchId) (f : Dispatch) :
    (s.put d f).frames d = some f := Function.update_self ..

theorem frames_put_of_ne (s : Server σ) {d j : DispatchId} (hj : j ≠ d) (f : Dispatch) :
    (s.put d f).frames j = s.frames j := Function.update_of_ne hj ..

@[simp]
theorem store_put (s : Server σ) (d : DispatchId) (f : Dispatch) :
    (s.put d f).store = s.store := rfl

theorem entries_send (s : Server σ) (d : DispatchId) (f : Dispatch) (clt : UInt32) :
    (s.send d f).store.entries clt = s.store.entries clt := by
  simp only [send, store_put]
  split_ifs <;> rfl

/-- A dispatch keeps its request, and its stage moves forward. -/
def Follows (f f' : Dispatch) : Prop :=
  f'.request = f.request ∧ (f' = f ∨ f.stage.leadsTo f'.stage = true)

/-- Writing one frame lets all dispatches go on if it lets this one. -/
theorem follows_put {s base : Server σ} {d j : DispatchId} {g g' f : Dispatch}
    (hbase : base.frames = s.frames) (hg : s.frames d = some g) (hfollows : Follows g g')
    (hf : s.frames j = some f) : ∃ f', (base.put d g').frames j = some f' ∧ Follows f f' := by
  by_cases hj : j = d
  · subst hj
    obtain rfl : g = f := Option.some.inj (hg.symm.trans hf)
    exact ⟨g', frames_put_self .., hfollows⟩
  · exact ⟨f, by rw [frames_put_of_ne base hj, hbase, hf], rfl, .inl rfl⟩

/-- Writing one frame keeps what holds of a dispatch if it does so for this one. -/
theorem kept_put {s base : Server σ} {d j : DispatchId} {g g' f : Dispatch}
    {holds : Dispatch → Prop} (hbase : base.frames = s.frames) (hg : s.frames d = some g)
    (hrequest : g'.request = g.request) (hkeep : j = d → holds g → holds g')
    (hf : s.frames j = some f) (hholds : holds f) :
    ∃ f', (base.put d g').frames j = some f' ∧ f'.request = f.request ∧ holds f' := by
  by_cases hj : j = d
  · subst hj
    obtain rfl := Option.some.inj (hf.symm.trans hg)
    exact ⟨g', frames_put_self .., hrequest, hkeep rfl hholds⟩
  · exact ⟨f, by rw [frames_put_of_ne base hj, hbase, hf], rfl, hholds⟩

/-- What holds of every dispatch still does after one has been written, if it holds of
the one that has been. -/
theorem holds_put {s base : Server σ} {holds : DispatchId → Dispatch → Prop}
    (h : ∀ d f, s.frames d = some f → holds d f) {d j : DispatchId} {g f : Dispatch}
    (hf : (base.put d g).frames j = some f) (hbase : base.frames = s.frames)
    (hg : holds d g) : holds j f := by
  rcases frames_put_eq_some.mp hf with ⟨rfl, rfl⟩ | ⟨-, hsame⟩
  · exact hg
  · exact h j f (hbase ▸ hsame)

theorem follow_request (f : Dispatch) (verdict : Verdict) :
    (follow f verdict).request = f.request := by
  cases verdict <;> rfl

theorem leadsTo_follow {f : Dispatch} (hstage : f.stage = .check) (verdict : Verdict) :
    Follows f (follow f verdict) := by
  cases verdict <;> exact ⟨rfl, .inr (by rw [hstage]; rfl)⟩

theorem Handles.stage {s : Server σ} {d : DispatchId} {f : Dispatch} {area : Area}
    {result : σ × Option Outcome} {label : Label}
    (hhandles : Handles app s d f area result label) :
    f.stage = .run ∨ f.stage = .running := by
  cases hhandles with
  | entered hstage => exact .inl hstage
  | resumed hstage => exact .inr hstage

/-- Every dispatch goes on, or stays where it is. -/
theorem follows_of_section {s target : Server σ} {label : Label}
    (hsection : Section app s label target) {j : DispatchId} {f : Dispatch}
    (hf : s.frames j = some f) : ∃ f', target.frames j = some f' ∧ Follows f f' := by
  cases hsection with
  | dropped | stirred => exact ⟨f, hf, rfl, .inl rfl⟩
  | @received d _ _ request hfresh =>
      have hj : j ≠ d := by
        rintro rfl
        rw [hfresh] at hf
        cases hf
      exact ⟨f, by rwa [frames_put_of_ne s hj], rfl, .inl rfl⟩
  | checked hd hstage => exact follows_put rfl hd (leadsTo_follow hstage _) hf
  | vetted hd hstage =>
      refine follows_put rfl hd ⟨rfl, .inr ?_⟩ hf
      rw [hstage]
      dsimp only
      split_ifs <;> rfl
  | waits hd hhandles =>
      refine follows_put rfl hd ⟨rfl, .inr ?_⟩ hf
      rcases hhandles.stage with hstage | hstage <;> rw [hstage] <;> rfl
  | returned hd hhandles =>
      refine follows_put rfl hd ⟨rfl, .inr ?_⟩ hf
      dsimp only
      rcases hhandles.stage with hstage | hstage <;> rw [hstage] <;> split_ifs <;> rfl
  | old hd hstage | unregistered hd hstage | enrolled hd hstage | connected hd hstage
  | recorded hd hstage | switched hd hstage | stays hd hstage | sent hd hstage
  | refused hd hstage => exact follows_put rfl hd ⟨rfl, .inr (by rw [hstage]; rfl)⟩ hf

/-- A dispatch keeps its connection, except where `dispatch` looks for the latest one
because its own is dead. -/
theorem conn_of_section {s target : Server σ} {label : Label}
    (hsection : Section app s label target) {j : DispatchId} {f f' : Dispatch}
    (hf : s.frames j = some f) (hf' : target.frames j = some f') :
    f'.conn = f.conn ∨ (label = .select j true ∧ f'.stage = .send ∧
      s.conns f.request.clt = some f'.conn) := by
  -- the frame that a section writes has the same connection
  have hmoved : ∀ {base : Server σ} {d : DispatchId} {g g' : Dispatch},
      (base.put d g').frames j = some f' → base.frames = s.frames → s.frames d = some g →
      g'.conn = g.conn → f'.conn = f.conn ∨ (label = .select j true ∧ f'.stage = .send ∧
        s.conns f.request.clt = some f'.conn) := by
    intro base d g g' hput hbase hg hconn
    rcases frames_put_eq_some.mp hput with ⟨rfl, rfl⟩ | ⟨_, hsame⟩
    · obtain rfl := Option.some.inj (hg.symm.trans hf)
      exact .inl hconn
    · rw [hbase, hf, Option.some.injEq] at hsame
      exact .inl (hsame ▸ rfl)
  cases hsection with
  | dropped | stirred =>
      obtain rfl := Option.some.inj (hf.symm.trans hf')
      exact .inl rfl
  | received hfresh =>
      rcases frames_put_eq_some.mp hf' with ⟨rfl, rfl⟩ | ⟨_, hsame⟩
      · rw [hfresh] at hf
        cases hf
      · obtain rfl := Option.some.inj (hf.symm.trans hsame)
        exact .inl rfl
  | @checked d g hg =>
      refine hmoved hf' rfl hg ?_
      cases (s.store.checkduplicateAndUpdate g.request.clt g.request.xid g.request.xidRep).2 <;>
        rfl
  | switched hg _ hconn =>
      rcases frames_put_eq_some.mp hf' with ⟨rfl, rfl⟩ | ⟨_, hsame⟩
      · obtain rfl := Option.some.inj (hg.symm.trans hf)
        exact .inr ⟨rfl, rfl, hconn⟩
      · obtain rfl := Option.some.inj (hf.symm.trans hsame)
        exact .inl rfl
  | old hg | unregistered hg | vetted hg | enrolled hg | connected hg | waits hg | returned hg
  | recorded hg | stays hg | sent hg | refused hg => exact hmoved hf' rfl hg rfl

/-- A dispatch after a section has been received by it, or has gone on. -/
theorem frame_of_section {s target : Server σ} {label : Label}
    (hsection : Section app s label target) {j : DispatchId} {f' : Dispatch}
    (hf' : target.frames j = some f') :
    (∃ pdu, label = .receive j f'.conn pdu ∧ decodeRequest pdu = some f'.request ∧
        f'.stage = .queued) ∨
      ∃ f, s.frames j = some f ∧ Follows f f' := by
  cases hf : s.frames j with
  | some f =>
      obtain ⟨g, hg, hfollows⟩ := follows_of_section hsection hf
      obtain rfl := Option.some.inj (hg.symm.trans hf')
      exact .inr ⟨f, rfl, hfollows⟩
  | none =>
      left
      have hold : ∀ {base : Server σ} {d : DispatchId} {g g' : Dispatch},
          (base.put d g').frames j = some f' → base.frames = s.frames →
          s.frames d ≠ some g := by
        intro base d g g' hput hbase hg
        rcases frames_put_eq_some.mp hput with ⟨rfl, _⟩ | ⟨_, hsame⟩
        · rw [hf] at hg
          cases hg
        · rw [hbase, hf] at hsame
          cases hsame
      cases hsection with
      | dropped | stirred =>
          rw [hf] at hf'
          cases hf'
      | received _ hpdu =>
          rcases frames_put_eq_some.mp hf' with ⟨rfl, rfl⟩ | ⟨_, hsame⟩
          · exact ⟨_, rfl, hpdu, rfl⟩
          · rw [hf] at hsame
            cases hsame
      | old hg | unregistered hg | vetted hg | enrolled hg | connected hg | checked hg
      | waits hg | returned hg | recorded hg | switched hg | stays hg | sent hg
      | refused hg => exact absurd hg (hold hf' rfl)

/-- The latest connection of a client after a section is as before, or the one of a
dispatch that has just saved it. -/
theorem latest_of_section {s target : Server σ} {label : Label}
    (hsection : Section app s label target) {clt : UInt32} {n : ConnId}
    (hlatest : target.conns clt = some n) :
    s.conns clt = some n ∨ ∃ d f, label = .connect d ∧ s.frames d = some f ∧
      f.request.clt = clt ∧ f.conn = n := by
  cases hsection with
  | @connected d f hf =>
      by_cases hclt : clt = f.request.clt
      · subst hclt
        refine .inr ⟨d, f, rfl, hf, rfl, ?_⟩
        simpa [put] using hlatest
      · refine .inl ?_
        simpa [put, Function.update_of_ne hclt] using hlatest
  | _ => exact .inl hlatest

/-- The objects of the handlers change in a handler, or without any. -/
theorem service_of_section {s target : Server σ} {label : Label}
    (hsection : Section app s label target) :
    target.service = s.service ∨
    (∃ d f area result, s.frames d = some f ∧ Handles app s d f area result label ∧
      target.service = result.1) ∨
    ∃ choice, app.stir s.service choice = some target.service := by
  cases hsection with
  | waits hf hhandles | returned hf hhandles =>
      exact .inr (.inl ⟨_, _, _, _, hf, hhandles, rfl⟩)
  | stirred hstir => exact .inr (.inr ⟨_, hstir⟩)
  | _ => exact .inl rfl

/-- The handler that has produced a reply. -/
theorem handles_of_produced {s target : Server σ} {label : Label}
    (hstep : s.step app label = some target) {d : DispatchId} {request : Request} {pdu : Bytes}
    (hmem : .produced d request pdu ∈ events app s label) :
    ∃ f area outcome, s.frames d = some f ∧ f.request = request ∧
      Handles app s d f area (target.service, some outcome) label ∧
      pdu = replyPdu (List.ofFn area) ⟨request.header.xid, outcome.ret⟩ outcome.result := by
  cases emits_of_mem hmem with
  | @produced _ f _ area service outcome hf hlabel =>
      have hservice : ∀ {b : Area}, s.settle d f b (service, some outcome) = some target →
          target.service = service := by
        intro b hsettle
        obtain ⟨-, htarget⟩ := Option.ite_none_right_eq_some.mp hsettle
        obtain rfl := Option.some.inj htarget
        rfl
      refine ⟨f, area, outcome, hf, rfl, ?_, rfl⟩
      rcases hlabel with ⟨choice, rfl, hresult⟩ | ⟨choice, rfl, hresult⟩
      · obtain ⟨g, hg, hstage, hnext⟩ := onFrame_eq_some.mp hstep
        obtain rfl := Option.some.inj (hf.symm.trans hg)
        rw [hresult, Option.bind_some] at hnext
        rw [hservice hnext]
        exact .entered hstage hresult
      · obtain ⟨g, hg, hstage, hnext⟩ := onFrame_eq_some.mp hstep
        obtain rfl := Option.some.inj (hf.symm.trans hg)
        rw [hresult, Option.bind_some] at hnext
        rw [hservice hnext]
        exact .resumed hstage hresult

/-- A server keeps its nonce. -/
theorem nonce_of_section {s target : Server σ} {label : Label}
    (hsection : Section app s label target) : target.nonce = s.nonce := by
  cases hsection <;> rfl

/-- A section of the server other than the check leaves the xids in the windows. -/
theorem xids_of_section {s target : Server σ} {label : Label}
    (hsection : Section app s label target) (hcheck : ∀ d, label ≠ .check d) (clt : UInt32) :
    target.store.xids clt = s.store.xids clt := by
  cases hsection with
  | checked => exact absurd rfl (hcheck _)
  | enrolled => simp [ReplyStore.xids]
  | recorded _ _ _ hl =>
      simp only [ReplyStore.xids, store_put, ReplyStore.entries_put]
      split_ifs with heq
      · rw [ReplyStore.map_xid_setReply, heq, ReplyStore.entries, hl]
        rfl
      · rfl
  | @sent d f =>
      simp only [send, store_put]
      split_ifs <;> rfl
  | _ => rfl

end YfsLab.Rpc.Server
