/-
# What handlers make of requests

A reply says what a handler has made of the request. This can be said of the handlers
alone, as a relation between requests and outcomes: for a handler that returns at once
it relates the two, and for a handler that waits the objects behind it remember what it
has been entered with. The server adds nothing to it. Whatever handlers it runs, in
whatever order their sections come, the replies it produces are theirs.
-/

import YfsLab.Rpc.Replies

namespace YfsLab.Rpc

open BigEndian Transition Wire

variable {σ : Type}

/-! ## Handlers that keep to a relation -/

/-- What a section of the handler of a request has come to: an outcome that is allowed,
or the handler waits; and the handlers that wait go on doing so. -/
structure Keeps (waits : σ → DispatchId → Request → Prop) (allows : Request → Outcome → Prop)
    (state : σ) (d : DispatchId) (request : Request) (result : σ × Option Outcome) : Prop where
  returned : ∀ outcome, result.2 = some outcome → allows request outcome
  waiting : result.2 = none → waits result.1 d request
  others : ∀ e other, e ≠ d → waits state e other → waits result.1 e other

/-- The handlers of a service return what is allowed. For those that wait, `waits` says
which request the objects hold for a dispatch. -/
structure Service.Meets (app : Service σ) (waits : σ → DispatchId → Request → Prop)
    (allows : Request → Outcome → Prop) : Prop where
  enter : ∀ {state d request choice result}, app.enter state d request choice = some result →
    Keeps waits allows state d request result
  resume : ∀ {state d request choice result}, waits state d request →
    app.resume state d choice = some result → Keeps waits allows state d request result
  stir : ∀ {state choice target}, app.stir state choice = some target →
    ∀ d request, waits state d request → waits target d request

namespace Server

variable {app : Service σ}

/-- What the handler of a request may return to a server with this nonce: `rpcbind`
belongs to the server, the others to the service. -/
def Makes (nonce : UInt32) (allows : Request → Outcome → Prop) (request : Request)
    (outcome : Outcome) : Prop :=
  if request.proc = RpcConst.bind then rpcbind nonce request = some outcome
  else allows request outcome

/-- A reply to this request that tells its outcome. -/
def Tells (request : Request) (outcome : Outcome) (pdu : Bytes) : Prop :=
  ∃ area : Area, pdu =
    replyPdu (List.ofFn area) ⟨request.header.xid, outcome.ret⟩ outcome.result

theorem Tells.isReply {request : Request} {outcome : Outcome} {pdu : Bytes}
    (h : Tells request outcome pdu) : IsReply request outcome.ret pdu := by
  obtain ⟨area, rfl⟩ := h
  exact ⟨area, outcome.result, rfl⟩

/-- Handlers that wait are in the objects of the service, and what has been produced is
what they return. -/
structure Performs (nonce : UInt32) (waits : σ → DispatchId → Request → Prop)
    (allows : Request → Outcome → Prop) (source : Server σ × List Event) : Prop where
  nonce_eq : source.1.nonce = nonce
  running : ∀ d f, source.1.frames d = some f → f.stage = .running →
    f.request.proc ≠ RpcConst.bind ∧ waits source.1.service d f.request
  produced : ∀ d request pdu, .produced d request pdu ∈ source.2 →
    ∃ outcome, Makes nonce allows request outcome ∧ Tells request outcome pdu

theorem performs_start (app : Service σ) (nonce : UInt32)
    (waits : σ → DispatchId → Request → Prop) (allows : Request → Outcome → Prop) :
    Performs nonce waits allows (start app nonce, []) where
  nonce_eq := rfl
  running := by simp [start]
  produced := by simp

variable {nonce : UInt32} {waits : σ → DispatchId → Request → Prop}
  {allows : Request → Outcome → Prop}

/-- `rpcbind` returns at once and leaves the objects of the service alone. -/
theorem keeps_of_handles (hmeets : app.Meets waits allows) {s : Server σ}
    {history : List Event} (h : Performs nonce waits allows (s, history)) {d : DispatchId}
    {f : Dispatch} {area : Area} {result : σ × Option Outcome} {label : Label}
    (hf : s.frames d = some f) (hhandles : Handles app s d f area result label) :
    Keeps (fun service e request => request.proc ≠ RpcConst.bind ∧ waits service e request)
      (Makes nonce allows) s.service d f.request result := by
  -- a section of a handler of the service
  have hservice : f.request.proc ≠ RpcConst.bind →
      Keeps waits allows s.service d f.request result →
      Keeps (fun service e request => request.proc ≠ RpcConst.bind ∧ waits service e request)
        (Makes nonce allows) s.service d f.request result := by
    intro hbind hkeeps
    refine ⟨fun outcome hout => ?_, fun hnone => ⟨hbind, hkeeps.waiting hnone⟩,
      fun e other hne hwaits => ⟨hwaits.1, hkeeps.others e other hne hwaits.2⟩⟩
    rw [Makes, if_neg hbind]
    exact hkeeps.returned outcome hout
  cases hhandles with
  | entered hstage hresult =>
      unfold handler at hresult
      split_ifs at hresult with hbind
      · obtain ⟨outcome, houtcome, rfl⟩ := Option.map_eq_some_iff.mp hresult
        refine ⟨fun found hout => ?_, fun hnone => absurd hnone (Option.some_ne_none _),
          fun e other _ hwaits => hwaits⟩
        obtain rfl := Option.some.inj hout
        have hnonce : s.nonce = nonce := h.nonce_eq
        rw [Makes, if_pos hbind, ← hnonce]
        exact houtcome
      · exact hservice hbind (hmeets.enter hresult)
  | resumed hstage hresult =>
      obtain ⟨hbind, hwaits⟩ := h.running d f hf hstage
      exact hservice hbind (hmeets.resume hwaits hresult)

/-- A handler that waits after a section is in the objects of the service. -/
theorem waits_of_section (hmeets : app.Meets waits allows) {s target : Server σ}
    {history : List Event} {label : Label} (hsection : Section app s label target)
    (h : Performs nonce waits allows (s, history)) {d : DispatchId} {f : Dispatch}
    (hf : target.frames d = some f) (hstage : f.stage = .running) :
    f.request.proc ≠ RpcConst.bind ∧ waits target.service d f.request := by
  have hkept : ∀ d f, s.frames d = some f → f.stage = .running →
      f.request.proc ≠ RpcConst.bind ∧ waits s.service d f.request := h.running
  cases hsection with
  | dropped => exact hkept d f hf hstage
  | stirred hstir =>
      obtain ⟨hbind, hwaits⟩ := hkept d f hf hstage
      exact ⟨hbind, hmeets.stir hstir d _ hwaits⟩
  | waits hg hhandles =>
      have hkeeps := keeps_of_handles hmeets h hg hhandles
      rcases frames_put_eq_some.mp hf with ⟨rfl, rfl⟩ | ⟨hne, hsame⟩
      · exact hkeeps.waiting rfl
      · exact hkeeps.others d _ hne (hkept d f hsame hstage)
  | returned hg hhandles =>
      have hkeeps := keeps_of_handles hmeets h hg hhandles
      rcases frames_put_eq_some.mp hf with ⟨rfl, rfl⟩ | ⟨hne, hsame⟩
      · dsimp only at hstage
        split_ifs at hstage
      · exact hkeeps.others d _ hne (hkept d f hsame hstage)
  | @checked e g hg =>
      refine holds_put hkept hf rfl (fun hrunning => ?_) hstage
      cases hverdict : (s.store.checkduplicateAndUpdate g.request.clt g.request.xid
        g.request.xidRep).2 <;> rw [hverdict] at hrunning <;> cases hrunning
  | vetted =>
      refine holds_put hkept hf rfl (fun hrunning => ?_) hstage
      dsimp only at hrunning
      split_ifs at hrunning
  | sent =>
      rcases frames_put_eq_some.mp hf with ⟨rfl, rfl⟩ | ⟨-, hsame⟩
      · cases hstage
      · exact hkept d f hsame hstage
  | received | old | unregistered | enrolled | connected | recorded | switched | stays
  | refused => exact holds_put hkept hf rfl (fun hrunning => by cases hrunning) hstage

theorem Performs.step (hmeets : app.Meets waits allows) {source target : Server σ × List Event}
    {label : Label} (h : Performs nonce waits allows source)
    (hstep : (logged app nonce).step source label = some target) :
    Performs nonce waits allows target := by
  obtain ⟨hnext, hlog⟩ := System.recorded_step_eq_some.mp hstep
  have hnext' : source.1.step app label = some target.1 := hnext
  have hsection := section_of_step hnext'
  refine ⟨(nonce_of_section hsection).trans h.nonce_eq,
    fun d f hf hstage => waits_of_section hmeets hsection h hf hstage,
    fun d request pdu hmem => ?_⟩
  rw [hlog] at hmem
  rcases List.mem_append.mp hmem with hold | hnew
  · exact h.produced d request pdu hold
  · obtain ⟨f, area, outcome, hf, rfl, hhandles, rfl⟩ := handles_of_produced hnext' hnew
    have hkeeps := keeps_of_handles hmeets h hf hhandles
    exact ⟨outcome, hkeeps.returned outcome rfl, area, rfl⟩

/-- Whatever a server with such handlers has produced is what they return. -/
theorem performs_of_run (hmeets : app.Meets waits allows)
    {guard : Server σ × List Event → Label → Prop} {labels : List Label}
    {reached : Server σ × List Event} (hrun : (logged app nonce).Run guard labels reached) :
    Performs nonce waits allows reached :=
  hrun.invariant (Performs nonce waits allows) (performs_start app nonce waits allows)
    fun _ h _ hstep => h.step hmeets hstep

/-! ## Requests that have been answered -/

/-- Has a handler produced a reply to this request? -/
def answered (history : List Event) (request : Request) : Bool :=
  history.any fun event =>
    match event with
    | .produced _ other _ => other == request
    | _ => false

theorem answered_iff {history : List Event} {request : Request} :
    answered history request = true ↔ ∃ d pdu, .produced d request pdu ∈ history := by
  rw [answered, List.any_eq_true]
  constructor
  · rintro ⟨event, hmem, htest⟩
    cases event with
    | produced d other pdu =>
        obtain rfl : other = request := beq_iff_eq.mp htest
        exact ⟨d, pdu, hmem⟩
    | checked | entered | sent | refused => cases htest
  · rintro ⟨d, pdu, hmem⟩
    exact ⟨_, hmem, beq_self_eq_true request⟩

theorem answered_append (history more : List Event) (request : Request) :
    answered (history ++ more) request = (answered history request || answered more request) :=
  List.any_append

/-- A section of a handler produces a reply when the handler returns. -/
theorem mem_produced_of_handles {s : Server σ} {d : DispatchId} {f : Dispatch} {area : Area}
    {result : σ × Option Outcome} {label : Label} (hf : s.frames d = some f)
    (hhandles : Handles app s d f area result label) {e : DispatchId} {request : Request}
    {pdu : Bytes} :
    .produced e request pdu ∈ events app s label ↔ ∃ outcome, result.2 = some outcome ∧
      e = d ∧ request = f.request ∧
      pdu = replyPdu (List.ofFn area) ⟨f.request.header.xid, outcome.ret⟩ outcome.result := by
  obtain ⟨service, _ | outcome⟩ := result
  · cases hhandles with
    | entered _ hresult => simp [events, hf, hresult, productions]
    | resumed _ hresult => simp [events, hf, hresult, productions]
  · cases hhandles with
    | entered _ hresult => simp [events, hf, hresult, productions]
    | resumed _ hresult => simp [events, hf, hresult, productions]

/-- The section of a handler ends with what it has come to. -/
theorem settle_of_handles {s target : Server σ} {d : DispatchId} {f : Dispatch} {area : Area}
    {result : σ × Option Outcome} {label : Label} (hf : s.frames d = some f)
    (hhandles : Handles app s d f area result label)
    (hstep : s.step app label = some target) : s.settle d f area result = some target := by
  cases hhandles with
  | entered _ hresult | resumed _ hresult =>
      obtain ⟨g, hg, -, hnext⟩ := onFrame_eq_some.mp hstep
      obtain rfl := Option.some.inj (hf.symm.trans hg)
      rwa [hresult, Option.bind_some] at hnext

theorem service_of_handles {s target : Server σ} {d : DispatchId} {f : Dispatch} {area : Area}
    {result : σ × Option Outcome} {label : Label} (hf : s.frames d = some f)
    (hhandles : Handles app s d f area result label)
    (hstep : s.step app label = some target) : target.service = result.1 := by
  have hsettle := settle_of_handles hf hhandles hstep
  obtain ⟨service, _ | outcome⟩ := result
  · obtain rfl := Option.some.inj hsettle
    rfl
  · obtain ⟨-, htarget⟩ := Option.ite_none_right_eq_some.mp hsettle
    obtain rfl := Option.some.inj htarget
    rfl

/-- A handler that returns takes its dispatch behind it. -/
theorem frame_of_returned {s target : Server σ} {d : DispatchId} {f : Dispatch} {area : Area}
    {service : σ} {outcome : Outcome} {label : Label} (hf : s.frames d = some f)
    (hhandles : Handles app s d f area (service, some outcome) label)
    (hstep : s.step app label = some target) :
    ∃ f', target.frames d = some f' ∧ f'.request = f.request ∧ replied f'.stage = true := by
  obtain ⟨-, htarget⟩ := Option.ite_none_right_eq_some.mp (settle_of_handles hf hhandles hstep)
  obtain rfl := Option.some.inj htarget
  refine ⟨_, frames_put_self .., rfl, ?_⟩
  dsimp only
  split_ifs <;> rfl

/-- A dispatch whose handler has returned is behind it. -/
theorem replied_of_run {guard : Server σ × List Event → Label → Prop} {nonce : UInt32}
    {labels : List Label} {reached : Server σ × List Event}
    (hrun : (logged app nonce).Run guard labels reached) {d : DispatchId} {request : Request}
    {pdu : Bytes} (hmem : .produced d request pdu ∈ reached.2) :
    ∃ f, reached.1.frames d = some f ∧ f.request = request ∧ replied f.stage = true := by
  refine hrun.invariant (fun reached => ∀ d request pdu, .produced d request pdu ∈ reached.2 →
    ∃ f, reached.1.frames d = some f ∧ f.request = request ∧ replied f.stage = true)
    (fun _ _ _ hmem => by cases hmem) ?_ d request pdu hmem
  intro labels source label target _ h _ hstep d request pdu hmem
  obtain ⟨hnext, hlog⟩ := System.recorded_step_eq_some.mp hstep
  have hnext' : source.1.step app label = some target.1 := hnext
  have hsection := section_of_step hnext'
  rw [hlog] at hmem
  rcases List.mem_append.mp hmem with hold | hnew
  · obtain ⟨f, hf, rfl, hreplied⟩ := h d request pdu hold
    obtain ⟨f', hf', hsame, rfl | hleads⟩ := follows_of_section hsection hf
    · exact ⟨f', hf', rfl, hreplied⟩
    · exact ⟨f', hf', hsame, replied_of_leadsTo hreplied hleads⟩
  · obtain ⟨f, area, outcome, hf, rfl, hhandles, -⟩ := handles_of_produced hnext' hnew
    exact frame_of_returned hf hhandles hnext'

/-- A handler that is at work has not returned before, for whatever copy of its request. -/
theorem not_answered_of_handles {nonce : UInt32} {labels : List Label}
    {source target : Server σ × List Event} {label : Label}
    (hrun : (logged app nonce).Run (fun source label => noLateCopy source label = true)
      labels source) (hguard : noLateCopy source label = true)
    (hstep : (logged app nonce).step source label = some target) {d : DispatchId}
    {f : Dispatch} {area : Area} {result : σ × Option Outcome}
    (hf : source.1.frames d = some f) (hhandles : Handles app source.1 d f area result label)
    (hclt : f.request.clt ≠ 0) : answered source.2 f.request = false := by
  by_contra hanswered
  obtain ⟨e, pdu, hmem⟩ := answered_iff.mp (Bool.not_eq_false _ ▸ hanswered)
  have hbefore := ((acted_of_run hrun).produced e f.request pdu hmem).2
  obtain ⟨-, hlog⟩ := System.recorded_step_eq_some.mp hstep
  have honce : (executions target.2 f.request.clt f.request.xid).length ≤ 1 :=
    length_executions_of_run (hrun.snoc hguard hstep) hclt
  rw [hlog, executions_append, List.length_append] at honce
  have hpos := List.length_pos_of_mem hbefore
  cases hhandles with
  | @entered choice =>
      have hagain : d ∈ executions (events app source.1 (.enter d choice area)) f.request.clt
          f.request.xid := executions_enter choice area hf
      have := List.length_pos_of_mem hagain
      omega
  | resumed hstage =>
      -- there is one execution, so it is this dispatch that has returned
      have hthis := (acted_of_run hrun).running d f hf hstage
      obtain ⟨only, honly⟩ := List.length_eq_one_iff.mp (show (executions source.2 f.request.clt
        f.request.xid).length = 1 by omega)
      rw [honly, List.mem_singleton] at hbefore hthis
      obtain ⟨g, hg, -, hreplied⟩ := replied_of_run hrun hmem
      rw [hbefore, ← hthis, hf, Option.some.injEq] at hg
      rw [← hg, hstage] at hreplied
      cases hreplied

end Server

end YfsLab.Rpc
