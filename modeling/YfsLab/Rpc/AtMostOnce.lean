/-
# At-most-once execution

The reply window remembers the requests it has seen, but a request with a larger
`xid_rep` drops what is below it, and nothing remembers what has been dropped: a
copy that comes after that looks like a new request. As long as no such copy comes,
the handler of a request is entered at most once.

The argument has two halves. Every request that has passed the check is in the
window until a later request of its client acknowledges it, so a second copy is
found to be new only if it is late. And a dispatch enters its handler once, and only
after it has been found new.
-/

import Mathlib.Data.List.Perm.Subperm
import Mathlib.Data.List.TakeWhile
import YfsLab.Rpc.SystemSteps

namespace YfsLab.Rpc.Server

open BigEndian Transition Wire

variable {σ : Type} {app : Service σ}

/-! ## Checks and executions in a history -/

/-- The request of this client with this xid. -/
def isOf (clt xid : UInt32) (request : Request) : Bool :=
  request.clt == clt && request.xid == xid

/-- A copy of a request passes the check. -/
def Event.admits (clt xid : UInt32) : Event → Bool
  | .checked _ _ request verdict => isOf clt xid request && verdict != .forgotten
  | _ => false

/-- A request that acknowledges an xid passes the check. -/
def Event.acknowledges (clt xid : UInt32) : Event → Bool
  | .checked _ _ request verdict =>
      request.clt == clt && decide (xid < request.xidRep) && verdict != .forgotten
  | _ => false

/-- A copy of the request has passed the check, and behind it a request that
acknowledges it. Any further copy is late. -/
def late (history : List Event) (clt xid : UInt32) : Bool :=
  (history.dropWhile fun event => !event.admits clt xid).any (Event.acknowledges clt xid)

/-- The dispatches in which the request has been found new. -/
def news (history : List Event) (clt xid : UInt32) : List DispatchId :=
  history.filterMap fun event =>
    match event with
    | .checked d _ request .new => if isOf clt xid request then some d else none
    | _ => none

/-- The dispatches in which the handler of the request has been entered. -/
def executions (history : List Event) (clt xid : UInt32) : List DispatchId :=
  history.filterMap fun event =>
    match event with
    | .entered d _ request _ => if isOf clt xid request then some d else none
    | _ => none

/-- The step does not check a late copy of a request. A copy that its own `xid_rep`
acknowledges does no harm. -/
def noLateCopy (source : Server σ × List Event) : Label → Bool
  | .check d => (source.1.frames d).all fun f =>
      decide (f.request.xid ≤ f.request.xidRep) ||
        !late source.2 f.request.clt f.request.xid
  | _ => true

/-! ## Requests that have passed the check stay in the window -/

/-- An admitted request is in the window unless it has been acknowledged since. -/
def Remembered (source : Server σ × List Event) : Prop :=
  ∀ clt xid, source.2.any (Event.admits clt xid) = true →
    late source.2 clt xid = false → xid ∈ source.1.store.xids clt

theorem late_append_of_late {history more : List Event} {clt xid : UInt32}
    (hlate : late (history ++ more) clt xid = false) : late history clt xid = false := by
  rw [late, List.dropWhile_append] at hlate
  split_ifs at hlate with hnone
  · rw [late, List.isEmpty_iff.mp hnone]
    rfl
  · rw [List.any_append, Bool.or_eq_false_iff] at hlate
    exact hlate.1

/-- A request that has been admitted and is not late has not been acknowledged by
the last event. -/
theorem acknowledges_of_late {history : List Event} {event : Event} {clt xid : UInt32}
    (hadmitted : history.any (Event.admits clt xid) = true)
    (hlate : late (history ++ [event]) clt xid = false) :
    event.acknowledges clt xid = false := by
  rw [late, List.dropWhile_append] at hlate
  split_ifs at hlate with hnone
  · obtain ⟨copy, hcopy, hadmits⟩ := List.any_eq_true.mp hadmitted
    have hall := List.dropWhile_eq_nil_iff.mp (List.isEmpty_iff.mp hnone) copy hcopy
    simp [hadmits] at hall
  · rw [List.any_append, Bool.or_eq_false_iff] at hlate
    simpa using hlate.2

/-- The events of sections other than the check say nothing about requests that
pass it. -/
theorem events_not_checked {s : Server σ} {label : Label} (hcheck : ∀ d, label ≠ .check d) :
    ∀ event ∈ events app s label, (∀ clt xid, event.admits clt xid = false) ∧
      ∀ d conn request verdict, event ≠ .checked d conn request verdict := by
  intro event hmem
  cases emits_of_mem hmem with
  | checked => exact absurd rfl (hcheck _)
  | entered | produced | sent | refused => exact ⟨fun _ _ => rfl, nofun⟩

/-- What a check finds and leaves, with its event. -/
theorem events_check {s : Server σ} {d : DispatchId} {f : Dispatch}
    (hf : s.frames d = some f) :
    events app s (.check d) = [.checked d f.conn f.request
      (s.store.checkduplicateAndUpdate f.request.clt f.request.xid f.request.xidRep).2] := by
  simp [events, hf]

theorem store_check (s : Server σ) (d : DispatchId) (f : Dispatch) :
    (s.check d f).store =
      (s.store.checkduplicateAndUpdate f.request.clt f.request.xid f.request.xidRep).1 := rfl

theorem isOf_iff {clt xid : UInt32} {request : Request} :
    isOf clt xid request = true ↔ request.clt = clt ∧ request.xid = xid := by
  simp [isOf]

theorem remembered_check {s : Server σ} {history : List Event} {d : DispatchId}
    {f : Dispatch} (hf : s.frames d = some f) (hremembered : Remembered (s, history)) :
    Remembered (s.check d f, history ++ events app s (.check d)) := by
  rw [events_check hf]
  intro clt xid hadmitted hlate
  have hbefore := late_append_of_late hlate
  simp only [List.any_append, Bool.or_eq_true] at hadmitted
  rw [store_check]
  rcases s.store.check_xids f.request.clt f.request.xid f.request.xidRep with
    ⟨_, hcheck⟩ | ⟨_, hverdict, hthere, hkept, _⟩
  · rw [hcheck] at hadmitted ⊢
    rcases hadmitted with hold | hnew
    · exact hremembered clt xid hold hbefore
    · simp [Event.admits] at hnew
  · rcases hadmitted with hold | hnew
    · refine hkept clt xid (hremembered clt xid hold hbefore) fun hclt hlt => ?_
      have hacknowledges := acknowledges_of_late hold hlate
      simp [Event.acknowledges, hclt, hlt, hverdict] at hacknowledges
    · obtain ⟨rfl, rfl⟩ : f.request.clt = clt ∧ f.request.xid = xid := by
        simp only [List.any_cons, List.any_nil, Bool.or_false, Event.admits,
          Bool.and_eq_true, isOf_iff] at hnew
        exact hnew.1
      exact hthere

theorem remembered_step {source target : Server σ × List Event} {label : Label}
    (hremembered : Remembered source) (hsection : Section app source.1 label target.1)
    (hlog : target.2 = source.2 ++ events app source.1 label) : Remembered target := by
  obtain ⟨s, history⟩ := source
  obtain ⟨s', history'⟩ := target
  simp only at hsection hlog
  subst hlog
  by_cases hcheck : ∀ d, label ≠ .check d
  · intro clt xid hadmitted hlate
    have hquiet : (events app s label).any (Event.admits clt xid) = false := by
      rw [List.any_eq_false]
      intro event hmem
      simp [(events_not_checked hcheck event hmem).1 clt xid]
    rw [List.any_append, hquiet, Bool.or_false] at hadmitted
    rw [xids_of_section hsection hcheck]
    exact hremembered clt xid hadmitted (late_append_of_late hlate)
  · obtain ⟨d, rfl⟩ := not_forall_not.mp hcheck
    cases hsection with
    | checked hf => exact remembered_check hf hremembered
    | waits _ hhandles | returned _ hhandles => cases hhandles

/-! ## A request is found new once -/

/-- A request that is found new has not been admitted before, unless its copy is
late. -/
theorem not_admitted_of_new {s : Server σ} {history : List Event} {f : Dispatch}
    (hremembered : Remembered (s, history))
    (hlate : f.request.xidRep < f.request.xid →
      late history f.request.clt f.request.xid = false)
    (hnew : (s.store.checkduplicateAndUpdate f.request.clt f.request.xid
      f.request.xidRep).2 = .new) :
    history.any (Event.admits f.request.clt f.request.xid) = false := by
  rcases s.store.check_xids f.request.clt f.request.xid f.request.xidRep with
    ⟨_, hcheck⟩ | ⟨hlt, _, _, _, hfresh⟩
  · rw [hcheck] at hnew
    cases hnew
  · by_contra hadmitted
    rw [Bool.not_eq_false] at hadmitted
    exact hfresh hnew (hremembered _ _ hadmitted (hlate hlt))

theorem news_append (history more : List Event) (clt xid : UInt32) :
    news (history ++ more) clt xid = news history clt xid ++ news more clt xid :=
  List.filterMap_append

theorem checked_of_mem_news {history : List Event} {clt xid : UInt32} {d : DispatchId}
    (hmem : d ∈ news history clt xid) :
    ∃ conn request, .checked d conn request .new ∈ history ∧ isOf clt xid request = true := by
  obtain ⟨event, hevent, hfound⟩ := List.mem_filterMap.mp hmem
  cases event with
  | checked e conn request verdict =>
      cases verdict with
      | new =>
          obtain ⟨hof, hd⟩ := Option.ite_none_right_eq_some.mp hfound
          obtain rfl := Option.some.inj hd
          exact ⟨conn, request, hevent, hof⟩
      | inProgress | done | forgotten => cases hfound
  | entered | produced | sent | refused => cases hfound

theorem executions_append (history more : List Event) (clt xid : UInt32) :
    executions (history ++ more) clt xid =
      executions history clt xid ++ executions more clt xid :=
  List.filterMap_append

/-- Where a request has been found new it has been admitted. -/
theorem news_eq_nil_of_not_admitted {history : List Event} {clt xid : UInt32}
    (hnone : history.any (Event.admits clt xid) = false) : news history clt xid = [] := by
  rw [news, List.filterMap_eq_nil_iff]
  intro event hmem
  have hevent := List.any_eq_false.mp hnone event hmem
  split
  · next request =>
      split_ifs with hrequest
      · simp [Event.admits, hrequest] at hevent
      · rfl
  · rfl

theorem news_eq_nil_of_not_checked {events : List Event} {clt xid : UInt32}
    (hchecked : ∀ event ∈ events, ∀ d conn request verdict,
      event ≠ .checked d conn request verdict) : news events clt xid = [] := by
  rw [news, List.filterMap_eq_nil_iff]
  intro event hmem
  split
  · exact absurd rfl (hchecked _ hmem _ _ _ _)
  · rfl

/-- A step under the guard finds a request new only if nobody has before. -/
theorem length_news_step {source target : Server σ × List Event} {label : Label}
    (hremembered : Remembered source) (hguard : noLateCopy source label = true)
    (hsection : Section app source.1 label target.1)
    (hlog : target.2 = source.2 ++ events app source.1 label) {clt xid : UInt32}
    (hone : (news source.2 clt xid).length ≤ 1) : (news target.2 clt xid).length ≤ 1 := by
  obtain ⟨s, history⟩ := source
  obtain ⟨s', history'⟩ := target
  simp only at hsection hlog hone
  rw [hlog, news_append]
  by_cases hcheck : ∀ d, label ≠ .check d
  · rw [news_eq_nil_of_not_checked fun event hmem => (events_not_checked hcheck event hmem).2,
      List.append_nil]
    exact hone
  · obtain ⟨d, rfl⟩ := not_forall_not.mp hcheck
    cases hsection with
    | @checked _ f hf =>
        simp only [events_check hf]
        have hlate : f.request.xidRep < f.request.xid →
            late history f.request.clt f.request.xid = false := by
          intro hlt
          simpa [noLateCopy, hf, UInt32.not_le.mpr hlt] using hguard
        cases hverdict : (s.store.checkduplicateAndUpdate f.request.clt f.request.xid
            f.request.xidRep).2 with
        | new =>
            by_cases hrequest : isOf clt xid f.request = true
            · obtain ⟨rfl, rfl⟩ := isOf_iff.mp hrequest
              rw [news_eq_nil_of_not_admitted
                (not_admitted_of_new hremembered hlate hverdict)]
              simp [news, hrequest]
            · simpa [news, hrequest] using hone
        | inProgress | done | forgotten => simpa [news] using hone
    | waits _ hhandles | returned _ hhandles => cases hhandles

/-! ## A dispatch enters its handler once -/

/-- The stages behind the entry of the handler. -/
def entered : Stage → Bool
  | .running | .record | .select | .send | .ended => true
  | _ => false

theorem entered_of_leadsTo {stage next : Stage} (hentered : entered stage = true)
    (hleads : stage.leadsTo next = true) : entered next = true := by
  cases stage <;> cases next <;>
    first
    | rfl
    | exact absurd hleads Bool.false_ne_true
    | exact absurd hentered Bool.false_ne_true

/-- The dispatches that have entered their handler have left the stages before it,
each has entered it once, and those that use the reply window have been found new
before. -/
structure Executed (source : Server σ × List Event) : Prop where
  frame_run : ∀ d f, source.1.frames d = some f → f.stage = .run → f.request.clt ≠ 0 →
    d ∈ news source.2 f.request.clt f.request.xid
  frame_entered : ∀ clt xid d, d ∈ executions source.2 clt xid →
    ∃ f, source.1.frames d = some f ∧ isOf clt xid f.request = true ∧ entered f.stage = true
  new_of_mem : ∀ clt xid d, clt ≠ 0 → d ∈ executions source.2 clt xid →
    d ∈ news source.2 clt xid
  nodup : ∀ clt xid, (executions source.2 clt xid).Nodup

/-- At most one execution, because every execution has been found new. -/
theorem Executed.length_executions {source : Server σ × List Event}
    (h : Executed source) {clt xid : UInt32} (hclt : clt ≠ 0)
    (hone : (news source.2 clt xid).length ≤ 1) :
    (executions source.2 clt xid).length ≤ 1 := by
  have hsubset : executions source.2 clt xid ⊆ news source.2 clt xid :=
    fun d hmem => h.new_of_mem clt xid d hclt hmem
  exact (((h.nodup clt xid).subperm hsubset).length_le).trans hone

theorem executions_entered (d : DispatchId) (conn : ConnId) (request : Request)
    (nonce : UInt32) (rest : List Event) (clt xid : UInt32) :
    executions (.entered d conn request nonce :: rest) clt xid =
      (if isOf clt xid request = true then [d] else []) ++ executions rest clt xid := by
  by_cases hrequest : isOf clt xid request = true <;>
    simp [executions, hrequest]

/-- The executions that a section adds: the dispatch that enters its handler. -/
theorem executions_events {s target : Server σ} {label : Label}
    (hsection : Section app s label target) (clt xid : UInt32) :
    executions (events app s label) clt xid = [] ∨
      ∃ d f f', s.frames d = some f ∧ f.stage = .run ∧ isOf clt xid f.request = true ∧
        target.frames d = some f' ∧ f'.request = f.request ∧ entered f'.stage = true ∧
        executions (events app s label) clt xid = [d] := by
  have hproduced : ∀ {d : DispatchId} {f : Dispatch} {area : Area}
      {result : Option (σ × Option Outcome)},
      executions (productions d f area result) clt xid = [] := by
    intro d f area result
    unfold productions
    split <;> rfl
  -- a section of a handler that leaves this frame
  have hhandles : ∀ {d : DispatchId} {f f' : Dispatch} {area : Area}
      {result : σ × Option Outcome}, s.frames d = some f →
      Handles app s d f area result label → target.frames d = some f' →
      f'.request = f.request → entered f'.stage = true →
      executions (events app s label) clt xid = [] ∨
        ∃ d f f', s.frames d = some f ∧ f.stage = .run ∧ isOf clt xid f.request = true ∧
          target.frames d = some f' ∧ f'.request = f.request ∧ entered f'.stage = true ∧
          executions (events app s label) clt xid = [d] := by
    intro d f f' area result hf hhandles hf' hsame hentered
    cases hhandles with
    | @entered choice hstage =>
        have hevents : executions (events app s (.enter d choice area)) clt xid =
            (if isOf clt xid f.request = true then [d] else []) ++ [] := by
          simp only [events, hf, Option.toList_some, List.flatMap_singleton]
          rw [executions_entered, hproduced]
        rw [hevents]
        by_cases hrequest : isOf clt xid f.request = true
        · exact .inr ⟨d, f, f', hf, hstage, hrequest, hf', hsame, hentered, by simp [hrequest]⟩
        · exact .inl (by simp [hrequest])
    | resumed =>
        left
        simpa [events, hf] using hproduced
  cases hsection with
  | waits hf hlabel => exact hhandles hf hlabel (frames_put_self ..) rfl rfl
  | returned hf hlabel =>
      refine hhandles hf hlabel (frames_put_self ..) rfl ?_
      dsimp only
      split_ifs <;> rfl
  | _ => left; first | rfl | simp [events, executions, *]

theorem frame_run_of_section {s target : Server σ} {history : List Event} {label : Label}
    (hsection : Section app s label target)
    (hrun : ∀ d f, s.frames d = some f → f.stage = .run → f.request.clt ≠ 0 →
      d ∈ news history f.request.clt f.request.xid) {d : DispatchId} {f : Dispatch}
    (hf : target.frames d = some f) (hstage : f.stage = .run) (hclt : f.request.clt ≠ 0) :
    d ∈ news (history ++ events app s label) f.request.clt f.request.xid := by
  rw [news_append]
  -- a dispatch that was at this stage before
  have hold : ∀ d f, s.frames d = some f → f.stage = .run → f.request.clt ≠ 0 →
      d ∈ news history f.request.clt f.request.xid ++
        news (events app s label) f.request.clt f.request.xid :=
    fun d f hf hstage hclt => List.mem_append_left _ (hrun d f hf hstage hclt)
  cases hsection with
  | dropped | stirred => exact hold d f hf hstage hclt
  | @checked j g hg =>
      refine holds_put hold hf rfl (fun hnew _ => ?_) hstage hclt
      cases hverdict : (s.store.checkduplicateAndUpdate g.request.clt g.request.xid
          g.request.xidRep).2 with
      | new => simp [events_check hg, hverdict, news, isOf, follow_request]
      | inProgress | done | forgotten => simp [hverdict, follow] at hnew
  | vetted =>
      refine holds_put hold hf rfl (fun hrun hne => ?_) hstage hclt
      dsimp only at hrun hne
      simp [hne] at hrun
  | returned =>
      refine holds_put hold hf rfl (fun hrun _ => ?_) hstage hclt
      dsimp only at hrun
      split_ifs at hrun
  | received | old | unregistered | enrolled | connected | waits | recorded | switched | stays
  | sent | refused => exact holds_put hold hf rfl (fun hrun => by cases hrun) hstage hclt

theorem Executed.step {source target : Server σ × List Event} {label : Label}
    (h : Executed source) (hsection : Section app source.1 label target.1)
    (hlog : target.2 = source.2 ++ events app source.1 label) : Executed target := by
  obtain ⟨s, history⟩ := source
  obtain ⟨s', history'⟩ := target
  simp only at hsection hlog
  subst hlog
  -- a dispatch that has entered its handler before
  have hold : ∀ clt xid d, d ∈ executions history clt xid →
      ∃ f, s'.frames d = some f ∧ isOf clt xid f.request = true ∧ entered f.stage = true := by
    intro clt xid d hmem
    obtain ⟨f, hf, hrequest, hentered⟩ := h.frame_entered clt xid d hmem
    obtain ⟨f', hf', hsame, hstage⟩ := follows_of_section hsection hf
    refine ⟨f', hf', by rw [hsame, hrequest], ?_⟩
    rcases hstage with rfl | hleads
    · exact hentered
    · exact entered_of_leadsTo hentered hleads
  refine ⟨fun d f => frame_run_of_section hsection h.frame_run, ?_, ?_, ?_⟩
  · intro clt xid d hmem
    rw [executions_append] at hmem
    rcases List.mem_append.mp hmem with hmem | hmem
    · exact hold clt xid d hmem
    · rcases executions_events hsection clt xid with hnone |
        ⟨j, g, g', _, _, hrequest, hg', hsame, hentered, hone⟩
      · rw [hnone] at hmem
        cases hmem
      · obtain rfl := List.mem_singleton.mp (hone ▸ hmem)
        exact ⟨g', hg', by rw [hsame, hrequest], hentered⟩
  · intro clt xid d hclt hmem
    rw [executions_append] at hmem
    rw [news_append]
    rcases List.mem_append.mp hmem with hmem | hmem
    · exact List.mem_append_left _ (h.new_of_mem clt xid d hclt hmem)
    · rcases executions_events hsection clt xid with hnone |
        ⟨j, g, _, hg, hstage, hrequest, _, _, _, hone⟩
      · rw [hnone] at hmem
        cases hmem
      · obtain rfl := List.mem_singleton.mp (hone ▸ hmem)
        obtain ⟨rfl, rfl⟩ := isOf_iff.mp hrequest
        exact List.mem_append_left _ (h.frame_run d g hg hstage hclt)
  · intro clt xid
    rw [executions_append]
    rcases executions_events hsection clt xid with hnone |
      ⟨j, g, _, hg, hstage, _, _, _, _, hone⟩
    · rw [hnone, List.append_nil]
      exact h.nodup clt xid
    · rw [hone]
      refine List.nodup_append.mpr ⟨h.nodup clt xid, by simp, ?_⟩
      rintro d hmem _ hj rfl
      obtain rfl := List.mem_singleton.mp hj
      obtain ⟨f, hf, _, hentered⟩ := h.frame_entered clt xid d hmem
      obtain rfl : g = f := Option.some.inj (hg.symm.trans hf)
      simp [hstage, entered] at hentered

/-! ## Runs -/

/-- What every run without late copies keeps. -/
theorem executed_of_run {nonce : UInt32} {labels : List Label}
    {reached : Server σ × List Event}
    (hrun : (logged app nonce).Run (fun source label => noLateCopy source label = true)
      labels reached) :
    Remembered reached ∧ Executed reached ∧
      ∀ clt xid, (news reached.2 clt xid).length ≤ 1 := by
  refine hrun.invariant (fun source => Remembered source ∧ Executed source ∧
    ∀ clt xid, (news source.2 clt xid).length ≤ 1) ?_ ?_
  · refine ⟨?_, ⟨?_, ?_, ?_, ?_⟩, ?_⟩ <;>
      simp [Remembered, logged, System.recorded, system, start, news, executions]
  · intro labels source label target _ hinv hguard hstep
    obtain ⟨hnext, hlog⟩ := System.recorded_step_eq_some.mp hstep
    obtain ⟨hremembered, hexecuted, hone⟩ := hinv
    have hsection := section_of_step hnext
    exact ⟨remembered_step hremembered hsection hlog, hexecuted.step hsection hlog,
      fun clt xid => length_news_step hremembered hguard hsection hlog (hone clt xid)⟩

/-- Without late copies a handler is entered at most once for each client and xid. -/
theorem length_executions_of_run {nonce : UInt32} {labels : List Label}
    {reached : Server σ × List Event}
    (hrun : (logged app nonce).Run (fun source label => noLateCopy source label = true)
      labels reached) {clt xid : UInt32} (hclt : clt ≠ 0) :
    (executions reached.2 clt xid).length ≤ 1 := by
  obtain ⟨_, hexecuted, hone⟩ := executed_of_run hrun
  exact hexecuted.length_executions hclt (hone clt xid)

end YfsLab.Rpc.Server

namespace YfsLab.Rpc.Net

open BigEndian Transition Wire

variable {σ : Type}

/-- At-most-once execution, for the runs of any clients with one server in which no
late copy of a request is checked: the handler is entered at most once for each
`clt_nonce` other than zero and each xid. -/
theorem atMostOnce {setup : Setup σ} {labels : List Label} {reached : Net σ × List Event}
    (hrun : (logged setup).Run
      (fun source label => onServer Server.noLateCopy source label = true) labels reached)
    {clt xid : UInt32} (hclt : clt ≠ 0) :
    (Server.executions (serverHistory reached.2) clt xid).length ≤ 1 := by
  obtain ⟨parts, hserver⟩ := exists_server_run hrun
  exact Server.length_executions_of_run hserver hclt

/-- A call of `bind` is sent on a connection, which dies before the reply arrives,
and once more on another one. Both copies are executed or found done. -/
def retransmittedRun : List Label :=
  [.start 0 0 1 (be32 0), .refconn 0 0 (some 0), .send 0 0 true false, .receive 0 0, .vet 0,
    .enroll 0, .connect 0, .check 0, .enter 0 0 fun _ => 0, .record 0, .select 0,
    .reply 0 true [], .die 0 true, .expire 0 0, .retry 0 0 false, .refconn 0 0 (some 1),
    .send 0 0 true false, .receive 1 1, .vet 1, .enroll 1, .connect 1, .check 1,
    .reply 1 true [], .deliver 1]

theorem atMostOnce_retransmitted :
    ∃ reached, (logged rpctest).Run
        (fun source label => onServer Server.noLateCopy source label = true)
        retransmittedRun reached ∧
      (Server.executions (serverHistory reached.2) 1 1).length ≤ 1 := by
  have hexec : ((logged rpctest).execIf (onServer Server.noLateCopy) (logged rpctest).init
      retransmittedRun).any (fun _ => true) = true := by
    decide +kernel
  obtain ⟨reached, hrun, _⟩ := System.exists_run_of_execIf hexec
  exact ⟨reached, hrun, atMostOnce hrun (by decide)⟩

/-! ## A late copy is executed again -/

/-- The first copy of a call of `bind` reaches the server, and its dispatch is slow.
The connection dies, the second copy is executed and answered, and two calls later
the entry of the first call is dropped. Then the first copy is checked. -/
def lateCopyRun : List Label :=
  [.start 0 0 1 (be32 0), .refconn 0 0 (some 0), .send 0 0 true false, .receive 0 0, .vet 0,
    .enroll 0, .connect 0, .die 0 true, .expire 0 0, .retry 0 0 false, .refconn 0 0 (some 1),
    .send 0 0 true false, .receive 1 1, .vet 1, .enroll 1, .connect 1, .check 1,
    .enter 1 0 fun _ => 0, .record 1, .select 1, .reply 1 true [], .deliver 1, .wake 0 0,
    .erase 0 0, .finish 0 0, .bind 0 0,
    .start 0 1 23 (be32 5), .refconn 0 1 none, .send 0 1 true false, .receive 2 1, .vet 2,
    .enroll 2, .connect 2, .check 2, .enter 2 0 fun _ => 0, .record 2, .select 2,
    .reply 2 true [], .deliver 1, .wake 0 1, .erase 0 1, .finish 0 1,
    .start 0 2 23 (be32 6), .refconn 0 2 none, .send 0 2 true false, .receive 3 1, .vet 3,
    .enroll 3, .connect 3, .check 3, .check 0, .enter 0 0 fun _ => 0]

/-- The handler of the first call is entered for its second copy and for its first. -/
theorem lateCopy_executedTwice :
    ∃ reached, (logged rpctest).Run anyStep lateCopyRun reached ∧
      Server.executions (serverHistory reached.2) 1 1 = [1, 0] := by
  have hexec : ((logged rpctest).exec (logged rpctest).init lateCopyRun).any (fun reached =>
      Server.executions (serverHistory reached.2) 1 1 == [1, 0]) = true := by
    decide +kernel
  obtain ⟨reached, hrun, htwice⟩ := System.exists_run_of_exec hexec
  exact ⟨reached, hrun, by simpa using htwice⟩

end YfsLab.Rpc.Net
