/-
# Acknowledged entries in the reply window

The window of a client is meant to hold the replies that the client has not
acknowledged yet. A request acknowledges all xids up to its `xid_rep`, and the check
drops the entries strictly below it. So the entry of `xid_rep` itself stays, a
request that is forgotten drops nothing, and a late request makes an entry for an
xid that has long been acknowledged. Where none of the three happens the window is
what it is meant to be.
-/

import YfsLab.Rpc.ServerSteps

namespace YfsLab.Rpc.Server

open Transition

variable {σ : Type} {app : Service σ}

/-- The acknowledgements that the requests of a client have carried when they were
checked. -/
def acknowledgements (history : List Event) (clt : UInt32) : List UInt32 :=
  history.filterMap fun event =>
    match event with
    | .checked _ _ request _ => if request.clt = clt then some request.xidRep else none
    | _ => none

/-- The check of a request meets no entry that it acknowledges without dropping it,
and is not late. -/
def heedsAcks (source : Server σ × List Event) : Label → Bool
  | .check d => (source.1.frames d).all fun f =>
      if f.request.xidRep < f.request.xid then
        !(source.1.store.xids f.request.clt).contains f.request.xidRep &&
          (acknowledgements source.2 f.request.clt).all fun rep => rep < f.request.xid
      else (source.1.store.xids f.request.clt).all fun xid => f.request.xidRep < xid
  | _ => true

/-- No window has an entry that its client has acknowledged. -/
def Unacknowledged (source : Server σ × List Event) : Prop :=
  ∀ clt, ∀ xid ∈ source.1.store.xids clt, ∀ rep ∈ acknowledgements source.2 clt, rep < xid

theorem acknowledgements_append (history more : List Event) (clt : UInt32) :
    acknowledgements (history ++ more) clt =
      acknowledgements history clt ++ acknowledgements more clt :=
  List.filterMap_append

theorem acknowledgements_events {s : Server σ} {label : Label} (hcheck : ∀ d, label ≠ .check d)
    (clt : UInt32) : acknowledgements (events app s label) clt = [] := by
  refine List.filterMap_eq_nil_iff.mpr fun event hmem => ?_
  cases emits_of_mem hmem with
  | checked => exact absurd rfl (hcheck _)
  | entered | produced | sent | refused => rfl

theorem acknowledgements_events_check {s : Server σ} {d : DispatchId} {f : Dispatch}
    (hf : s.frames d = some f) (clt : UInt32) :
    acknowledgements (events app s (.check d)) clt =
      if f.request.clt = clt then [f.request.xidRep] else [] := by
  simp only [events, hf, acknowledgements, Option.toList_some, List.map_cons, List.map_nil,
    List.filterMap_cons, List.filterMap_nil]
  split_ifs <;> rfl

/-- A check keeps the windows free of acknowledged entries exactly when it meets none
that it does not drop, and is not late. -/
theorem unacknowledged_check_iff {source : Server σ × List Event} {d : DispatchId}
    {f : Dispatch} (h : Unacknowledged source) (hf : source.1.frames d = some f) :
    Unacknowledged (source.1.check d f, source.2 ++ events app source.1 (.check d)) ↔
      heedsAcks source (.check d) = true := by
  have hacks : ∀ clt rep, rep ∈ acknowledgements
      (source.2 ++ events app source.1 (.check d)) clt ↔
      rep ∈ acknowledgements source.2 clt ∨ f.request.clt = clt ∧ rep = f.request.xidRep := by
    intro clt rep
    rw [acknowledgements_append, acknowledgements_events_check hf, List.mem_append]
    split_ifs with heq <;> simp [heq]
  have hxids : ∀ clt y, y ∈ (source.1.check d f).store.xids clt ↔
      (y ∈ source.1.store.xids clt ∧
        (clt = f.request.clt → f.request.xidRep < f.request.xid → ¬ y < f.request.xidRep)) ∨
      clt = f.request.clt ∧ y = f.request.xid ∧ f.request.xidRep < f.request.xid :=
    fun clt y => ReplyStore.mem_xids_check
  simp only [heedsAcks, hf, Option.all_some]
  by_cases hlt : f.request.xidRep < f.request.xid
  · simp only [hlt, if_true, Bool.and_eq_true, Bool.not_eq_true', List.all_eq_true,
      decide_eq_true_eq]
    constructor
    · intro hafter
      refine ⟨?_, fun rep hrep => ?_⟩
      · by_contra hmem
        have hrep : f.request.xidRep ∈ source.1.store.xids f.request.clt := by simpa using hmem
        exact UInt32.lt_irrefl _ (hafter f.request.clt f.request.xidRep
          ((hxids _ _).mpr (.inl ⟨hrep, fun _ _ => UInt32.lt_irrefl _⟩)) f.request.xidRep
          ((hacks _ _).mpr (.inr ⟨rfl, rfl⟩)))
      · exact hafter f.request.clt f.request.xid ((hxids _ _).mpr (.inr ⟨rfl, rfl, hlt⟩)) rep
          ((hacks _ _).mpr (.inl hrep))
    · rintro ⟨hnone, hlate⟩ clt xid hxid rep hrep
      have hnone' : f.request.xidRep ∉ source.1.store.xids f.request.clt := by
        simpa using hnone
      rcases (hxids clt xid).mp hxid with ⟨hold, hkept⟩ | ⟨rfl, rfl, _⟩
      · rcases (hacks clt rep).mp hrep with hrep | ⟨rfl, rfl⟩
        · exact h clt xid hold rep hrep
        · refine UInt32.lt_of_le_of_ne (UInt32.not_lt.mp (hkept rfl hlt)) fun heq => ?_
          exact hnone' (heq ▸ hold)
      · rcases (hacks _ rep).mp hrep with hrep | ⟨_, rfl⟩
        · exact hlate rep hrep
        · exact hlt
  · simp only [hlt, if_false, List.all_eq_true, decide_eq_true_eq]
    constructor
    · exact fun hafter xid hxid => hafter f.request.clt xid
        ((hxids _ _).mpr (.inl ⟨hxid, fun _ hlt' => absurd hlt' hlt⟩)) f.request.xidRep
        ((hacks _ _).mpr (.inr ⟨rfl, rfl⟩))
    · intro hall clt xid hxid rep hrep
      rcases (hxids clt xid).mp hxid with ⟨hold, _⟩ | ⟨_, _, hlt'⟩
      · rcases (hacks clt rep).mp hrep with hrep | ⟨rfl, rfl⟩
        · exact h clt xid hold rep hrep
        · exact hall xid hold
      · exact absurd hlt' hlt

/-- The reply windows hold unacknowledged entries only, for the runs of a server in
which every check meets no entry that it acknowledges without dropping it, and is
not late. -/
theorem unacknowledgedOnly {nonce : UInt32} {labels : List Label}
    {reached : Server σ × List Event}
    (hrun : (logged app nonce).Run (fun source label => heedsAcks source label = true)
      labels reached) {clt xid rep : UInt32} (hxid : xid ∈ reached.1.store.xids clt)
    (hrep : rep ∈ acknowledgements reached.2 clt) : rep < xid := by
  have hall : Unacknowledged reached := by
    refine hrun.invariant Unacknowledged (fun clt xid hxid => ?_) ?_
    · simp [logged, System.recorded, system, start, ReplyStore.xids, ReplyStore.entries] at hxid
    · rintro labels source label target _ h hguard hstep
      obtain ⟨hnext, hlog⟩ := System.recorded_step_eq_some.mp hstep
      by_cases hcheck : ∃ d, label = .check d
      · obtain ⟨d, rfl⟩ := hcheck
        obtain ⟨f, hf, _, hsome⟩ := onFrame_eq_some.mp hnext
        have hafter : Unacknowledged
            (source.1.check d f, source.2 ++ events app source.1 (.check d)) :=
          (unacknowledged_check_iff h hf).mpr hguard
        have htarget : target = (source.1.check d f, source.2 ++ events app source.1 (.check d)) :=
          Prod.ext (Option.some.inj hsome).symm hlog
        rwa [htarget]
      · have hother : ∀ d, label ≠ .check d := not_exists.mp hcheck
        intro clt xid hxid rep hrep
        rw [xids_of_section (section_of_step hnext) hother] at hxid
        rw [hlog, acknowledgements_append, acknowledgements_events hother,
          List.append_nil] at hrep
        exact h clt xid hxid rep hrep
  exact hall clt xid hxid rep hrep

/-- The PDU of a call of `bind` by the client with nonce 1. -/
def bindPdu (xid xidRep : Int32) : BigEndian.Bytes :=
  Request.pdu
    { header := { xid, proc := 1, cltNonce := 1, srvNonce := 0, xidRep }
      args := BigEndian.be32 0 }

/-- The request of the first call, and of the third one after the second one has timed
out and never arrived. -/
def skippingRun : List Label :=
  [.receive 0 0 (bindPdu 1 0), .vet 0, .enroll 0, .connect 0, .check 0,
    .receive 1 0 (bindPdu 3 2), .vet 1, .enroll 1, .connect 1, .check 1]

theorem unacknowledgedOnly_skipping :
    ∃ reached, (logged handleFast 9).Run (fun source label => heedsAcks source label = true)
        skippingRun reached ∧ ∀ xid ∈ reached.1.store.xids 1, 2 < xid := by
  have hexec : ((logged handleFast 9).execIf heedsAcks (logged handleFast 9).init
      skippingRun).any (fun reached => (acknowledgements reached.2 1).contains 2) = true := by
    decide +kernel
  obtain ⟨reached, hrun, hrep⟩ := System.exists_run_of_execIf hexec
  exact ⟨reached, hrun, fun xid hxid =>
    unacknowledgedOnly hrun hxid (by simpa using hrep)⟩

/-- The second request of a client, which acknowledges the first one. -/
def acknowledgingRun : List Label :=
  [.receive 0 0 (bindPdu 1 0), .vet 0, .enroll 0, .connect 0, .check 0,
    .receive 1 0 (bindPdu 2 1), .vet 1, .enroll 1, .connect 1, .check 1]

/-- The entry of the first request stays. -/
theorem acknowledging_keepsEntry :
    ∃ reached, (logged handleFast 9).Run anyStep acknowledgingRun reached ∧
      1 ∈ reached.1.store.xids 1 ∧ 1 ∈ acknowledgements reached.2 1 := by
  have hexec : ((logged handleFast 9).exec (logged handleFast 9).init acknowledgingRun).any
      (fun reached => (reached.1.store.xids 1).contains 1 &&
        (acknowledgements reached.2 1).contains 1) = true := by
    decide +kernel
  obtain ⟨reached, hrun, hreached⟩ := System.exists_run_of_exec hexec
  simp only [Bool.and_eq_true, List.contains_iff_mem] at hreached
  exact ⟨reached, hrun, hreached⟩

end YfsLab.Rpc.Server
