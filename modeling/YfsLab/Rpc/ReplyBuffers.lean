/-
# Reply buffers

A dispatch that has recorded its reply, or has been told by the check that the reply
is there, sends it from a pointer into the reply window, and it holds no mutex
while it does. Meanwhile a request with a larger `xid_rep` may drop the entry and
free the buffer. As long as no check drops an entry whose reply is still to be sent,
every reply that is sent is what the handler has produced.
-/

import YfsLab.Rpc.AtMostOnce

namespace YfsLab.Rpc.Server

open BigEndian Transition Wire

variable {σ : Type} {app : Service σ}

/-! ## What has to be avoided -/

/-- The dispatch of a check stands before the send of a buffer. -/
def unsent (s : Server σ) (b : BufId) : Event → Bool
  | .checked d _ _ _ =>
      (s.frames d).any fun f => (f.stage == .select || f.stage == .send) && f.b1 == some b
  | _ => false

/-- The step does not check a request whose acknowledgement drops an entry with a
reply that a dispatch has recorded or been given, and not sent yet. -/
def noUndercut (source : Server σ × List Event) : Label → Bool
  | .check d => (source.1.frames d).all fun f =>
      decide (f.request.xid ≤ f.request.xidRep) ||
        (source.1.store.dropped f.request.clt f.request.xidRep).all fun entry =>
          entry.buf.all fun b => !source.2.any (unsent source.1 b)
  | _ => true

/-- Every reply that has been sent was in its buffer, and is what a handler has
produced for the same client and xid. -/
def SentIntact (history : List Event) : Prop :=
  ∀ d conn request pdu, .sent d conn request pdu ∈ history →
    ∃ bytes j request', pdu = some bytes ∧ .produced j request' bytes ∈ history ∧
      request'.clt = request.clt ∧ request'.xid = request.xid

/-! ## Dispatches that have passed the check -/

/-- The stages behind the check. -/
def passed : Stage → Bool
  | .run | .running | .record | .select | .send => true
  | _ => false

/-- Dispatches behind the check have been through it, if their client uses the reply
window. -/
def Passed (source : Server σ × List Event) : Prop :=
  ∀ d f, source.1.frames d = some f → passed f.stage = true → f.request.clt ≠ 0 →
    ∃ conn verdict, .checked d conn f.request verdict ∈ source.2

theorem passed_of_section {s target : Server σ} {history : List Event} {label : Label}
    (hsection : Section app s label target) (hpassed : Passed (s, history)) :
    Passed (target, history ++ events app s label) := by
  intro d f hf hstage hclt
  -- a dispatch that was behind the check before
  have hold : ∀ d f, s.frames d = some f → passed f.stage = true → f.request.clt ≠ 0 →
      ∃ conn verdict, .checked d conn f.request verdict ∈ history ++ events app s label := by
    intro d f hf hbefore hne
    obtain ⟨conn, verdict, hmem⟩ := hpassed d f hf hbefore hne
    exact ⟨conn, verdict, List.mem_append_left _ hmem⟩
  -- a dispatch that this section has moved
  have hmoved : ∀ {base : Server σ} {j : DispatchId} {g g' : Dispatch},
      (base.put j g').frames d = some f → base.frames = s.frames → s.frames j = some g →
      g'.request = g.request → (passed g'.stage = true → passed g.stage = true) →
      ∃ conn verdict, .checked d conn f.request verdict ∈ history ++ events app s label := by
    intro base j g g' hput hbase hg hsame hback
    refine holds_put hold hput hbase (fun hbehind hne => ?_) hstage hclt
    rw [hsame] at hne ⊢
    exact hold j g hg (hback hbehind) hne
  cases hsection with
  | dropped | stirred => exact hold d f hf hstage hclt
  | received => exact holds_put hold hf rfl (fun hqueued => by cases hqueued) hstage hclt
  | @checked j g hg =>
      refine holds_put hold hf rfl (fun _ _ => ⟨g.conn, (s.store.checkduplicateAndUpdate
        g.request.clt g.request.xid g.request.xidRep).2, ?_⟩) hstage hclt
      rw [events_check hg, follow_request]
      exact List.mem_append_right _ (List.mem_singleton.mpr rfl)
  | vetted =>
      refine holds_put hold hf rfl (fun hbehind hne => ?_) hstage hclt
      dsimp only at hbehind hne
      simp [passed, if_neg hne] at hbehind
  | waits hg hhandles | returned hg hhandles =>
      refine hmoved hf rfl hg rfl fun _ => ?_
      rcases hhandles.stage with hbefore | hbefore <;> rw [hbefore] <;> rfl
  | recorded hg hbefore | switched hg hbefore | stays hg hbefore =>
      exact hmoved hf rfl hg rfl fun _ => by rw [hbefore]; rfl
  | old hg | unregistered hg | enrolled hg | connected hg | sent hg | refused hg =>
      exact hmoved hf rfl hg rfl nofun

/-! ## Buffers that hold a reply -/

/-- The stages behind the production of a reply, and behind its recording. -/
def replied : Stage → Bool
  | .record | .select | .send | .ended => true
  | _ => false

/-- The dispatch that produced a buffer worked on this request, and the buffer holds
its reply. -/
def Holds (source : Server σ × List Event) (b : BufId) (clt xid : UInt32) (sz : ℕ) : Prop :=
  ∃ f bytes, source.1.frames b = some f ∧ f.request.clt = clt ∧ f.request.xid = xid ∧
    source.1.store.heap b = some { bytes } ∧ sz = bytes.length ∧
    .produced b f.request bytes ∈ source.2

/-- Every buffer that is recorded, or is on its way to be recorded or sent, holds the
reply to the request it is meant for. -/
structure Buffers (source : Server σ × List Event) : Prop where
  heap_frame : ∀ b cell, source.1.store.heap b = some cell →
    ∃ f, source.1.frames b = some f ∧ replied f.stage = true
  entry_present : ∀ clt, ∀ entry ∈ source.1.store.entries clt, entry.cbPresent = true →
    ∃ b, entry.buf = some b
  entry_holds : ∀ clt, ∀ entry ∈ source.1.store.entries clt, ∀ b, entry.buf = some b →
    clt ≠ 0 ∧ Holds source b clt entry.xid entry.sz ∧
      ∃ f, source.1.frames b = some f ∧ f.stage ≠ .record
  record_holds : ∀ d f, source.1.frames d = some f → f.stage = .record →
    f.request.clt ≠ 0 ∧ f.b1 = some d ∧ Holds source d f.request.clt f.request.xid f.sz1
  send_holds : ∀ d f, source.1.frames d = some f → f.stage = .select ∨ f.stage = .send →
    ∃ b, f.b1 = some b ∧ Holds source b f.request.clt f.request.xid f.sz1 ∧
      (f.request.clt = 0 → b = d)

/-- A buffer keeps what it holds while nothing is written to it and it is not freed. -/
theorem Holds.mono {source target : Server σ × List Event} {b : BufId} {clt xid : UInt32}
    {sz : ℕ} (h : Holds source b clt xid sz)
    (hfollows : ∀ f, source.1.frames b = some f →
      ∃ f', target.1.frames b = some f' ∧ Follows f f')
    (hheap : target.1.store.heap b = source.1.store.heap b)
    (hlog : source.2 ⊆ target.2) : Holds target b clt xid sz := by
  obtain ⟨f, bytes, hf, hclt, hxid, hcell, hsz, hmem⟩ := h
  obtain ⟨f', hf', hsame, _⟩ := hfollows f hf
  exact ⟨f', bytes, hf', by rw [hsame, hclt], by rw [hsame, hxid], hheap.trans hcell, hsz,
    by rw [hsame]; exact hlog hmem⟩

theorem replied_of_leadsTo {stage next : Stage} (hreplied : replied stage = true)
    (hleads : stage.leadsTo next = true) : replied next = true := by
  cases stage <;> cases next <;>
    first
    | rfl
    | exact absurd hleads Bool.false_ne_true
    | exact absurd hreplied Bool.false_ne_true

theorem ne_record_of_leadsTo {stage next : Stage} (hreplied : replied stage = true)
    (hleads : stage.leadsTo next = true) : next ≠ .record := by
  rintro rfl
  cases stage <;>
    first
    | exact absurd hleads Bool.false_ne_true
    | exact absurd hreplied Bool.false_ne_true

/-- A buffer that holds a reply belongs to one request. -/
theorem Holds.unique {source : Server σ × List Event} {b : BufId} {clt clt' xid xid' : UInt32}
    {sz sz' : ℕ} (h : Holds source b clt xid sz) (h' : Holds source b clt' xid' sz') :
    clt = clt' ∧ xid = xid' := by
  obtain ⟨f, _, hf, hclt, hxid, _⟩ := h
  obtain ⟨f', _, hf', hclt', hxid', _⟩ := h'
  obtain rfl := Option.some.inj (hf.symm.trans hf')
  exact ⟨hclt.symm.trans hclt', hxid.symm.trans hxid'⟩

/-- What a section keeps of the buffers whose cells it leaves alone. -/
theorem Holds.keep {s target : Server σ} {history : List Event} {label : Label}
    {b : BufId} {clt xid : UInt32} {sz : ℕ} (hholds : Holds (s, history) b clt xid sz)
    (hsection : Section app s label target)
    (hheap : target.store.heap b = s.store.heap b) :
    Holds (target, history ++ events app s label) b clt xid sz :=
  hholds.mono (fun _ hf => follows_of_section hsection hf) hheap
    (List.subset_append_left _ _)

/-- The dispatch of a buffer that has been recorded stays behind the recording. -/
theorem Buffers.ne_record {s target : Server σ} {history : List Event} {label : Label}
    (h : Buffers (s, history)) (hsection : Section app s label target) {b : BufId}
    {clt xid : UInt32} {sz : ℕ} (hholds : Holds (s, history) b clt xid sz) {f : Dispatch}
    (hf : s.frames b = some f) (hstage : f.stage ≠ .record) :
    ∃ f', target.frames b = some f' ∧ f'.stage ≠ .record := by
  obtain ⟨_, _, _, _, _, hcell, _⟩ := hholds
  obtain ⟨g, hg, hreplied⟩ := h.heap_frame b _ hcell
  obtain rfl := Option.some.inj (hf.symm.trans hg)
  obtain ⟨f', hf', _, rfl | hleads⟩ := follows_of_section hsection hf
  · exact ⟨f', hf', hstage⟩
  · exact ⟨f', hf', ne_record_of_leadsTo hreplied hleads⟩

/-- A section that leaves heap and entries alone, and moves dispatches to no stage
at which they have a buffer, unless they had it before. -/
theorem Buffers.quiet {s target : Server σ} {history : List Event} {label : Label}
    (h : Buffers (s, history)) (hsection : Section app s label target)
    (hheap : target.store.heap = s.store.heap)
    (hentries : ∀ clt, target.store.entries clt = s.store.entries clt)
    (hframes : ∀ j f', target.frames j = some f' → s.frames j = some f' ∨
      (f'.stage ≠ .record ∧ (f'.stage = .select ∨ f'.stage = .send →
        ∃ f, s.frames j = some f ∧ f.stage = .select ∧ f'.request = f.request ∧
          f'.b1 = f.b1 ∧ f'.sz1 = f.sz1))) :
    Buffers (target, history ++ events app s label) := by
  have hkeep : ∀ {b : BufId} {clt xid : UInt32} {sz : ℕ}, Holds (s, history) b clt xid sz →
      Holds (target, history ++ events app s label) b clt xid sz :=
    fun hholds => hholds.keep hsection (congrFun hheap _)
  refine ⟨?_, ?_, ?_, ?_, ?_⟩
  · intro b cell hcell
    obtain ⟨f, hf, hreplied⟩ := h.heap_frame b cell (hheap ▸ hcell)
    obtain ⟨f', hf', _, rfl | hleads⟩ := follows_of_section hsection hf
    · exact ⟨f', hf', hreplied⟩
    · exact ⟨f', hf', replied_of_leadsTo hreplied hleads⟩
  · intro clt entry hmem
    exact h.entry_present clt entry (hentries clt ▸ hmem)
  · intro clt entry hmem b hbuf
    obtain ⟨hclt, hholds, f, hf, hstage⟩ := h.entry_holds clt entry (hentries clt ▸ hmem) b hbuf
    exact ⟨hclt, hkeep hholds, h.ne_record hsection hholds hf hstage⟩
  · intro d f' hf' hstage
    rcases hframes d f' hf' with hsame | ⟨hne, _⟩
    · obtain ⟨hclt, hb1, hholds⟩ := h.record_holds d f' hsame hstage
      exact ⟨hclt, hb1, hkeep hholds⟩
    · exact absurd hstage hne
  · intro d f' hf' hstage
    rcases hframes d f' hf' with hsame | ⟨_, hback⟩
    · obtain ⟨b, hb1, hholds, hown⟩ := h.send_holds d f' hsame hstage
      exact ⟨b, hb1, hkeep hholds, hown⟩
    · obtain ⟨f, hf, hbefore, hrequest, hb1, hsz⟩ := hback hstage
      obtain ⟨b, hbuf, hholds, hown⟩ := h.send_holds d f hf (.inl hbefore)
      rw [hrequest, hb1, hsz]
      exact ⟨b, hbuf, hkeep hholds, hown⟩

/-! ## The check -/

/-- What the guard says about a check that drops an entry. -/
theorem noUndercut_check {s : Server σ} {history : List Event} {d : DispatchId}
    {f : Dispatch} (hguard : noUndercut (s, history) (.check d) = true)
    (hf : s.frames d = some f) (hlt : f.request.xidRep < f.request.xid) :
    ∀ reply ∈ s.store.dropped f.request.clt f.request.xidRep, ∀ b, reply.buf = some b →
      history.any (unsent s b) = false := by
  intro reply hreply b hbuf
  have hall : ∀ reply ∈ s.store.dropped f.request.clt f.request.xidRep,
      (reply.buf.all fun b => !history.any (unsent s b)) = true := by
    simpa only [noUndercut, hf, Option.all_some, UInt32.not_le.mpr hlt, decide_false,
      Bool.false_or, List.all_eq_true] using hguard
  simpa [hbuf] using hall reply hreply

/-- Under the guard, a check frees no buffer that is still needed: neither that of an
entry it leaves, nor that of a dispatch before its send. -/
theorem Buffers.check {s : Server σ} {history : List Event} {d : DispatchId} {f : Dispatch}
    (h : Buffers (s, history)) (hpassed : Passed (s, history)) (hf : s.frames d = some f)
    (hstage : f.stage = .check) (hguard : noUndercut (s, history) (.check d) = true) :
    Buffers (s.check d f, history ++ events app s (.check d)) := by
  have hsection : Section app s (.check d) (s.check d f) := .checked hf hstage
  -- a buffer that no dropped entry points to keeps its cell
  have hkeep : ∀ {b : BufId} {clt xid : UInt32} {sz : ℕ}, Holds (s, history) b clt xid sz →
      (f.request.xidRep < f.request.xid →
        ∀ reply ∈ s.store.dropped f.request.clt f.request.xidRep, reply.buf ≠ some b) →
      Holds (s.check d f, history ++ events app s (.check d)) b clt xid sz :=
    fun hholds hdropped => hholds.keep hsection (ReplyStore.heap_check_of_kept s.store hdropped)
  -- in particular the buffer of an entry that is not dropped
  have hentry : ∀ {clt : UInt32} {entry : ReplyEntry} {b : BufId},
      entry ∈ s.store.entries clt → entry.buf = some b →
      (f.request.xidRep < f.request.xid → clt = f.request.clt →
        ¬ entry.xid < f.request.xidRep) →
      Holds (s.check d f, history ++ events app s (.check d)) b clt entry.xid entry.sz := by
    intro clt entry b hmem hbuf hkept
    obtain ⟨_, hholds, _⟩ := h.entry_holds clt entry hmem b hbuf
    refine hkeep hholds fun hlt reply hreply hsame => ?_
    obtain ⟨hreply, hltRep⟩ := ReplyStore.mem_dropped.mp hreply
    obtain ⟨_, hother, _⟩ := h.entry_holds _ reply hreply b hsame
    obtain ⟨hclt, hxid⟩ := hholds.unique hother
    exact hkept hlt hclt (hxid ▸ hltRep)
  refine ⟨?_, ?_, ?_, ?_, ?_⟩
  · intro b cell hcell
    obtain ⟨cell', hcell'⟩ := ReplyStore.exists_heap_of_check hcell
    obtain ⟨g, hg, hreplied⟩ := h.heap_frame b cell' hcell'
    obtain ⟨g', hg', _, rfl | hleads⟩ := follows_of_section hsection hg
    · exact ⟨g', hg', hreplied⟩
    · exact ⟨g', hg', replied_of_leadsTo hreplied hleads⟩
  · intro clt entry hmem hpresent
    rcases ReplyStore.mem_entries_check hmem with ⟨hold, _⟩ | rfl
    · exact h.entry_present clt entry hold hpresent
    · cases hpresent
  · intro clt entry hmem b hbuf
    rcases ReplyStore.mem_entries_check hmem with ⟨hold, hkept⟩ | rfl
    · obtain ⟨hclt, hholds, g, hg, hne⟩ := h.entry_holds clt entry hold b hbuf
      exact ⟨hclt, hentry hold hbuf hkept, h.ne_record hsection hholds hg hne⟩
    · cases hbuf
  · intro j g hg hrecord
    rcases frames_put_eq_some.mp hg with ⟨_, rfl⟩ | ⟨_, hsame⟩
    · exfalso
      revert hrecord
      cases (s.store.checkduplicateAndUpdate f.request.clt f.request.xid
        f.request.xidRep).2 <;> nofun
    · obtain ⟨hclt, hb1, hholds⟩ := h.record_holds j g hsame hrecord
      refine ⟨hclt, hb1, hkeep hholds fun _ reply hreply hbuf => ?_⟩
      obtain ⟨_, _, g', hg', hne⟩ :=
        h.entry_holds _ reply (ReplyStore.mem_dropped.mp hreply).1 j hbuf
      obtain rfl := Option.some.inj (hsame.symm.trans hg')
      exact hne hrecord
  · intro j g hg hsend
    rcases frames_put_eq_some.mp hg with ⟨rfl, rfl⟩ | ⟨_, hsame⟩
    · cases hverdict : (s.store.checkduplicateAndUpdate f.request.clt f.request.xid
          f.request.xidRep).2 with
      | done buf sz =>
          obtain ⟨entry, hmem, hxid, hpresent, rfl, rfl, hkept⟩ :=
            ReplyStore.mem_of_check_done hverdict
          obtain ⟨b, hbuf⟩ := h.entry_present _ entry hmem hpresent
          obtain ⟨hclt, _⟩ := h.entry_holds _ entry hmem b hbuf
          refine ⟨b, hbuf, ?_, fun hzero => absurd hzero hclt⟩
          have hholds := hentry hmem hbuf fun _ _ => hkept
          rwa [hxid] at hholds
      | new | inProgress | forgotten => simp [hverdict, follow] at hsend
    · obtain ⟨b, hb1, hholds, hown⟩ := h.send_holds j g hsame hsend
      refine ⟨b, hb1, hkeep hholds fun hlt reply hreply hbuf => ?_, hown⟩
      by_cases hclt : g.request.clt = 0
      · obtain ⟨hne, hother, _⟩ :=
          h.entry_holds _ reply (ReplyStore.mem_dropped.mp hreply).1 b hbuf
        exact hne ((hother.unique hholds).1.trans hclt)
      · -- the dispatch has been through the check, so the guard speaks about it
        obtain ⟨conn, verdict, hchecked⟩ :=
          hpassed j g hsame (by rcases hsend with hat | hat <;> rw [hat] <;> rfl) hclt
        have hbefore : s.frames j = some g := hsame
        have hunsent : unsent s b (.checked j conn g.request verdict) = true := by
          rcases hsend with hat | hat <;> simp [unsent, hbefore, hat, hb1]
        have hno := noUndercut_check hguard hf hlt reply hreply b hbuf
        exact absurd hunsent (List.any_eq_false.mp hno _ hchecked)

/-! ## The sections that write buffers -/

/-- The reply that a handler produces is an event of its section. -/
theorem produced_mem {s : Server σ} {d : DispatchId} {f : Dispatch} {label : Label}
    {area : Area} {service : σ} {outcome : Outcome} (hf : s.frames d = some f)
    (hhandles : Handles app s d f area (service, some outcome) label) :
    .produced d f.request (replyPdu (List.ofFn area) ⟨f.request.header.xid, outcome.ret⟩
      outcome.result) ∈ events app s label := by
  cases hhandles with
  | entered _ hresult => simp [events, hf, hresult, productions]
  | resumed _ hresult => simp [events, hf, hresult, productions]

/-- A handler returns: its dispatch gets a buffer of its own, which nothing has used
before. -/
theorem Buffers.returned {s target : Server σ} {history : List Event} {label : Label}
    {d : DispatchId} {f f' : Dispatch} {rep : Bytes} (h : Buffers (s, history))
    (hsection : Section app s label target) (hf : s.frames d = some f)
    (hstage : f.stage = .run ∨ f.stage = .running)
    (hheap : target.store.heap = Function.update s.store.heap d (some { bytes := rep }))
    (hentries : ∀ clt, target.store.entries clt = s.store.entries clt)
    (hframes : target.frames = Function.update s.frames d (some f'))
    (hrequest : f'.request = f.request)
    (hnext : f'.stage = if f.request.clt = 0 then .select else .record)
    (hb1 : f'.b1 = some d) (hsz : f'.sz1 = rep.length)
    (hproduced : .produced d f.request rep ∈ events app s label) :
    Buffers (target, history ++ events app s label) := by
  have hfresh : ∀ cell, s.store.heap d ≠ some cell := by
    intro cell hcell
    obtain ⟨g, hg, hreplied⟩ := h.heap_frame d cell hcell
    obtain rfl := Option.some.inj (hf.symm.trans hg)
    rcases hstage with hat | hat <;> rw [hat] at hreplied <;> cases hreplied
  have hkeep : ∀ {b : BufId} {clt xid : UInt32} {sz : ℕ}, Holds (s, history) b clt xid sz →
      Holds (target, history ++ events app s label) b clt xid sz := by
    intro b clt xid sz hholds
    refine hholds.keep hsection ?_
    obtain ⟨_, _, _, _, _, hcell, _⟩ := hholds
    have hb : b ≠ d := fun hb => hfresh _ (hb ▸ hcell)
    rw [hheap, Function.update_of_ne hb]
  have hself : target.frames d = some f' := by rw [hframes, Function.update_self]
  have hother : ∀ {j : DispatchId} {g : Dispatch}, target.frames j = some g →
      (j = d ∧ g = f') ∨ s.frames j = some g := by
    intro j g hg
    rw [hframes] at hg
    by_cases hj : j = d
    · subst hj
      rw [Function.update_self, Option.some.injEq] at hg
      exact .inl ⟨rfl, hg.symm⟩
    · rw [Function.update_of_ne hj] at hg
      exact .inr hg
  have hnew : Holds (target, history ++ events app s label) d f'.request.clt f'.request.xid
      f'.sz1 := by
    refine ⟨f', rep, hself, rfl, rfl, ?_, hsz, ?_⟩
    · rw [hheap, Function.update_self]
    · rw [hrequest]
      exact List.mem_append_right _ hproduced
  refine ⟨?_, ?_, ?_, ?_, ?_⟩
  · intro b cell hcell
    by_cases hb : b = d
    · subst hb
      refine ⟨f', hself, ?_⟩
      rw [hnext]
      split_ifs <;> rfl
    · rw [hheap, Function.update_of_ne hb] at hcell
      obtain ⟨g, hg, hreplied⟩ := h.heap_frame b cell hcell
      exact ⟨g, by rw [hframes, Function.update_of_ne hb, hg], hreplied⟩
  · intro clt entry hmem
    exact h.entry_present clt entry (hentries clt ▸ hmem)
  · intro clt entry hmem b hbuf
    obtain ⟨hclt, hholds, g, hg, hne⟩ := h.entry_holds clt entry (hentries clt ▸ hmem) b hbuf
    exact ⟨hclt, hkeep hholds, h.ne_record hsection hholds hg hne⟩
  · intro j g hg hrecord
    rcases hother hg with ⟨rfl, rfl⟩ | hsame
    · refine ⟨fun hclt => ?_, hb1, hnew⟩
      rw [hnext, ← hrequest, if_pos hclt] at hrecord
      cases hrecord
    · obtain ⟨hclt, hbuf, hholds⟩ := h.record_holds j g hsame hrecord
      exact ⟨hclt, hbuf, hkeep hholds⟩
  · intro j g hg hsend
    rcases hother hg with ⟨rfl, rfl⟩ | hsame
    · exact ⟨j, hb1, hnew, fun _ => rfl⟩
    · obtain ⟨b, hbuf, hholds, hown⟩ := h.send_holds j g hsame hsend
      exact ⟨b, hbuf, hkeep hholds, hown⟩

/-- A reply is recorded. -/
theorem Buffers.recorded {s : Server σ} {history : List Event} {d : DispatchId}
    {f : Dispatch} {buf : BufId} {l : List ReplyEntry} (h : Buffers (s, history))
    (hf : s.frames d = some f) (hstage : f.stage = .record) (hbuf : f.b1 = some buf)
    (hl : s.store.window f.request.clt = some l) :
    Buffers ({ s with
        store := s.store.put f.request.clt
          (ReplyStore.setReply f.request.xid buf f.sz1 l) }.put d { f with stage := .select },
      history ++ events app s (.record d)) := by
  have hsection : Section app s (.record d) _ := .recorded hf hstage hbuf hl
  obtain ⟨hclt, hown, hholds⟩ := h.record_holds d f hf hstage
  obtain rfl : d = buf := Option.some.inj (hown.symm.trans hbuf)
  have hkeep : ∀ {b : BufId} {clt xid : UInt32} {sz : ℕ}, Holds (s, history) b clt xid sz →
      Holds (_, history ++ events app s (.record d)) b clt xid sz :=
    fun hholds => hholds.keep hsection rfl
  -- an entry was there before, or is the one that has been written
  have hentry : ∀ {clt : UInt32} {entry : ReplyEntry},
      entry ∈ (s.store.put f.request.clt
        (ReplyStore.setReply f.request.xid d f.sz1 l)).entries clt →
      entry ∈ s.store.entries clt ∨ (clt = f.request.clt ∧ entry.xid = f.request.xid ∧
        entry.buf = some d ∧ entry.sz = f.sz1) := by
    intro clt entry hmem
    rw [ReplyStore.entries_put] at hmem
    split_ifs at hmem with heq
    · subst heq
      rcases ReplyStore.mem_setReply hmem with hold | ⟨old, _, hxid, rfl⟩
      · exact .inl (by rwa [ReplyStore.entries, hl])
      · exact .inr ⟨rfl, hxid, rfl, rfl⟩
    · exact .inl hmem
  refine ⟨?_, ?_, ?_, ?_, ?_⟩
  · intro b cell hcell
    obtain ⟨g, hg, hreplied⟩ := h.heap_frame b cell hcell
    obtain ⟨g', hg', _, rfl | hleads⟩ := follows_of_section hsection hg
    · exact ⟨g', hg', hreplied⟩
    · exact ⟨g', hg', replied_of_leadsTo hreplied hleads⟩
  · intro clt entry hmem hpresent
    rcases hentry hmem with hold | ⟨_, _, hnew, _⟩
    · exact h.entry_present clt entry hold hpresent
    · exact ⟨d, hnew⟩
  · intro clt entry hmem b hb
    rcases hentry hmem with hold | ⟨rfl, hxid, hnew, hsz⟩
    · obtain ⟨hne, hholds, g, hg, hrecord⟩ := h.entry_holds clt entry hold b hb
      exact ⟨hne, hkeep hholds, h.ne_record hsection hholds hg hrecord⟩
    · obtain rfl : d = b := Option.some.inj (hnew.symm.trans hb)
      rw [hxid, hsz]
      exact ⟨hclt, hkeep hholds, _, frames_put_self .., by simp⟩
  · intro j g hg hrecord
    rcases frames_put_eq_some.mp hg with ⟨_, rfl⟩ | ⟨_, hsame⟩
    · cases hrecord
    · obtain ⟨hne, hb1, hholds⟩ := h.record_holds j g hsame hrecord
      exact ⟨hne, hb1, hkeep hholds⟩
  · intro j g hg hsend
    rcases frames_put_eq_some.mp hg with ⟨rfl, rfl⟩ | ⟨_, hsame⟩
    · exact ⟨j, hbuf, hkeep hholds, fun _ => rfl⟩
    · obtain ⟨b, hb1, hholds, hown⟩ := h.send_holds j g hsame hsend
      exact ⟨b, hb1, hkeep hholds, hown⟩

/-- A reply is sent, and freed if it has not been recorded. -/
theorem Buffers.sent {s : Server σ} {history : List Event} {d : DispatchId} {f : Dispatch}
    (h : Buffers (s, history)) (hf : s.frames d = some f) (hstage : f.stage = .send) :
    Buffers (s.send d f, history ++ events app s (.send d)) := by
  have hsection : Section app s (.send d) (s.send d f) := .sent hf hstage
  obtain ⟨own, hown, hownHolds, hownEq⟩ := h.send_holds d f hf (.inr hstage)
  -- only the dispatch's own buffer can be freed here
  have hheap : ∀ b, (f.request.clt = 0 → b ≠ d) →
      (s.send d f).store.heap b = s.store.heap b := by
    intro b hb
    simp only [Server.send, store_put]
    split_ifs with hclt
    · rw [hown, hownEq hclt]
      exact ReplyStore.heap_free_of_notMem _ (by simpa using hb hclt)
    · rfl
  have hkeep : ∀ {b : BufId} {clt xid : UInt32} {sz : ℕ}, Holds (s, history) b clt xid sz →
      (f.request.clt = 0 → b ≠ d) →
      Holds (s.send d f, history ++ events app s (.send d)) b clt xid sz :=
    fun hholds hb => hholds.keep hsection (hheap _ hb)
  refine ⟨?_, ?_, ?_, ?_, ?_⟩
  · intro b cell hcell
    obtain ⟨cell', hcell'⟩ : ∃ cell', s.store.heap b = some cell' := by
      by_cases hb : f.request.clt = 0 → b ≠ d
      · exact ⟨cell, (hheap b hb).symm.trans hcell⟩
      · obtain ⟨hclt, hbd⟩ := Classical.not_imp.mp hb
        obtain ⟨_, bytes, _, _, _, hcell', _⟩ := hownHolds
        exact ⟨_, (not_not.mp hbd).trans (hownEq hclt).symm ▸ hcell'⟩
    obtain ⟨g, hg, hreplied⟩ := h.heap_frame b cell' hcell'
    obtain ⟨g', hg', _, rfl | hleads⟩ := follows_of_section hsection hg
    · exact ⟨g', hg', hreplied⟩
    · exact ⟨g', hg', replied_of_leadsTo hreplied hleads⟩
  · intro clt entry hmem
    exact h.entry_present clt entry (entries_send s d f clt ▸ hmem)
  · intro clt entry hmem b hb
    obtain ⟨hne, hholds, g, hg, hrecord⟩ :=
      h.entry_holds clt entry (entries_send s d f clt ▸ hmem) b hb
    refine ⟨hne, hkeep hholds fun hclt hbd => hne ?_, h.ne_record hsection hholds hg hrecord⟩
    have hboth := hholds.unique ((hownEq hclt).trans hbd.symm ▸ hownHolds)
    exact hboth.1.trans hclt
  · intro j g hg hrecord
    rcases frames_put_eq_some.mp hg with ⟨_, rfl⟩ | ⟨hj, hsame⟩
    · cases hrecord
    · obtain ⟨hne, hb1, hholds⟩ := h.record_holds j g hsame hrecord
      exact ⟨hne, hb1, hkeep hholds fun _ => hj⟩
  · intro j g hg hsend
    rcases frames_put_eq_some.mp hg with ⟨_, rfl⟩ | ⟨hj, hsame⟩
    · rcases hsend with hat | hat <;> cases hat
    · obtain ⟨b, hb1, hholds, hbj⟩ := h.send_holds j g hsame hsend
      refine ⟨b, hb1, hkeep hholds fun hclt hbd => hj ?_, hbj⟩
      have hboth := hholds.unique ((hownEq hclt).trans hbd.symm ▸ hownHolds)
      exact (hbj (hboth.1.trans hclt)).symm.trans hbd

/-! ## Steps and runs -/

/-- Every section keeps the buffers, if the checks keep to the guard. -/
theorem Buffers.step {s target : Server σ} {history : List Event} {label : Label}
    (h : Buffers (s, history)) (hpassed : Passed (s, history))
    (hguard : noUndercut (s, history) label = true)
    (hsection : Section app s label target) :
    Buffers (target, history ++ events app s label) := by
  -- a section that moves one dispatch to a stage at which it has no buffer
  have hmoved : ∀ {base : Server σ} {j : DispatchId} {g' : Dispatch},
      target = base.put j g' → base.frames = s.frames → base.store.heap = s.store.heap →
      (∀ clt, base.store.entries clt = s.store.entries clt) → replied g'.stage = false ∨
        g'.stage = .ended → Buffers (target, history ++ events app s label) := by
    rintro base j g' rfl hframes hheap hentries hstage
    refine h.quiet hsection hheap hentries fun i f' hf' => ?_
    rcases frames_put_eq_some.mp hf' with ⟨_, rfl⟩ | ⟨_, hsame⟩
    · right
      cases hat : f'.stage <;> simp [hat, replied] at hstage ⊢
    · exact .inl (hframes ▸ hsame)
  -- the section that chooses the connection
  have hselected : ∀ {j : DispatchId} {g g' : Dispatch}, target = s.put j g' →
      s.frames j = some g → g.stage = .select → g'.stage = .send → g'.request = g.request →
      g'.b1 = g.b1 → g'.sz1 = g.sz1 → Buffers (target, history ++ events app s label) := by
    rintro j g g' rfl hg hat hsend hrequest hb1 hsz
    refine h.quiet hsection rfl (fun _ => rfl) fun i f' hf' => ?_
    rcases frames_put_eq_some.mp hf' with ⟨rfl, rfl⟩ | ⟨_, hsame⟩
    · exact .inr ⟨by rw [hsend]; nofun, fun _ => ⟨g, hg, hat, hrequest, hb1, hsz⟩⟩
    · exact .inl hsame
  cases hsection with
  | dropped hpdu =>
      exact h.quiet (.dropped hpdu) rfl (fun _ => rfl) fun _ _ hf => .inl hf
  | stirred hstir => exact h.quiet (.stirred hstir) rfl (fun _ => rfl) fun _ _ hf => .inl hf
  | received | old | connected | waits =>
      exact hmoved rfl rfl rfl (fun _ => rfl) (.inl rfl)
  | unregistered | refused => exact hmoved rfl rfl rfl (fun _ => rfl) (.inr rfl)
  | vetted =>
      refine hmoved rfl rfl rfl (fun _ => rfl) (.inl ?_)
      dsimp only
      split_ifs <;> rfl
  | enrolled => exact hmoved rfl rfl rfl (fun _ => ReplyStore.entries_enroll ..) (.inl rfl)
  | checked hf hstage => exact h.check hpassed hf hstage hguard
  | returned hf hhandles hrep =>
      exact h.returned (.returned hf hhandles hrep) hf hhandles.stage rfl (fun _ => rfl) rfl rfl
        rfl rfl rfl (hrep ▸ produced_mem hf hhandles)
  | recorded hf hstage hbuf hl => exact h.recorded hf hstage hbuf hl
  | switched hf hstage => exact hselected rfl hf hstage rfl rfl rfl rfl
  | stays hf hstage => exact hselected rfl hf hstage rfl rfl rfl rfl
  | sent hf hstage => exact h.sent hf hstage

/-- A dispatch that sends a reply buffer sends what the buffer holds. -/
theorem intact_of_send_holds {s : Server σ} {history : List Event} {d : DispatchId}
    {f : Dispatch} (h : Buffers (s, history)) (hf : s.frames d = some f)
    (hstage : f.stage = .send) :
    ∃ bytes j request, s.intact f = some bytes ∧ .produced j request bytes ∈ history ∧
      request.clt = f.request.clt ∧ request.xid = f.request.xid := by
  obtain ⟨b, hb1, ⟨g, bytes, _, hclt, hxid, hcell, hsz, hmem⟩, _⟩ :=
    h.send_holds d f hf (.inr hstage)
  have hcell' : s.store.heap b = some { bytes } := hcell
  exact ⟨bytes, b, g.request, by simp [intact, hb1, hcell', hsz], hmem, hclt, hxid⟩

/-- A section keeps it that replies are sent intact. -/
theorem sentIntact_step {s target : Server σ} {history : List Event} {label : Label}
    (hsent : SentIntact history) (h : Buffers (s, history))
    (hsection : Section app s label target) :
    SentIntact (history ++ events app s label) := by
  intro d conn request pdu hmem
  rcases List.mem_append.mp hmem with hold | hnew
  · obtain ⟨bytes, j, request', hpdu, hproduced, hkey⟩ := hsent d conn request pdu hold
    exact ⟨bytes, j, request', hpdu, List.mem_append_left _ hproduced, hkey⟩
  · cases emits_of_mem hnew with
    | sent hf =>
        cases hsection with
        | sent hf' hstage =>
            obtain rfl := Option.some.inj (hf.symm.trans hf')
            obtain ⟨bytes, j, request', hpdu, hproduced, hkey⟩ :=
              intact_of_send_holds h hf hstage
            exact ⟨bytes, j, request', hpdu, List.mem_append_left _ hproduced, hkey⟩
        | waits _ hhandles | returned _ hhandles => cases hhandles

/-- What every run keeps in which no check undercuts a reply. -/
theorem buffers_of_run {nonce : UInt32} {labels : List Label}
    {reached : Server σ × List Event}
    (hrun : (logged app nonce).Run (fun source label => noUndercut source label = true)
      labels reached) :
    Passed reached ∧ Buffers reached ∧ SentIntact reached.2 := by
  refine hrun.invariant (fun source => Passed source ∧ Buffers source ∧ SentIntact source.2)
    ?_ ?_
  · refine ⟨?_, ⟨?_, ?_, ?_, ?_, ?_⟩, ?_⟩ <;>
      simp [Passed, SentIntact, logged, System.recorded, system, start, ReplyStore.entries]
  · rintro labels ⟨s, history⟩ label ⟨s', history'⟩ _ hinv hguard hstep
    obtain ⟨hnext, hlog⟩ := System.recorded_step_eq_some.mp hstep
    obtain ⟨hpassed, hbuffers, hsent⟩ := hinv
    have hsection := section_of_step hnext
    simp only at hlog hsection
    subst hlog
    exact ⟨passed_of_section hsection hpassed, hbuffers.step hpassed hguard hsection,
      sentIntact_step hsent hbuffers hsection⟩

end YfsLab.Rpc.Server

namespace YfsLab.Rpc.Net

open BigEndian Transition Wire

variable {σ : Type}

/-- Reply buffers, for the runs of any clients with one server in which no check drops
an entry whose reply a dispatch is about to send: whenever a dispatch sends a reply
buffer, it has not been freed, and the bytes are what a handler has produced for that
client and xid. -/
theorem repliesIntact {setup : Setup σ} {labels : List Label} {reached : Net σ × List Event}
    (hrun : (logged setup).Run
      (fun source label => onServer Server.noUndercut source label = true) labels reached) :
    Server.SentIntact (serverHistory reached.2) := by
  obtain ⟨parts, hserver⟩ := exists_server_run hrun
  exact (Server.buffers_of_run hserver).2.2

/-- A reply that is sent when it has been produced, and once more for a second copy. -/
theorem repliesIntact_retransmitted :
    ∃ reached, (logged rpctest).Run
        (fun source label => onServer Server.noUndercut source label = true)
        retransmittedRun reached ∧ Server.SentIntact (serverHistory reached.2) := by
  have hexec : ((logged rpctest).execIf (onServer Server.noUndercut) (logged rpctest).init
      retransmittedRun).any (fun _ => true) = true := by
    decide +kernel
  obtain ⟨reached, hrun, _⟩ := System.exists_run_of_execIf hexec
  exact ⟨reached, hrun, repliesIntact hrun⟩

/-! ## A reply is freed before it is sent -/

/-- A call of `bind` times out while its dispatch has recorded the reply and not sent
it yet. The client binds again and makes another call, whose check drops the entry
of the first one. Then the first dispatch sends. -/
def undercutRun : List Label :=
  [.start 0 0 1 (be32 0), .refconn 0 0 (some 0), .send 0 0 true true, .receive 0 0, .vet 0,
    .enroll 0, .connect 0, .check 0, .enter 0 0 fun _ => 0, .record 0, .expire 0 0,
    .retry 0 0 false, .erase 0 0, .finish 0 0,
    .start 0 1 1 (be32 0), .refconn 0 1 none, .send 0 1 true false, .receive 1 0, .vet 1,
    .enroll 1, .connect 1, .check 1, .enter 1 0 fun _ => 0, .record 1, .select 1,
    .reply 1 true [], .deliver 0, .wake 0 1, .erase 0 1, .finish 0 1, .bind 0 1,
    .start 0 2 23 (be32 5), .refconn 0 2 none, .send 0 2 true false, .receive 2 0, .vet 2,
    .enroll 2, .connect 2, .check 2, .select 0, .reply 0 true [1, 2, 3]]

/-- A reply is sent from a buffer that has been freed. -/
def sendsFreed : Server.Event → Bool
  | .sent _ _ _ none => true
  | _ => false

/-- The first dispatch sends from a buffer that has been freed. -/
theorem undercut_sendsFreed :
    ∃ reached, (logged rpctest).Run anyStep undercutRun reached ∧
      ¬ Server.SentIntact (serverHistory reached.2) := by
  have hexec : ((logged rpctest).exec (logged rpctest).init undercutRun).any (fun reached =>
      (serverHistory reached.2).any sendsFreed) = true := by
    decide +kernel
  obtain ⟨reached, hrun, hfreed⟩ := System.exists_run_of_exec hexec
  refine ⟨reached, hrun, fun hintact => ?_⟩
  obtain ⟨event, hmem, hevent⟩ := List.any_eq_true.mp hfreed
  unfold sendsFreed at hevent
  split at hevent
  · obtain ⟨_, _, _, hbytes, _⟩ := hintact _ _ _ _ hmem
    cases hbytes
  · cases hevent

end YfsLab.Rpc.Net
