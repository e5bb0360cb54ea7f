/-
# Live connections are kept

A connection that is alive, or whose `read_cb` is in `got_pdu`, is in `conns_` of
`tcpsconn`, or `process_accept` is about to put it there: the loop of `process_accept`
only drops a connection that it has found dead, with no reference but its own. So a
connection that nobody refers to any more was dead when it lost its last reference, and
`decref` has deleted it.
-/

import YfsLab.Rpc.ReplyConnection
import YfsLab.Rpc.Shutdown

namespace YfsLab.Rpc

open BigEndian Holders Poll Transition Wire

/-- The entry of a connection that `process_accept` has found dead. -/
def Acceptor.doomed : Acceptor → Option (Fd × ConnId)
  | .found _ entry _ | .collecting _ entry _ | .erasing _ entry _ => some entry
  | _ => none

namespace Registry

variable {σ : Type} {app : Service σ} {s s' : Registry σ}

/-- A connection that is alive, or whose PDU is being passed on. -/
def Wanted (s : Registry σ) (c : ConnId) : Prop :=
  (c < s.made ∧ (s.objs c).dead = false) ∨ s.reader.conn = some c

/-- The connections that are wanted are kept, and `process_accept` is not about to drop
one of them. -/
structure Attended (s : Registry σ) : Prop where
  keeps : ∀ c, s.Wanted c → s.Keeps c
  dead : ∀ entry, s.acceptor.doomed = some entry → (s.objs entry.2).dead = true
  unread : ∀ ch entry todo, s.acceptor = .collecting ch entry todo →
    s.reader.conn ≠ some entry.2

/-- Steps of the poll thread and of jobs make no connection wanted, and leave `conns_`
alone. -/
theorem wanted_of_step (h : s.Accounted) {label : Label} (hstep : s.step app label = some s')
    (hlabel : accepting label = false) :
    s'.acceptor = s.acceptor ∧ s'.conns = s.conns ∧ ∀ c, s'.Wanted c → s.Wanted c := by
  obtain ⟨htouches, -, hacceptor⟩ := touches_of_step h hstep
  have hreader : ∀ {reader : Reader}, s'.reader = reader → s'.made = s.made →
      (∀ c, reader.conn = some c → s.Wanted c) → ∀ c, s'.Wanted c → s.Wanted c := by
    rintro reader hreader hmade hread c (⟨hc, halive⟩ | hconn)
    · rw [hmade] at hc
      refine .inl ⟨hc, ?_⟩
      by_contra hdead
      rw [(htouches.keeps hc).1 (by simpa using hdead)] at halive
      cases halive
    · exact hread c (hreader ▸ hconn)
  have hsame : ∀ c, s.reader.conn = some c → s.Wanted c := fun c hconn => .inr hconn
  refine ⟨hacceptor hlabel, ?_⟩
  cases section_of_step h hstep with
  | accepted | lookedAt | counted | collected | erased | inserted => cases hlabel
  | died | released | left | replaced | saved | kept | switched | stayed =>
      exact ⟨rfl, hreader rfl rfl hsame⟩
  | @taken c =>
      obtain ⟨⟨-, hmade, -, halive⟩, -⟩ := Option.ite_none_right_eq_some.mp hstep
      refine ⟨rfl, hreader rfl rfl fun c' hconn => ?_⟩
      obtain rfl := Option.some.inj hconn
      exact .inl ⟨hmade, halive⟩
  | full hread => exact ⟨rfl, hreader rfl rfl fun c hconn => hsame c (hread ▸ hconn)⟩
  | short | queued | gaveBack => exact ⟨rfl, hreader rfl rfl nofun⟩
  | served _ hserve =>
      obtain ⟨server, -, ⟨-, rfl⟩ | ⟨-, rfl⟩⟩ := serve_eq_some hserve <;>
        exact ⟨rfl, hreader rfl rfl hsame⟩

/-- The connection that a step of `process_accept` is about to drop has the reference of
`conns_` only, so `got_pdu` is not at work on it. -/
theorem reader_ne_of_refno (h : s.Accounted) {c : ConnId} (herased : s.acceptor.erased ≠ some c)
    (hmem : c ∈ s.conns.values) (hrefno : (s.objs c).refno = 1) : s.reader.conn ≠ some c := by
  intro hreader
  have hcount := h.refno_eq c
  have hswap := h.one_swapping_le c
  have hpos := List.count_pos_iff.mpr hmem
  simp only [released, held, one_of_ne herased, hrefno, hreader, one_self] at hcount
  omega

/-- `process_accept` moves on in its loop. -/
theorem Attended.acceptor (h : s.Attended) {acceptor : Acceptor}
    (hch : acceptor.ch = s.acceptor.ch) (herased : acceptor.erased = s.acceptor.erased)
    (hdead : ∀ entry, acceptor.doomed = some entry → (s.objs entry.2).dead = true)
    (hunread : ∀ ch entry todo, acceptor = .collecting ch entry todo →
      s.reader.conn ≠ some entry.2) : Attended { s with acceptor := acceptor } := by
  refine ⟨fun c hwanted => ?_, hdead, hunread⟩
  have hkeeps := h.keeps c hwanted
  simp only [Keeps] at hkeeps ⊢
  rwa [hch, herased]

/-- A connection that has been found dead is in `conns_`. -/
theorem Placed.doomed_mem (h : s.Placed) {entry : Fd × ConnId}
    (hdoomed : s.acceptor.doomed = some entry) : entry ∈ s.conns.1 := by
  have hpending := h.pending.subset
  cases hacceptor : s.acceptor with
  | found | collecting | erasing =>
      rw [hacceptor] at hdoomed hpending
      obtain rfl := Option.some.inj hdoomed
      exact hpending List.mem_cons_self
  | idle | scanning =>
      rw [hacceptor] at hdoomed
      cases hdoomed

/-- A connection that is not wanted is dead, and nobody is at work on it. -/
theorem not_wanted_of_dead {c : ConnId} (hdead : (s.objs c).dead = true)
    (hreader : s.reader.conn ≠ some c) : ¬ s.Wanted c := by
  rintro (⟨-, halive⟩ | hconn)
  · rw [hdead] at halive
    cases halive
  · exact hreader hconn

theorem Attended.step (h : s.Attended) (haccounted : s.Accounted) (hplaced : s.Placed)
    {label : Label} (hstep : s.step app label = some s') : s'.Attended := by
  cases hlabel : accepting label with
  | false =>
      obtain ⟨hacceptor, hconns, hwanted⟩ := wanted_of_step haccounted hstep hlabel
      obtain ⟨htouches, -, -⟩ := touches_of_step haccounted hstep
      refine ⟨fun c hc => ?_, fun entry hentry => ?_, fun ch entry todo hcollect => ?_⟩
      · have hkeeps := h.keeps c (hwanted c hc)
        rwa [Keeps, hacceptor, hconns]
      · rw [hacceptor] at hentry
        have hmade := (hplaced.entry entry (hplaced.doomed_mem hentry)).1
        exact (htouches.keeps hmade).1 (h.dead entry hentry)
      · intro hconn
        rw [hacceptor] at hcollect
        have hdead := h.dead entry (by rw [hcollect]; rfl)
        exact not_wanted_of_dead hdead (h.unread ch entry todo hcollect)
          (hwanted entry.2 (.inr hconn))
  | true =>
      have hsection := section_of_step haccounted hstep
      cases hsection with
      | accepted hidle =>
          refine ⟨fun c hc => ⟨by simp [Acceptor.erased], ?_⟩, by simp [Acceptor.doomed], by simp⟩
          by_cases hmade : c = s.made
          · exact .inr (by rw [hmade]; rfl)
          · have hwanted : s.Wanted c := by
              refine hc.imp_left (And.imp (fun hlt => ?_) fun halive => ?_)
              · exact lt_of_le_of_ne (Nat.lt_succ_iff.mp hlt) hmade
              · simpa only [Function.update_of_ne hmade] using halive
            rcases (h.keeps c hwanted).2 with hmem | hch
            · exact .inl hmem
            · rw [hidle] at hch
              cases hch
      | @lookedAt ch entry todo hscan =>
          refine h.acceptor ?_ ?_ (fun other hother => ?_) fun ch entry todo hcollect => ?_
          · rw [hscan]
            split_ifs <;> rfl
          · rw [hscan]
            split_ifs <;> rfl
          · split_ifs at hother with hdead
            · obtain rfl := Option.some.inj hother
              exact hdead
            · cases hother
          · split_ifs at hcollect
      | @counted ch entry todo hfound =>
          have hmem : entry ∈ s.conns.1 := hplaced.doomed_mem (by rw [hfound]; rfl)
          refine h.acceptor ?_ ?_ (fun other hother => ?_) fun ch' other todo' hcollect => ?_
          · rw [hfound]
            split_ifs <;> rfl
          · rw [hfound]
            split_ifs <;> rfl
          · split_ifs at hother
            · obtain rfl := Option.some.inj hother
              exact h.dead entry (by rw [hfound]; rfl)
            · cases hother
          · split_ifs at hcollect with hrefno
            obtain ⟨-, rfl, -⟩ := Acceptor.collecting.inj hcollect
            exact reader_ne_of_refno haccounted (by simp [hfound, Acceptor.erased])
              (List.mem_map_of_mem hmem) hrefno
      | @collected ch entry todo objs hcollect hdropped =>
          have hdead := h.dead entry (by rw [hcollect]; rfl)
          have hnot := not_wanted_of_dead hdead (h.unread ch entry todo hcollect)
          refine ⟨fun c hc => ?_, fun other hother => ?_, by simp⟩
          · have hwanted : s.Wanted c :=
              hc.imp_left (And.imp_right (hdropped.dead c).symm.trans)
            have hkeeps := (h.keeps c hwanted).2
            rw [hcollect] at hkeeps
            refine ⟨fun heq => hnot ?_, hkeeps⟩
            obtain rfl := Option.some.inj heq
            exact hwanted
          · obtain rfl := Option.some.inj hother
            exact (hdropped.dead entry.2).trans hdead
      | @erased ch entry todo herase =>
          have hmem : entry ∈ s.conns.1 := hplaced.doomed_mem (by rw [herase]; rfl)
          refine ⟨fun c hc => ⟨by simp [Acceptor.erased], ?_⟩, by simp [Acceptor.doomed], by simp⟩
          obtain ⟨herased, hkeeps⟩ := h.keeps c hc
          rw [herase] at herased hkeeps
          refine hkeeps.imp_left fun hvalue => ?_
          have hback := (SortedMap.values_perm_erase hmem).mem_iff.mp hvalue
          exact (List.mem_cons.mp hback).resolve_left fun heq => herased (heq ▸ rfl)
      | @inserted ch hscan =>
          refine ⟨fun c hc => ⟨by simp [Acceptor.erased], .inl ?_⟩, by simp [Acceptor.doomed],
            by simp⟩
          refine (SortedMap.values_assign_perm ch (hplaced.fresh_fd hscan)).mem_iff.mpr ?_
          have hkeeps := (h.keeps c hc).2
          rw [hscan] at hkeeps
          rcases hkeeps with hold | hch
          · exact List.mem_cons_of_mem _ hold
          · obtain rfl := Option.some.inj hch
            exact List.mem_cons_self
      | _ => cases hlabel

/-! ## Connections that nobody refers to -/

theorem Accounted.refno_nonneg (h : s.Accounted) (hplaced : s.Placed) (c : ConnId) :
    0 ≤ (s.objs c).refno := by
  have hcount := h.refno_eq c
  have hswap := h.one_swapping_le c
  have herased := hplaced.one_erased_le c
  simp only [released, held] at hcount
  omega

/-- A connection that nobody refers to any more has been deleted. -/
def Gone (s : Registry σ) : Prop :=
  ∀ c, c < s.made → (s.objs c).refno = 0 → (s.objs c).deleted = true

/-- A reference is given back. If it was the last one, then the connection is not one
that is kept, and so it is dead. -/
theorem Gone.dropped (h : s.Gone) {c₀ : ConnId} (hdropped : Dropped s.objs s'.objs c₀)
    (hmade : s'.made = s.made) (haccounted : s'.Accounted) (hattended : s'.Attended) :
    s'.Gone := by
  intro c hc hzero
  by_cases hsame : c = c₀
  · subst hsame
    refine hdropped.deleted.mpr (.inr ⟨hzero, ?_⟩)
    rw [← hdropped.dead c]
    by_contra halive
    have hpos := haccounted.refno_pos (hattended.keeps c (.inl ⟨hc, by simpa using halive⟩))
    omega
  · rw [hdropped.others c hsame] at hzero ⊢
    exact h c (hmade ▸ hc) hzero

theorem Gone.incref (h : s.Gone) (haccounted : s.Accounted) (hplaced : s.Placed) {c₀ : ConnId}
    (hobjs : s'.objs = (s.incref c₀).objs) (hmade : s'.made = s.made) : s'.Gone := by
  intro c hc hzero
  rw [hobjs] at hzero ⊢
  by_cases hsame : c = c₀
  · subst hsame
    have hnonneg := haccounted.refno_nonneg hplaced c
    rw [refno_incref, one_self] at hzero
    omega
  · rw [objs_incref_of_ne s hsame] at hzero ⊢
    exact h c (hmade ▸ hc) hzero

theorem Gone.step (h : s.Gone) (haccounted : s.Accounted) (hplaced : s.Placed)
    {label : Label} (hstep : s.step app label = some s') (htarget : s'.Accounted)
    (hattended : s'.Attended) : s'.Gone := by
  cases section_of_step haccounted hstep with
  | accepted =>
      intro c hc hzero
      by_cases hnew : c = s.made
      · subst hnew
        simp at hzero
      · simp only [Function.update_of_ne hnew] at hzero ⊢
        exact h c (lt_of_le_of_ne (Nat.lt_succ_iff.mp hc) hnew) hzero
  | @died c₀ =>
      intro c hc hzero
      by_cases hsame : c = c₀
      · subst hsame
        simp only [Function.update_self] at hzero ⊢
        exact h c hc hzero
      · simp only [Function.update_of_ne hsame] at hzero ⊢
        exact h c hc hzero
  | collected _ hdropped | gaveBack _ hdropped | released hdropped | left hdropped =>
      exact h.dropped hdropped rfl htarget hattended
  | taken | replaced | saved | switched => exact h.incref haccounted hplaced rfl rfl
  | lookedAt | counted | erased | inserted | full | short | queued | kept | stayed => exact h
  | served _ hserve =>
      obtain ⟨server, -, ⟨-, rfl⟩ | ⟨-, rfl⟩⟩ := serve_eq_some hserve <;> exact h

/-! ## Deletions -/

/-- Nothing is deleted when a reference is taken. -/
theorem deleted_incref (s : Registry σ) (c₀ c : ConnId) :
    ((s.incref c₀).objs c).deleted = (s.objs c).deleted := by
  by_cases hsame : c = c₀
  · subst hsame
    simp [incref, ConnObj.incref]
  · rw [objs_incref_of_ne s hsame]

/-- A step gives back the reference of the connection that it calls `decref` of, or it
deletes nothing. -/
theorem given_of_step (haccounted : s.Accounted) (hplaced : s.Placed) {label : Label}
    (hstep : s.step app label = some s') :
    Given s.objs s'.objs (s.gives label) ∨
      (s.gives label = none ∧ ∀ c, (s'.objs c).deleted = (s.objs c).deleted) := by
  have hgiven : ∀ {c : ConnId} {objs : ConnId → ConnObj}, s.gives label = some c →
      Dropped s.objs objs c → Given s.objs objs (s.gives label) := by
    intro c objs hgives hdropped
    rw [hgives]
    exact given_of_dropped hdropped
  cases section_of_step haccounted hstep with
  | collected hcollect hdropped => exact .inl (hgiven (by simp [gives, hcollect]) hdropped)
  | gaveBack hreader hdropped => exact .inl (hgiven (by simp [gives, hreader]) hdropped)
  | @released d =>
      obtain ⟨c, objs, -, ⟨f, hf, hcases⟩, hdropped, heq⟩ := release_cases hstep
      rw [heq]
      refine .inl (hgiven ?_ hdropped)
      rcases hcases with ⟨hstage, hentry, -⟩ | ⟨hstage, hconn, -⟩
      · simp [gives, hf, hstage, hentry]
      · simp [gives, hf, hstage, hconn]
  | @left i =>
      obtain ⟨c, hi, hdrop⟩ := Option.bind_eq_some_iff.mp hstep
      obtain ⟨s₁, hdecref, heq⟩ := Option.map_eq_some_iff.mp hdrop
      obtain ⟨objs, rfl, hdropped⟩ := decref_eq_some hdecref
      rw [← heq]
      exact .inl (hgiven hi hdropped)
  | accepted =>
      refine .inr ⟨rfl, fun c => ?_⟩
      by_cases hnew : c = s.made
      · subst hnew
        rw [hplaced.fresh _ le_rfl]
        simp
      · simp only [Function.update_of_ne hnew]
  | @died c₀ =>
      refine .inr ⟨rfl, fun c => ?_⟩
      by_cases hsame : c = c₀
      · subst hsame
        simp
      · simp only [Function.update_of_ne hsame]
  | taken | replaced | saved | switched => exact .inr ⟨rfl, fun c => deleted_incref s _ c⟩
  | lookedAt | counted | erased | inserted | full | short | queued | kept | stayed =>
      exact .inr ⟨rfl, fun _ => rfl⟩
  | served _ hserve =>
      obtain ⟨server, -, ⟨-, rfl⟩ | ⟨-, rfl⟩⟩ := serve_eq_some hserve <;>
        exact .inr ⟨rfl, fun _ => rfl⟩

end Registry

end YfsLab.Rpc
