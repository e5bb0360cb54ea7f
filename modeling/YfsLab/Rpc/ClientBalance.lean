/-
# The counts of a client's connections are balanced

The count of a connection is one for `chan_`, if it is there, and one for each call that
has it in its `ch`, except in the middle of `get_refconn`, where one reference may have
been given back ahead of time. A connection that is not in `chan_` is dead, so the last
one who gives a reference back deletes it, and nobody is left who could use it or delete
it again. `~rpcc` gives the last reference back that is not a call's.
-/

import YfsLab.Rpc.LinksSteps

namespace YfsLab.Rpc

open BigEndian Holders Transition

/-! ## A slot and its holders -/

/-- The counts of the connections of a slot and of holders that have at most one
reference each. `lent` is a reference that its owner has given back ahead of time: the
one of the slot, which is dead, or one of a holder. -/
structure Balance (made : ℕ) (objs : ConnId → ConnObj) (slot lent : Option ConnId)
    (holding : CallId → Option ConnId) : Prop where
  bounded : Bounded holding
  refno_eq : ∀ c, (objs c).refno + one lent c = one slot c + count holding c
  fresh : ∀ c, made ≤ c → objs c = {}
  slot_lt : ∀ c, slot = some c → c < made
  held_lt : ∀ k c, holding k = some c → c < made
  retired : ∀ c, c < made → slot ≠ some c → (objs c).dead = true
  deleted_iff : ∀ c, (objs c).deleted = true ↔ c < made ∧ (objs c).refno = 0
  lent_cases : ∀ c, lent = some c →
    (slot = some c ∧ (objs c).dead = true) ∨ ∃ k, holding k = some c

section Slot

variable {made : ℕ} {objs objs' : ConnId → ConnObj} {slot slot' lent lent' : Option ConnId}
  {holding holding' : CallId → Option ConnId}

theorem balance_start : Balance 0 (fun _ => {}) none none fun _ => none :=
  ⟨bounded_none, by simp, fun _ _ => rfl, nofun, nofun, nofun, by simp, nofun⟩

theorem Balance.lt_made (h : Balance made objs slot lent holding) {c : ConnId}
    (hrefno : (objs c).refno ≠ 0) : c < made := by
  by_contra hge
  rw [h.fresh c (Nat.le_of_not_lt hge)] at hrefno
  exact hrefno rfl

/-- A reference that has been given back ahead of time is still counted. -/
theorem Balance.refno_nonneg (h : Balance made objs slot lent holding) (c : ConnId) :
    0 ≤ (objs c).refno := by
  have hrefno := h.refno_eq c
  have hle := one_le lent c
  by_cases hlent : lent = some c
  · rcases h.lent_cases c hlent with ⟨hslot, -⟩ | ⟨k, hk⟩
    · rw [hslot, one_self] at hrefno
      omega
    · have hpos := count_pos h.bounded hk
      omega
  · rw [one_of_ne hlent] at hrefno
    omega

/-- A connection without references is dead: only the slot keeps a live one. -/
theorem dead_of_refno_eq_zero {c : ConnId}
    (hrefno : (objs c).refno + one lent c = one slot c + count holding c)
    (hretired : slot ≠ some c → (objs c).dead = true)
    (hlent : lent = some c → (slot = some c ∧ (objs c).dead = true) ∨ ∃ k, holding k = some c)
    (hbounded : Bounded holding) (hzero : (objs c).refno = 0) : (objs c).dead = true := by
  by_cases hslot : slot = some c
  · rw [hzero, hslot, one_self] at hrefno
    by_cases hc : lent = some c
    · rcases hlent hc with ⟨-, hdead⟩ | ⟨k, hk⟩
      · exact hdead
      · have hpos := count_pos hbounded hk
        have hle := one_le lent c
        omega
    · rw [one_of_ne hc] at hrefno
      omega
  · exact hretired hslot

/-- A reference is given back, or none, and slot, holders and what is lent change with
it. -/
theorem Balance.give {o : Option ConnId} (h : Balance made objs slot lent holding)
    (hgiven : Given objs objs' o) (hbounded : Bounded holding')
    (hbalance : ∀ c, one slot c + count holding c + one lent' c =
      one slot' c + count holding' c + one lent c + one o c)
    (hslot : ∀ c, slot' = some c → slot = some c)
    (hheld : ∀ k c, holding' k = some c → holding k = some c)
    (hretired : ∀ c, slot = some c → slot' ≠ some c → (objs c).dead = true)
    (hlent : ∀ c, lent' = some c →
      (slot' = some c ∧ (objs c).dead = true) ∨ ∃ k, holding' k = some c) :
    Balance made objs' slot' lent' holding' := by
  have hrefno : ∀ c, (objs' c).refno + one lent' c = one slot' c + count holding' c := by
    intro c
    have hbefore := h.refno_eq c
    have hcount := hgiven.refno c
    have := hbalance c
    omega
  have hdead : ∀ c, c < made → slot' ≠ some c → (objs' c).dead = true := by
    intro c hc hne
    rw [hgiven.dead]
    by_cases hbefore : slot = some c
    · exact hretired c hbefore hne
    · exact h.retired c hc hbefore
  have hlent' : ∀ c, lent' = some c →
      (slot' = some c ∧ (objs' c).dead = true) ∨ ∃ k, holding' k = some c := by
    intro c hc
    rw [hgiven.dead]
    exact hlent c hc
  -- a connection that gives a reference back has been made
  have hmade : ∀ c, o = some c → c < made := by
    intro c hc
    refine h.lt_made fun hzero => ?_
    have hcount := hgiven.refno c
    have hnonneg := hgiven.nonneg c hc
    rw [hc, one_self] at hcount
    omega
  refine ⟨hbounded, hrefno, fun c hc => ?_, fun c hc => h.slot_lt c (hslot c hc),
    fun k c hk => h.held_lt k c (hheld k c hk), hdead, fun c => ?_, hlent'⟩
  · rw [hgiven.others c fun heq => (hmade c heq).not_ge hc]
    exact h.fresh c hc
  · rw [hgiven.deleted]
    constructor
    · rintro (hbefore | ⟨hc, hzero, -⟩)
      · obtain ⟨hlt, hzero⟩ := (h.deleted_iff c).mp hbefore
        refine ⟨hlt, ?_⟩
        by_cases hc : o = some c
        · have hcount := hgiven.refno c
          have hnonneg := hgiven.nonneg c hc
          rw [hc, one_self] at hcount
          omega
        · rw [hgiven.others c hc, hzero]
      · exact ⟨hmade c hc, hzero⟩
    · rintro ⟨hlt, hzero⟩
      by_cases hc : o = some c
      · refine .inr ⟨hc, hzero, ?_⟩
        rw [← hgiven.dead]
        exact dead_of_refno_eq_zero (hrefno c) (hdead c hlt) (hlent' c) hbounded hzero
      · rw [hgiven.others c hc] at hzero
        exact .inl ((h.deleted_iff c).mpr ⟨hlt, hzero⟩)

/-- Connections may be found dead. -/
theorem Balance.mark (h : Balance made objs slot lent holding) {c₀ : ConnId} (hc₀ : c₀ < made) :
    Balance made (Function.update objs c₀ { objs c₀ with dead := true }) slot lent holding := by
  have hsame : ∀ c, ((Function.update objs c₀ { objs c₀ with dead := true }) c).refno =
      (objs c).refno ∧ ((Function.update objs c₀ { objs c₀ with dead := true }) c).deleted =
      (objs c).deleted := by
    intro c
    by_cases hc : c = c₀
    · subst hc
      simp
    · simp [hc]
  have hdead : ∀ c, (objs c).dead = true →
      ((Function.update objs c₀ { objs c₀ with dead := true }) c).dead = true := by
    intro c hbefore
    by_cases hc : c = c₀
    · subst hc
      simp
    · simp [hc, hbefore]
  refine ⟨h.bounded, fun c => ?_, fun c hc => ?_, h.slot_lt, h.held_lt,
    fun c hc hne => hdead c (h.retired c hc hne), fun c => ?_,
    fun c hc => (h.lent_cases c hc).imp_left (And.imp_right (hdead c))⟩
  · rw [(hsame c).1]
    exact h.refno_eq c
  · rw [Function.update_of_ne (Nat.lt_of_lt_of_le hc₀ hc).ne']
    exact h.fresh c hc
  · rw [(hsame c).1, (hsame c).2]
    exact h.deleted_iff c

/-- A new connection is made for the slot, whose reference has been given back. -/
theorem Balance.make (h : Balance made objs slot slot holding)
    (hdead : ∀ c, slot = some c → (objs c).dead = true) :
    Balance (made + 1) (Function.update objs made { refno := 1 }) (some made) none holding := by
  have hcount : count holding made = 0 :=
    count_eq_zero fun k hk => lt_irrefl _ (h.held_lt k made hk)
  refine ⟨h.bounded, fun c => ?_, fun c hc => ?_, ?_, fun k c hk => ?_, fun c hc hne => ?_,
    fun c => ?_, nofun⟩
  · by_cases hc : c = made
    · subst hc
      simp [hcount]
    · have hrefno := h.refno_eq c
      rw [Function.update_of_ne hc, one_some_of_ne (Ne.symm hc), one_none]
      omega
  · rw [Function.update_of_ne (Nat.ne_of_gt hc)]
    exact h.fresh c (Nat.le_of_succ_le hc)
  · intro c hc
    obtain rfl := Option.some.inj hc
    exact Nat.lt_succ_self _
  · exact (h.held_lt k c hk).trans (Nat.lt_succ_self _)
  · have hne' : c ≠ made := fun heq => hne (heq ▸ rfl)
    have hlt : c < made := Nat.lt_of_le_of_ne (Nat.le_of_lt_succ hc) hne'
    rw [Function.update_of_ne hne']
    by_cases hslot : slot = some c
    · exact hdead c hslot
    · exact h.retired c hlt hslot
  · by_cases hc : c = made
    · subst hc
      simp
    · rw [Function.update_of_ne hc, h.deleted_iff c]
      refine and_congr_left fun _ => ⟨fun hlt => hlt.trans (Nat.lt_succ_self _), fun hlt => ?_⟩
      exact Nat.lt_of_le_of_ne (Nat.le_of_lt_succ hlt) hc

/-- The slot keeps its connection, unless its own reference is lent. -/
theorem Balance.refno_pos_of_slot (h : Balance made objs slot lent holding) {c : ConnId}
    (hslot : slot = some c) (hlent : lent = some c → ∃ k, holding k = some c) :
    0 < (objs c).refno := by
  have hrefno := h.refno_eq c
  rw [hslot, one_self] at hrefno
  by_cases hc : lent = some c
  · obtain ⟨k, hk⟩ := hlent hc
    have hpos := count_pos h.bounded hk
    have hle := one_le lent c
    omega
  · rw [one_of_ne hc] at hrefno
    omega

/-- A holder keeps its connection, if the reference that is lent is not its own. -/
theorem Balance.refno_pos_of_holding (h : Balance made objs slot lent holding) {k : CallId}
    {c : ConnId} (hk : holding k = some c)
    (hlent : lent = some c → slot = some c ∨ ∃ j, j ≠ k ∧ holding j = some c) :
    0 < (objs c).refno := by
  have hrefno := h.refno_eq c
  have hupdate := count_update h.bounded k none c
  rw [hk, one_self, one_none] at hupdate
  by_cases hc : lent = some c
  · have hle := one_le lent c
    rcases hlent hc with hslot | ⟨j, hj, hheld⟩
    · rw [hslot, one_self] at hrefno
      omega
    · have hpos : 0 < count (Function.update holding k none) c :=
        count_pos (h.bounded.update _ _) ((Function.update_of_ne hj ..).trans hheld)
      omega
  · rw [one_of_ne hc] at hrefno
    omega

/-- A connection with a reference has not been deleted. -/
theorem Balance.not_deleted (h : Balance made objs slot lent holding) {c : ConnId}
    (hpos : 0 < (objs c).refno) : (objs c).deleted = false := by
  by_contra hdeleted
  obtain ⟨-, hzero⟩ := (h.deleted_iff c).mp (by simpa using hdeleted)
  omega

/-- A holder whose reference has been given back takes one of the slot. -/
theorem Balance.take {k : CallId} {n : ConnId}
    (h : Balance made objs (some n) (holding k) holding) :
    Balance made (Function.update objs n (objs n).incref) (some n) none
      (Function.update holding k (some n)) := by
  have hpos : 0 < (objs n).refno := h.refno_pos_of_slot rfl fun hlent => ⟨k, hlent⟩
  have hlt := h.slot_lt n rfl
  have hupdate : ∀ {j c}, Function.update holding k (some n) j = some c →
      c = n ∨ holding j = some c := by
    intro j c hj
    by_cases hjk : j = k
    · subst hjk
      rw [Function.update_self] at hj
      exact .inl (Option.some.inj hj).symm
    · rw [Function.update_of_ne hjk] at hj
      exact .inr hj
  refine ⟨h.bounded.update _ _, fun c => ?_, fun c hc => ?_, h.slot_lt, fun j c hj => ?_,
    fun c hc hne => ?_, fun c => ?_, nofun⟩
  · have hrefno := h.refno_eq c
    have hcount := count_update h.bounded k (some n) c
    by_cases hc : c = n
    · subst hc
      rw [Function.update_self, one_none]
      simp only [ConnObj.incref, one_self] at hrefno hcount ⊢
      omega
    · rw [Function.update_of_ne hc, one_none]
      rw [one_some_of_ne (Ne.symm hc)] at hrefno hcount ⊢
      omega
  · rw [Function.update_of_ne (Nat.lt_of_lt_of_le hlt hc).ne']
    exact h.fresh c hc
  · rcases hupdate hj with rfl | hold
    · exact hlt
    · exact h.held_lt j c hold
  · have hcn : c ≠ n := fun heq => hne (heq ▸ rfl)
    rw [Function.update_of_ne hcn]
    exact h.retired c hc hne
  · by_cases hc : c = n
    · subst hc
      have halive := h.not_deleted hpos
      simp only [Function.update_self, ConnObj.incref, halive, Bool.false_eq_true, false_iff,
        not_and]
      omega
    · rw [Function.update_of_ne hc]
      exact h.deleted_iff c

end Slot

/-! ## The calls of a client -/

/-- The reference of a call that has not returned. -/
def Call.holds (call : Call) : Option ConnId := if call.result.isSome then none else call.ch

theorem Call.holds_of_phase {call : Call} (hphase : call.result = none) :
    call.holds = call.ch := by
  simp [Call.holds, hphase]

namespace Client

/-- What the calls have that have not returned. -/
def holding (c : Client) (k : CallId) : Option ConnId := (c.frames k).bind Call.holds

theorem holding_put (c : Client) (k : CallId) (call : Call) :
    (c.put k call).holding = Function.update c.holding k call.holds := by
  funext j
  by_cases hj : j = k
  · subst hj
    simp [holding, put]
  · simp [holding, put, hj]

/-- Such a section leaves a call what it has. -/
theorem Moves.holds_eq {c : Client} {k : CallId} {call found : Call} {label : Label}
    (h : Moves c k call label found) (hkeeps : keepsRefs label = true) :
    found.ch = call.ch ∧ found.holds = call.holds ∧
      (call.phase = .transmit → found.phase = .transmit) := by
  cases h with
  | refconn | finished => cases hkeeps
  | same => exact ⟨rfl, rfl, id⟩
  | sent hphase =>
      unfold Call.loop
      split_ifs <;> simp [Call.holds, Call.result, hphase]
  | retried hphase =>
      unfold Call.retry Call.loop
      split_ifs <;> simp [Call.holds, Call.result, hphase]
  | woken hphase | expired hphase | erased hphase => simp [Call.holds, Call.result, hphase]
  | accepted =>
      unfold Call.accept
      split_ifs <;> exact ⟨rfl, rfl, id⟩
  | bound hbinds =>
      have hresult : call.result.isSome = true := by
        simp only [Call.binds, Bool.and_eq_true] at hbinds
        obtain ⟨-, hphase⟩ := hbinds
        split at hphase
        · simp [Call.result, *]
        · cases hphase
      refine ⟨rfl, ?_, fun hphase => ?_⟩
      · rw [Call.holds, Call.holds, hresult]
        rfl
      · simp [Call.result, hphase] at hresult

/-- A section that moves no reference leaves all calls what they have. -/
theorem holding_of_step {c target : Client} {label : Label} (hstep : c.step label = some target)
    (hkeeps : keepsRefs label = true) : target.holding = c.holding := by
  funext k
  rw [holding, holding]
  cases hfound : target.frames k with
  | none =>
      cases hcall : c.frames k with
      | none => rfl
      | some call =>
          obtain ⟨found, hsome, _⟩ := exists_frame_of_step hstep hcall
          rw [hfound] at hsome
          cases hsome
  | some found =>
      rcases frame_of_step hstep hfound with ⟨_, _, _, _, hnone, rfl⟩ | ⟨call, hcall, hmoves⟩
      · rw [hnone]
        rfl
      · rw [hcall]
        exact (hmoves.holds_eq hkeeps).2.1

/-- A call that is about to transmit stays there, with its connection. -/
theorem transmits_of_step {c target : Client} {label : Label}
    (hstep : c.step label = some target) (hkeeps : ∀ k dead connected,
      label ≠ .refconn k dead connected) {k : CallId} {call : Call}
    (hcall : c.frames k = some call) (hphase : call.phase = .transmit) :
    ∃ found, target.frames k = some found ∧ found.phase = .transmit ∧ found.ch = call.ch := by
  obtain ⟨found, hfound, _⟩ := exists_frame_of_step hstep hcall
  rcases frame_of_step hstep hfound with ⟨_, _, _, _, hnone, _⟩ | ⟨old, hold, hmoves⟩
  · rw [hcall] at hnone
    cases hnone
  · obtain rfl := Option.some.inj (hcall.symm.trans hold)
    refine ⟨found, hfound, ?_⟩
    by_cases hrefs : keepsRefs label = true
    · obtain ⟨hch, -, hback⟩ := hmoves.holds_eq hrefs
      exact ⟨hback hphase, hch⟩
    · cases hmoves with
      | refconn => exact absurd rfl (hkeeps _ _ _)
      | finished hreturning =>
          rw [hphase] at hreturning
          cases hreturning
      | same => exact ⟨hphase, rfl⟩
      | sent | woken | expired | retried | erased | accepted | bound => exact absurd rfl hrefs

end Client

namespace Links

variable {s s' : Links}

/-! ## The balance -/

/-- The reference that `get_refconn` has given back ahead of time: that of `chan_`, or
that of its caller. -/
def lent (s : Links) : Option ConnId :=
  match s.refconn with
  | .connecting _ => s.client.chan
  | .taking k _ _ => s.ch k
  | _ => none

/-- The call is about to transmit. -/
def Transmits (s : Links) (k : CallId) : Prop :=
  ∃ call, s.client.frames k = some call ∧ call.phase = .transmit

/-- What `get_refconn` has found out where it stands. -/
def Stands (s : Links) : Prop :=
  match s.refconn with
  | .free => True
  | .testing k => s.Transmits k
  | .dropping k | .connecting k =>
      s.Transmits k ∧ ∀ c, s.client.chan = some c → (s.objs c).dead = true
  | .passing k replaced chan =>
      s.Transmits k ∧ (replaced = false → chan = s.client.chan ∧ chan ≠ none)
  | .taking k replaced chan => s.Transmits k ∧ (replaced = false → s.client.chan = some chan)

/-- The counts are balanced. -/
structure Counted (s : Links) : Prop where
  balance : Balance s.made s.objs s.chan s.lent s.client.holding
  stands : s.Stands
  ended : s.ending ≠ .alive → s.refconn = .free ∧ ∀ k, s.client.holding k = none
  closed : s.ending = .closed → ∀ c, s.client.chan = some c → (s.objs c).dead = true
  started : ∀ k call, s.client.frames k = some call → k ∈ s.calls

theorem counted_start (cltNonce : UInt32) (retrans : Bool) :
    Counted { client := { cltNonce, retrans } } :=
  ⟨balance_start, trivial, fun h => absurd rfl h, nofun, nofun⟩

theorem holding_eq_ch {k : CallId} (h : s.Transmits k) : s.client.holding k = s.ch k := by
  obtain ⟨call, hcall, hphase⟩ := h
  simp [Client.holding, ch, hcall, Call.holds, Call.result, hphase]

/-- While `get_refconn` is at work the client is alive. -/
theorem Counted.alive (h : s.Counted) (hrefconn : s.refconn ≠ .free) : s.ending = .alive := by
  by_contra hending
  exact hrefconn (h.ended hending).1

/-! ## `get_refconn` -/

theorem Counted.locked (h : s.Counted) {k : CallId} (hfree : s.refconn = .free)
    (halive : s.ending = .alive) (htransmits : s.Transmits k) :
    Counted { s with refconn := .testing k } := by
  have hbalance := h.balance
  simp only [chan, lent, hfree, halive] at hbalance
  refine ⟨?_, htransmits, fun hne => absurd halive hne, h.closed, h.started⟩
  simpa [chan, lent, halive] using hbalance

theorem Counted.absent (h : s.Counted) {k : CallId} (hrefconn : s.refconn = .testing k)
    (hchan : s.client.chan = none) : Counted { s with refconn := .connecting k } := by
  have halive := h.alive (by simp [hrefconn])
  have hbalance := h.balance
  have hstands := h.stands
  simp only [chan, lent, Stands, hrefconn, halive] at hbalance hstands
  refine ⟨?_, ⟨hstands, by simp [hchan]⟩, fun hne => absurd halive hne, h.closed, h.started⟩
  simpa [chan, lent, halive, hchan] using hbalance

theorem Counted.stale (h : s.Counted) {k : CallId} {c : ConnId}
    (hrefconn : s.refconn = .testing k) (hchan : s.client.chan = some c)
    (hdead : (s.objs c).dead = true) : Counted { s with refconn := .dropping k } := by
  have halive := h.alive (by simp [hrefconn])
  have hbalance := h.balance
  have hstands := h.stands
  simp only [chan, lent, Stands, hrefconn, halive] at hbalance hstands
  refine ⟨?_, ⟨hstands, fun c' hc' => ?_⟩, fun hne => absurd halive hne, h.closed, h.started⟩
  · simpa [chan, lent, halive, hchan] using hbalance
  · obtain rfl := Option.some.inj (hchan.symm.trans hc')
    exact hdead

theorem Counted.good (h : s.Counted) {k : CallId} {c : ConnId}
    (hrefconn : s.refconn = .testing k) (hchan : s.client.chan = some c) :
    Counted { s with refconn := .passing k false (some c) } := by
  have halive := h.alive (by simp [hrefconn])
  have hbalance := h.balance
  have hstands := h.stands
  simp only [chan, lent, Stands, hrefconn, halive] at hbalance hstands
  refine ⟨?_, ⟨hstands, fun _ => ⟨hchan.symm, nofun⟩⟩, fun hne => absurd halive hne, h.closed,
    h.started⟩
  simpa [chan, lent, halive, hchan] using hbalance

theorem Counted.dropped (h : s.Counted) {k : CallId} {objs : ConnId → ConnObj}
    (hrefconn : s.refconn = .dropping k) (hgiven : Given s.objs objs s.client.chan) :
    Counted { s with objs := objs, refconn := .connecting k } := by
  have halive := h.alive (by simp [hrefconn])
  have hbalance := h.balance
  have hstands := h.stands
  simp only [chan, lent, Stands, hrefconn, halive] at hbalance hstands
  refine ⟨?_, ⟨hstands.1, fun c hc => ?_⟩, fun hne => absurd halive hne, fun hclosed => ?_,
    h.started⟩
  · simp only [chan, lent, halive]
    refine hbalance.give hgiven hbalance.bounded (fun c => ?_) (fun _ hc => hc)
      (fun _ _ hk => hk) (fun c hc hne => absurd hc hne) fun c hc => .inl ⟨hc, hstands.2 c hc⟩
    simp
  · rw [hgiven.dead]
    exact hstands.2 c hc
  · rw [show s.ending = .closed from hclosed] at halive
    cases halive

theorem Counted.connected (h : s.Counted) {k : CallId} (hrefconn : s.refconn = .connecting k) :
    Counted { s with
      made := s.made + 1
      objs := Function.update s.objs s.made { refno := 1 }
      refconn := .passing k true (some s.made) } := by
  have halive := h.alive (by simp [hrefconn])
  have hbalance := h.balance
  have hstands := h.stands
  simp only [chan, lent, Stands, hrefconn, halive] at hbalance hstands
  refine ⟨?_, ⟨hstands.1, nofun⟩, fun hne => absurd halive hne, fun hclosed => ?_, h.started⟩
  · simpa [chan, lent, halive] using hbalance.make hstands.2
  · rw [show s.ending = .closed from hclosed] at halive
    cases halive

theorem Counted.unreachable (h : s.Counted) {k : CallId}
    (hrefconn : s.refconn = .connecting k) :
    Counted { s with refconn := .passing k true none } := by
  have halive := h.alive (by simp [hrefconn])
  have hbalance := h.balance
  have hstands := h.stands
  simp only [chan, lent, Stands, hrefconn, halive] at hbalance hstands
  refine ⟨?_, ⟨hstands.1, nofun⟩, fun hne => absurd halive hne, h.closed, h.started⟩
  simp only [chan, lent, halive]
  refine hbalance.give (.none _) hbalance.bounded (fun c => ?_) nofun (fun _ _ hk => hk)
    (fun c hc _ => hstands.2 c hc) nofun
  simp
  omega

theorem Counted.gone (h : s.Counted) {k : CallId} {replaced : Bool} {chan : ConnId}
    {objs : ConnId → ConnObj} (hrefconn : s.refconn = .passing k replaced (some chan))
    (hgiven : Given s.objs objs (s.ch k)) :
    Counted { s with objs := objs, refconn := .taking k replaced chan } := by
  have halive := h.alive (by simp [hrefconn])
  have hbalance := h.balance
  have hstands := h.stands
  simp only [Links.chan, lent, Stands, hrefconn, halive] at hbalance hstands
  refine ⟨?_, ⟨hstands.1, fun hkept => (hstands.2 hkept).1.symm⟩,
    fun hne => absurd halive hne, fun hclosed => ?_, h.started⟩
  · simp only [Links.chan, lent, halive]
    refine hbalance.give hgiven hbalance.bounded (fun c => ?_) (fun _ hc => hc)
      (fun _ _ hk => hk) (fun c hc hne => absurd hc hne) fun c hc => .inr ⟨k, ?_⟩
    · simp [ch]
    · rw [holding_eq_ch hstands.1]
      exact hc
  · rw [show s.ending = .closed from hclosed] at halive
    cases halive

/-- What the call has, and what the client uses, when `get_refconn` is over. -/
theorem refconn_cases {k : CallId} {replaced : Bool} {chan : Option ConnId} {client : Client}
    (hkept : replaced = false → s.client.chan = chan ∧ chan ≠ none)
    (hstep : s.client.step (.refconn k replaced chan) = some client) :
    ∃ call, s.client.frames k = some call ∧ call.phase = .transmit ∧ client.chan = chan ∧
      client.holding = Function.update s.client.holding k (chan.or call.ch) ∧
      client.frames = Function.update s.client.frames k
        (some { call with ch := chan.or call.ch, phase := .sending }) := by
  obtain ⟨call, hcall, hphase, rfl⟩ := Client.onCall_eq_some.mp hstep
  have hchan : (if (s.client.chan.isNone || replaced) = true then chan else s.client.chan) =
      chan := by
    cases replaced with
    | true => simp
    | false =>
        obtain ⟨hsame, -⟩ := hkept rfl
        rw [hsame]
        exact ite_self _
  refine ⟨call, hcall, by simpa using hphase, hchan, ?_, ?_⟩
  · rw [Client.getRefconn, hchan, Client.holding_put]
    rfl
  · rw [Client.getRefconn, hchan]
    rfl

/-- A call that has been written has been started before. -/
theorem started_update {calls : List CallId} {before after : CallId → Option Call} {k : CallId}
    {call call' : Call} (hstarted : ∀ k call, before k = some call → k ∈ calls)
    (hcall : before k = some call) (hafter : after = Function.update before k (some call')) :
    ∀ j found, after j = some found → j ∈ calls := by
  intro j found hfound
  rw [hafter] at hfound
  by_cases hj : j = k
  · exact hj ▸ hstarted k call hcall
  · rw [Function.update_of_ne hj] at hfound
    exact hstarted j found hfound

theorem Counted.taken (h : s.Counted) {k : CallId} {replaced : Bool} {chan : ConnId}
    {client : Client} (hrefconn : s.refconn = .taking k replaced chan)
    (hclient : s.client.step (.refconn k replaced (some chan)) = some client) :
    Counted { s with
      client := client
      objs := Function.update s.objs chan (s.objs chan).incref
      refconn := .free } := by
  have halive := h.alive (by simp [hrefconn])
  have hbalance := h.balance
  have hstands := h.stands
  simp only [Links.chan, lent, Stands, hrefconn, halive] at hbalance hstands
  obtain ⟨call, hcall, -, hchan, hholding, hframes⟩ :=
    refconn_cases (fun hkept => ⟨hstands.2 hkept, nofun⟩) hclient
  refine ⟨?_, trivial, fun hne => absurd halive hne, fun hclosed => ?_,
    started_update h.started hcall hframes⟩
  · rw [← holding_eq_ch hstands.1] at hbalance
    simp only [Links.chan, lent, halive, hchan, hholding]
    exact hbalance.take
  · rw [show s.ending = .closed from hclosed] at halive
    cases halive

theorem Counted.skipped (h : s.Counted) {k : CallId} {replaced : Bool} {client : Client}
    (hrefconn : s.refconn = .passing k replaced none)
    (hclient : s.client.step (.refconn k replaced none) = some client) :
    Counted { s with client := client, refconn := .free } := by
  have halive := h.alive (by simp [hrefconn])
  have hbalance := h.balance
  have hstands := h.stands
  simp only [Links.chan, lent, Stands, hrefconn, halive] at hbalance hstands
  obtain ⟨call, hcall, -, hchan, hholding, hframes⟩ :=
    refconn_cases (fun hkept => absurd rfl (hstands.2 hkept).2) hclient
  have hsame : client.holding = s.client.holding := by
    have hch : s.client.holding k = call.ch := by
      rw [holding_eq_ch hstands.1, ch, hcall, Option.bind_some]
    rw [hholding, Option.none_or, ← hch, Function.update_eq_self]
  refine ⟨?_, trivial, fun hne => absurd halive hne, fun hclosed => ?_,
    started_update h.started hcall hframes⟩
  · simpa [Links.chan, lent, halive, hchan, hsame] using hbalance
  · rw [show s.ending = .closed from hclosed] at halive
    cases halive

/-! ## The rest of `call1` -/

/-- The caller of `get_refconn` stays where it is while other sections go on. -/
theorem stands_of_work (hstands : s.Stands) {label : Client.Label} {client : Client}
    (hclient : s.client.step label = some client)
    (hkeeps : ∀ k dead connected, label ≠ .refconn k dead connected) {objs : ConnId → ConnObj}
    (hdead : ∀ c, (objs c).dead = (s.objs c).dead) :
    Stands { s with client := client, objs := objs } ∧
      lent { s with client := client, objs := objs } = s.lent := by
  have hchan : client.chan = s.client.chan := by
    rcases Client.chan_of_step hclient with hsame | ⟨k, dead, connected, heq, -⟩
    · exact hsame
    · exact absurd heq (hkeeps k dead connected)
  have htransmits : ∀ k, s.Transmits k →
      Transmits { s with client := client, objs := objs } k ∧
        ch { s with client := client, objs := objs } k = s.ch k := by
    rintro k ⟨call, hcall, hphase⟩
    obtain ⟨found, hfound, hfoundPhase, hch⟩ :=
      Client.transmits_of_step hclient hkeeps hcall hphase
    exact ⟨⟨found, hfound, hfoundPhase⟩, by simp [ch, hfound, hcall, hch]⟩
  cases hrefconn : s.refconn with
  | free => simp [Stands, lent, hrefconn]
  | testing k =>
      simp only [Stands, lent, hrefconn] at hstands ⊢
      exact ⟨(htransmits k hstands).1, trivial⟩
  | dropping k | connecting k =>
      simp only [Stands, lent, hrefconn, hchan, hdead] at hstands ⊢
      exact ⟨⟨(htransmits k hstands.1).1, hstands.2⟩, trivial⟩
  | passing k replaced chan =>
      simp only [Stands, lent, hrefconn, hchan] at hstands ⊢
      exact ⟨⟨(htransmits k hstands.1).1, hstands.2⟩, trivial⟩
  | taking k replaced chan =>
      simp only [Stands, lent, hrefconn, hchan] at hstands ⊢
      exact ⟨⟨(htransmits k hstands.1).1, hstands.2⟩, (htransmits k hstands.1).2⟩

theorem chan_congr {t : Links} (hending : t.ending = s.ending) (hrefconn : t.refconn = s.refconn)
    (hclient : t.client.chan = s.client.chan) : t.chan = s.chan := by
  rw [chan, chan, hending, hrefconn, hclient]

/-- A section that moves no reference. -/
theorem Counted.worked (h : s.Counted) (halive : s.ending = .alive) {label : Client.Label}
    {client : Client} (hkeeps : Client.keepsRefs label = true)
    (hclient : s.client.step label = some client) {calls : List CallId} (hcalls : s.calls ⊆ calls)
    (hstart : ∀ k proc args, label = .start k proc args → k ∈ calls) :
    Counted { s with client := client, calls := calls } := by
  have hne : ∀ k dead connected, label ≠ .refconn k dead connected := by
    rintro k dead connected rfl
    cases hkeeps
  have hchan : client.chan = s.client.chan := by
    rcases Client.chan_of_step hclient with hsame | ⟨k, dead, connected, heq, -⟩
    · exact hsame
    · exact absurd heq (hne k dead connected)
  obtain ⟨hstands, hlent⟩ := stands_of_work h.stands hclient hne fun _ => rfl
  have hsame : Links.chan { s with client := client, calls := calls } = s.chan :=
    chan_congr rfl rfl hchan
  have hlent' : lent { s with client := client, calls := calls } = s.lent := hlent
  refine ⟨?_, hstands, fun hending => absurd halive hending, fun hclosed => ?_, ?_⟩
  · rw [hsame, hlent']
    simp only [Client.holding_of_step hclient hkeeps]
    exact h.balance
  · rw [show s.ending = .closed from hclosed] at halive
    cases halive
  · intro k found hfound
    rcases Client.frame_of_step hclient hfound with ⟨proc, args, hlabel, _⟩ | ⟨call, hcall, _⟩
    · exact hstart k proc args hlabel
    · exact hcalls (h.started k call hcall)

/-- The reference that is lent is not that of a call outside `get_refconn`. -/
theorem Counted.lent_other (h : s.Counted) {k : CallId} (hk : ¬ s.Transmits k) {c : ConnId}
    (hlent : s.lent = some c) :
    (s.chan = some c ∧ (s.objs c).dead = true) ∨ ∃ j, j ≠ k ∧ s.client.holding j = some c := by
  have hstands := h.stands
  cases hrefconn : s.refconn with
  | free | testing | dropping | passing => simp [lent, hrefconn] at hlent
  | connecting j =>
      have halive := h.alive (by simp [hrefconn])
      simp only [lent, Stands, hrefconn] at hlent hstands
      exact .inl ⟨by simp [chan, halive, hrefconn, hlent], hstands.2 c hlent⟩
  | taking j replaced chan =>
      simp only [lent, Stands, hrefconn] at hlent hstands
      refine .inr ⟨j, ?_, (holding_eq_ch hstands.1).trans hlent⟩
      rintro rfl
      exact hk hstands.1

theorem not_transmits {k : CallId} {call : Call} (hcall : s.client.frames k = some call)
    (hphase : call.phase ≠ .transmit) : ¬ s.Transmits k := by
  rintro ⟨found, hfound, htransmit⟩
  obtain rfl := Option.some.inj (hcall.symm.trans hfound)
  exact hphase htransmit

theorem Counted.finished (h : s.Counted) {k : CallId} {call : Call} {objs : ConnId → ConnObj}
    (halive : s.ending = .alive) (hcall : s.client.frames k = some call)
    (hphase : call.phase = .returning)
    (hclient : s.client.step (.finish k) = some (s.client.put k call.finish))
    (hgiven : Given s.objs objs (s.ch k)) :
    Counted { s with client := s.client.put k call.finish, objs := objs } := by
  obtain ⟨hstands, hlent⟩ := stands_of_work h.stands hclient nofun hgiven.dead
  have hheld : s.client.holding k = s.ch k := by
    simp [Client.holding, ch, hcall, Call.holds, Call.result, hphase]
  have hnone : call.finish.holds = none := by simp [Call.holds, Call.result, Call.finish]
  have hchan : Links.chan { s with client := s.client.put k call.finish, objs := objs } = s.chan :=
    chan_congr rfl rfl rfl
  have hbalance := h.balance
  refine ⟨?_, hstands, fun hending => absurd halive hending, fun hclosed => ?_,
    started_update h.started hcall rfl⟩
  · rw [hchan, hlent]
    simp only [Client.holding_put, hnone]
    refine hbalance.give hgiven (hbalance.bounded.update _ _) (fun c => ?_) (fun _ hc => hc)
      (fun j c hj => ?_) (fun c hc hne => absurd hc hne) fun c hc => ?_
    · have hcount := count_update hbalance.bounded k none c
      rw [hheld, one_none] at hcount
      omega
    · by_cases hjk : j = k
      · subst hjk
        rw [Function.update_self] at hj
        cases hj
      · rwa [Function.update_of_ne hjk] at hj
    · refine (h.lent_other (not_transmits hcall (by simp [hphase])) hc).imp_right ?_
      rintro ⟨j, hjk, hj⟩
      exact ⟨j, (Function.update_of_ne hjk ..).trans hj⟩
  · rw [show s.ending = .closed from hclosed] at halive
    cases halive

/-! ## Deaths, and `~rpcc` -/

theorem Counted.die (h : s.Counted) {c : ConnId} (hc : c < s.made) :
    Counted { s with objs := Function.update s.objs c { s.objs c with dead := true } } := by
  have hdead : ∀ c', (s.objs c').dead = true →
      ((Function.update s.objs c { s.objs c with dead := true }) c').dead = true := by
    intro c' hbefore
    by_cases hcc : c' = c
    · subst hcc
      simp
    · simp [hcc, hbefore]
  refine ⟨h.balance.mark hc, ?_, h.ended, fun hclosed c' hc' => hdead c' (h.closed hclosed c' hc'),
    h.started⟩
  have hstands := h.stands
  cases hrefconn : s.refconn with
  | dropping k | connecting k =>
      simp only [Stands, hrefconn] at hstands ⊢
      exact ⟨hstands.1, fun c' hc' => hdead c' (hstands.2 c' hc')⟩
  | free => trivial
  | testing | passing | taking =>
      simp only [Stands, hrefconn] at hstands ⊢
      exact hstands

/-- When no call is outstanding, no call has a reference. -/
theorem Counted.holding_eq_none (h : s.Counted)
    (hover : ∀ k ∈ s.calls, ∀ call, s.client.frames k = some call → call.result.isSome = true)
    (k : CallId) : s.client.holding k = none := by
  cases hcall : s.client.frames k with
  | none => simp [Client.holding, hcall]
  | some call =>
      have hresult := hover k (h.started k call hcall) call hcall
      simp [Client.holding, hcall, Call.holds, hresult]

theorem Counted.closedEmpty (h : s.Counted) (halive : s.ending = .alive)
    (hfree : s.refconn = .free)
    (hover : ∀ k ∈ s.calls, ∀ call, s.client.frames k = some call → call.result.isSome = true)
    (hchan : s.client.chan = none) : Counted { s with ending := .gone } := by
  have hbalance := h.balance
  simp only [chan, lent, hfree, halive] at hbalance
  refine ⟨?_, by simp [Stands, hfree], fun _ => ⟨hfree, h.holding_eq_none hover⟩, nofun,
    h.started⟩
  simpa [chan, lent, hfree, hchan] using hbalance

theorem Counted.closes (h : s.Counted) {c : ConnId} (halive : s.ending = .alive)
    (hfree : s.refconn = .free)
    (hover : ∀ k ∈ s.calls, ∀ call, s.client.frames k = some call → call.result.isSome = true)
    (hchan : s.client.chan = some c) :
    Counted { s with
      objs := Function.update s.objs c { s.objs c with dead := true }
      ending := .closed } := by
  have hbalance := h.balance
  simp only [chan, lent, hfree, halive] at hbalance
  have hlt : c < s.made := h.balance.slot_lt c (by simp [chan, halive, hfree, hchan])
  refine ⟨?_, by simp [Stands, hfree], fun _ => ⟨hfree, h.holding_eq_none hover⟩,
    fun _ c' hc' => ?_, h.started⟩
  · simpa [chan, lent, hfree] using hbalance.mark hlt
  · obtain rfl := Option.some.inj (hchan.symm.trans hc')
    simp

theorem Counted.discarded (h : s.Counted) {objs : ConnId → ConnObj}
    (hclosed : s.ending = .closed) (hgiven : Given s.objs objs s.client.chan) :
    Counted { s with objs := objs, ending := .gone } := by
  obtain ⟨hfree, hnone⟩ := h.ended (by simp [hclosed])
  have hbalance := h.balance
  simp only [chan, lent, hfree, hclosed] at hbalance
  refine ⟨?_, by simp [Stands, hfree], fun _ => ⟨hfree, hnone⟩, nofun, h.started⟩
  simp only [chan, lent, hfree, if_true]
  refine hbalance.give hgiven hbalance.bounded (fun c => ?_) nofun (fun _ _ hk => hk)
    (fun c hc _ => h.closed hclosed c hc) nofun
  simp [Nat.add_comm]

/-! ## Steps and runs -/

/-- Every step keeps the balance. -/
theorem Counted.step (h : s.Counted) {label : Label} (hstep : s.step label = some s') :
    s'.Counted := by
  cases section_of_step hstep with
  | locked hfree halive hcall hphase => exact h.locked hfree halive ⟨_, hcall, hphase⟩
  | absent hrefconn hchan => exact h.absent hrefconn hchan
  | stale hrefconn hchan hdead => exact h.stale hrefconn hchan hdead
  | good hrefconn hchan => exact h.good hrefconn hchan
  | dropped hrefconn hgiven => exact h.dropped hrefconn hgiven
  | connected hrefconn => exact h.connected hrefconn
  | unreachable hrefconn => exact h.unreachable hrefconn
  | gone hrefconn hgiven => exact h.gone hrefconn hgiven
  | taken hrefconn hclient => exact h.taken hrefconn hclient
  | skipped hrefconn hclient => exact h.skipped hrefconn hclient
  | started halive hclient =>
      refine h.worked halive rfl hclient (List.subset_append_left _ _) ?_
      rintro j _ _ heq
      cases heq
      simp
  | worked halive _ hkeeps hstart hclient =>
      exact h.worked halive hkeeps hclient (List.Subset.refl _)
        fun k proc args heq => absurd heq (hstart k proc args)
  | finished halive hcall hphase hclient hgiven =>
      exact h.finished halive hcall hphase hclient hgiven
  | died hc => exact h.die hc
  | closedEmpty halive hfree hover hchan => exact h.closedEmpty halive hfree hover hchan
  | closed halive hfree hover hchan => exact h.closes halive hfree hover hchan
  | discarded hclosed hgiven => exact h.discarded hclosed hgiven

/-- A step gives back the reference that it says, or marks, makes or takes one. -/
theorem objs_of_step (h : s.Counted) {label : Label} (hstep : s.step label = some s') :
    Given s.objs s'.objs (s.gives label) ∨
      (s.gives label = none ∧ ∀ c, (s'.objs c).deleted = (s.objs c).deleted) := by
  have hsame : ∀ {c : ConnId} {o : ConnObj}, o.deleted = (s.objs c).deleted →
      ∀ c', ((Function.update s.objs c o) c').deleted = (s.objs c').deleted := by
    intro c o hdeleted c'
    by_cases hc : c' = c
    · subst hc
      rw [Function.update_self, hdeleted]
    · rw [Function.update_of_ne hc]
  cases section_of_step hstep with
  | locked | absent | stale | good | unreachable | skipped | started | closedEmpty =>
      exact .inr ⟨rfl, fun _ => rfl⟩
  | @worked outer _ _ _ hlabel =>
      refine .inr ⟨?_, fun _ => rfl⟩
      cases outer with
      | refconn | finish => cases hlabel
      | _ => rfl
  | connected => exact .inr ⟨rfl, hsame (by rw [h.balance.fresh _ le_rfl])⟩
  | taken | died | closed => exact .inr ⟨rfl, hsame rfl⟩
  | dropped hrefconn hgiven =>
      simp only [gives, hrefconn]
      exact .inl hgiven
  | gone hrefconn hgiven =>
      simp only [gives, hrefconn]
      exact .inl hgiven
  | discarded hclosed hgiven =>
      rw [gives, if_pos hclosed]
      exact .inl hgiven
  | @finished k _ _ halive hcall hphase _ hgiven =>
      have hgives : s.gives (.client (.finish k)) = s.ch k := by
        simp [gives, chAt, ch, halive, hcall, hphase]
      rw [hgives]
      exact .inl hgiven

/-! ## Who uses a connection has a reference of it -/

/-- `chan_` has a reference, unless it has been given back. -/
theorem Counted.refno_pos_of_chan (h : s.Counted) {c : ConnId} (hlent : s.lent = none)
    (hchan : s.chan = some c) : 0 < (s.objs c).refno :=
  h.balance.refno_pos_of_slot hchan (by simp [hlent])

/-- A call that has not returned and is not in `get_refconn` has a reference. -/
theorem Counted.refno_pos_of_chAt (h : s.Counted) {k : CallId} {phase : Phase} {c : ConnId}
    (hphase : phase ≠ .transmit) (hworking : ∀ call : Call, call.phase = phase → call.result = none)
    (hch : s.chAt k phase = some c) : 0 < (s.objs c).refno := by
  obtain ⟨-, hcalls⟩ := Option.ite_none_right_eq_some.mp hch
  obtain ⟨call, hcall, hsome⟩ := Option.bind_eq_some_iff.mp hcalls
  obtain ⟨hat, hch⟩ := Option.ite_none_right_eq_some.mp hsome
  have hheld : s.client.holding k = some c := by
    rw [Client.holding, hcall, Option.bind_some, Call.holds_of_phase (hworking call hat), hch]
  refine h.balance.refno_pos_of_holding hheld fun hlent => ?_
  exact (h.lent_other (not_transmits hcall (hat ▸ hphase)) hlent).imp_left And.left

/-- Every connection that a step calls `decref` of has a reference to give back. -/
theorem Counted.refno_pos_of_gives (h : s.Counted) {label : Label} {c : ConnId}
    (hgives : s.gives label = some c) : 0 < (s.objs c).refno := by
  cases label with
  | drop =>
      simp only [gives] at hgives
      split at hgives
      · next k hrefconn =>
          have halive := h.alive (by simp [hrefconn])
          exact h.refno_pos_of_chan (by simp [lent, hrefconn])
            (by simpa [chan, halive, hrefconn] using hgives)
      · cases hgives
  | letGo =>
      simp only [gives] at hgives
      split at hgives
      · next k replaced chan hrefconn =>
          have hstands := h.stands
          simp only [Stands, hrefconn] at hstands
          refine h.balance.refno_pos_of_holding ((holding_eq_ch hstands.1).trans hgives) ?_
          simp [lent, hrefconn]
      · cases hgives
  | client label =>
      cases label with
      | finish k =>
          exact h.refno_pos_of_chAt (by simp) (fun call hat => by simp [Call.result, hat]) hgives
      | _ => cases hgives
  | discard =>
      obtain ⟨hclosed, hchan⟩ := Option.ite_none_right_eq_some.mp hgives
      obtain ⟨hfree, -⟩ := h.ended (by simp [hclosed])
      exact h.refno_pos_of_chan (by simp [lent, hfree])
        (by simpa [chan, hclosed, hfree] using hchan)
  | _ => cases hgives

/-- Every connection that a step calls a method of has a reference. -/
theorem Counted.refno_pos_of_uses (h : s.Counted) {label : Label} {c : ConnId}
    (huses : s.uses label = some c) : 0 < (s.objs c).refno := by
  cases label with
  | test =>
      simp only [uses] at huses
      split at huses
      · next k hrefconn =>
          have halive := h.alive (by simp [hrefconn])
          exact h.refno_pos_of_chan (by simp [lent, hrefconn])
            (by simpa [chan, halive, hrefconn] using huses)
      · cases huses
  | take =>
      simp only [uses] at huses
      split at huses
      · next k replaced n hrefconn =>
          obtain rfl := Option.some.inj huses
          have halive := h.alive (by simp [hrefconn])
          have hstands := h.stands
          simp only [Stands, hrefconn] at hstands
          refine h.balance.refno_pos_of_slot (by simp [chan, halive, hrefconn]) fun hlent => ⟨k, ?_⟩
          simp only [lent, hrefconn] at hlent
          exact (holding_eq_ch hstands.1).trans hlent
      · cases huses
  | close =>
      obtain ⟨hsome, hchan⟩ := Option.ite_none_right_eq_some.mp huses
      obtain ⟨target, hclose⟩ := Option.isSome_iff_exists.mp hsome
      obtain ⟨⟨halive, hfree, -⟩, -⟩ := Option.ite_none_right_eq_some.mp hclose
      exact h.refno_pos_of_chan (by simp [lent, hfree]) (by simpa [chan, halive, hfree] using hchan)
  | client label =>
      cases label with
      | send k last =>
          exact h.refno_pos_of_chAt (by simp) (fun call hat => by simp [Call.result, hat]) huses
      | retry k dead last =>
          obtain ⟨-, hch⟩ := Option.ite_none_right_eq_some.mp huses
          exact h.refno_pos_of_chAt (by simp) (fun call hat => by simp [Call.result, hat]) hch
      | _ =>
          simp only [uses] at huses
          exact h.refno_pos_of_gives huses
  | _ =>
      simp only [uses] at huses
      exact h.refno_pos_of_gives huses

/-! ## Deletions -/

theorem deletions_of_step {log : List ConnId} (h : Deletions s.objs log) (hcounted : s.Counted)
    {label : Label} (hstep : s.step label = some s') :
    Deletions s'.objs (log ++ s.deletes label) :=
  h.record (fun c hdeleted => ((hcounted.balance.deleted_iff c).mp hdeleted).2)
    (objs_of_step hcounted hstep)

theorem counted_of_run {cltNonce : UInt32} {retrans : Bool} {labels : List Label}
    {reached : Links × List ConnId}
    (hrun : (logged cltNonce retrans).Run anyStep labels reached) :
    reached.1.Counted ∧ Deletions reached.1.objs reached.2 := by
  refine hrun.invariant (fun source => source.1.Counted ∧ Deletions source.1.objs source.2)
    ⟨counted_start cltNonce retrans, deletions_start⟩ ?_
  rintro _ source label target _ ⟨hcounted, hlog⟩ _ hstep
  obtain ⟨hnext, heq⟩ := System.recorded_step_eq_some.mp hstep
  rw [heq]
  exact ⟨hcounted.step hnext, deletions_of_step hlog hcounted hnext⟩

/-- The references to the connections of a client, for every run of concurrent calls,
deaths, reconnects that fail or succeed, and a final `~rpcc`: outside `get_refconn` the
count of a connection is one for `chan_` and one for each call that has it in its `ch`,
and inside one of them may have been given back; it is never negative; a deleted
connection is dead and has no references; every connection that a step is about to use
has a reference and has not been deleted, so `decref` always succeeds; no connection is
deleted twice; and when `~rpcc` has returned, every one has been deleted once. -/
theorem clientReferences {cltNonce : UInt32} {retrans : Bool} {labels : List Label}
    {reached : Links × List ConnId}
    (hrun : (logged cltNonce retrans).Run anyStep labels reached) :
    (∀ c, (reached.1.objs c).refno + one reached.1.lent c =
      one reached.1.chan c + count reached.1.client.holding c) ∧
    (reached.1.refconn = .free → ∀ c, (reached.1.objs c).refno =
      one reached.1.chan c + count reached.1.client.holding c) ∧
    (∀ c, 0 ≤ (reached.1.objs c).refno) ∧
    (∀ c, (reached.1.objs c).deleted = true →
      (reached.1.objs c).dead = true ∧ (reached.1.objs c).refno = 0) ∧
    (∀ label c, reached.1.uses label = some c →
      0 < (reached.1.objs c).refno ∧ (reached.1.objs c).deleted = false) ∧
    (∀ c, reached.2.count c ≤ 1) ∧
    (reached.1.ending = .gone → ∀ c, c < reached.1.made → reached.2.count c = 1) := by
  obtain ⟨hcounted, hlog⟩ := counted_of_run hrun
  have hbalance := hcounted.balance
  refine ⟨hbalance.refno_eq, fun hfree c => ?_, hbalance.refno_nonneg, fun c hdeleted => ?_,
    fun label c huses => ?_, List.nodup_iff_count_le_one.mp hlog.nodup, fun hgone c hc => ?_⟩
  · have hrefno := hbalance.refno_eq c
    rw [lent, hfree, one_none] at hrefno
    simpa using hrefno
  · obtain ⟨hlt, hzero⟩ := (hbalance.deleted_iff c).mp hdeleted
    exact ⟨dead_of_refno_eq_zero (hbalance.refno_eq c) (hbalance.retired c hlt)
      (hbalance.lent_cases c) hbalance.bounded hzero, hzero⟩
  · have hpos := hcounted.refno_pos_of_uses huses
    exact ⟨hpos, hbalance.not_deleted hpos⟩
  · obtain ⟨hfree, hnone⟩ := hcounted.ended (by simp [hgone])
    have hrefno := hbalance.refno_eq c
    rw [lent, hfree, chan, if_pos hgone, count_eq_zero (by simp [hnone])] at hrefno
    simp only [one_none] at hrefno
    refine List.count_eq_one_of_mem hlog.nodup ((hlog.mem_iff c).mpr ?_)
    exact (hbalance.deleted_iff c).mpr ⟨hc, by simpa using hrefno⟩

/-- Two calls of `bind`. The connection of the first one dies. The second one cannot
connect, and goes on without a connection; then the first one connects, and the second
one uses the new connection too. Both time out, and the client is destroyed. -/
def reconnectRun : List Label :=
  [.client (.start 0 1 []), .lock 0, .test, .connect true, .letGo, .take,
    .client (.send 0 false), .die 0, .client (.expire 0), .client (.retry 0 true false),
    .client (.start 1 1 []), .lock 1, .test, .drop, .connect false, .skip,
    .client (.send 1 true), .lock 0, .test, .connect true, .letGo, .take,
    .client (.send 0 true), .client (.expire 0), .client (.retry 0 false true),
    .client (.erase 0), .client (.finish 0), .client (.expire 1),
    .client (.retry 1 false true), .lock 1, .test, .letGo, .take, .client (.send 1 true),
    .client (.erase 1), .client (.finish 1), .close, .discard]

theorem clientReferences_reconnect :
    ∃ reached, (logged 1 true).Run anyStep reconnectRun reached ∧ reached.1.ending = .gone ∧
      reached.1.made = 2 ∧ reached.2.count 0 = 1 ∧ reached.2.count 1 = 1 := by
  have hexec : ((logged 1 true).exec (logged 1 true).init reconnectRun).any (fun reached =>
      reached.1.ending == .gone && reached.1.made == 2) = true := by
    decide +kernel
  obtain ⟨reached, hrun, hreached⟩ := System.exists_run_of_exec hexec
  simp only [Bool.and_eq_true, beq_iff_eq] at hreached
  obtain ⟨hgone, hmade⟩ := hreached
  have hdeleted := (clientReferences hrun).2.2.2.2.2.2 hgone
  exact ⟨reached, hrun, hgone, hmade, hdeleted 0 (by omega), hdeleted 1 (by omega)⟩

end Links

end YfsLab.Rpc
