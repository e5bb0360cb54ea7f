/-
# The calls of the lock tester

A thread waits for its call, and then goes on only if it has returned `OK`. So the requests
that have not been answered are those of the calls that the threads are in, each of them
that of one thread, also where several threads call through one client.
-/

import YfsLab.Lock.Effects
import YfsLab.Lock.Tester

namespace YfsLab.Lock.Tester

open BigEndian Rpc Transition Wire

variable {nt : ℕ} {nonce : ClientId → UInt32} {srvNonce : UInt32} {s target : Tester}
  {label : Label} {t : ℕ}

/-! ## The calls that threads are in -/

/-- What the next call of a thread is. -/
theorem Caller.next_spec {c : Caller} {k : CallId} {proc : Int32} {lid : LockId}
    {stage : Stage} (hnext : c.next k = some (proc, lid, stage)) :
    c.rounds.head? = some lid ∧ stage.call = some (k, proc) ∧
      ((c.stage = .resting ∧ proc = LockProtocol.acquire ∧ stage = .acquiring k) ∨
        (c.stage = .checked ∧ proc = LockProtocol.release ∧ stage = .releasing k)) := by
  unfold next at hnext
  split at hnext
  · next hstage hrounds =>
      cases hnext
      exact ⟨by rw [hrounds, List.head?_cons], rfl, .inl ⟨hstage, rfl, rfl⟩⟩
  · next hstage hrounds =>
      cases hnext
      exact ⟨by rw [hrounds, List.head?_cons], rfl, .inr ⟨hstage, rfl, rfl⟩⟩
  · cases hnext

/-- A thread that calls next is not in a call yet. -/
theorem Caller.call_eq_none_of_next {c : Caller} {k : CallId} {next : Int32 × LockId × Stage}
    (hnext : c.next k = some next) : c.stage.call = none := by
  obtain ⟨-, -, ⟨hstage, -⟩ | ⟨hstage, -⟩⟩ := Caller.next_spec hnext
  · rw [hstage]
    rfl
  · rw [hstage]
    rfl

theorem Caller.rounds_ne_nil_of_next {c : Caller} {k : CallId} {proc : Int32} {lid : LockId}
    {stage : Stage} (hnext : c.next k = some (proc, lid, stage)) : c.rounds ≠ [] := by
  intro hnil
  have hlid := (Caller.next_spec hnext).1
  rw [hnil] at hlid
  cases hlid

@[simp]
theorem goOn_callers_self (s : Tester) (t : ℕ) (c : Caller) : (s.goOn t c).callers t = c :=
  Function.update_self ..

theorem goOn_callers_of_ne (s : Tester) {t other : ℕ} (c : Caller) (hne : other ≠ t) :
    (s.goOn t c).callers other = s.callers other :=
  Function.update_of_ne hne ..

/-- What holds of a thread that has gone on, and of each other one, holds of all of them. -/
theorem forall_callers_goOn {p : ℕ → Caller → Prop} {c : Caller} (hself : p t c)
    (hothers : ∀ other ≠ t, p other (s.callers other)) :
    ∀ other, p other ((s.goOn t c).callers other) :=
  (Function.forall_update_iff s.callers p).mpr ⟨hself, hothers⟩

/-- The threads and the requests. Each request is that of a client and begins a round or
ends one, each thread is in one call at most, no two of them are in the same one, and a
request that has not been answered is that of a thread's call. -/
structure Calls (nt : ℕ) (s : Tester) : Prop where
  made : s.made ≤ nt
  binding : ∀ k, s.binding = some k → s.made < nt
  programs : ∀ test ∈ s.tests, ∀ p ∈ test, p.lc < nt
  client : ∀ t, (s.callers t).rounds ≠ [] → (s.callers t).lc < s.made
  idle : ∀ t, s.active ≤ t → (s.callers t).Done
  rounds : ∀ t, (s.callers t).rounds = [] → (s.callers t).stage = .resting
  issued : ∀ i k request, .issued i k request ∈ s.world.2 → i < nt ∧ FromClient request
  begun : ∀ i k request, .issued i k request ∈ s.world.2 →
    request.proc = RpcConst.bind ∨ replied s.world request = true ∨
      ∃ t, (s.callers t).lc = i ∧ (s.callers t).stage.call = some (k, request.proc)
  current : ∀ t k proc, (s.callers t).stage.call = some (k, proc) →
    ∃ lid request, (s.callers t).rounds.head? = some lid ∧
      .issued (s.callers t).lc k request ∈ s.world.2 ∧ isCall proc lid request = true
  sole : ∀ t other k proc proc', (s.callers t).stage.call = some (k, proc) →
    (s.callers other).stage.call = some (k, proc') →
    (s.callers t).lc = (s.callers other).lc → t = other

theorem calls_init {setup : Setup State} {tests : List Test}
    (hprograms : ∀ test ∈ tests, ∀ p ∈ test, p.lc < nt) :
    Calls nt (system setup nt tests).init where
  made := Nat.zero_le nt
  binding _ hbinding := by cases hbinding
  programs := hprograms
  client _ hrounds := absurd rfl hrounds
  idle _ _ := ⟨rfl, rfl⟩
  rounds _ _ := rfl
  issued _ _ _ hmem := by cases hmem
  begun _ _ _ hmem := by cases hmem
  current _ _ _ hcall := by cases hcall
  sole _ _ _ _ _ hcall := by cases hcall

/-- A thread that has not returned is one of the test. -/
theorem Calls.lt_of_not_done (h : Calls nt s) (hbusy : ¬(s.callers t).Done) : t < s.active := by
  by_contra hbeyond
  exact hbusy (h.idle t (Nat.le_of_not_lt hbeyond))

/-- When the threads of a test have returned, all threads have. -/
theorem Calls.done (h : Calls nt s) (hdone : ∀ t < s.active, (s.callers t).Done) (t : ℕ) :
    (s.callers t).Done := by
  by_cases ht : t < s.active
  · exact hdone t ht
  · exact h.idle t (Nat.le_of_not_lt ht)

/-- The request of the call that a thread is in. -/
theorem Calls.request (h : Calls nt s) (hestablished : Established nonce s.world) {k : CallId}
    {proc : Int32} (hcall : (s.callers t).stage.call = some (k, proc)) {request : Request}
    (hissued : .issued (s.callers t).lc k request ∈ s.world.2) :
    ∃ lid, (s.callers t).rounds.head? = some lid ∧ isCall proc lid request = true := by
  obtain ⟨lid, found, hlid, hfound, hisCall⟩ := h.current t k proc hcall
  obtain ⟨call, hframe, hrequest⟩ := hestablished.frame _ k request hissued
  obtain ⟨other, hother, hsame⟩ := hestablished.frame _ k found hfound
  obtain rfl := Option.some.inj (hframe.symm.trans hother)
  obtain rfl : request = found := hrequest.symm.trans hsame
  exact ⟨lid, hlid, hisCall⟩

/-- The system goes on, and at most calls `bind`. -/
theorem Calls.world (h : Calls nt s) {setup : Setup State} {part : Net.Label}
    {world : Net State × List Net.Event}
    (hstep : (Net.logged setup).step s.world part = some world)
    (hnew : ∀ i k request, .issued i k request ∈ world.2 →
      .issued i k request ∈ s.world.2 ∨
        (i < nt ∧ request.proc = RpcConst.bind ∧ request.args = be32 0)) :
    Calls nt { s with world } := by
  refine { h with issued := ?_, begun := ?_, current := ?_ }
  · intro i k request hmem
    rcases hnew i k request hmem with hold | ⟨hi, hbind⟩
    · exact h.issued i k request hold
    · exact ⟨hi, .inl hbind⟩
  · intro i k request hmem
    rcases hnew i k request hmem with hold | ⟨-, hbind, -⟩
    · exact (h.begun i k request hold).imp_right (Or.imp_left (replied_of_step hstep))
    · exact .inl hbind
  · intro t k proc hcall
    obtain ⟨lid, request, hlid, hissued, hisCall⟩ := h.current t k proc hcall
    exact ⟨lid, request, hlid, subset_of_step hstep hissued, hisCall⟩

/-- A thread goes on that is in no call any more. -/
theorem Calls.goOn (h : Calls nt s) {c : Caller} (hbusy : ¬(s.callers t).Done)
    (hlc : c.lc = (s.callers t).lc) (hless : c.rounds ≠ [] → (s.callers t).rounds ≠ [])
    (hrounds : c.rounds = [] → c.stage = .resting) (hcall : c.stage.call = none)
    (hreplied : ∀ k proc request, (s.callers t).stage.call = some (k, proc) →
      .issued (s.callers t).lc k request ∈ s.world.2 → replied s.world request = true) :
    Calls nt (s.goOn t c) := by
  have hactive := h.lt_of_not_done hbusy
  -- a call of a thread after the step is that of another thread
  have hcalls : ∀ {other k proc}, ((s.goOn t c).callers other).stage.call = some (k, proc) →
      (s.goOn t c).callers other = s.callers other := by
    intro other k proc hother
    by_cases heq : other = t
    · rw [heq, goOn_callers_self, hcall] at hother
      cases hother
    · exact s.goOn_callers_of_ne c heq
  refine { h with client := ?_, idle := ?_, rounds := ?_, begun := ?_, current := ?_, sole := ?_ }
  · apply forall_callers_goOn (p := fun _ c => c.rounds ≠ [] → c.lc < s.made)
    · exact fun hleft => hlc ▸ h.client t (hless hleft)
    · exact fun other _ => h.client other
  · apply forall_callers_goOn (p := fun other c => s.active ≤ other → c.Done)
    · exact fun hbeyond => absurd hactive (Nat.not_lt_of_le hbeyond)
    · exact fun other _ => h.idle other
  · apply forall_callers_goOn (p := fun _ c => c.rounds = [] → c.stage = .resting) hrounds
    exact fun other _ => h.rounds other
  · intro i k request hmem
    rcases h.begun i k request hmem with hbind | hdone | ⟨other, hother, hcalling⟩
    · exact .inl hbind
    · exact .inr (.inl hdone)
    · by_cases heq : other = t
      · subst heq
        exact .inr (.inl (hreplied k _ request hcalling (hother ▸ hmem)))
      · refine .inr (.inr ⟨other, ?_⟩)
        rw [s.goOn_callers_of_ne c heq]
        exact ⟨hother, hcalling⟩
  · intro other k proc hother
    have hsame := hcalls hother
    rw [hsame] at hother ⊢
    exact h.current other k proc hother
  · intro first second k proc proc' hfirst hsecond hclient
    have hsameFirst := hcalls hfirst
    have hsameSecond := hcalls hsecond
    rw [hsameFirst] at hfirst hclient
    rw [hsameSecond] at hsecond hclient
    exact h.sole first second k proc proc' hfirst hsecond hclient

/-- A thread calls `acquire` or `release`. -/
theorem Calls.call (h : Calls nt s) (hestablished : Established nonce s.world)
    {setup : Setup State} {k : CallId} {proc : Int32} {lid : LockId} {stage : Stage}
    {world : Net State × List Net.Event}
    (hnext : (s.callers t).next k = some (proc, lid, stage))
    (hstep : (Net.logged setup).step s.world
      (.start (s.callers t).lc k proc (lockArgs (s.client t).cltNonce lid)) = some world)
    (hrefuses : (s.client t).refuses proc = false) :
    Calls nt ({ s with world }.goOn t { s.callers t with stage }) := by
  obtain ⟨hlid, hcall, hstage⟩ := Caller.next_spec hnext
  have hnone := Caller.call_eq_none_of_next hnext
  have hrounds := Caller.rounds_ne_nil_of_next hnext
  have hactive : t < s.active := h.lt_of_not_done fun hdone => hrounds hdone.2
  obtain ⟨-, hlog⟩ := System.recorded_step_eq_some.mp hstep
  have hissued := issued_of_start hstep hrefuses
  have hisCall := isCall_request (s.client t) proc lid
  have hfrom : FromClient ((s.client t).request proc (lockArgs (s.client t).cltNonce lid)) := by
    rcases hstage with ⟨-, rfl, -⟩ | ⟨-, rfl, -⟩
    · exact .inr ⟨lid, .inl hisCall⟩
    · exact .inr ⟨lid, .inr hisCall⟩
  -- the other threads are in calls with other numbers
  have hfresh : ∀ other proc', (s.callers other).stage.call = some (k, proc') →
      (s.callers other).lc ≠ (s.callers t).lc := by
    intro other proc' hother hclient
    obtain ⟨_, request, -, hmem, -⟩ := h.current other k proc' hother
    obtain ⟨call, hframe, -⟩ := hestablished.frame _ k request hmem
    rw [hclient, frames_of_start hstep] at hframe
    cases hframe
  have hkept : ∀ {other}, other ≠ t →
      ({ s with world }.goOn t { s.callers t with stage }).callers other = s.callers other :=
    fun hne => goOn_callers_of_ne { s with world } _ hne
  refine { h with client := ?_, idle := ?_, rounds := ?_, issued := ?_, begun := ?_,
                  current := ?_, sole := ?_ }
  · apply forall_callers_goOn (p := fun _ c => c.rounds ≠ [] → c.lc < s.made)
    · exact fun _ => h.client t hrounds
    · exact fun other _ => h.client other
  · apply forall_callers_goOn (p := fun other c => s.active ≤ other → c.Done)
    · exact fun hbeyond => absurd hactive (Nat.not_lt_of_le hbeyond)
    · exact fun other _ => h.idle other
  · apply forall_callers_goOn (p := fun _ c => c.rounds = [] → c.stage = .resting)
    · exact fun hnil => absurd hnil hrounds
    · exact fun other _ => h.rounds other
  · intro i l request hmem
    rcases Net.issued_of_step hlog hmem with hold | ⟨_, _, hlabel, -, rfl⟩
    · exact h.issued i l request hold
    · cases hlabel
      exact ⟨(h.client t hrounds).trans_le h.made, hfrom⟩
  · intro i l request hmem
    rcases Net.issued_of_step hlog hmem with hold | ⟨_, _, hlabel, -, rfl⟩
    · rcases h.begun i l request hold with hbind | hdone | ⟨other, hother, hcalling⟩
      · exact .inl hbind
      · exact .inr (.inl (replied_of_step hstep hdone))
      · refine .inr (.inr ⟨other, ?_⟩)
        have heq : other ≠ t := by
          rintro rfl
          rw [hnone] at hcalling
          cases hcalling
        rw [hkept heq]
        exact ⟨hother, hcalling⟩
    · cases hlabel
      refine .inr (.inr ⟨t, ?_⟩)
      rw [goOn_callers_self]
      exact ⟨rfl, hcall⟩
  · apply forall_callers_goOn (p := fun _ c => ∀ l proc', c.stage.call = some (l, proc') →
      ∃ lid request, c.rounds.head? = some lid ∧ .issued c.lc l request ∈ world.2 ∧
        isCall proc' lid request = true)
    · intro l proc' hother
      cases hcall.symm.trans hother
      exact ⟨lid, _, hlid, hissued, hisCall⟩
    · intro other _ l proc' hother
      obtain ⟨found, request, hfound, hmem, hits⟩ := h.current other l proc' hother
      exact ⟨found, request, hfound, subset_of_step hstep hmem, hits⟩
  · intro first second l p p' hfirst hsecond hclient
    by_cases heq : first = t
    · by_cases heq' : second = t
      · rw [heq, heq']
      · subst heq
        rw [goOn_callers_self, hcall] at hfirst
        rw [hkept heq'] at hsecond hclient
        rw [goOn_callers_self] at hclient
        cases hfirst
        exact absurd hclient.symm (hfresh second p' hsecond)
    · rw [hkept heq] at hfirst hclient
      by_cases heq' : second = t
      · subst heq'
        rw [goOn_callers_self] at hsecond hclient
        rw [hcall] at hsecond
        cases hsecond
        exact absurd hclient (hfresh first p hfirst)
      · rw [hkept heq'] at hsecond hclient
        exact h.sole first second l p p' hfirst hsecond hclient

theorem Calls.exit (h : Calls nt s) (reason : Exit) : Calls nt (s.exit reason) := { h with }

/-- A thread counts or uncounts that it holds its lock. -/
theorem Calls.counted (h : Calls nt s) {stage : Stage} (hstage : (s.callers t).stage ≠ .resting)
    (hbefore : (s.callers t).stage.call = none) (hafter : stage.call = none) (reason : Exit)
    (result : Option (UInt8 → Int32)) : Calls nt (s.counted t stage reason result) := by
  cases result with
  | none => exact h.exit reason
  | some ct =>
      have hon : Calls nt (s.goOn t { s.callers t with stage }) := by
        apply h.goOn (c := { s.callers t with stage }) (fun hdone => hstage hdone.1) rfl
          (fun hrounds => hrounds) _ hafter
        · intro k proc request hcall
          rw [hbefore] at hcall
          cases hcall
        · exact fun hnil => absurd (h.rounds t hnil) hstage
      exact { hon with }

/-- The threads of the next test have not called anything yet. -/
theorem Calls.spawn (h : Calls nt s) {test : Test} {tests : List Test}
    (htests : s.tests = test :: tests) (hmade : s.made = nt)
    (hdone : ∀ t < s.active, (s.callers t).Done) : Calls nt (s.start test tests) := by
  have hstage : ∀ t, ((s.start test tests).callers t).stage = .resting := by
    intro t
    simp only [start]
    cases test[t]? <;> rfl
  have hnone : ∀ t, ((s.start test tests).callers t).stage.call = none := by
    intro t
    rw [hstage]
    rfl
  refine { h with programs := ?_, client := ?_, idle := ?_, rounds := fun t _ => hstage t,
                  begun := ?_, current := ?_, sole := ?_ }
  · intro later hlater
    apply h.programs later
    rw [htests]
    exact List.mem_cons_of_mem test hlater
  · intro t hrounds
    cases hprogram : test[t]? with
    | none => simp [start, Caller.create, hprogram] at hrounds
    | some p =>
        have hp := h.programs test (by rw [htests]; exact List.mem_cons_self) p
          (List.mem_of_getElem? hprogram)
        simpa [start, Caller.create, hprogram, hmade] using hp
  · intro t ht
    have hnothing : test[t]? = none := List.getElem?_eq_none ht
    simp [start, Caller.create, hnothing, Caller.Done]
  · intro i k request hmem
    rcases h.begun i k request hmem with hbind | hreplied | ⟨t, -, hcall⟩
    · exact .inl hbind
    · exact .inr (.inl hreplied)
    · rw [(h.done hdone t).1] at hcall
      cases hcall
  · intro t k proc hcall
    rw [hnone] at hcall
    cases hcall
  · intro t other k proc proc' hcall
    rw [hnone] at hcall
    cases hcall

/-- Where a thread is when its call has returned `OK`. -/
theorem Caller.back_spec {c : Caller} {k : CallId} {proc : Int32}
    (hcall : c.stage.call = some (k, proc)) :
    (c.stage = .acquiring k ∧ c.back = { c with stage := .granted }) ∨
      (c.stage = .releasing k ∧
        c.back = { c with stage := .resting, rounds := c.rounds.tail }) := by
  cases hstage : c.stage with
  | acquiring l =>
      rw [hstage] at hcall
      cases hcall
      exact .inl ⟨rfl, by simp [Caller.back, hstage]⟩
  | releasing l =>
      rw [hstage] at hcall
      cases hcall
      exact .inr ⟨rfl, by simp [Caller.back, hstage]⟩
  | resting | granted | holding | checked =>
      rw [hstage] at hcall
      cases hcall

/-- A thread's call has returned `OK`. -/
theorem Calls.back (h : Calls nt s) (hestablished : Established nonce s.world) {k : CallId}
    {proc : Int32} {call : Call} {ret : Int32} {res : Int32 × Int32}
    (hcall : (s.callers t).stage.call = some (k, proc)) (hframe : s.frame t k = some call)
    (hret : call.result = some ret)
    (hres : callM .lp64 .int ret call.un (0 : Int32) = some res) (hok : res.1 = 0) :
    Calls nt (s.goOn t (s.callers t).back) := by
  have hreplied : ∀ l proc' request, (s.callers t).stage.call = some (l, proc') →
      .issued (s.callers t).lc l request ∈ s.world.2 → replied s.world request = true := by
    intro l proc' request hsame hissued
    rw [hcall, Option.some.injEq, Prod.mk.injEq] at hsame
    obtain ⟨found, hfound, rfl⟩ := hestablished.frame _ l request hissued
    rw [← hsame.1, show (s.world.1.clients (s.callers t).lc).frames k = some call from hframe,
      Option.some.injEq] at hfound
    rw [← hfound]
    exact replied_of_ok hestablished hframe hret hres hok
  have hbusy : (s.callers t).stage ≠ .resting := by
    intro hresting
    rw [hresting] at hcall
    cases hcall
  rcases Caller.back_spec hcall with ⟨-, hback⟩ | ⟨-, hback⟩
  · rw [hback]
    apply h.goOn (c := { s.callers t with stage := .granted }) (fun hdone => hbusy hdone.1) rfl
      (fun hrounds => hrounds) _ rfl hreplied
    exact fun hnil => absurd (h.rounds t hnil) hbusy
  · rw [hback]
    apply h.goOn (c := { s.callers t with stage := .resting, rounds := (s.callers t).rounds.tail })
      (fun hdone => hbusy hdone.1) rfl _ (fun _ => rfl) rfl hreplied
    intro htail hnil
    rw [hnil] at htail
    exact htail rfl

theorem Calls.step (h : Calls nt s) (hestablished : Established nonce s.world)
    {setup : Setup State} (hmoves : Moves setup nt s label target) : Calls nt target := by
  -- a step that begins no call of a thread
  have hold : ∀ {part world}, (Net.logged setup).step s.world part = some world →
      ∀ i k request, .issued i k request ∈ world.2 → .issued i k request ∈ s.world.2 ∨
        ∃ proc args, part = .start i k proc args ∧ (s.world.1.clients i).refuses proc = false ∧
          request = (s.world.1.clients i).request proc args :=
    fun hstep i k request hmem =>
      Net.issued_of_step (System.recorded_step_eq_some.mp hstep).2 hmem
  cases hmoves with
  | world hstarts hstep =>
      apply h.world hstep
      intro i k request hmem
      rcases hold hstep i k request hmem with hbefore | ⟨_, _, rfl, -⟩
      · exact .inl hbefore
      · cases hstarts
  | construct hmade hfree hstep =>
      have hworld := h.world hstep (fun i k request hmem => by
        rcases hold hstep i k request hmem with hbefore | ⟨proc, args, hlabel, -, rfl⟩
        · exact .inl hbefore
        · cases hlabel
          exact .inr ⟨hmade, by simp [Client.request, Request.proc], rfl⟩)
      exact { hworld with binding := fun _ _ => hmade }
  | constructed hbinding hframe hphase =>
      refine { h with made := h.binding _ hbinding, binding := fun _ hsome => ?_,
                      client := fun t hrounds => Nat.lt_succ_of_lt (h.client t hrounds) }
      cases hsome
  | spawn htests hmade hdone => exact h.spawn htests hmade hdone
  | call hnext hstep hrefuses => exact h.call hestablished hnext hstep hrefuses
  | refused hnext hstep hrefuses =>
      have hworld := h.world hstep (fun i k request hmem => by
        rcases hold hstep i k request hmem with hbefore | ⟨_, _, hlabel, hnot, -⟩
        · exact .inl hbefore
        · cases hlabel
          cases hrefuses.symm.trans hnot)
      exact hworld.exit _
  | back hcall hframe hret hres hok => exact h.back hestablished hcall hframe hret hres hok
  | failed => exact h.exit _
  | count hstage hrounds =>
      exact h.counted (by rw [hstage]; simp) (by rw [hstage]; rfl) rfl _ _
  | uncount hstage hrounds =>
      exact h.counted (by rw [hstage]; simp) (by rw [hstage]; rfl) rfl _ _

/-! ## Runs in which the xids do not go around -/

/-- No client has made 2^32 calls. -/
def Few (s : Tester) : Prop := ∀ i, (Net.callsOf i s.world.2).length < 2 ^ 32

theorem Few.of_step {setup : Setup State} (hcalm : calm s label = true)
    (hmoves : Moves setup nt s label target) (hfew : Few target) : Few s := by
  intro i
  have hbound := hfew i
  rcases hmoves.world_step hcalm with hsame | ⟨part, -, hstep⟩
  · rwa [hsame] at hbound
  · obtain ⟨-, hlog⟩ := System.recorded_step_eq_some.mp hstep
    rw [hlog, Net.callsOf_append, List.length_append] at hbound
    omega

/-- The invariant rule for runs in which the clients make few calls. -/
theorem invariant_of_few {setup : Setup State} {tests : List Test} (inv : Tester → Prop)
    (hinit : inv (system setup nt tests).init)
    (hstep : ∀ {labels s label target},
      (system setup nt tests).Run (fun s label => calm s label = true) labels s → Few s →
      (system setup nt tests).Run (fun s label => calm s label = true) (labels ++ [label]) target →
      Few target → calm s label = true → Moves setup nt s label target → inv s → inv target)
    {labels : List Label}
    (hrun : (system setup nt tests).Run (fun s label => calm s label = true) labels s)
    (hfew : Few s) : inv s := by
  refine hrun.invariant (fun s => Few s → inv s) (fun _ => hinit) ?_ hfew
  intro labels source label target hprior h hguard hnext hfew
  have hmoves := moves_of_step hnext
  have hbefore := hfew.of_step hguard hmoves
  exact hstep hprior hbefore (hprior.snoc hguard hnext) hfew hguard hmoves (h hbefore)

/-- The clients of the tester have nonces of their own. -/
theorem Calls.fits (h : Calls nt s) (hinj : ∀ i < nt, ∀ j < nt, nonce i = nonce j → i = j)
    (hfew : Few s) : Fits nonce s.world.2 where
  own i k request j l other hi hj :=
    hinj i (h.issued i k request hi).1 j (h.issued j l other hj).1
  few := hfew

/-- What the runs of the tester keep. -/
theorem calls_of_run {tests : List Test}
    (hinj : ∀ i < nt, ∀ j < nt, nonce i = nonce j → i = j)
    (hprograms : ∀ test ∈ tests, ∀ p ∈ test, p.lc < nt) {labels : List Label}
    (hrun : (system (lockSetup nonce srvNonce) nt tests).Run
      (fun s label => calm s label = true) labels s) (hfew : Few s) :
    Calls nt s ∧ Established nonce s.world := by
  have hestablished : ∀ {labels s}, (system (lockSetup nonce srvNonce) nt tests).Run
      (fun s label => calm s label = true) labels s → Few s → Calls nt s →
      Established nonce s.world := by
    intro labels s hrun hfew hcalls
    obtain ⟨_, hworld⟩ := world_of_run hrun
    exact established_of_run hworld (hcalls.fits hinj hfew)
  have hcalls : Calls nt s := by
    apply invariant_of_few (Calls nt) (calls_init hprograms) _ hrun hfew
    intro labels s label target hprior hbefore _ _ _ hmoves h
    exact h.step (hestablished hprior hbefore h) hmoves
  exact ⟨hcalls, hestablished hrun hfew hcalls⟩

end YfsLab.Lock.Tester
