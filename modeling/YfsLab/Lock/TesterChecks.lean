/-
# The checks of the lock tester

The ledger of the lock server records which thread of the tester has which lock, also where
several threads call through one client: a thread has its lock from the answer to its
`acquire` to the answer to its `release`. No two threads have the same one, so `check_grant`
finds a zero and `check_release` a one, as long as different locks have different first
bytes.

What is left is a call that times out. Then `lock_client` exits, and the tester has no
other way to exit before its end.
-/

import YfsLab.Lock.TesterCalls

namespace YfsLab.Lock.Tester

open BigEndian Ownership Rpc Transition Wire

variable {nt : ℕ} {nonce : ClientId → UInt32} {srvNonce : UInt32} {s target : Tester}
  {label : Label} {t : ℕ}

/-! ## Time-outs -/

theorem timedOut_of_moves {setup : Setup State} (h : TimedOut s.world)
    (hcalm : calm s label = true) (hmoves : Moves setup nt s label target) :
    TimedOut target.world := by
  rcases hmoves.world_step hcalm with hsame | ⟨part, -, hstep⟩
  · rwa [hsame]
  · exact h.step hstep

/-! ## Clients that are bound -/

/-- The clients that the tester has made are bound, unless a call has timed out. -/
structure Bound (s : Tester) : Prop where
  phase : ∀ i k call ret, (s.world.1.clients i).frames k = some call →
    call.phase = .bound ret → BoundOr s.world i
  made : ∀ i < s.made, BoundOr s.world i

theorem Bound.step {setup : Setup State} (h : Bound s) (hcalls : Calls nt s)
    (hestablished : Established nonce s.world) (hcalm : calm s label = true)
    (hmoves : Moves setup nt s label target) : Bound target := by
  have hphase : ∀ i k call ret, (target.world.1.clients i).frames k = some call →
      call.phase = .bound ret → BoundOr target.world i := by
    rcases hmoves.world_step hcalm with hsame | ⟨part, -, hstep⟩
    · rw [hsame]
      exact h.phase
    · intro i k found ret hfound hbound
      have hfrom := fun i k request hmem => (hcalls.issued i k request hmem).2
      exact boundOr_of_step hestablished hfrom h.phase hstep hfound hbound
  have hmade : ∀ i < s.made, BoundOr target.world i := by
    rcases hmoves.world_step hcalm with hsame | ⟨part, -, hstep⟩
    · rw [hsame]
      exact h.made
    · exact fun i hi => (h.made i hi).step hstep
  refine ⟨hphase, ?_⟩
  cases hmoves with
  | constructed hbinding hframe hreturned =>
      intro i hi
      rcases Nat.lt_succ_iff_lt_or_eq.mp hi with hold | rfl
      · exact h.made i hold
      · exact h.phase s.made _ _ _ hframe hreturned
  | count =>
      revert hmade
      cases checkGrant s.ct _ <;> exact id
  | uncount =>
      revert hmade
      cases checkRelease s.ct _ <;> exact id
  | world | construct | spawn | call | refused | back | failed => exact hmade

/-! ## Which thread has which lock -/

/-- The lock that a thread has, given whether its current call has been answered. -/
def Caller.owns (c : Caller) (answered : Bool) : Option LockId :=
  match c.stage, answered with
  | .acquiring _, true | .granted, _ | .holding, _ | .checked, _ | .releasing _, false =>
      c.rounds.head?
  | _, _ => none

/-- Has the call that a thread is in been answered? -/
def hasReply (s : Tester) (t : ℕ) : Bool :=
  (s.callers t).stage.call.any fun (k, _) =>
    (s.frame t k).any fun call => replied s.world call.request

/-- The locks of the threads. -/
def owns (s : Tester) (t : ℕ) : Option LockId := (s.callers t).owns (s.hasReply t)

/-- The name that the lock server knows a thread by, which is that of its client. -/
def name (nonce : ClientId → UInt32) (s : Tester) (t : ℕ) : Int32 :=
  (nonce (s.callers t).lc).toInt32

/-- The lock server's ledger records the locks of the threads, and its methods have
returned nothing but `OK`. -/
structure Recorded (nonce : ClientId → UInt32) (s : Tester) : Prop where
  ledger : Records (ledger s.world.1.server) (name nonce s) s.owns
  replies : ∀ d request pdu, .produced d request pdu ∈ Net.serverHistory s.world.2 →
    request.proc ≠ RpcConst.bind → ∃ r, Server.Tells request (answer .ok r) pdu

theorem hasReply_eq (hestablished : Established nonce s.world) {k : CallId} {proc : Int32}
    (hcall : (s.callers t).stage.call = some (k, proc)) {request : Request}
    (hissued : .issued (s.callers t).lc k request ∈ s.world.2) :
    s.hasReply t = replied s.world request := by
  obtain ⟨call, hframe, rfl⟩ := hestablished.frame _ k request hissued
  have hfound : s.frame t k = some call := hframe
  simp [hasReply, hcall, hfound]

/-- A thread that is in no call has what it has, whatever is answered. -/
theorem owns_of_none {world : Net State × List Net.Event}
    (hcall : (s.callers t).stage.call = none) : { s with world }.owns t = s.owns t := by
  simp [owns, hasReply, hcall]

theorem Stage.call_ne_bind (stage : Stage) (k : CallId) :
    stage.call ≠ some (k, RpcConst.bind) := by
  intro hcall
  cases stage with
  | resting | acquiring | granted | holding | checked | releasing => cases hcall

/-- A thread has the lock of its round when its `acquire` has been answered. -/
theorem Caller.owns_of_acquire {c : Caller} {k : CallId}
    (hcall : c.stage.call = some (k, LockProtocol.acquire)) :
    c.owns true = c.rounds.head? ∧ c.owns false = none := by
  rcases Caller.back_spec hcall with ⟨hstage, -⟩ | ⟨hstage, -⟩
  · simp [owns, hstage]
  · rw [hstage] at hcall
    cases hcall

/-- It has the lock until its `release` has been answered. -/
theorem Caller.owns_of_release {c : Caller} {k : CallId}
    (hcall : c.stage.call = some (k, LockProtocol.release)) :
    c.owns true = none ∧ c.owns false = c.rounds.head? := by
  rcases Caller.back_spec hcall with ⟨hstage, -⟩ | ⟨hstage, -⟩
  · rw [hstage] at hcall
    cases hcall
  · simp [owns, hstage]

/-- The thread that waits for the answer to a request. -/
structure Asks (s : Tester) (t : ℕ) (k : CallId) (lid : LockId) (request : Request) :
    Prop where
  call : (s.callers t).stage.call = some (k, request.proc)
  round : (s.callers t).rounds.head? = some lid
  issued : .issued (s.callers t).lc k request ∈ s.world.2
  waiting : replied s.world request = false

theorem Calls.asks (h : Calls nt s) (hestablished : Established nonce s.world) {i : ClientId}
    {k : CallId} {request : Request} {proc : Int32} {lid : LockId}
    (hissued : .issued i k request ∈ s.world.2) (hcall : isCall proc lid request = true)
    (hproc : proc ≠ RpcConst.bind) (hopen : replied s.world request = false) :
    ∃ t, Asks s t k lid request ∧ (s.callers t).lc = i := by
  have hsame := (args_of_isCall hcall).1
  rcases h.begun i k request hissued with hbind | hdone | ⟨t, rfl, hcalling⟩
  · exact absurd (hsame.symm.trans hbind) hproc
  · rw [hopen] at hdone
    cases hdone
  · obtain ⟨other, hother, hits⟩ := h.request hestablished hcalling hissued
    obtain rfl := lid_of_isCall (hsame ▸ hits) hcall
    exact ⟨t, ⟨hcalling, hother, hissued, hopen⟩, rfl⟩

theorem Asks.owns {k : CallId} {lid : LockId} {request : Request}
    (h : Asks s t k lid request) (hestablished : Established nonce s.world) :
    s.owns t = (s.callers t).owns false := by
  rw [Tester.owns, hasReply_eq hestablished h.call h.issued, h.waiting]

/-- The answer to one request changes what the thread has that asks, and nothing else. -/
theorem Asks.owns_world {k : CallId} {lid : LockId} {request : Request}
    (h : Asks s t k lid request) (hcalls : Calls nt s) (hestablished : Established nonce s.world)
    {world : Net State × List Net.Event} (hnext : Established nonce world)
    (hsubset : s.world.2 ⊆ world.2) {pdu : Bytes} (hadds : Adds s.world world request pdu) :
    { s with world }.owns = Function.update s.owns t ((s.callers t).owns true) := by
  have hreply : ∀ {other l proc found}, (s.callers other).stage.call = some (l, proc) →
      .issued (s.callers other).lc l found ∈ s.world.2 →
      { s with world }.hasReply other = (replied s.world found || found == request) := by
    intro other l proc found hcall hissued
    rw [← hadds.replied_eq]
    exact hasReply_eq (s := { s with world }) hnext hcall (hsubset hissued)
  funext other
  by_cases heq : other = t
  · subst heq
    rw [Function.update_self, Tester.owns, hreply h.call h.issued, beq_self_eq_true, Bool.or_true]
  · rw [Function.update_of_ne heq]
    cases hcall : (s.callers other).stage.call with
    | none => exact owns_of_none hcall
    | some part =>
        obtain ⟨l, proc⟩ := part
        obtain ⟨_, found, -, hissued, -⟩ := hcalls.current other l proc hcall
        have hne : (found == request) = false := by
          apply beq_eq_false_iff_ne.mpr
          rintro rfl
          obtain ⟨hclient, rfl⟩ := hestablished.unique _ _ _ _ found hissued h.issued
          exact heq (hcalls.sole other t l proc _ hcall h.call hclient)
        rw [Tester.owns, hreply hcall hissued, hne, Bool.or_false, Tester.owns,
          hasReply_eq hestablished hcall hissued]

/-- A step that answers nobody but `bind` changes what no thread has. -/
theorem owns_world_of_quiet (hcalls : Calls nt s) (hestablished : Established nonce s.world)
    {world : Net State × List Net.Event} (hnext : Established nonce world)
    (hsubset : s.world.2 ⊆ world.2)
    (hproduced : ∀ d request pdu, .produced d request pdu ∈ Net.serverHistory world.2 →
      .produced d request pdu ∈ Net.serverHistory s.world.2 ∨ request.proc = RpcConst.bind) :
    { s with world }.owns = s.owns := by
  have hsame : ∀ {request : Request}, request.proc ≠ RpcConst.bind →
      replied world request = replied s.world request := by
    intro request hproc
    rw [Bool.eq_iff_iff, replied_iff, replied_iff]
    constructor
    · rintro ⟨d, pdu, hmem⟩
      rcases hproduced d request pdu hmem with hold | hbind
      · exact ⟨d, pdu, hold⟩
      · exact absurd hbind hproc
    · rintro ⟨d, pdu, hmem⟩
      exact ⟨d, pdu, Net.mem_serverHistory.mpr (hsubset (Net.mem_serverHistory.mp hmem))⟩
  funext t
  cases hcall : (s.callers t).stage.call with
  | none => exact owns_of_none hcall
  | some part =>
      obtain ⟨k, proc⟩ := part
      obtain ⟨lid, request, -, hissued, hits⟩ := hcalls.current t k proc hcall
      have hproc : request.proc ≠ RpcConst.bind := by
        rw [(args_of_isCall hits).1]
        rintro rfl
        exact Stage.call_ne_bind _ k hcall
      rw [Tester.owns, hasReply_eq (s := { s with world }) hnext hcall (hsubset hissued),
        hsame hproc, Tester.owns, hasReply_eq hestablished hcall hissued]

/-- The system goes on. -/
theorem Recorded.world (h : Recorded nonce s) (hcalls : Calls nt s)
    (hestablished : Established nonce s.world) {world : Net State × List Net.Event}
    (hnext : Established nonce world) (hsubset : s.world.2 ⊆ world.2)
    (heffect : Effect s.world world) : Recorded nonce { s with world } := by
  -- the reply to the request that a step answers
  have hreplies : ∀ {request pdu r}, Adds s.world world request pdu →
      Server.Tells request (answer .ok r) pdu →
      ∀ d other bytes, .produced d other bytes ∈ Net.serverHistory world.2 →
        other.proc ≠ RpcConst.bind → ∃ r, Server.Tells other (answer .ok r) bytes := by
    rintro request pdu r ⟨_, hadds⟩ htells d other bytes hmem hproc
    rcases (hadds d other bytes).mp hmem with hold | ⟨-, rfl, rfl⟩
    · exact h.replies d other bytes hold hproc
    · exact ⟨r, htells⟩
  cases heffect with
  | quiet hledger hproduced =>
      refine ⟨?_, fun d request pdu hmem hproc => ?_⟩
      · rw [owns_world_of_quiet hcalls hestablished hnext hsubset hproduced, hledger]
        exact h.ledger
      · rcases hproduced d request pdu hmem with hold | hbind
        · exact h.replies d request pdu hold hproc
        · exact absurd hbind hproc
  | @acquired i k request lid r pdu hissued hcall hopen hadds htells hfree hledger =>
      refine ⟨?_, hreplies hadds htells⟩
      obtain ⟨t, hasks, rfl⟩ := hcalls.asks hestablished hissued hcall (by decide) hopen
      have hcalling := hasks.call
      rw [(args_of_isCall hcall).1] at hcalling
      obtain ⟨hafter, hbefore⟩ := Caller.owns_of_acquire hcalling
      have hname : request.clt.toInt32 = name nonce s t :=
        congrArg UInt32.toInt32 (hestablished.clt _ k request hissued)
      rw [hasks.owns_world hcalls hestablished hnext hsubset hadds, hafter, hasks.round, hledger,
        hname]
      apply h.ledger.grant hfree
      rw [hasks.owns hestablished, hbefore]
  | @released i k request lid r pdu hissued hcall hopen hadds htells hledger =>
      refine ⟨?_, hreplies hadds htells⟩
      obtain ⟨t, hasks, rfl⟩ := hcalls.asks hestablished hissued hcall (by decide) hopen
      have hcalling := hasks.call
      rw [(args_of_isCall hcall).1] at hcalling
      obtain ⟨hafter, hbefore⟩ := Caller.owns_of_release hcalling
      rw [hasks.owns_world hcalls hestablished hnext hsubset hadds, hafter, hledger]
      apply h.ledger.giveBack
      rw [hasks.owns hestablished, hbefore, hasks.round]

/-- A thread that has sent a `release` still holds its lock. -/
theorem Recorded.holder (h : Recorded nonce s) (hcalls : Calls nt s)
    (hestablished : Established nonce s.world) {i : ClientId} {k : CallId} {request : Request}
    {lid : LockId} (hissued : .issued i k request ∈ s.world.2)
    (hcall : isCall LockProtocol.release lid request = true)
    (hopen : replied s.world request = false) :
    Lock.ledger s.world.1.server lid = some request.clt.toInt32 := by
  obtain ⟨t, hasks, rfl⟩ := hcalls.asks hestablished hissued hcall (by decide) hopen
  have hcalling := hasks.call
  rw [(args_of_isCall hcall).1] at hcalling
  obtain ⟨-, hbefore⟩ := Caller.owns_of_release hcalling
  have howns : s.owns t = some lid := by
    rw [hasks.owns hestablished, hbefore, hasks.round]
  rw [h.ledger.owned t lid howns, hestablished.clt _ k request hissued]
  rfl

/-- A thread goes on with the lock that it has. -/
theorem Recorded.goOn (h : Recorded nonce s) {c : Caller} (hlc : c.lc = (s.callers t).lc)
    (hsame : (s.goOn t c).owns t = s.owns t) : Recorded nonce (s.goOn t c) := by
  have howns : (s.goOn t c).owns = s.owns := by
    funext other
    by_cases heq : other = t
    · rw [heq, hsame]
    · have hkept := s.goOn_callers_of_ne c heq
      simp only [owns, hasReply, frame, client, hkept]
      rfl
  have hname : name nonce (s.goOn t c) = name nonce s := by
    funext other
    by_cases heq : other = t
    · subst heq
      rw [name, goOn_callers_self, hlc]
      rfl
    · rw [name, s.goOn_callers_of_ne c heq]
      rfl
  refine ⟨?_, h.replies⟩
  rw [howns, hname]
  exact h.ledger

theorem Recorded.exit (h : Recorded nonce s) (reason : Exit) : Recorded nonce (s.exit reason) :=
  ⟨h.ledger, h.replies⟩

theorem Recorded.counted (h : Recorded nonce s) {stage : Stage} (reason : Exit)
    (hsame : (s.goOn t { s.callers t with stage }).owns t = s.owns t)
    (result : Option (UInt8 → Int32)) : Recorded nonce (s.counted t stage reason result) := by
  cases result with
  | none => exact h.exit reason
  | some ct =>
      have hon : Recorded nonce (s.goOn t { s.callers t with stage }) := h.goOn rfl hsame
      exact ⟨hon.ledger, hon.replies⟩

/-- A thread calls `acquire` or `release`. -/
theorem Recorded.call {setup : Setup State} {world : Net State × List Net.Event}
    (hworld : Recorded nonce { s with world }) (hestablished : Established nonce s.world)
    (hnext : Established nonce world) {k : CallId} {proc : Int32} {lid : LockId} {stage : Stage}
    (hcall : (s.callers t).next k = some (proc, lid, stage))
    (hstep : (Net.logged setup).step s.world
      (.start (s.callers t).lc k proc (lockArgs (s.client t).cltNonce lid)) = some world)
    (hrefuses : (s.client t).refuses proc = false) :
    Recorded nonce ({ s with world }.goOn t { s.callers t with stage }) := by
  obtain ⟨-, hcalling, hstages⟩ := Caller.next_spec hcall
  have hissued := issued_of_start hstep hrefuses
  have hcallers : ({ s with world }.goOn t { s.callers t with stage }).callers t =
      { s.callers t with stage } := goOn_callers_self ..
  have hgone : Established nonce ({ s with world }.goOn t { s.callers t with stage }).world := hnext
  have hreply : ({ s with world }.goOn t { s.callers t with stage }).hasReply t = false := by
    rw [hasReply_eq hgone (by rw [hcallers]; exact hcalling) (by rw [hcallers]; exact hissued)]
    exact not_replied_of_start hestablished hnext hstep hissued
  refine hworld.goOn (c := { s.callers t with stage }) rfl ?_
  rw [owns, hreply, hcallers]
  rcases hstages with ⟨hstage, -, rfl⟩ | ⟨hstage, -, rfl⟩
  · simp [owns, Caller.owns, hstage]
  · simp [owns, Caller.owns, hstage]

/-- A thread's call has returned `OK`. -/
theorem Recorded.back (h : Recorded nonce s) (hestablished : Established nonce s.world)
    {k : CallId} {proc : Int32} {call : Call} {ret : Int32} {res : Int32 × Int32}
    (hcall : (s.callers t).stage.call = some (k, proc)) (hframe : s.frame t k = some call)
    (hret : call.result = some ret)
    (hres : callM .lp64 .int ret call.un (0 : Int32) = some res) (hok : res.1 = 0) :
    Recorded nonce (s.goOn t (s.callers t).back) := by
  have hreply : s.hasReply t = true := by
    simp [hasReply, hcall, hframe, replied_of_ok hestablished hframe hret hres hok]
  rcases Caller.back_spec hcall with ⟨hstage, hback⟩ | ⟨hstage, hback⟩
  · rw [hback]
    apply h.goOn (c := { s.callers t with stage := .granted }) rfl
    simp [owns, Caller.owns, hstage, hreply]
  · rw [hback]
    apply h.goOn (c := { s.callers t with stage := .resting, rounds := (s.callers t).rounds.tail })
      rfl
    simp [owns, Caller.owns, hstage, hreply]

theorem Recorded.step {setup : Setup State} (h : Recorded nonce s) (hcalls : Calls nt s)
    (hestablished : Established nonce s.world) (hnext : Established nonce target.world)
    (hworld : Recorded nonce { s with world := target.world })
    (hmoves : Moves setup nt s label target) : Recorded nonce target := by
  cases hmoves with
  | world => exact hworld
  | construct => exact ⟨hworld.ledger, hworld.replies⟩
  | constructed => exact ⟨h.ledger, h.replies⟩
  | @spawn test tests htests hmade hdone =>
      have hbefore : s.owns = fun _ => none := by
        funext t
        have hstage : (s.callers t).stage = .resting := (hcalls.done hdone t).1
        simp [owns, Caller.owns, hstage]
      have hafter : (s.start test tests).owns = s.owns := by
        rw [hbefore]
        funext t
        simp only [owns, start]
        cases test[t]? <;> rfl
      refine ⟨?_, h.replies⟩
      rw [hafter]
      apply h.ledger.rename
      intro t ht
      rw [hbefore] at ht
      exact absurd rfl ht
  | call hcall hstep hrefuses =>
      exact hworld.call hestablished hnext hcall hstep hrefuses
  | refused => exact hworld.exit _
  | back hcall hframe hret hres hok => exact h.back hestablished hcall hframe hret hres hok
  | failed => exact h.exit _
  | count hstage hrounds =>
      apply h.counted
      simp [owns, Caller.owns, hstage]
  | uncount hstage hrounds =>
      apply h.counted
      simp [owns, Caller.owns, hstage]

/-! ## The counts -/

/-- The locks that the threads of some tests use. -/
def lockIds (tests : List Test) : Set LockId :=
  {lid | ∃ test ∈ tests, ∃ p ∈ test, lid ∈ p.rounds}

/-- The tests of `main`, of which it may be told to run one, call through its clients. There
are two of these at least. -/
theorem lc_of_mainTests {tests : List Test} (hsubset : tests ⊆ mainTests nt) (hnt : 2 ≤ nt) :
    ∀ test ∈ tests, ∀ p ∈ test, p.lc < nt := by
  intro test htest p hp
  have hmain := hsubset htest
  simp only [mainTests, List.mem_cons, List.not_mem_nil, or_false] at hmain
  rcases hmain with rfl | rfl | rfl | rfl
  · obtain ⟨i, hi, rfl⟩ := List.mem_map.mp hp
    exact List.mem_range.mp hi
  · obtain ⟨i, hi, rfl⟩ := List.mem_map.mp hp
    exact List.mem_range.mp hi
  · obtain rfl := List.eq_of_mem_replicate hp
    exact Nat.lt_of_lt_of_le Nat.zero_lt_two hnt
  · obtain ⟨i, -, rfl⟩ := List.mem_map.mp hp
    dsimp only
    split_ifs
    · exact Nat.lt_of_lt_of_le Nat.zero_lt_two hnt
    · exact Nat.lt_of_lt_of_le Nat.one_lt_two hnt

/-- They are about one lock. -/
theorem lid_of_mainTests {tests : List Test} (hsubset : tests ⊆ mainTests nt) :
    ∀ lid ∈ lockIds tests, lid = a := by
  rintro lid ⟨test, htest, p, hp, hlid⟩
  have hmain := hsubset htest
  simp only [mainTests, List.mem_cons, List.not_mem_nil, or_false] at hmain
  rcases hmain with rfl | rfl | rfl | rfl
  · obtain ⟨i, -, rfl⟩ := List.mem_map.mp hp
    exact List.mem_singleton.mp hlid
  · obtain ⟨i, -, rfl⟩ := List.mem_map.mp hp
    exact List.eq_of_mem_replicate hlid
  · obtain rfl := List.eq_of_mem_replicate hp
    exact List.eq_of_mem_replicate hlid
  · obtain ⟨i, -, rfl⟩ := List.mem_map.mp hp
    exact List.eq_of_mem_replicate hlid

theorem injOn_mainTests {tests : List Test} (hsubset : tests ⊆ mainTests nt) :
    Set.InjOn UInt64.toUInt8 (lockIds tests) := by
  intro lid hlid lid' hlid' _
  rw [lid_of_mainTests hsubset lid hlid, lid_of_mainTests hsubset lid' hlid']

/-- A thread is between `check_grant` and `check_release`. -/
def Holding (s : Tester) (t : ℕ) (lid : LockId) : Prop :=
  (s.callers t).stage = .holding ∧ (s.callers t).rounds.head? = some lid

/-- The counts are those of the threads that hold a lock, and nobody has exited unless a
call has timed out. -/
structure Counts (lids : Set LockId) (s : Tester) : Prop where
  exits : ∀ reason, s.exited = some reason → reason = .assertion ∧ TimedOut s.world
  rounds : ∀ t, ∀ lid ∈ (s.callers t).rounds, lid ∈ lids
  tests : ∀ lid ∈ lockIds s.tests, lid ∈ lids
  one : ∀ t lid, s.Holding t lid → s.ct lid.toUInt8 = 1
  zero : ∀ x, (∀ t lid, s.Holding t lid → lid.toUInt8 ≠ x) → s.ct x = 0

variable {lids : Set LockId}

theorem counts_init {setup : Setup State} {tests : List Test} :
    Counts (lockIds tests) (system setup nt tests).init where
  exits _ hexited := by cases hexited
  rounds _ _ hlid := by cases hlid
  tests _ hlid := hlid
  one _ _ hholding := by cases hholding.1
  zero _ _ := rfl

theorem Holding.owns {lid : LockId} (hholding : s.Holding t lid) : s.owns t = some lid := by
  simp [Tester.owns, Caller.owns, hholding.1, hholding.2]

/-- The system goes on. -/
theorem Counts.world (h : Counts lids s) {world : Net State × List Net.Event}
    (htimedOut : TimedOut s.world → TimedOut world) : Counts lids { s with world } :=
  { h with exits := fun reason hexited => (h.exits reason hexited).imp_right htimedOut }

theorem Counts.exit (h : Counts lids s) (htimedOut : TimedOut s.world) :
    Counts lids (s.exit .assertion) := by
  refine { h with exits := fun reason hexited => ⟨?_, htimedOut⟩ }
  exact (Option.some.inj hexited).symm

/-- A thread that goes on has no other locks before it. -/
theorem Counts.rounds_goOn (h : Counts lids s) {c : Caller}
    (hrounds : ∀ lid ∈ c.rounds, lid ∈ (s.callers t).rounds) :
    ∀ t', ∀ lid ∈ ((s.goOn t c).callers t').rounds, lid ∈ lids := by
  apply forall_callers_goOn (p := fun _ c => ∀ lid ∈ c.rounds, lid ∈ lids)
  · exact fun lid hlid => h.rounds t lid (hrounds lid hlid)
  · exact fun t' _ => h.rounds t'

/-- A thread goes on that is not counted before or after. -/
theorem Counts.goOn (h : Counts lids s) {c : Caller}
    (hbefore : (s.callers t).stage ≠ .holding) (hafter : c.stage ≠ .holding)
    (hrounds : ∀ lid ∈ c.rounds, lid ∈ (s.callers t).rounds) : Counts lids (s.goOn t c) := by
  have hiff : ∀ t' lid, (s.goOn t c).Holding t' lid ↔ s.Holding t' lid := by
    intro t' lid
    by_cases heq : t' = t
    · subst heq
      simp [Holding, hbefore, hafter]
    · simp [Holding, s.goOn_callers_of_ne c heq]
  refine ⟨h.exits, h.rounds_goOn hrounds, h.tests, fun t' lid hholding => ?_, fun x hx => ?_⟩
  · exact h.one t' lid ((hiff t' lid).mp hholding)
  · exact h.zero x fun t' lid hholding => hx t' lid ((hiff t' lid).mpr hholding)

/-- A thread that is counted and another one that has its lock are counted apart. -/
theorem Counts.byte_ne (h : Counts lids s) (hlids : Set.InjOn UInt64.toUInt8 lids)
    (hrecorded : Recorded nonce s) {t' : ℕ} {lid lid' : LockId}
    (hlid : lid ∈ (s.callers t).rounds) (howns : s.owns t = some lid)
    (hholding : s.Holding t' lid') (hne : t' ≠ t) : lid'.toUInt8 ≠ lid.toUInt8 := by
  intro hbyte
  have hlid' : lid' ∈ lids := h.rounds t' lid' (List.mem_of_mem_head? hholding.2)
  obtain rfl : lid' = lid := hlids hlid' (h.rounds t lid hlid) hbyte
  exact hne (hrecorded.ledger.sole t' t lid' hholding.owns howns)

/-- `check_grant` finds a zero. -/
theorem Counts.count (h : Counts lids s) (hlids : Set.InjOn UInt64.toUInt8 lids)
    (hrecorded : Recorded nonce s) {lid : LockId} {rounds : List LockId}
    (hstage : (s.callers t).stage = .granted) (hrounds : (s.callers t).rounds = lid :: rounds) :
    Counts lids (s.counted t .holding .grantedTwice (checkGrant s.ct lid)) := by
  have hhead : (s.callers t).rounds.head? = some lid := by rw [hrounds, List.head?_cons]
  have howns : s.owns t = some lid := by simp [owns, Caller.owns, hstage, hhead]
  have hothers : ∀ t' lid', s.Holding t' lid' → t' ≠ t := by
    rintro t' lid' hholding rfl
    rw [hholding.1] at hstage
    cases hstage
  have hfirst : ∀ t' lid', s.Holding t' lid' → lid'.toUInt8 ≠ lid.toUInt8 :=
    fun t' lid' hholding => h.byte_ne hlids hrecorded (List.mem_of_mem_head? hhead) howns hholding
      (hothers t' lid' hholding)
  have hzero : s.ct lid.toUInt8 = 0 := h.zero _ hfirst
  have hgrant : checkGrant s.ct lid = some (Function.update s.ct lid.toUInt8 1) := by
    simp [checkGrant, hzero]
  rw [hgrant]
  have hholds : ∀ t' lid', (s.counted t .holding .grantedTwice
      (some (Function.update s.ct lid.toUInt8 1))).Holding t' lid' ↔
      (t' = t ∧ lid' = lid) ∨ (t' ≠ t ∧ s.Holding t' lid') := by
    intro t' lid'
    by_cases heq : t' = t
    · subst heq
      simp [Holding, Tester.counted, hhead, eq_comm]
    · simp [Holding, Tester.counted, s.goOn_callers_of_ne _ heq, heq]
  refine ⟨h.exits, h.rounds_goOn fun _ hlid => hlid, h.tests, fun t' lid' hholding => ?_,
    fun x hx => ?_⟩
  · change Function.update s.ct lid.toUInt8 1 lid'.toUInt8 = 1
    rcases (hholds t' lid').mp hholding with ⟨-, rfl⟩ | ⟨-, hbefore⟩
    · rw [Function.update_self]
    · rw [Function.update_of_ne (hfirst t' lid' hbefore)]
      exact h.one t' lid' hbefore
  · change Function.update s.ct lid.toUInt8 1 x = 0
    have hne : x ≠ lid.toUInt8 := Ne.symm (hx t lid ((hholds t lid).mpr (.inl ⟨rfl, rfl⟩)))
    rw [Function.update_of_ne hne]
    apply h.zero
    intro t' lid' hholding
    apply hx t' lid'
    exact (hholds t' lid').mpr (.inr ⟨hothers t' lid' hholding, hholding⟩)

/-- `check_release` finds a one. -/
theorem Counts.uncount (h : Counts lids s) (hlids : Set.InjOn UInt64.toUInt8 lids)
    (hrecorded : Recorded nonce s) {lid : LockId} {rounds : List LockId}
    (hstage : (s.callers t).stage = .holding) (hrounds : (s.callers t).rounds = lid :: rounds) :
    Counts lids (s.counted t .checked .unHeld (checkRelease s.ct lid)) := by
  have hhead : (s.callers t).rounds.head? = some lid := by rw [hrounds, List.head?_cons]
  have hholding : s.Holding t lid := ⟨hstage, hhead⟩
  have hone : s.ct lid.toUInt8 = 1 := h.one t lid hholding
  have hrelease : checkRelease s.ct lid = some (Function.update s.ct lid.toUInt8 0) := by
    simp [checkRelease, hone]
  rw [hrelease]
  have hholds : ∀ t' lid', (s.counted t .checked .unHeld
      (some (Function.update s.ct lid.toUInt8 0))).Holding t' lid' ↔
      t' ≠ t ∧ s.Holding t' lid' := by
    intro t' lid'
    by_cases heq : t' = t
    · subst heq
      simp [Holding, Tester.counted]
    · simp [Holding, Tester.counted, s.goOn_callers_of_ne _ heq, heq]
  refine ⟨h.exits, h.rounds_goOn fun _ hlid => hlid, h.tests, fun t' lid' hbefore => ?_,
    fun x hx => ?_⟩
  · obtain ⟨hne, hother⟩ := (hholds t' lid').mp hbefore
    have hbyte : lid'.toUInt8 ≠ lid.toUInt8 :=
      h.byte_ne hlids hrecorded (List.mem_of_mem_head? hhead) hholding.owns hother hne
    change Function.update s.ct lid.toUInt8 0 lid'.toUInt8 = 1
    rw [Function.update_of_ne hbyte]
    exact h.one t' lid' hother
  · change Function.update s.ct lid.toUInt8 0 x = 0
    by_cases heq : x = lid.toUInt8
    · rw [heq, Function.update_self]
    · rw [Function.update_of_ne heq]
      apply h.zero
      intro t' lid' hother
      by_cases ht : t' = t
      · subst ht
        obtain rfl : lid = lid' := Option.some.inj (hhead.symm.trans hother.2)
        exact Ne.symm heq
      · exact hx t' lid' ((hholds t' lid').mpr ⟨ht, hother⟩)

theorem Counts.spawn (h : Counts lids s) (hcalls : Calls nt s) {test : Test} {tests : List Test}
    (htests : s.tests = test :: tests) (hdone : ∀ t < s.active, (s.callers t).Done) :
    Counts lids (s.start test tests) := by
  have hrest : ∀ t lid, ¬(s.start test tests).Holding t lid := by
    rintro t lid ⟨hstage, -⟩
    simp only [start] at hstage
    cases hprogram : test[t]? <;> simp [Caller.create, hprogram] at hstage
  have hnobody : ∀ t lid, ¬s.Holding t lid := by
    rintro t lid ⟨hstage, -⟩
    rw [(hcalls.done hdone t).1] at hstage
    cases hstage
  refine ⟨h.exits, fun t lid hlid => ?_, fun lid hlid => ?_,
    fun t lid hholding => absurd hholding (hrest t lid),
    fun x _ => h.zero x fun t lid hholding => absurd hholding (hnobody t lid)⟩
  · cases hprogram : test[t]? with
    | none => simp [start, Caller.create, hprogram] at hlid
    | some p =>
        apply h.tests
        refine ⟨test, by rw [htests]; exact List.mem_cons_self, p,
          List.mem_of_getElem? hprogram, ?_⟩
        simpa [start, Caller.create, hprogram] using hlid
  · obtain ⟨later, hlater, hp⟩ := hlid
    exact h.tests lid ⟨later, by rw [htests]; exact List.mem_cons_of_mem test hlater, hp⟩

/-- A call that has returned has timed out, or `call_m` reads `OK` and a value from its
reply. -/
theorem callM_of_returned (hrecorded : Recorded nonce s)
    (hestablished : Established nonce s.world) (hcalls : Calls nt s) {k : CallId} {proc : Int32}
    {call : Call} {ret : Int32} (hcall : (s.callers t).stage.call = some (k, proc))
    (hframe : s.frame t k = some call) (hret : call.result = some ret) :
    ret = RpcConst.timeoutFailure ∨
      ∃ r, callM .lp64 .int ret call.un (0 : Int32) = some ((0, r) : Int32 × Int32) := by
  have hfound : (s.world.1.clients (s.callers t).lc).frames k = some call := hframe
  rcases hestablished.reply _ k call ret hfound hret with htimeout |
    ⟨d, pdu, hmem, hreply, hun⟩
  · exact .inl htimeout
  · right
    obtain ⟨lid, -, hits⟩ := hcalls.request hestablished hcall
      (hestablished.issued.call_issued _ k call hfound)
    have hproc : call.request.proc ≠ RpcConst.bind := by
      rw [(args_of_isCall hits).1]
      rintro rfl
      exact Stage.call_ne_bind _ k hcall
    obtain ⟨r, htells⟩ := hrecorded.replies d _ pdu hmem hproc
    obtain ⟨reply, hdecode⟩ := Net.exists_decode_of_isReply hreply
    obtain rfl : ret = 0 := (Net.header_of_isReply hreply hdecode).2.symm.trans
      (Net.header_of_isReply htells.isReply hdecode).2
    rw [hun]
    refine ⟨r, callM_takenIn (Int32.le_refl 0) htells ?_⟩
    show rpcHeaderSz + 4 < 2 ^ 31
    decide

/-- A call that has been answered has returned `OK`. -/
theorem timedOut_of_failed (hrecorded : Recorded nonce s)
    (hestablished : Established nonce s.world) (hcalls : Calls nt s) {k : CallId} {proc : Int32}
    {call : Call} {ret : Int32} {res : Int32 × Int32}
    (hcall : (s.callers t).stage.call = some (k, proc)) (hframe : s.frame t k = some call)
    (hret : call.result = some ret)
    (hres : callM .lp64 .int ret call.un (0 : Int32) = some res) (hbad : res.1 ≠ 0) :
    TimedOut s.world := by
  rcases callM_of_returned hrecorded hestablished hcalls hcall hframe hret with rfl | ⟨r, hvalue⟩
  · exact ⟨_, k, call, hframe, hret⟩
  · obtain rfl := Option.some.inj (hvalue.symm.trans hres)
    exact absurd rfl hbad

/-- A thread whose call has returned goes on, or the tester exits. -/
theorem exists_back (hrecorded : Recorded nonce s) (hestablished : Established nonce s.world)
    (hcalls : Calls nt s) (setup : Setup State) (hlive : s.exited = none) {k : CallId}
    {proc : Int32} {call : Call} {ret : Int32}
    (hcall : (s.callers t).stage.call = some (k, proc)) (hframe : s.frame t k = some call)
    (hret : call.result = some ret) : ∃ target, step setup nt s (.back t) = some target := by
  obtain ⟨res, hres⟩ : ∃ res, callM .lp64 .int ret call.un (0 : Int32) = some res := by
    rcases callM_of_returned hrecorded hestablished hcalls hcall hframe hret with rfl | ⟨r, hvalue⟩
    · exact ⟨_, callM_timeoutFailure call.un⟩
    · exact ⟨_, hvalue⟩
  exact ⟨s.returned t res.1, by simp [step, hlive, hcall, hframe, hret, hres]⟩

/-- A call that is refused is that of a client that is not bound. -/
theorem timedOut_of_refused (hbound : Bound s) (hcalls : Calls nt s) {k : CallId} {proc : Int32}
    {lid : LockId} {stage : Stage} (hnext : (s.callers t).next k = some (proc, lid, stage))
    (hrefuses : (s.client t).refuses proc = true) : TimedOut s.world := by
  obtain ⟨-, -, hstages⟩ := Caller.next_spec hnext
  have hclient := hcalls.client t (Caller.rounds_ne_nil_of_next hnext)
  rcases hbound.made _ hclient with hdone | htimedOut
  · exfalso
    have hdone' : (s.client t).bindDone = true := hdone
    rw [Client.refuses, hdone'] at hrefuses
    rcases hstages with ⟨-, rfl, -⟩ | ⟨-, rfl, -⟩
    · cases hrefuses
    · cases hrefuses
  · exact htimedOut

theorem Counts.step {setup : Setup State} (h : Counts lids s)
    (hlids : Set.InjOn UInt64.toUInt8 lids) (hcalls : Calls nt s)
    (hestablished : Established nonce s.world) (hbound : Bound s) (hrecorded : Recorded nonce s)
    (hcalm : calm s label = true) (hmoves : Moves setup nt s label target) :
    Counts lids target := by
  have hworld : Counts lids { s with world := target.world } :=
    h.world fun htimedOut => timedOut_of_moves htimedOut hcalm hmoves
  have htimedOut : TimedOut s.world → TimedOut target.world :=
    fun htimedOut => timedOut_of_moves htimedOut hcalm hmoves
  cases hmoves with
  | world => exact hworld
  | construct => exact { hworld with }
  | constructed => exact { h with }
  | spawn htests hmade hdone => exact h.spawn hcalls htests hdone
  | call hnext =>
      obtain ⟨-, -, hstages⟩ := Caller.next_spec hnext
      rcases hstages with ⟨hstage, -, rfl⟩ | ⟨hstage, -, rfl⟩
      · exact hworld.goOn (by simp [hstage]) (by simp) fun _ hlid => hlid
      · exact hworld.goOn (by simp [hstage]) (by simp) fun _ hlid => hlid
  | refused hnext hstep hrefuses =>
      exact hworld.exit (htimedOut (timedOut_of_refused hbound hcalls hnext hrefuses))
  | back hcall =>
      rcases Caller.back_spec hcall with ⟨hstage, hback⟩ | ⟨hstage, hback⟩
      · rw [hback]
        exact h.goOn (by simp [hstage]) (by simp) fun _ hlid => hlid
      · rw [hback]
        exact h.goOn (by simp [hstage]) (by simp) fun _ hlid => List.mem_of_mem_tail hlid
  | failed hcall hframe hret hres hbad =>
      exact h.exit (timedOut_of_failed hrecorded hestablished hcalls hcall hframe hret hres hbad)
  | count hstage hrounds => exact h.count hlids hrecorded hstage hrounds
  | uncount hstage hrounds => exact h.uncount hlids hrecorded hstage hrounds

/-! ## The checks pass -/

theorem bound_init {setup : Setup State} {tests : List Test} :
    Bound (system setup nt tests).init where
  phase _ _ _ _ hframe := by cases hframe
  made _ hi := absurd hi (Nat.not_lt_zero _)

theorem recorded_init {tests : List Test} :
    Recorded nonce (system (lockSetup nonce srvNonce) nt tests).init where
  ledger := .start _
  replies _ _ _ hmem := by cases hmem

/-- A step of the system has an effect on the ledger, and what the threads have follows. -/
theorem Recorded.moves {tests : List Test} {labels : List Label} (h : Recorded nonce s)
    (hne : ∀ i < nt, nonce i ≠ 0)
    (hrun : (system (lockSetup nonce srvNonce) nt tests).Run
      (fun s label => calm s label = true) labels s)
    (hcalls : Calls nt s) (hestablished : Established nonce s.world)
    (hnext : Established nonce target.world) (hcalm : calm s label = true)
    (hmoves : Moves (lockSetup nonce srvNonce) nt s label target) : Recorded nonce target := by
  apply h.step hcalls hestablished hnext _ hmoves
  rcases hmoves.world_step hcalm with hsame | ⟨part, hguard, hstep⟩
  · rw [hsame]
    exact h
  · obtain ⟨_, hworld⟩ := world_of_run hrun
    apply h.world hcalls hestablished hnext (subset_of_step hstep)
    apply effect_of_step hworld hguard hstep
    · intro i k request hissued
      obtain ⟨hi, hfrom⟩ := hcalls.issued i k request hissued
      exact ⟨hfrom, hestablished.clt i k request hissued ▸ hne i hi⟩
    · exact fun i k request lid hissued hcall hopen =>
        h.holder hcalls hestablished hissued hcall hopen

theorem counts_of_run {tests : List Test}
    (hinj : ∀ i < nt, ∀ j < nt, nonce i = nonce j → i = j) (hne : ∀ i < nt, nonce i ≠ 0)
    (hprograms : ∀ test ∈ tests, ∀ p ∈ test, p.lc < nt)
    (hlids : Set.InjOn UInt64.toUInt8 (lockIds tests)) {labels : List Label}
    (hrun : (system (lockSetup nonce srvNonce) nt tests).Run
      (fun s label => calm s label = true) labels s) (hfew : Few s) :
    Bound s ∧ Recorded nonce s ∧ Counts (lockIds tests) s := by
  apply invariant_of_few (fun s => Bound s ∧ Recorded nonce s ∧ Counts (lockIds tests) s)
    ⟨bound_init, recorded_init, counts_init⟩ _ hrun hfew
  rintro labels s label target hprior hbefore hrun' hafter hcalm hmoves
    ⟨hbound, hrecorded, hcounts⟩
  obtain ⟨hcalls, hestablished⟩ := calls_of_run hinj hprograms hprior hbefore
  obtain ⟨-, hnext⟩ := calls_of_run hinj hprograms hrun' hafter
  exact ⟨hbound.step hcalls hestablished hcalm hmoves,
    hrecorded.moves hne hprior hcalls hestablished hnext hcalm hmoves,
    hcounts.step hlids hcalls hestablished hbound hrecorded hcalm hmoves⟩

/-- The tester's checks pass. Its clients have different nonces other than zero, and make
less than 2^32 calls each; different locks have different first bytes; and the server
neither checks a late copy of a request nor frees a reply that is still to be sent. Then
the tester exits before its end only through an assertion of `lock_client`, and only if a
call has timed out; two threads that have come back from `acquire` and not yet called
`release` have different locks; and a thread whose call has returned goes on, so that
`call_m` has read nothing outside the reply. -/
theorem testerPasses {tests : List Test}
    (hinj : ∀ i < nt, ∀ j < nt, nonce i = nonce j → i = j) (hne : ∀ i < nt, nonce i ≠ 0)
    (hprograms : ∀ test ∈ tests, ∀ p ∈ test, p.lc < nt)
    (hlids : Set.InjOn UInt64.toUInt8 (lockIds tests)) {labels : List Label}
    (hrun : (system (lockSetup nonce srvNonce) nt tests).Run
      (fun s label => calm s label = true) labels s)
    (hfew : ∀ i, (Net.callsOf i s.world.2).length < 2 ^ 32) :
    (∀ reason, s.exited = some reason → reason = .assertion ∧ TimedOut s.world) ∧
      (∀ t t' lid, (s.callers t).stage ∈ [.granted, .holding, .checked] →
        (s.callers t').stage ∈ [.granted, .holding, .checked] →
        (s.callers t).rounds.head? = some lid → (s.callers t').rounds.head? = some lid →
        t = t') ∧
      ∀ t k proc call ret, s.exited = none → (s.callers t).stage.call = some (k, proc) →
        s.frame t k = some call → call.result = some ret →
        ∃ target, step (lockSetup nonce srvNonce) nt s (.back t) = some target := by
  obtain ⟨hcalls, hestablished⟩ := calls_of_run hinj hprograms hrun hfew
  obtain ⟨-, hrecorded, hcounts⟩ := counts_of_run hinj hne hprograms hlids hrun hfew
  refine ⟨hcounts.exits, fun t t' lid ht ht' hlid hlid' => ?_,
    fun _ _ _ _ _ hlive hcall hframe hret =>
      exists_back hrecorded hestablished hcalls _ hlive hcall hframe hret⟩
  have howns : ∀ t, (s.callers t).stage ∈ [.granted, .holding, .checked] →
      s.owns t = (s.callers t).rounds.head? := by
    intro t ht
    simp only [List.mem_cons, List.not_mem_nil, or_false] at ht
    rcases ht with hstage | hstage | hstage
    · simp [owns, Caller.owns, hstage]
    · simp [owns, Caller.owns, hstage]
    · simp [owns, Caller.owns, hstage]
  apply hrecorded.ledger.sole t t' lid
  · rw [howns t ht, hlid]
  · rw [howns t' ht', hlid']

/-- The constructor of a client, which binds it on a new connection. -/
def constructs (i : ClientId) (d : DispatchId) (n : ConnId) : List Label :=
  .construct 0 :: (bound i d n).tail.map .world ++ [.constructed]

/-- Two threads call through the first of two clients. The first thread acquires the lock.
The second one has to wait, its connection dies, and it asks again on another one. The first
thread is counted and uncounted and releases the lock, and then the second one gets it. -/
def sameClientRun : List Label :=
  constructs 0 0 0 ++ constructs 1 1 1 ++
  [.spawn, .call 0 1] ++ ((asked 0 1 2 0 none 0 []).tail ++ answered 0 1 2 0).map .world ++
  [.back 0, .call 1 2] ++ (asked 0 2 3 0 none 0 []).tail.map .world ++
  ([.die 0 true, .die 0 false, .expire 0 2, .retry 0 2 false, .refconn 0 2 (some 2),
    .send 0 2 true false, .receive 4 2, .vet 4, .enroll 4, .connect 4,
    .check 4] : List Net.Label).map .world ++
  [.check 0, .check 0, .call 0 3] ++
  ((asked 0 3 5 2 none 0 []).tail ++ answered 0 3 5 2).map .world ++
  [.back 0] ++ (.resume 3 0 (fun _ => 0) :: answered 0 2 3 2).map .world ++ [.back 1]

theorem testerPasses_sameClient :
    ∃ s, (system twoClients 2 [test4]).Run (fun s label => calm s label = true)
        sameClientRun s ∧
      (s.callers 0).stage = .resting ∧ (s.callers 1).stage = .granted ∧
      (∀ reason, s.exited = some reason → reason = .assertion ∧ TimedOut s.world) ∧
      ∀ t t' lid, (s.callers t).stage ∈ [.granted, .holding, .checked] →
        (s.callers t').stage ∈ [.granted, .holding, .checked] →
        (s.callers t).rounds.head? = some lid → (s.callers t').rounds.head? = some lid →
        t = t' := by
  have hexec : ((system twoClients 2 [test4]).execIf calm (system twoClients 2 [test4]).init
      sameClientRun).any (fun s => decide ((s.callers 0).stage = .resting ∧
        (s.callers 1).stage = .granted ∧ s.world.2.length ≤ 100)) = true := by
    decide +kernel
  obtain ⟨s, hrun, htest⟩ := System.exists_run_of_execIf hexec
  obtain ⟨hresting, hgranted, hlength⟩ := of_decide_eq_true htest
  have hsubset : [test4] ⊆ mainTests 2 := by simp [mainTests]
  have hfew : ∀ i, (Net.callsOf i s.world.2).length < 2 ^ 32 := by
    intro i
    have hle : (Net.callsOf i s.world.2).length ≤ s.world.2.length := List.length_filterMap_le ..
    omega
  obtain ⟨hexits, hsole, -⟩ := testerPasses (by decide) (by decide)
    (lc_of_mainTests hsubset le_rfl) (injOn_mainTests hsubset) hrun hfew
  exact ⟨s, hrun, hresting, hgranted, hexits, hsole⟩

end YfsLab.Lock.Tester
