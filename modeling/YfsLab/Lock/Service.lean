/-
# The lock server behind the RPC server

`lock_smain` registers three methods of one `lock_server`, and a dispatch thread that
runs one of them is a thread inside the monitor: `acquire` may leave it waiting there,
and then the dispatch goes on when the thread gets the mutex back.

The arguments of all three are the id of the client and the id of the lock. What the
methods do to the ledger of the lock server is listed once; the proofs about runs of
the whole system start from this list.
-/

import YfsLab.Lock.MutualExclusion
import YfsLab.Rpc.ServerSteps

namespace YfsLab.Lock

open BigEndian Ownership Rpc Transition Wire

/-! ## The protocol -/

namespace LockProtocol

def acquire : Int32 := 0x7001
def release : Int32 := 0x7002
def stat : Int32 := 0x7004

end LockProtocol

/-- The arguments of `lock_client`'s calls: `cl->id()`, which is unsigned, and the lock. -/
def lockArgs (clt : UInt32) (lid : LockId) : Bytes :=
  encodeAll .lp64 [.uint, .ulonglong] (clt, lid, ())

/-- The two arguments of a method. -/
def lockVals (args : Vals .lp64 [.int, .ulonglong]) : Int32 × LockId := (args.1, args.2.1)

/-- What `h1::fn` reads for the methods of `lock_server`, whose first argument is an
`int`. -/
def lockArguments (request : Request) : Option (Option (Int32 × LockId)) :=
  (request.arguments [.int, .ulonglong]).map (Option.map lockVals)

/-- The methods read what `lock_client` has sent. -/
theorem lockArguments_eq {request : Request} {clt : UInt32} {lid : LockId}
    (hargs : request.args = lockArgs clt lid) :
    lockArguments request = some (some (clt.toInt32, lid)) := by
  have hbytes : request.args = encodeAll .lp64 [.int, .ulonglong] (clt.toInt32, lid, ()) := hargs
  have hframed := request.framed_pdu
  have hlength : request.pdu.length < 2 ^ 31 := by
    have htwelve : (lockArgs clt lid).length = 12 := rfl
    rw [hframed.length_eq, hargs, htwelve]
    decide
  obtain ⟨rest, hread, hdone⟩ := (reads_extractAll .lp64 [.int, .ulonglong]
    (clt.toInt32, lid, ())).okdone (hframed.inRange hlength) rfl
      (hbytes ▸ hframed.drop_rpcHeaderSz)
  have harguments : request.arguments [.int, .ulonglong] =
      some (if rest.okdone then some (clt.toInt32, lid, ()) else none) :=
    congrArg (Option.map _) hread
  rw [lockArguments, harguments, if_pos hdone]
  rfl

/-! ## The registered methods -/

/-- A method returns its status, and `h1::fn` marshals what is in `r`. -/
def answer (status : XxStatus) (r : Int32) : Outcome where
  ret := status.toInt32
  result := Ty.int.encode .lp64 r

/-- A method is entered with these arguments. `acquire` and `release` do not write the
result `r`. -/
def enterMethod (state : State) (d : DispatchId) (proc : Int32) (clt : Int32) (lid : LockId)
    (choice : ℕ) : Option (State × Option Outcome) :=
  if proc = LockProtocol.acquire then
    (step state (.acquire d clt lid)).map fun target =>
      (target, (state.server.acquire d clt lid).2.map fun status =>
        answer status (Int32.ofNat choice))
  else if proc = LockProtocol.release then
    (step state (.release d clt lid choice)).map fun target =>
      (target, some (answer (state.server.release clt lid choice).2.1 (Int32.ofNat choice)))
  else if proc = LockProtocol.stat then
    (step state (.stat d clt lid)).map fun target =>
      (target, some (answer state.server.stat.2 (Int32.ofInt state.server.stat.1)))
  else none

/-- The service of `lock_smain`. A thread that wakes up without a signal is chosen by
the scheduler. -/
def lockService : Service State where
  init := {}
  registered proc :=
    proc == LockProtocol.stat || proc == LockProtocol.acquire || proc == LockProtocol.release
  enter state d request choice :=
    (lockArguments request).bind fun args =>
      match args with
      | none => some (state, some { ret := RpcConst.unmarshalArgsFailure })
      | some (clt, lid) => enterMethod state d request.proc clt lid choice
  resume state d choice :=
    match state.threads d with
    | .woken clt lid =>
        (step state (.resume d)).map fun target =>
          (target, (state.server.acquireLoop d clt lid).2.map fun status =>
            answer status (Int32.ofNat choice))
    | _ => none
  stir state choice := step state (.wake choice)

/-! ## What the methods do -/

/-- What a thread inside `acquire` waits for. -/
def Thread.wants : Thread → Option (Int32 × LockId)
  | .idle => none
  | .waiting clt lid | .woken clt lid => some (clt, lid)

/-- What a section of a method with these arguments does to the ledger and to the
threads. -/
structure Called (state target : State) (d : DispatchId) (proc : Int32)
    (args : Int32 × LockId) (out : Option Outcome) : Prop where
  ledger : target.server.holder = state.server.holder ∨
    (proc = LockProtocol.acquire ∧ state.server.holder args.2 = none ∧
      target.server.holder = Function.update state.server.holder args.2 (some args.1)) ∨
    (proc = LockProtocol.release ∧
      (∀ other, state.server.holder args.2 = some other → other = args.1) ∧
      target.server.holder = Function.update state.server.holder args.2 none)
  granted : proc = LockProtocol.acquire → ∀ outcome, out = some outcome →
    target.server.holder args.2 = some args.1
  threads : ∀ t w, (target.threads t).wants = some w →
    (t ≠ d ∧ (state.threads t).wants = some w) ∨
      (t = d ∧ out = none ∧ proc = LockProtocol.acquire ∧ w = args)
  acquires : proc = LockProtocol.acquire →
    (out = none ∧ target.server.holder = state.server.holder) ∨
      ∃ r, out = some (answer .ok r) ∧ state.server.holder args.2 = none ∧
        target.server.holder = Function.update state.server.holder args.2 (some args.1)
  releases : proc = LockProtocol.release → state.server.holder args.2 = some args.1 →
    ∃ r, out = some (answer .ok r) ∧
      target.server.holder = Function.update state.server.holder args.2 none

/-- A section of `acquire` that does what `acquire` may do to the ledger. -/
theorem called_settle {state : State} {d : DispatchId} {clt : Int32} {lid : LockId}
    {result : LockServer × Option XxStatus} {r : Int32}
    (hspec : (result.2 = none ∧ result.1.holder = state.server.holder) ∨
      (result.2 = some .ok ∧ state.server.holder lid = none ∧
        result.1.holder = Function.update state.server.holder lid (some clt))) :
    Called state (state.settle d clt lid result) d LockProtocol.acquire (clt, lid)
      (result.2.map fun status => answer status r) := by
  have hthreads : ∀ t w, ((state.settle d clt lid result).threads t).wants = some w →
      (t ≠ d ∧ (state.threads t).wants = some w) ∨
        (t = d ∧ result.2 = none ∧ w = (clt, lid)) := by
    intro t w hwants
    by_cases ht : t = d
    · subst ht
      right
      cases hresult : result.2 with
      | none =>
          have hw : w = (clt, lid) := by
            simpa [State.settle, hresult, Thread.wants, eq_comm] using hwants
          exact ⟨rfl, rfl, hw⟩
      | some status => simp [State.settle, hresult, Thread.wants] at hwants
    · exact .inl ⟨ht, by simpa [State.settle, Function.update_of_ne ht] using hwants⟩
  have hother : LockProtocol.acquire ≠ LockProtocol.release := by decide
  rcases hspec with ⟨hresult, hholder⟩ | ⟨hresult, hfree, hholder⟩
  · refine ⟨.inl hholder, fun _ outcome hout => ?_, fun t w hwants => ?_,
      fun _ => .inl ⟨by rw [hresult]; rfl, hholder⟩, fun hsame => absurd hsame hother⟩
    · simp [hresult] at hout
    · rcases hthreads t w hwants with hother | ⟨rfl, -, hw⟩
      · exact .inl hother
      · exact .inr ⟨rfl, by rw [hresult]; rfl, rfl, hw⟩
  · refine ⟨.inr (.inl ⟨rfl, hfree, hholder⟩), fun _ _ _ => ?_, fun t w hwants => ?_,
      fun _ => .inr ⟨r, by rw [hresult]; rfl, hfree, hholder⟩,
      fun hsame => absurd hsame hother⟩
    · exact (congrFun hholder lid).trans (Function.update_self ..)
    · rcases hthreads t w hwants with hother | ⟨-, hnone, -⟩
      · exact .inl hother
      · rw [hresult] at hnone
        cases hnone

/-- A signal wakes a thread up, and does not change what it waits for. -/
theorem wants_wakeUp (threads : ThreadId → Thread) (woken t : ThreadId) :
    (State.wakeUp threads woken t).wants = (threads t).wants := by
  cases hwoken : threads woken with
  | waiting clt lid =>
      by_cases ht : t = woken
      · subst ht
        simp [State.wakeUp, hwoken, Thread.wants]
      · simp [State.wakeUp, hwoken, Function.update_of_ne ht]
  | idle | woken _ _ => simp [State.wakeUp, hwoken]

theorem enterMethod_spec {state target : State} {d : DispatchId} {proc clt : Int32}
    {lid : LockId} {choice : ℕ} {out : Option Outcome}
    (henter : enterMethod state d proc clt lid choice = some (target, out)) :
    Called state target d proc (clt, lid) out := by
  unfold enterMethod at henter
  split_ifs at henter with hacquire hrelease hstat
  · subst hacquire
    obtain ⟨settled, hstep, heq⟩ := Option.map_eq_some_iff.mp henter
    obtain ⟨rfl, rfl⟩ := Prod.mk.inj heq
    cases hthread : state.threads d with
    | idle =>
        obtain rfl : state.settle d clt lid (state.server.acquire d clt lid) = settled := by
          simpa [step, hthread] using hstep
        exact called_settle (state.server.acquire_spec d clt lid)
    | waiting _ _ | woken _ _ => simp [step, hthread] at hstep
  · subst hrelease
    obtain ⟨released, hstep, heq⟩ := Option.map_eq_some_iff.mp henter
    obtain ⟨rfl, rfl⟩ := Prod.mk.inj heq
    cases hthread : state.threads d with
    | idle =>
        simp only [step, hthread, Option.some.injEq] at hstep
        subst hstep
        have hthreads : ∀ t w, ((((state.server.release clt lid choice).2.2.map
            (State.wakeUp state.threads)).getD state.threads) t).wants = some w →
            t ≠ d ∧ (state.threads t).wants = some w := by
          intro t w hwants
          have hsame : (state.threads t).wants = some w := by
            cases hwoken : (state.server.release clt lid choice).2.2 with
            | none => simpa [hwoken] using hwants
            | some woken => simpa [hwoken, wants_wakeUp] using hwants
          refine ⟨?_, hsame⟩
          rintro rfl
          rw [hthread] at hsame
          cases hsame
        refine ⟨?_, fun hsame => absurd hsame hacquire,
          fun t w hwants => .inl (hthreads t w hwants), fun hsame => absurd hsame hacquire,
          fun _ howned => ?_⟩
        · rcases state.server.release_spec clt lid choice with ⟨-, hserver⟩ |
            ⟨-, howned, hholder⟩
          · exact .inl (congrArg LockServer.holder hserver)
          · exact .inr (.inr ⟨rfl, howned, hholder⟩)
        · obtain ⟨hok, hholder⟩ := state.server.release_of_holder howned choice
          exact ⟨Int32.ofNat choice, by rw [hok], hholder⟩
    | waiting _ _ | woken _ _ => simp [step, hthread] at hstep
  · subst hstat
    obtain ⟨_, hstep, heq⟩ := Option.map_eq_some_iff.mp henter
    obtain ⟨rfl, rfl⟩ := Prod.mk.inj heq
    cases hthread : state.threads d with
    | idle =>
        obtain rfl : state = _ := by simpa [step, hthread] using hstep
        refine ⟨.inl rfl, fun hsame => absurd hsame hacquire, fun t w hwants => .inl ⟨?_, hwants⟩,
          fun hsame => absurd hsame hacquire, fun hsame => absurd hsame hrelease⟩
        rintro rfl
        rw [hthread] at hwants
        cases hwants
    | waiting _ _ | woken _ _ => simp [step, hthread] at hstep

/-- A handler of the lock server is entered: it refuses arguments that it cannot read,
or it is a section of the method with the arguments that it has read. -/
theorem enter_spec {state target : State} {d : DispatchId} {request : Request} {choice : ℕ}
    {out : Option Outcome}
    (henter : lockService.enter state d request choice = some (target, out)) :
    (lockArguments request = some none ∧ target = state ∧
      ∀ outcome, out = some outcome → outcome.ret ≠ 0) ∨
      ∃ args, lockArguments request = some (some args) ∧
        Called state target d request.proc args out := by
  obtain ⟨args, hargs, hnext⟩ := Option.bind_eq_some_iff.mp henter
  cases args with
  | none =>
      obtain ⟨rfl, rfl⟩ := Prod.mk.inj (Option.some.inj hnext)
      refine .inl ⟨hargs, rfl, fun outcome hout => ?_⟩
      cases hout
      decide
  | some args => exact .inr ⟨args, hargs, enterMethod_spec hnext⟩

/-- A handler that waits is in `acquire`, and goes on with it. -/
theorem resume_spec {state target : State} {d : DispatchId} {choice : ℕ}
    {out : Option Outcome} (hresume : lockService.resume state d choice = some (target, out)) :
    ∃ args, (state.threads d).wants = some args ∧
      Called state target d LockProtocol.acquire args out := by
  cases hthread : state.threads d with
  | woken clt lid =>
      have hnext : ((step state (.resume d)).map fun target =>
          (target, (state.server.acquireLoop d clt lid).2.map fun status =>
            answer status (Int32.ofNat choice))) = some (target, out) := by
        simpa only [lockService, hthread] using hresume
      obtain ⟨settled, hstep, heq⟩ := Option.map_eq_some_iff.mp hnext
      obtain ⟨rfl, rfl⟩ := Prod.mk.inj heq
      obtain rfl : state.settle d clt lid (state.server.acquireLoop d clt lid) = settled := by
        simpa [step, hthread] using hstep
      exact ⟨(clt, lid), rfl, called_settle (state.server.acquireLoop_spec d clt lid)⟩
  | idle | waiting _ _ => simp [lockService, hthread] at hresume

/-- A wake-up without a signal. -/
theorem stir_spec {state target : State} {choice : ℕ}
    (hstir : lockService.stir state choice = some target) :
    target.server.holder = state.server.holder ∧
      ∀ t w, (target.threads t).wants = some w → (state.threads t).wants = some w := by
  have hstep : step state (.wake choice) = some target := hstir
  cases hthread : state.threads choice with
  | waiting clt lid =>
      simp only [step, hthread, Option.some.injEq] at hstep
      subst hstep
      refine ⟨LockServer.holder_leaveCond .., fun t w hwants => ?_⟩
      by_cases ht : t = choice
      · subst ht
        simpa [hthread, Thread.wants] using hwants
      · simpa [Function.update_of_ne ht] using hwants
  | idle | woken _ _ => simp [step, hthread] at hstep

/-! ## Dispatches inside the lock server -/

/-- The client that holds each lock. -/
def ledger (s : Rpc.Server State) : Ledger LockId Int32 := s.service.server.holder

/-- Threads that wait inside `acquire` are dispatches of calls of `acquire`, and wait for
what these ask for. -/
def Waits (s : Rpc.Server State) : Prop :=
  ∀ t w, (s.service.threads t).wants = some w → ∃ f, s.frames t = some f ∧
    f.stage = .running ∧ f.request.proc = LockProtocol.acquire ∧
    lockArguments f.request = some (some w)

theorem waits_start (nonce : UInt32) : Waits (Server.start lockService nonce) := by
  intro t w hwants
  cases hwants

/-- What a handler of the RPC server does: it is that of `bind` or refuses its arguments,
or it is a section of a method. -/
theorem called_of_handles {s : Rpc.Server State} (hwaits : Waits s) {d : DispatchId}
    {f : Dispatch} {area : Area} {result : State × Option Outcome} {label : Server.Label}
    (hf : s.frames d = some f) (hhandles : Server.Handles lockService s d f area result label) :
    (result.1 = s.service ∧ f.stage = .run ∧
      (f.request.proc = RpcConst.bind ∨ lockArguments f.request = some none) ∧
      ∀ outcome, result.2 = some outcome → f.request.proc = LockProtocol.acquire →
        outcome.ret ≠ 0) ∨
    ∃ args, lockArguments f.request = some (some args) ∧
      Called s.service result.1 d f.request.proc args result.2 := by
  cases hhandles with
  | entered hstage hresult =>
      unfold Server.handler at hresult
      split_ifs at hresult with hbind
      · obtain ⟨outcome, -, rfl⟩ := Option.map_eq_some_iff.mp hresult
        refine .inl ⟨rfl, hstage, .inl hbind, fun _ _ hacquire => ?_⟩
        rw [hbind] at hacquire
        cases hacquire
      · rcases enter_spec hresult with ⟨hargs, hsame, hrefused⟩ | hcalled
        · exact .inl ⟨hsame, hstage, .inr hargs, fun outcome hout _ => hrefused outcome hout⟩
        · exact .inr hcalled
  | resumed _ hresult =>
      obtain ⟨args, hwants, hcalled⟩ := resume_spec hresult
      obtain ⟨g, hg, -, hproc, hargs⟩ := hwaits d args hwants
      obtain rfl := Option.some.inj (hf.symm.trans hg)
      exact .inr ⟨args, hargs, by rwa [hproc]⟩

/-- A handler that has run leaves those waiting that wait. -/
theorem waits_of_handles {s base : Rpc.Server State} (hwaits : Waits s) {d : DispatchId}
    {f f' : Dispatch} {area : Area} {result : State × Option Outcome} {label : Server.Label}
    (hf : s.frames d = some f) (hhandles : Server.Handles lockService s d f area result label)
    (hbase : base.frames = s.frames) (hservice : base.service = result.1)
    (hrequest : f'.request = f.request) (hstage : result.2 = none → f'.stage = .running) :
    Waits (base.put d f') := by
  intro t w hwants
  have hwants' : (result.1.threads t).wants = some w := hservice ▸ hwants
  -- another dispatch that has been waiting
  have hother : t ≠ d → (s.service.threads t).wants = some w →
      ∃ g, (base.put d f').frames t = some g ∧ g.stage = .running ∧
        g.request.proc = LockProtocol.acquire ∧ lockArguments g.request = some (some w) := by
    intro ht hold
    rw [Server.frames_put_of_ne base ht, hbase]
    exact hwaits t w hold
  rcases called_of_handles hwaits hf hhandles with ⟨hsame, hrun, -⟩ | ⟨args, hargs, hcalled⟩
  · rw [hsame] at hwants'
    refine hother ?_ hwants'
    rintro rfl
    obtain ⟨g, hg, hrunning, -⟩ := hwaits t w hwants'
    obtain rfl := Option.some.inj (hf.symm.trans hg)
    rw [hrun] at hrunning
    cases hrunning
  · rcases hcalled.threads t w hwants' with ⟨ht, hold⟩ | ⟨rfl, hnone, hproc, rfl⟩
    · exact hother ht hold
    · refine ⟨f', Server.frames_put_self .., hstage hnone, ?_, ?_⟩
      · rw [hrequest, hproc]
      · rw [hrequest, hargs]

theorem Waits.section {s target : Rpc.Server State} {label : Server.Label} (h : Waits s)
    (hsection : Server.Section lockService s label target) : Waits target := by
  -- a section at another stage keeps the dispatches that wait
  have hkept : ∀ {base : Rpc.Server State} {d : DispatchId} {g g' : Dispatch},
      base.frames = s.frames → base.service = s.service → s.frames d = some g →
      g'.request = g.request → g.stage ≠ .running → Waits (base.put d g') := by
    intro base d g g' hbase hservice hg hrequest hstage t w hwants
    have hwants' : (s.service.threads t).wants = some w := hservice ▸ hwants
    obtain ⟨f, hf, hrunning, hrest⟩ := h t w hwants'
    have ht : t ≠ d := by
      rintro rfl
      obtain rfl := Option.some.inj (hf.symm.trans hg)
      exact hstage hrunning
    exact ⟨f, by rw [Server.frames_put_of_ne base ht, hbase, hf], hrunning, hrest⟩
  cases hsection with
  | dropped => exact h
  | @received d _ _ _ hfresh =>
      intro t w hwants
      obtain ⟨f, hf, hrest⟩ := h t w hwants
      have ht : t ≠ d := by
        rintro rfl
        rw [hfresh] at hf
        cases hf
      exact ⟨f, by rw [Server.frames_put_of_ne s ht, hf], hrest⟩
  | @checked d f hf hstage =>
      refine hkept rfl rfl hf ?_ (by simp [hstage])
      cases (s.store.checkduplicateAndUpdate f.request.clt f.request.xid f.request.xidRep).2 <;>
        rfl
  | waits hf hhandles => exact waits_of_handles h hf hhandles rfl rfl rfl fun _ => rfl
  | returned hf hhandles => exact waits_of_handles h hf hhandles rfl rfl rfl nofun
  | stirred hstir =>
      intro t w hwants
      exact h t w ((stir_spec hstir).2 t w hwants)
  | old hf hstage | unregistered hf hstage | vetted hf hstage | enrolled hf hstage
  | connected hf hstage | recorded hf hstage | switched hf hstage | stays hf hstage
  | sent hf hstage | refused hf hstage => exact hkept rfl rfl hf rfl (by simp [hstage])

theorem waits_of_run {nonce : UInt32}
    {guard : Rpc.Server State × List Server.Event → Server.Label → Prop}
    {labels : List Server.Label} {reached : Rpc.Server State × List Server.Event}
    (hrun : (Server.logged lockService nonce).Run guard labels reached) : Waits reached.1 := by
  refine hrun.invariant (fun reached => Waits reached.1) (waits_start nonce) ?_
  intro labels source label target _ h _ hstep
  exact h.section (Server.section_of_step (System.recorded_step_eq_some.mp hstep).1)

/-- A section of the server leaves the ledger alone, or it is a section of `acquire` that
is granted a free lock, or it enters `release`, which gives back a lock of the client. -/
theorem ledger_of_section {s target : Rpc.Server State} {label : Server.Label}
    (hwaits : Waits s) (hsection : Server.Section lockService s label target) :
    ledger target = ledger s ∨
    ∃ d f args, s.frames d = some f ∧ lockArguments f.request = some (some args) ∧
      ((ledger s args.2 = none ∧
          ledger target = Function.update (ledger s) args.2 (some args.1)) ∨
        (f.stage = .run ∧ (∃ choice area, label = .enter d choice area) ∧
          f.request.proc = LockProtocol.release ∧
          (∀ other, ledger s args.2 = some other → other = args.1) ∧
          ledger target = Function.update (ledger s) args.2 none)) := by
  rcases Server.service_of_section hsection with hsame |
    ⟨d, f, area, result, hf, hhandles, hresult⟩ | ⟨choice, hstir⟩
  · exact .inl (by rw [ledger, hsame]; rfl)
  · have hledger : ledger target = result.1.server.holder := by rw [ledger, hresult]
    rw [hledger]
    rcases called_of_handles hwaits hf hhandles with ⟨hsame, -⟩ | ⟨args, hargs, hcalled⟩
    · exact .inl (by rw [hsame]; rfl)
    · rcases hcalled.ledger with hsame | ⟨-, hfree, hgranted⟩ | ⟨hproc, howned, hreturned⟩
      · exact .inl hsame
      · exact .inr ⟨d, f, args, hf, hargs, .inl ⟨hfree, hgranted⟩⟩
      · refine .inr ⟨d, f, args, hf, hargs, .inr ?_⟩
        cases hhandles with
        | entered hstage => exact ⟨hstage, ⟨_, _, rfl⟩, hproc, howned, hreturned⟩
        | resumed hstage hresume =>
            -- a handler that goes on is in `acquire`
            obtain ⟨w, hwants, -⟩ := resume_spec hresume
            obtain ⟨g, hg, -, hacquire, -⟩ := hwaits d w hwants
            obtain rfl := Option.some.inj (hf.symm.trans hg)
            rw [hacquire] at hproc
            cases hproc
  · exact .inl (stir_spec hstir).1

end YfsLab.Lock
