/-
# The lock tester

`lock_tester` makes its `lock_client`s one after another, and then starts threads that call
through them. Each thread acquires a lock, counts that it holds it, uncounts it and
releases the lock, round after round. `check_grant` and `check_release` exit when two
threads are counted for one lock, and `lock_client` exits when a call does not return `OK`.

Behind the calls stands the whole system: the clients with their concurrent calls, the
connections, the reply window and the lock server. Requests are sent again when a
connection dies, copies of them come late, and calls time out. Here are only the threads,
the counts and `main`.

The threads are those of `test2` to `test5`; `test1` has a single thread.
-/

import YfsLab.Lock.EndToEnd

namespace YfsLab.Lock

open BigEndian Rpc Transition Wire

namespace Tester

/-! ## The threads of a test -/

/-- A thread of a test: the client it calls through, and the lock of each of its rounds. -/
structure Program where
  lc : ClientId
  rounds : List LockId
  deriving DecidableEq, Repr

/-- The threads that `main` creates for a test and joins. -/
abbrev Test := List Program

/-- The lock that the tests are about. -/
def a : LockId := 1

/-- `test2`: each thread has a client of its own. -/
def test2 (nt : ℕ) : Test := (List.range nt).map fun i => { lc := i, rounds := [a] }

/-- `test3`: the same, ten times. -/
def test3 (nt : ℕ) : Test :=
  (List.range nt).map fun i => { lc := i, rounds := List.replicate 10 a }

/-- `test4`: two threads of one client. -/
def test4 : Test := List.replicate 2 { lc := 0, rounds := List.replicate 10 a }

/-- `test5`: some threads of one client, and some of another one. -/
def test5 (nt : ℕ) : Test :=
  (List.range nt).map fun i =>
    { lc := if i < 5 then 0 else 1, rounds := List.replicate 10 a }

/-- The tests with more than one thread, in the order of `main`. -/
def mainTests (nt : ℕ) : List Test := [test2 nt, test3 nt, test4, test5 nt]

/-- Where a thread is in its round. -/
inductive Stage
  /-- before the call of `acquire` -/
  | resting
  | acquiring (k : CallId)
  /-- between `acquire` and `check_grant` -/
  | granted
  /-- between `check_grant` and `check_release` -/
  | holding
  /-- between `check_release` and the call of `release` -/
  | checked
  | releasing (k : CallId)
  deriving DecidableEq, Repr

/-- The call that a thread is in, and its procedure. -/
def Stage.call : Stage → Option (CallId × Int32)
  | .acquiring k => some (k, LockProtocol.acquire)
  | .releasing k => some (k, LockProtocol.release)
  | _ => none

/-- A thread, with the rounds ahead of it, the current one first. -/
structure Caller where
  lc : ClientId := 0
  rounds : List LockId := []
  stage : Stage := .resting
  deriving DecidableEq, Repr

namespace Caller

/-- The thread has returned. -/
def Done (c : Caller) : Prop := c.stage = .resting ∧ c.rounds = []

instance (c : Caller) : Decidable c.Done := inferInstanceAs (Decidable (_ ∧ _))

/-- The procedure that the thread calls next, with the lock, and where it is in the call
with this number. -/
def next (c : Caller) (k : CallId) : Option (Int32 × LockId × Stage) :=
  match c.stage, c.rounds with
  | .resting, lid :: _ => some (LockProtocol.acquire, lid, .acquiring k)
  | .checked, lid :: _ => some (LockProtocol.release, lid, .releasing k)
  | _, _ => none

/-- The call has returned `OK`. -/
def back (c : Caller) : Caller :=
  match c.stage with
  | .acquiring _ => { c with stage := .granted }
  | .releasing _ => { c with stage := .resting, rounds := c.rounds.tail }
  | _ => c

/-- `pthread_create`. -/
def create (program : Option Program) : Caller :=
  match program with
  | some p => { lc := p.lc, rounds := p.rounds }
  | none => {}

end Caller

/-! ## The counts -/

/-- `check_grant`. There is no count when the tester exits. -/
def checkGrant (ct : UInt8 → Int32) (lid : LockId) : Option (UInt8 → Int32) :=
  if ct lid.toUInt8 ≠ 0 then none
  else some (Function.update ct lid.toUInt8 (ct lid.toUInt8 + 1))

/-- `check_release`. -/
def checkRelease (ct : UInt8 → Int32) (lid : LockId) : Option (UInt8 → Int32) :=
  if ct lid.toUInt8 ≠ 1 then none
  else some (Function.update ct lid.toUInt8 (ct lid.toUInt8 - 1))

/-- Why the tester has exited before its end. -/
inductive Exit
  /-- `lock_client` asserts that a call has returned `OK` -/
  | assertion
  /-- `check_grant` has found a lock granted twice -/
  | grantedTwice
  /-- `check_release` has found a lock that is not held -/
  | unHeld
  deriving DecidableEq, Repr

end Tester

/-! ## The tester and the system -/

/-- The tester, and the system that its clients belong to: the tests ahead of `main`, the
number of clients it has made, the call of `bind` that it waits for, the threads of the
current test and the counts. -/
structure Tester where
  world : Net State × List Net.Event
  tests : List Tester.Test
  made : ℕ := 0
  binding : Option CallId := none
  active : ℕ := 0
  callers : ℕ → Tester.Caller := fun _ => {}
  ct : UInt8 → Int32 := fun _ => 0
  exited : Option Tester.Exit := none

namespace Tester

/-- The client that a thread calls through. -/
def client (s : Tester) (t : ℕ) : Client := s.world.1.clients (s.callers t).lc

/-- The call of this number of the thread's client. -/
def frame (s : Tester) (t : ℕ) (k : CallId) : Option Call := (s.client t).frames k

/-- The next test starts. -/
def start (s : Tester) (test : Test) (tests : List Test) : Tester :=
  { s with tests, active := test.length, callers := fun t => .create test[t]? }

/-- A thread goes on. -/
def goOn (s : Tester) (t : ℕ) (c : Caller) : Tester :=
  { s with callers := Function.update s.callers t c }

/-- The tester exits. -/
def exit (s : Tester) (reason : Exit) : Tester := { s with exited := some reason }

/-- The end of `lock_client::acquire` and `lock_client::release`. -/
def returned (s : Tester) (t : ℕ) (res : Int32) : Tester :=
  if res = XxStatus.ok.toInt32 then s.goOn t (s.callers t).back else s.exit .assertion

/-- What the counting of a thread leads to. -/
def counted (s : Tester) (t : ℕ) (stage : Stage) (reason : Exit) :
    Option (UInt8 → Int32) → Tester
  | some ct => { s.goOn t { s.callers t with stage } with ct }
  | none => s.exit reason

/-- The steps of the tester, and the others of the system. -/
inductive Label
  /-- the system goes on, without a new call -/
  | world (label : Net.Label)
  /-- the constructor of the next `lock_client` calls `bind` -/
  | construct (k : CallId)
  /-- `bind` has returned -/
  | constructed
  /-- `main` creates the threads of the next test -/
  | spawn
  /-- a thread calls `acquire` or `release` -/
  | call (t : ℕ) (k : CallId)
  /-- `call` has returned -/
  | back (t : ℕ)
  /-- `check_grant` or `check_release` -/
  | check (t : ℕ)

/-- Does a step of the system begin a call? -/
def starts : Net.Label → Bool
  | .start _ _ _ _ => true
  | _ => false

/-- Has `bind` returned? -/
def isBound (call : Call) : Bool :=
  match call.phase with
  | .bound _ => true
  | _ => false

/-- One step, as long as the tester has not exited. -/
def step (setup : Setup State) (nt : ℕ) (s : Tester) (label : Label) : Option Tester :=
  if s.exited.isSome then none
  else match label with
  | .world label =>
      if starts label then none
      else ((Net.logged setup).step s.world label).map fun world => { s with world }
  | .construct k =>
      if s.made < nt ∧ s.binding = none then
        ((Net.logged setup).step s.world (.start s.made k RpcConst.bind (be32 0))).map
          fun world => { s with world, binding := some k }
      else none
  | .constructed =>
      s.binding.bind fun k =>
        if ((s.world.1.clients s.made).frames k).any isBound then
          some { s with made := s.made + 1, binding := none }
        else none
  | .spawn =>
      match s.tests with
      | [] => none
      | test :: tests =>
          if s.made = nt ∧ ∀ t < s.active, (s.callers t).Done then some (s.start test tests)
          else none
  | .call t k =>
      ((s.callers t).next k).bind fun (proc, lid, stage) =>
        ((Net.logged setup).step s.world
            (.start (s.callers t).lc k proc (lockArgs (s.client t).cltNonce lid))).map
          fun world =>
            if (s.client t).refuses proc then { s with world }.returned t RpcConst.bindFailure
            else { s with world }.goOn t { s.callers t with stage }
  | .back t =>
      (s.callers t).stage.call.bind fun (k, _) =>
        (s.frame t k).bind fun call =>
          call.result.bind fun ret =>
            (callM .lp64 .int ret call.un (0 : Int32)).map fun res => s.returned t res.1
  | .check t =>
      match (s.callers t).stage, (s.callers t).rounds with
      | .granted, lid :: _ =>
          some (s.counted t .holding .grantedTwice (checkGrant s.ct lid))
      | .holding, lid :: _ =>
          some (s.counted t .checked .unHeld (checkRelease s.ct lid))
      | _, _ => none

/-- The tester with `nt` clients and these tests, before it has made any client. -/
def system (setup : Setup State) (nt : ℕ) (tests : List Test) : System Tester Label where
  init := { world := (Net.start setup, []), tests }
  step := step setup nt

/-- The server does not check late copies of requests and does not free replies that are
still to be sent. -/
def calm (s : Tester) : Label → Bool
  | .world label => Net.onServer Net.calm s.world label
  | _ => true

/-! ## What a step can do -/

/-- The steps, each with what enables it and the state it leads to. -/
inductive Moves (setup : Setup State) (nt : ℕ) (s : Tester) : Label → Tester → Prop
  | world {label : Net.Label} {world : Net State × List Net.Event}
      (hstarts : starts label = false)
      (hstep : (Net.logged setup).step s.world label = some world) :
      Moves setup nt s (.world label) { s with world }
  | construct {k : CallId} {world : Net State × List Net.Event} (hmade : s.made < nt)
      (hfree : s.binding = none)
      (hstep : (Net.logged setup).step s.world (.start s.made k RpcConst.bind (be32 0)) =
        some world) :
      Moves setup nt s (.construct k) { s with world, binding := some k }
  | constructed {k : CallId} {call : Call} {ret : Int32} (hbinding : s.binding = some k)
      (hframe : (s.world.1.clients s.made).frames k = some call)
      (hphase : call.phase = .bound ret) :
      Moves setup nt s .constructed { s with made := s.made + 1, binding := none }
  | spawn {test : Test} {tests : List Test} (htests : s.tests = test :: tests)
      (hmade : s.made = nt) (hdone : ∀ t < s.active, (s.callers t).Done) :
      Moves setup nt s .spawn (s.start test tests)
  | call {t : ℕ} {k : CallId} {proc : Int32} {lid : LockId} {stage : Stage}
      {world : Net State × List Net.Event}
      (hnext : (s.callers t).next k = some (proc, lid, stage))
      (hstep : (Net.logged setup).step s.world
        (.start (s.callers t).lc k proc (lockArgs (s.client t).cltNonce lid)) = some world)
      (hrefuses : (s.client t).refuses proc = false) :
      Moves setup nt s (.call t k) ({ s with world }.goOn t { s.callers t with stage })
  | refused {t : ℕ} {k : CallId} {proc : Int32} {lid : LockId} {stage : Stage}
      {world : Net State × List Net.Event}
      (hnext : (s.callers t).next k = some (proc, lid, stage))
      (hstep : (Net.logged setup).step s.world
        (.start (s.callers t).lc k proc (lockArgs (s.client t).cltNonce lid)) = some world)
      (hrefuses : (s.client t).refuses proc = true) :
      Moves setup nt s (.call t k) ({ s with world }.exit .assertion)
  | back {t : ℕ} {k : CallId} {proc : Int32} {call : Call} {ret : Int32} {res : Int32 × Int32}
      (hcall : (s.callers t).stage.call = some (k, proc)) (hframe : s.frame t k = some call)
      (hret : call.result = some ret)
      (hres : callM .lp64 .int ret call.un (0 : Int32) = some res) (hok : res.1 = 0) :
      Moves setup nt s (.back t) (s.goOn t (s.callers t).back)
  | failed {t : ℕ} {k : CallId} {proc : Int32} {call : Call} {ret : Int32}
      {res : Int32 × Int32} (hcall : (s.callers t).stage.call = some (k, proc))
      (hframe : s.frame t k = some call) (hret : call.result = some ret)
      (hres : callM .lp64 .int ret call.un (0 : Int32) = some res) (hbad : res.1 ≠ 0) :
      Moves setup nt s (.back t) (s.exit .assertion)
  | count {t : ℕ} {lid : LockId} {rounds : List LockId}
      (hstage : (s.callers t).stage = .granted) (hrounds : (s.callers t).rounds = lid :: rounds) :
      Moves setup nt s (.check t) (s.counted t .holding .grantedTwice (checkGrant s.ct lid))
  | uncount {t : ℕ} {lid : LockId} {rounds : List LockId}
      (hstage : (s.callers t).stage = .holding) (hrounds : (s.callers t).rounds = lid :: rounds) :
      Moves setup nt s (.check t) (s.counted t .checked .unHeld (checkRelease s.ct lid))

variable {setup : Setup State} {nt : ℕ} {s target : Tester} {label : Label}

theorem live_of_step (hstep : step setup nt s label = some target) : s.exited = none := by
  by_contra hexited
  rw [step.eq_def, if_pos (Option.isSome_iff_ne_none.mpr hexited)] at hstep
  cases hstep

theorem moves_of_step (hstep : step setup nt s label = some target) :
    Moves setup nt s label target := by
  have hlive := live_of_step hstep
  rw [step.eq_def, if_neg (by simp [hlive])] at hstep
  cases label with
  | world label =>
      obtain ⟨hstarts, hmap⟩ := Option.ite_none_left_eq_some.mp hstep
      obtain ⟨world, hworld, rfl⟩ := Option.map_eq_some_iff.mp hmap
      exact .world (by simpa using hstarts) hworld
  | construct k =>
      obtain ⟨⟨hmade, hfree⟩, hmap⟩ := Option.ite_none_right_eq_some.mp hstep
      obtain ⟨world, hworld, rfl⟩ := Option.map_eq_some_iff.mp hmap
      exact .construct hmade hfree hworld
  | constructed =>
      obtain ⟨k, hbinding, hnext⟩ := Option.bind_eq_some_iff.mp hstep
      obtain ⟨hbound, htarget⟩ := Option.ite_none_right_eq_some.mp hnext
      obtain ⟨call, hframe, hphase⟩ := (Option.any_eq_true _ _).mp hbound
      obtain rfl := Option.some.inj htarget
      cases hreturned : call.phase with
      | bound ret => exact .constructed hbinding hframe hreturned
      | _ => simp [isBound, hreturned] at hphase
  | spawn =>
      cases htests : s.tests with
      | nil => simp [htests] at hstep
      | cons test tests =>
          simp only [htests] at hstep
          obtain ⟨⟨hmade, hdone⟩, htarget⟩ := Option.ite_none_right_eq_some.mp hstep
          exact Option.some.inj htarget ▸ .spawn htests hmade hdone
  | call t k =>
      obtain ⟨⟨proc, lid, stage⟩, hnext, hmap⟩ := Option.bind_eq_some_iff.mp hstep
      obtain ⟨world, hworld, htarget⟩ := Option.map_eq_some_iff.mp hmap
      by_cases hrefuses : (s.client t).refuses proc = true
      · obtain rfl : { s with world }.exit .assertion = target := by
          simpa [hrefuses, Tester.returned, RpcConst.bindFailure, XxStatus.toInt32] using htarget
        exact .refused hnext hworld hrefuses
      · obtain rfl : { s with world }.goOn t { s.callers t with stage } = target := by
          simpa [hrefuses] using htarget
        exact .call hnext hworld (by simpa using hrefuses)
  | back t =>
      obtain ⟨⟨k, proc⟩, hcall, hnext⟩ := Option.bind_eq_some_iff.mp hstep
      obtain ⟨call, hframe, hnext⟩ := Option.bind_eq_some_iff.mp hnext
      obtain ⟨ret, hret, hmap⟩ := Option.bind_eq_some_iff.mp hnext
      obtain ⟨res, hres, rfl⟩ := Option.map_eq_some_iff.mp hmap
      by_cases hok : res.1 = XxStatus.ok.toInt32
      · rw [Tester.returned, if_pos hok]
        exact .back hcall hframe hret hres hok
      · rw [Tester.returned, if_neg hok]
        exact .failed hcall hframe hret hres hok
  | check t =>
      cases hrounds : (s.callers t).rounds with
      | nil => cases hstage : (s.callers t).stage <;> simp [hrounds, hstage] at hstep
      | cons lid rounds =>
          cases hstage : (s.callers t).stage with
          | granted =>
              obtain rfl : s.counted t .holding .grantedTwice (checkGrant s.ct lid) = target := by
                simpa [hstage, hrounds] using hstep
              exact .count hstage hrounds
          | holding =>
              obtain rfl : s.counted t .checked .unHeld (checkRelease s.ct lid) = target := by
                simpa [hstage, hrounds] using hstep
              exact .uncount hstage hrounds
          | resting | acquiring _ | checked | releasing _ => simp [hrounds, hstage] at hstep

/-- The step of the system that a step takes. -/
theorem Moves.world_step (hmoves : Moves setup nt s label target) (hcalm : calm s label = true) :
    target.world = s.world ∨ ∃ part, Net.onServer Net.calm s.world part = true ∧
      (Net.logged setup).step s.world part = some target.world := by
  cases hmoves with
  | world _ hstep => exact .inr ⟨_, hcalm, hstep⟩
  | construct _ _ hstep | call _ hstep | refused _ hstep => exact .inr ⟨_, rfl, hstep⟩
  | constructed | spawn | back | failed => exact .inl rfl
  | count =>
      left
      cases checkGrant s.ct _ <;> rfl
  | uncount =>
      left
      cases checkRelease s.ct _ <;> rfl

/-- What the system does in a run of the tester is a run of the system, in which the server
keeps to its part. -/
theorem world_of_run {tests : List Test} {labels : List Label}
    (hrun : (system setup nt tests).Run (fun s label => calm s label = true) labels s) :
    ∃ parts, (Net.logged setup).Run
      (fun source part => Net.onServer Net.calm source part = true) parts s.world := by
  refine hrun.project Tester.world rfl ?_
  intro labels source label target _ hcalm hstep
  exact (moves_of_step hstep).world_step hcalm

end Tester

end YfsLab.Lock
