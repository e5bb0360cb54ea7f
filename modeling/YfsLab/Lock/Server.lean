/-
# The lock server

`lock_server` keeps one `lock_handle` for each lock id it has ever been asked
for, all of them under one mutex. `acquire` waits on the condition variable of
its handle while the lock is taken, `release` hands a lock back and signals one
waiter. The mutex-protected sections are the steps here: a section ends where
the code returns or where `pthread_cond_wait` lets go of the mutex, and a woken
thread runs one more section when it gets the mutex back.

The condition variable is the list of the threads blocked on it. A signal picks
one of them, and a thread may also wake up without any signal.
-/

import Mathlib.Data.Int.Notation
import Mathlib.Logic.Function.Basic
import YfsLab.Foundations.Transition

namespace YfsLab.Lock

open Transition

/-! ## The protocol's constants -/

/-- `lock_protocol::lockid_t`. -/
abbrev LockId := UInt64

/-- The threads that call into the server. -/
abbrev ThreadId := ℕ

/-- `lock_protocol::xxstatus`. -/
inductive XxStatus
  | ok | retry | rpcerr | noent | ioerr
  deriving DecidableEq, Repr

/-- The numbers the enumeration stands for. -/
def XxStatus.toInt32 : XxStatus → Int32
  | .ok => 0
  | .retry => 1
  | .rpcerr => 2
  | .noent => 3
  | .ioerr => 4

/-! ## The monitor's data -/

/-- `lock_state`. -/
inductive LockState
  | free | locked
  deriving DecidableEq, Repr

/-- `lock_handle`, with the threads blocked on its condition variable. -/
structure LockHandle where
  state : LockState := .free
  clt : Int32 := -1
  cond : List ThreadId := []
  deriving DecidableEq, Repr

/-- `lock_server`: the handles created so far and the count `stat` reports. -/
structure LockServer where
  locks : LockId → Option LockHandle := fun _ => none
  nacquire : ℤ := 0

namespace LockServer

/-- `locks[lid]`, where a missing entry reads as a fresh handle. -/
def handle (server : LockServer) (lid : LockId) : LockHandle :=
  (server.locks lid).getD {}

/-- Overwrite the handle of one lock. -/
def put (server : LockServer) (lid : LockId) (lh : LockHandle) : LockServer :=
  { server with locks := Function.update server.locks lid (some lh) }

/-- `if (locks.find(lid) == locks.end()) locks.emplace(lid, lock_handle())`. -/
def emplace (server : LockServer) (lid : LockId) : LockServer :=
  match server.locks lid with
  | none => server.put lid {}
  | some _ => server

/-- The part of `acquire` from the test of the loop condition: either the thread
joins the condition variable, or it takes the lock and returns `OK`. -/
def acquireLoop (server : LockServer) (thread : ThreadId) (clt : Int32) (lid : LockId) :
    LockServer × Option XxStatus :=
  let lh := server.handle lid
  if lh.state ≠ .free then
    (server.put lid { lh with cond := lh.cond ++ [thread] }, none)
  else
    ({ server with nacquire := server.nacquire + 1 }.put lid
      { lh with state := .locked, clt := clt }, some .ok)

/-- The first section of `acquire`. -/
def acquire (server : LockServer) (thread : ThreadId) (clt : Int32) (lid : LockId) :
    LockServer × Option XxStatus :=
  (server.emplace lid).acquireLoop thread clt lid

/-- The waiter `pthread_cond_signal` wakes up, chosen by the scheduler: one of
the threads blocked on the condition variable, if there is any. -/
def signalled (lh : LockHandle) (choice : ℕ) : Option ThreadId :=
  lh.cond[choice % lh.cond.length]?

/-- `release`: its status and the waiter it signals. -/
def release (server : LockServer) (clt : Int32) (lid : LockId) (choice : ℕ) :
    LockServer × XxStatus × Option ThreadId :=
  match server.locks lid with
  | some lh =>
      if lh.clt ≠ clt then (server, .rpcerr, none)
      else
        ({ server with nacquire := server.nacquire - 1 }.put lid
          { state := .free, clt := -1,
            cond := lh.cond.eraseIdx (choice % lh.cond.length) },
          .ok, signalled lh choice)
  | none => (server, .rpcerr, none)

/-- A thread leaves the condition variable of a lock without being signalled. -/
def leaveCond (server : LockServer) (thread : ThreadId) (lid : LockId) : LockServer :=
  let lh := server.handle lid
  server.put lid { lh with cond := lh.cond.erase thread }

/-- `stat` reports the counter and returns `OK`. -/
def stat (server : LockServer) : ℤ × XxStatus := (server.nacquire, .ok)

end LockServer

/-! ## Threads in the monitor -/

/-- Where a thread is between two sections. -/
inductive Thread
  /-- Outside the server's methods. -/
  | idle
  /-- Blocked in `pthread_cond_wait` inside `acquire`. -/
  | waiting (clt : Int32) (lid : LockId)
  /-- Woken up, on its way back to the mutex. -/
  | woken (clt : Int32) (lid : LockId)
  deriving DecidableEq, Repr

/-- The server and the threads inside it. -/
structure State where
  server : LockServer := {}
  threads : ThreadId → Thread := fun _ => .idle

namespace State

/-- A section of `acquire` has run: its thread is outside again if it returned,
and blocked otherwise. -/
def settle (state : State) (thread : ThreadId) (clt : Int32) (lid : LockId)
    (result : LockServer × Option XxStatus) : State where
  server := result.1
  threads := Function.update state.threads thread
    (match result.2 with
      | some _ => .idle
      | none => .waiting clt lid)

/-- A waiter picked by a signal is on its way back to the mutex. -/
def wakeUp (threads : ThreadId → Thread) (thread : ThreadId) : ThreadId → Thread :=
  match threads thread with
  | .waiting clt lid => Function.update threads thread (.woken clt lid)
  | _ => threads

end State

/-- The sections, together with what the scheduler chooses. -/
inductive Label
  | acquire (thread : ThreadId) (clt : Int32) (lid : LockId)
  | wake (thread : ThreadId)
  | resume (thread : ThreadId)
  | release (thread : ThreadId) (clt : Int32) (lid : LockId) (choice : ℕ)
  | stat (thread : ThreadId) (clt : Int32) (lid : LockId)

/-- One mutex-protected section, or one wake-up without a signal. -/
def step (state : State) : Label → Option State
  | .acquire thread clt lid =>
      match state.threads thread with
      | .idle => some (state.settle thread clt lid (state.server.acquire thread clt lid))
      | _ => none
  | .wake thread =>
      match state.threads thread with
      | .waiting clt lid =>
          some { server := state.server.leaveCond thread lid
                 threads := Function.update state.threads thread (.woken clt lid) }
      | _ => none
  | .resume thread =>
      match state.threads thread with
      | .woken clt lid =>
          some (state.settle thread clt lid (state.server.acquireLoop thread clt lid))
      | _ => none
  | .release thread clt lid choice =>
      match state.threads thread with
      | .idle =>
          let result := state.server.release clt lid choice
          some { server := result.1
                 threads := (result.2.2.map (State.wakeUp state.threads)).getD state.threads }
      | _ => none
  | .stat thread _ _ =>
      match state.threads thread with
      | .idle => some state
      | _ => none

/-- The lock server, started with no locks and no callers. -/
def system : System State Label where
  init := {}
  step := step

/-! ## What a step can do -/

/-- The steps of the monitor, each with what enables it and the state it leads to. -/
inductive Moves (state : State) : Label → State → Prop
  | acquire (thread : ThreadId) (clt : Int32) (lid : LockId)
      (outside : state.threads thread = .idle) :
      Moves state (.acquire thread clt lid)
        (state.settle thread clt lid (state.server.acquire thread clt lid))
  | wake (thread : ThreadId) (clt : Int32) (lid : LockId)
      (blocked : state.threads thread = .waiting clt lid) :
      Moves state (.wake thread)
        { server := state.server.leaveCond thread lid
          threads := Function.update state.threads thread (.woken clt lid) }
  | resume (thread : ThreadId) (clt : Int32) (lid : LockId)
      (awake : state.threads thread = .woken clt lid) :
      Moves state (.resume thread)
        (state.settle thread clt lid (state.server.acquireLoop thread clt lid))
  | release (thread : ThreadId) (clt : Int32) (lid : LockId) (choice : ℕ)
      (outside : state.threads thread = .idle) :
      Moves state (.release thread clt lid choice)
        { server := (state.server.release clt lid choice).1
          threads := ((state.server.release clt lid choice).2.2.map
            (State.wakeUp state.threads)).getD state.threads }
  | stat (thread : ThreadId) (clt : Int32) (lid : LockId)
      (outside : state.threads thread = .idle) : Moves state (.stat thread clt lid) state

theorem moves_of_step {state target : State} {label : Label}
    (hstep : system.step state label = some target) : Moves state label target := by
  cases label with
  | acquire thread clt lid =>
      cases hthread : state.threads thread with
      | idle =>
          obtain rfl : state.settle thread clt lid (state.server.acquire thread clt lid) =
            target := by simpa [system, step, hthread] using hstep
          exact .acquire thread clt lid hthread
      | waiting _ _ | woken _ _ => simp [system, step, hthread] at hstep
  | wake thread =>
      cases hthread : state.threads thread with
      | waiting clt lid =>
          simp only [system, step, hthread, Option.some.injEq] at hstep
          exact hstep ▸ .wake thread clt lid hthread
      | idle | woken _ _ => simp [system, step, hthread] at hstep
  | resume thread =>
      cases hthread : state.threads thread with
      | woken clt lid =>
          obtain rfl : state.settle thread clt lid
            (state.server.acquireLoop thread clt lid) = target := by
              simpa [system, step, hthread] using hstep
          exact .resume thread clt lid hthread
      | idle | waiting _ _ => simp [system, step, hthread] at hstep
  | release thread clt lid choice =>
      cases hthread : state.threads thread with
      | idle =>
          simp only [system, step, hthread, Option.some.injEq] at hstep
          exact hstep ▸ .release thread clt lid choice hthread
      | waiting _ _ | woken _ _ => simp [system, step, hthread] at hstep
  | stat thread clt lid =>
      cases hthread : state.threads thread with
      | idle =>
          obtain rfl : state = target := by simpa [system, step, hthread] using hstep
          exact .stat thread clt lid hthread
      | waiting _ _ | woken _ _ => simp [system, step, hthread] at hstep

/-! ## The handles an operation leaves -/

namespace LockServer

theorem handle_put (server : LockServer) (lid : LockId) (lh : LockHandle) :
    (server.put lid lh).handle = Function.update server.handle lid lh := by
  funext other
  by_cases heq : other = lid
  · subst other
    simp [put, handle]
  · simp [put, handle, Function.update_of_ne heq]

/-- Creating a missing handle changes nothing that can be observed. -/
theorem handle_emplace (server : LockServer) (lid : LockId) :
    (server.emplace lid).handle = server.handle := by
  unfold emplace
  split
  · next hnone =>
      have hfresh : server.handle lid = {} := by simp [handle, hnone]
      rw [handle_put, ← hfresh, Function.update_eq_self]
  · rfl

end LockServer

end YfsLab.Lock
