/-
# Mutual exclusion inside the lock server

Abstractly the lock server is an exclusive-ownership ledger whose resources are
lock ids and whose owners are client ids. Every section of every thread either
leaves the ledger alone, or grants a free lock, or takes back a lock from the
client that owns it, so the history of the calls that returned `OK` is a history
of the ledger. Waiting, signalling and spurious wake-ups do not show in it.
-/

import YfsLab.Foundations.Ownership
import YfsLab.Lock.Server

namespace YfsLab.Lock

open Transition Ownership

/-! ## The ledger a server stands for -/

/-- The client that holds the lock of a handle. -/
def LockHandle.owner (lh : LockHandle) : Option Int32 :=
  if lh.state = .locked then some lh.clt else none

namespace LockServer

/-- The client that holds each lock. -/
def holder (server : LockServer) : Ledger LockId Int32 :=
  fun lid => (server.handle lid).owner

theorem holder_put (server : LockServer) (lid : LockId) (lh : LockHandle) :
    (server.put lid lh).holder = Function.update server.holder lid lh.owner := by
  funext other
  by_cases heq : other = lid
  · subst other
    simp [holder, put, handle]
  · simp [holder, put, handle, Function.update_of_ne heq]

theorem holder_put_eq_self {server : LockServer} {lid : LockId} {lh : LockHandle}
    (howner : lh.owner = server.holder lid) : (server.put lid lh).holder = server.holder := by
  rw [holder_put, howner, Function.update_eq_self]

theorem holder_nacquire (server : LockServer) (count : ℤ) :
    { server with nacquire := count }.holder = server.holder := rfl

theorem holder_emplace (server : LockServer) (lid : LockId) :
    (server.emplace lid).holder = server.holder := by
  funext other
  rw [holder, handle_emplace]
  rfl

theorem holder_leaveCond (server : LockServer) (thread : ThreadId) (lid : LockId) :
    (server.leaveCond thread lid).holder = server.holder :=
  holder_put_eq_self rfl

/-- What the loop of `acquire` does to the ledger: nothing when the thread goes
on waiting, and a grant of a free lock when it returns. -/
theorem acquireLoop_spec (server : LockServer) (thread : ThreadId) (clt : Int32)
    (lid : LockId) :
    ((server.acquireLoop thread clt lid).2 = none ∧
      (server.acquireLoop thread clt lid).1.holder = server.holder) ∨
    ((server.acquireLoop thread clt lid).2 = some .ok ∧ server.holder lid = none ∧
      (server.acquireLoop thread clt lid).1.holder =
        Function.update server.holder lid (some clt)) := by
  by_cases hstate : (server.handle lid).state = .free
  · right
    refine ⟨by simp [acquireLoop, hstate], by simp [holder, LockHandle.owner, hstate], ?_⟩
    simp only [acquireLoop, hstate, ne_eq, not_true_eq_false, if_false]
    rw [holder_put, holder_nacquire]
    rfl
  · left
    refine ⟨by simp [acquireLoop, hstate], ?_⟩
    simp only [acquireLoop, ne_eq, hstate, not_false_eq_true, if_true]
    exact holder_put_eq_self rfl

theorem acquire_spec (server : LockServer) (thread : ThreadId) (clt : Int32)
    (lid : LockId) :
    ((server.acquire thread clt lid).2 = none ∧
      (server.acquire thread clt lid).1.holder = server.holder) ∨
    ((server.acquire thread clt lid).2 = some .ok ∧ server.holder lid = none ∧
      (server.acquire thread clt lid).1.holder =
        Function.update server.holder lid (some clt)) := by
  have hspec := (server.emplace lid).acquireLoop_spec thread clt lid
  rw [holder_emplace] at hspec
  exact hspec

/-- What `release` does to the ledger: nothing when it is refused, and giving
the lock back otherwise. Nobody but the caller can have held it. -/
theorem release_spec (server : LockServer) (clt : Int32) (lid : LockId) (choice : ℕ) :
    ((server.release clt lid choice).2.1 = .rpcerr ∧
      (server.release clt lid choice).1 = server) ∨
    ((server.release clt lid choice).2.1 = .ok ∧
      (∀ other, server.holder lid = some other → other = clt) ∧
      (server.release clt lid choice).1.holder =
        Function.update server.holder lid none) := by
  unfold release
  cases hlock : server.locks lid with
  | none => exact .inl ⟨rfl, rfl⟩
  | some lh =>
      by_cases hclt : lh.clt = clt
      · right
        simp only [ne_eq, hclt, not_true_eq_false, if_false, true_and]
        constructor
        · intro other howner
          have howner' : lh.owner = some other := by
            simpa [holder, handle, hlock] using howner
          by_cases hstate : lh.state = .locked
          · obtain rfl : lh.clt = other := by simpa [LockHandle.owner, hstate] using howner'
            exact hclt
          · simp [LockHandle.owner, hstate] at howner'
        · rw [holder_put, holder_nacquire]
          rfl
      · exact .inl (by simp [hclt])

/-- The client that holds a lock may release it. -/
theorem release_of_holder (server : LockServer) {clt : Int32} {lid : LockId}
    (hholder : server.holder lid = some clt) (choice : ℕ) :
    (server.release clt lid choice).2.1 = .ok ∧
      (server.release clt lid choice).1.holder = Function.update server.holder lid none := by
  rcases server.release_spec clt lid choice with ⟨hrefused, -⟩ | ⟨hok, -, hreturned⟩
  · -- a handle that names its owner lets it pass
    exfalso
    cases hlock : server.locks lid with
    | none => simp [holder, handle, hlock, LockHandle.owner] at hholder
    | some lh =>
        have howner : lh.owner = some clt := by simpa [holder, handle, hlock] using hholder
        have hclt : lh.clt = clt := by
          unfold LockHandle.owner at howner
          split at howner
          · exact Option.some.inj howner
          · cases howner
        simp [release, hlock, hclt] at hrefused
  · exact ⟨hok, hreturned⟩

end LockServer

/-! ## Histories of the calls that returned `OK` -/

/-- The grant a section of `acquire` returns, if it returns. -/
def grantEvents (clt : Int32) (lid : LockId) (result : LockServer × Option XxStatus) :
    List (Event LockId Int32) :=
  if result.2 = some .ok then [.granted clt lid] else []

/-- The calls that return `OK` at a step: a grant for `acquire`, a return of the
lock for `release`. -/
def events (state : State) : Label → List (Event LockId Int32)
  | .acquire thread clt lid => grantEvents clt lid (state.server.acquire thread clt lid)
  | .resume thread =>
      match state.threads thread with
      | .woken clt lid => grantEvents clt lid (state.server.acquireLoop thread clt lid)
      | _ => []
  | .release _ clt lid choice =>
      if (state.server.release clt lid choice).2.1 = .ok then [.returned clt lid] else []
  | .wake _ => []
  | .stat _ _ _ => []

/-- A section of `acquire` that does what `acquire` may do to the ledger extends
its history by the grant it returns. -/
theorem follows_grantEvents {log : List (Event LockId Int32)} {server : LockServer}
    {clt : Int32} {lid : LockId} {result : LockServer × Option XxStatus}
    (hfollows : Follows log server.holder)
    (hspec : (result.2 = none ∧ result.1.holder = server.holder) ∨
      (result.2 = some .ok ∧ server.holder lid = none ∧
        result.1.holder = Function.update server.holder lid (some clt))) :
    Follows (log ++ grantEvents clt lid result) result.1.holder := by
  rcases hspec with ⟨hresult, hholder⟩ | ⟨hresult, hfree, hholder⟩
  · simpa [grantEvents, hresult, hholder] using hfollows
  · simpa [grantEvents, hresult, hholder] using hfollows.grant hfree

/-- One section keeps the history a history of the ledger. -/
theorem follows_step {state target : State} {label : Label}
    {log : List (Event LockId Int32)} (hstep : system.step state label = some target)
    (hfollows : Follows log state.server.holder) :
    Follows (log ++ events state label) target.server.holder := by
  cases moves_of_step hstep with
  | acquire thread clt lid outside =>
      exact follows_grantEvents hfollows (state.server.acquire_spec thread clt lid)
  | wake thread clt lid blocked =>
      simpa [events, LockServer.holder_leaveCond] using hfollows
  | resume thread clt lid awake =>
      simpa only [events, awake, State.settle] using
        follows_grantEvents hfollows (state.server.acquireLoop_spec thread clt lid)
  | release thread clt lid choice outside =>
      rcases state.server.release_spec clt lid choice with
        ⟨hstatus, hserver⟩ | ⟨hstatus, howned, hholder⟩
      · simpa [events, hstatus, hserver] using hfollows
      · simpa [events, hstatus, hholder] using hfollows.giveBack howned
  | stat thread clt lid outside => simpa [events] using hfollows

/-- In every run the history of the successful calls is a history of the ledger
the server stands for. -/
theorem follows_of_run {labels : List Label}
    {reached : State × List (Event LockId Int32)}
    (hrun : (system.recorded events).Run anyStep labels reached) :
    Follows reached.2 reached.1.server.holder := by
  refine System.Run.invariant (fun reached => Follows reached.2 reached.1.server.holder)
    ?_ ?_ hrun
  · exact .start
  · intro labels source label target _ hfollows _ hstep
    obtain ⟨hnext, hlog⟩ := System.recorded_step_eq_some.mp hstep
    rw [hlog]
    exact follows_step hnext hfollows

/-- Mutual exclusion: between two acquires of one lock id that return `OK` there
is a release of it that returns `OK`, issued by the client id of the first
acquire; and a handle that is `LOCKED` names the client of the last acquire of
its lock that returned `OK`. -/
theorem mutualExclusion {labels : List Label}
    {reached : State × List (Event LockId Int32)}
    (hrun : (system.recorded events).Run anyStep labels reached) :
    (∀ before between after first second lid,
      reached.2 = before ++ .granted first lid ::
        (between ++ .granted second lid :: after) →
      .returned first lid ∈ between) ∧
    (∀ lid lh, reached.1.server.locks lid = some lh → lh.state = .locked →
      LastGrant reached.2 lid lh.clt) := by
  have hconsistent := (follows_of_run hrun).consistent
  refine ⟨hconsistent.separated, fun lid lh hlock hstate => ?_⟩
  apply hconsistent.lastGrant
  simp [LockServer.holder, LockServer.handle, hlock, LockHandle.owner, hstate]

/-- Two clients contend for a lock: the second one waits, wakes up without a
signal, waits again, and gets the lock after the first one has released it. -/
theorem mutualExclusion_contended :
    ∃ reached, (system.recorded events).Run anyStep
        [.acquire 0 5 1, .acquire 1 6 1, .wake 1, .resume 1, .release 0 5 1 0, .resume 1]
        reached ∧
      .returned 5 1 ∈ [Event.returned (5 : Int32) (1 : LockId)] ∧
      LastGrant reached.2 1 6 := by
  obtain ⟨reached, hexec, hlog, hlock⟩ : ∃ reached,
      (system.recorded events).exec (system.recorded events).init
        [.acquire 0 5 1, .acquire 1 6 1, .wake 1, .resume 1, .release 0 5 1 0, .resume 1] =
          some reached ∧
        reached.2 = [.granted 5 1, .returned 5 1, .granted 6 1] ∧
        reached.1.server.locks 1 = some { state := .locked, clt := 6 } :=
    ⟨_, rfl, by decide, by decide⟩
  have hrun := System.run_of_exec hexec
  exact ⟨reached, hrun,
    (mutualExclusion hrun).1 [] [.returned 5 1] [] 5 6 1 (by simpa using hlog),
    (mutualExclusion hrun).2 1 _ hlock rfl⟩

end YfsLab.Lock
