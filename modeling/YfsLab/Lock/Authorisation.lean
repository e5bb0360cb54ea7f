/-
# Who may release a lock, and what the counter counts

A handle names the client that holds its lock, and `-1` when nobody does. `release`
compares the client id with that name and looks at nothing else, so the client `-1`
is let through on a lock that is already `FREE`: the call returns `OK` and takes one
off `nacquire`. Such a release is called stray here. It is the only way in which the
status of `release` and the counter go wrong, and the counter is off by exactly the
number of stray releases.
-/

import YfsLab.Foundations.Holders
import YfsLab.Lock.Server

namespace YfsLab.Lock

open Transition

namespace LockServer

/-! ## What the calls report -/

/-- The `state` fields of the handles. -/
def stateOf (server : LockServer) (lid : LockId) : Option LockState :=
  (server.locks lid).map LockHandle.state

/-- The number of locks in state `LOCKED`. -/
noncomputable def lockedCount (server : LockServer) : ℕ :=
  Holders.count server.stateOf .locked

/-- A release of a `FREE` lock by the client id that stands for nobody. -/
def Stray (server : LockServer) (clt : Int32) (lid : LockId) : Prop :=
  clt = -1 ∧ server.stateOf lid = some .free

instance (server : LockServer) (clt : Int32) (lid : LockId) :
    Decidable (server.Stray clt lid) :=
  inferInstanceAs (Decidable (_ ∧ _))

/-- `release` returns `OK` just when the caller holds the lock, and otherwise returns
`RPCERR`, wakes nobody up and leaves the server alone. -/
def Authorised (server : LockServer) (clt : Int32) (lid : LockId) (choice : ℕ) : Prop :=
  ((server.release clt lid choice).2.1 = .ok ↔
    ∃ lh, server.locks lid = some lh ∧ lh.state = .locked ∧ lh.clt = clt) ∧
  ((server.release clt lid choice).2.1 ≠ .ok →
    server.release clt lid choice = (server, .rpcerr, none))

/-- The handles that are free name nobody. -/
def Unclaimed (server : LockServer) : Prop :=
  ∀ lid, (server.handle lid).state = .free → (server.handle lid).clt = -1

/-- Where the handles that are free name nobody, `release` checks its caller unless
the caller has the name of nobody itself. -/
theorem authorised_iff {server : LockServer} (hunclaimed : server.Unclaimed) (clt : Int32)
    (lid : LockId) (choice : ℕ) :
    server.Authorised clt lid choice ↔ ¬server.Stray clt lid := by
  cases hlock : server.locks lid with
  | none =>
      have hrefused : server.release clt lid choice = (server, .rpcerr, none) := by
        simp [release, hlock]
      simp [Authorised, Stray, stateOf, hlock, hrefused]
  | some lh =>
      have hlh : server.handle lid = lh := by simp [handle, hlock]
      by_cases hclt : lh.clt = clt
      · have hstatus : (server.release clt lid choice).2.1 = .ok := by
          simp [release, hlock, hclt]
        cases hstate : lh.state with
        | locked => simp [Authorised, Stray, stateOf, hlock, hstatus, hstate, hclt]
        | free =>
            have hnobody := hunclaimed lid (by rw [hlh, hstate])
            rw [hlh, hclt] at hnobody
            have hstray : server.Stray clt lid := ⟨hnobody, by simp [stateOf, hlock, hstate]⟩
            have hheld : ¬∃ held, server.locks lid = some held ∧ held.state = .locked ∧
                held.clt = clt := by simp [hlock, hstate]
            exact iff_of_false (fun h => hheld (h.1.mp hstatus)) (not_not_intro hstray)
      · have hrefused : server.release clt lid choice = (server, .rpcerr, none) := by
          simp [release, hlock, hclt]
        have hstray : ¬server.Stray clt lid := by
          rintro ⟨hminus, hfree⟩
          have hstate : lh.state = .free := by simpa [stateOf, hlock] using hfree
          have hnobody := hunclaimed lid (by rw [hlh, hstate])
          rw [hlh, ← hminus] at hnobody
          exact hclt hnobody
        simp [Authorised, hrefused, hstray, hlock, hclt]

/-! ## The counter and the locks it counts -/

theorem stateOf_put (server : LockServer) (lid : LockId) (lh : LockHandle) :
    (server.put lid lh).stateOf = Function.update server.stateOf lid (some lh.state) := by
  funext other
  by_cases heq : other = lid
  · subst other
    simp [stateOf, put]
  · simp [stateOf, put, Function.update_of_ne heq]

/-- A missing handle counts like a fresh one. -/
theorem one_stateOf (server : LockServer) (lid : LockId) :
    Holders.one (server.stateOf lid) LockState.locked =
      Holders.one (some (server.handle lid).state) .locked := by
  cases hlock : server.locks lid with
  | none => simp [stateOf, handle, hlock, Holders.one]
  | some lh => simp [stateOf, handle, hlock]

/-- The books of the server after some stray releases: the handles that are free name
nobody, and the counter falls short of the locks that are `LOCKED` by the number of
the stray releases. -/
structure Books (server : LockServer) (stray : ℕ) : Prop where
  bounded : Holders.Bounded server.stateOf
  unclaimed : server.Unclaimed
  balance : (server.lockedCount : ℤ) = server.nacquire + stray

variable {server : LockServer} {stray : ℕ}

/-- One handle is overwritten and the counter set anew. -/
theorem Books.put (h : server.Books stray) (lid : LockId) (lh : LockHandle)
    {nacquire : ℤ} {stray' : ℕ} (hunclaimed : lh.state = .free → lh.clt = -1)
    (hbalance : nacquire + stray' + Holders.one (some (server.handle lid).state) .locked =
      server.nacquire + stray + Holders.one (some lh.state) .locked) :
    (({ server with nacquire := nacquire } : LockServer).put lid lh).Books stray' := by
  constructor
  · rw [stateOf_put]
    exact h.bounded.update lid _
  · intro other hfree
    rw [handle_put] at hfree ⊢
    by_cases heq : other = lid
    · subst other
      rw [Function.update_self] at hfree ⊢
      exact hunclaimed hfree
    · rw [Function.update_of_ne heq] at hfree ⊢
      exact h.unclaimed other hfree
  · have hcount := Holders.count_update h.bounded lid (some lh.state) LockState.locked
    have hold := h.balance
    rw [one_stateOf] at hcount
    rw [lockedCount] at hold
    rw [lockedCount, stateOf_put]
    change (Holders.count (Function.update server.stateOf lid (some lh.state)) .locked : ℤ) =
      nacquire + stray'
    omega

theorem Books.emplace (h : server.Books stray) (lid : LockId) :
    (server.emplace lid).Books stray := by
  unfold LockServer.emplace
  split
  · next hnone =>
      have hfresh : server.handle lid = {} := by simp [handle, hnone]
      exact h.put lid {} (fun _ => rfl) (by rw [hfresh])
  · exact h

theorem Books.acquireLoop (h : server.Books stray) (thread : ThreadId) (clt : Int32)
    (lid : LockId) : (server.acquireLoop thread clt lid).1.Books stray := by
  cases hstate : (server.handle lid).state with
  | free =>
      have hloop : (server.acquireLoop thread clt lid).1 =
          { server with nacquire := server.nacquire + 1 }.put lid
            { server.handle lid with state := .locked, clt := clt } := by
        simp [LockServer.acquireLoop, hstate]
      rw [hloop]
      apply h.put lid
      · simp
      · rw [hstate, Holders.one_self, Holders.one_some_of_ne (by decide)]
        omega
  | locked =>
      have hloop : (server.acquireLoop thread clt lid).1 =
          server.put lid
            { server.handle lid with cond := (server.handle lid).cond ++ [thread] } := by
        simp [LockServer.acquireLoop, hstate]
      rw [hloop]
      exact h.put lid _ (h.unclaimed lid) rfl

theorem Books.leaveCond (h : server.Books stray) (thread : ThreadId) (lid : LockId) :
    (server.leaveCond thread lid).Books stray :=
  h.put lid _ (h.unclaimed lid) rfl

/-- A release keeps the books unless it is stray. -/
theorem Books.release (h : server.Books stray) (clt : Int32) (lid : LockId) (choice : ℕ) :
    (server.release clt lid choice).1.Books
      (stray + if server.Stray clt lid then 1 else 0) := by
  cases hlock : server.locks lid with
  | none => simpa [LockServer.release, Stray, stateOf, hlock] using h
  | some lh =>
      have hlh : server.handle lid = lh := by simp [handle, hlock]
      by_cases hclt : lh.clt = clt
      · have hrelease : (server.release clt lid choice).1 =
            { server with nacquire := server.nacquire - 1 }.put lid
              { state := .free, clt := -1,
                cond := lh.cond.eraseIdx (choice % lh.cond.length) } := by
          simp [LockServer.release, hlock, hclt]
        rw [hrelease]
        apply h.put lid
        · exact fun _ => rfl
        · rw [hlh, Holders.one_some_of_ne (by decide : LockState.free ≠ .locked)]
          cases hstate : lh.state with
          | locked =>
              have hstray : ¬server.Stray clt lid := by simp [Stray, stateOf, hlock, hstate]
              rw [if_neg hstray, Holders.one_self]
              omega
          | free =>
              have hnobody := h.unclaimed lid (by rw [hlh, hstate])
              rw [hlh, hclt] at hnobody
              rw [if_pos ⟨hnobody, by simp [stateOf, hlock, hstate]⟩,
                Holders.one_some_of_ne (by decide : LockState.free ≠ .locked)]
              omega
      · have hstray : ¬server.Stray clt lid :=
          (authorised_iff h.unclaimed clt lid choice).mp
            (by simp [Authorised, LockServer.release, hlock, hclt])
        simpa [LockServer.release, hlock, hclt, hstray] using h

theorem books_start : ({} : LockServer).Books 0 := by
  constructor
  · exact Holders.bounded_none
  · intro lid _
    rfl
  · have hcount : Holders.count (fun _ : LockId => none) LockState.locked = 0 :=
      Holders.count_none _
    show (Holders.count (fun _ : LockId => none) LockState.locked : ℤ) = 0 + (0 : ℕ)
    rw [hcount]
    rfl

end LockServer

/-! ## Every run -/

/-- The locks whose stray release a step is. -/
def strays (state : State) : Label → List LockId
  | .release _ clt lid _ => if state.server.Stray clt lid then [lid] else []
  | _ => []

/-- One section keeps the books, and writes a stray release down. -/
theorem books_step {state target : State} {label : Label} {stray : ℕ}
    (h : state.server.Books stray) (hstep : system.step state label = some target) :
    target.server.Books (stray + (strays state label).length) := by
  cases moves_of_step hstep with
  | acquire thread clt lid outside => exact (h.emplace lid).acquireLoop thread clt lid
  | wake thread clt lid blocked => exact h.leaveCond thread lid
  | resume thread clt lid awake => exact h.acquireLoop thread clt lid
  | release thread clt lid choice outside =>
      have hlength : (strays state (.release thread clt lid choice)).length =
          if state.server.Stray clt lid then 1 else 0 := by
        rw [strays]
        split <;> rfl
      rw [hlength]
      exact h.release clt lid choice
  | stat thread clt lid outside => exact h

theorem books_of_run {labels : List Label} {reached : State × List LockId}
    (hrun : (system.recorded strays).Run anyStep labels reached) :
    reached.1.server.Books reached.2.length := by
  refine System.Run.invariant (fun reached => reached.1.server.Books reached.2.length)
    ?_ ?_ hrun
  · exact LockServer.books_start
  · intro labels source label target _ hbooks _ hstep
    obtain ⟨hnext, hlog⟩ := System.recorded_step_eq_some.mp hstep
    rw [hlog, List.length_append]
    exact books_step hbooks hnext

/-- Release authorisation and the lock ledger: in every state of every run a call of
`release` does what its caller's rights say exactly when it is not stray, and the
counter `stat` reports is the number of locks in state `LOCKED` exactly when no
release has been stray so far. It then fits the `int` it is kept in as long as fewer
than `2 ^ 31` locks are taken at once. -/
theorem releaseAuthorisation {labels : List Label} {reached : State × List LockId}
    (hrun : (system.recorded strays).Run anyStep labels reached) :
    (∀ clt lid choice, reached.1.server.Authorised clt lid choice ↔
      ¬reached.1.server.Stray clt lid) ∧
    (reached.1.server.stat.1 = reached.1.server.lockedCount ↔ reached.2 = []) ∧
    (reached.2 = [] → 0 ≤ reached.1.server.stat.1 ∧
      (reached.1.server.lockedCount < 2 ^ 31 →
        (Int32.ofInt reached.1.server.stat.1).toInt = reached.1.server.lockedCount)) := by
  have hbooks := books_of_run hrun
  have hbalance := hbooks.balance
  have hstat : reached.1.server.stat.1 = reached.1.server.nacquire := rfl
  refine ⟨LockServer.authorised_iff hbooks.unclaimed, ?_, ?_⟩
  · rw [hstat, ← List.length_eq_zero_iff]
    omega
  · intro hnone
    rw [hnone, List.length_nil] at hbalance
    have hequal : reached.1.server.stat.1 = reached.1.server.lockedCount := by
      rw [hstat]
      omega
    refine ⟨by omega, fun hfits => ?_⟩
    rw [hequal, Int32.toInt_ofInt_of_le (by omega) (by omega)]

/-- A lock is taken, refused to another client that tries to release it, and given
back; the counter is right after that. -/
theorem releaseAuthorisation_refused :
    ∃ reached, (system.recorded strays).Run anyStep
        [.acquire 0 5 1, .release 1 6 1 0, .release 1 (-1) 1 0, .acquire 1 6 2,
          .release 0 5 1 0] reached ∧
      reached.1.server.stat = (1, .ok) ∧ reached.1.server.lockedCount = 1 := by
  obtain ⟨reached, hexec, hlog, hstat⟩ : ∃ reached,
      (system.recorded strays).exec (system.recorded strays).init
        [.acquire 0 5 1, .release 1 6 1 0, .release 1 (-1) 1 0, .acquire 1 6 2,
          .release 0 5 1 0] = some reached ∧
        reached.2 = [] ∧ reached.1.server.stat = (1, .ok) :=
    ⟨_, rfl, by decide, by decide⟩
  have hrun := System.run_of_exec hexec
  have hcount := (releaseAuthorisation hrun).2.1.mpr hlog
  rw [hstat] at hcount
  exact ⟨reached, hrun, hstat, by omega⟩

/-- After client 5 has taken lock 1 and given it back, client `-1` releases it too:
the call returns `OK` although nobody holds the lock, and afterwards `stat` reports
minus one while no lock is `LOCKED`. -/
theorem releaseByNobody_returnsOk :
    ∃ source target, (system.recorded strays).Run anyStep
        [.acquire 0 5 1, .release 0 5 1 0] source ∧
      (system.recorded strays).step source (.release 0 (-1) 1 0) = some target ∧
      source.1.server.locks 1 = some {} ∧ (source.1.server.release (-1) 1 0).2.1 = .ok ∧
      ¬source.1.server.Authorised (-1) 1 0 ∧
      target.1.server.stat = (-1, .ok) ∧ target.1.server.lockedCount = 0 := by
  obtain ⟨source, target, hexec, hstep, hlock, hstatus, hlog, hstat⟩ : ∃ source target,
      (system.recorded strays).exec (system.recorded strays).init
        [.acquire 0 5 1, .release 0 5 1 0] = some source ∧
      (system.recorded strays).step source (.release 0 (-1) 1 0) = some target ∧
      source.1.server.locks 1 = some {} ∧ (source.1.server.release (-1) 1 0).2.1 = .ok ∧
      target.2 = [1] ∧ target.1.server.stat = (-1, .ok) :=
    ⟨_, _, rfl, rfl, by decide, by decide, by decide, by decide⟩
  have hrun := System.run_of_exec hexec
  have hbalance := (books_of_run (hrun.snoc trivial hstep)).balance
  have hcounter : target.1.server.nacquire = -1 := congrArg Prod.fst hstat
  rw [hlog, hcounter] at hbalance
  refine ⟨source, target, hrun, hstep, hlock, hstatus, ?_, hstat, by simpa using hbalance⟩
  rintro ⟨honly, -⟩
  obtain ⟨lh, hheld, hstate, -⟩ := honly.mp hstatus
  rw [hlock] at hheld
  obtain rfl := Option.some.inj hheld
  exact absurd hstate (by decide)

end YfsLab.Lock
