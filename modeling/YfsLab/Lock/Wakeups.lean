/-
# No wake-up is lost

A `release` signals a single waiter. The waiter may find that a newcomer has taken
the lock and block again, and it may have woken up without the signal; but while
anybody is blocked on a lock that is `FREE`, some thread that has been woken up for
it is on its way back to the mutex. What carries this is that a lock only becomes
free in a section that also wakes a waiter up, that a thread only blocks on a lock
it has found taken, and that a woken thread leaves a lock taken in either case.
-/

import Mathlib.Data.List.Nodup
import YfsLab.Lock.Server

namespace YfsLab.Lock

open Transition

/-! ## Blocked threads and condition variables -/

/-- Each thread blocked in `acquire` is on the condition variable of its lock, once,
and nobody else is. -/
structure Blocked (handles : LockId → LockHandle) (threads : ThreadId → Thread) : Prop where
  nodup : ∀ lid, (handles lid).cond.Nodup
  mem_cond : ∀ lid thread, thread ∈ (handles lid).cond ↔
    ∃ clt, threads thread = .waiting clt lid

/-- Somebody blocked on a free lock has a woken thread ahead. -/
def Attended (handles : LockId → LockHandle) (threads : ThreadId → Thread) : Prop :=
  ∀ lid, (handles lid).state = .free → (handles lid).cond ≠ [] →
    ∃ thread clt, threads thread = .woken clt lid

variable {handles : LockId → LockHandle} {threads : ThreadId → Thread} {thread : ThreadId}
  {clt : Int32} {lid : LockId}

/-- A thread blocks on the lock it has found taken. -/
theorem Blocked.join (h : Blocked handles threads)
    (hout : ∀ clt lid, threads thread ≠ .waiting clt lid) :
    Blocked
      (Function.update handles lid
        { handles lid with cond := (handles lid).cond ++ [thread] })
      (Function.update threads thread (.waiting clt lid)) := by
  have hnew : ∀ lid, thread ∉ (handles lid).cond := by
    intro lid hmem
    obtain ⟨clt, hwaits⟩ := (h.mem_cond lid thread).mp hmem
    exact hout clt lid hwaits
  constructor
  · intro other
    by_cases heq : other = lid
    · subst other
      rw [Function.update_self]
      exact List.nodup_append.mpr ⟨h.nodup lid, List.nodup_singleton thread,
        fun x hx y hy hxy => hnew lid (by rwa [← List.mem_singleton.mp hy, ← hxy])⟩
    · rw [Function.update_of_ne heq]
      exact h.nodup other
  · intro other t
    by_cases ht : t = thread
    · subst t
      by_cases heq : other = lid
      · subst other
        simp
      · simp [Function.update_of_ne heq, hnew other, Ne.symm heq]
    · rw [Function.update_of_ne ht, ← h.mem_cond]
      by_cases heq : other = lid
      · subst other
        simp [ht]
      · rw [Function.update_of_ne heq]

/-- A handle may change as long as its condition variable does not. -/
theorem Blocked.put (h : Blocked handles threads) {lh : LockHandle}
    (hcond : lh.cond = (handles lid).cond) : Blocked (Function.update handles lid lh) threads := by
  have hconds : ∀ other, (Function.update handles lid lh other).cond = (handles other).cond := by
    intro other
    by_cases heq : other = lid
    · subst other
      rw [Function.update_self, hcond]
    · rw [Function.update_of_ne heq]
  constructor
  · intro other
    rw [hconds]
    exact h.nodup other
  · intro other t
    rw [hconds]
    exact h.mem_cond other t

/-- A thread that is not blocked goes on. -/
theorem Blocked.goOn (h : Blocked handles threads) {after : Thread}
    (hout : ∀ clt lid, threads thread ≠ .waiting clt lid)
    (hafter : ∀ clt lid, after ≠ .waiting clt lid) :
    Blocked handles (Function.update threads thread after) := by
  refine ⟨h.nodup, fun other t => ?_⟩
  rw [h.mem_cond]
  by_cases ht : t = thread
  · subst t
    simp [hout, hafter]
  · rw [Function.update_of_ne ht]

/-- A blocked thread leaves its condition variable. -/
theorem Blocked.leave (h : Blocked handles threads) {lh : LockHandle}
    (hwaits : threads thread = .waiting clt lid)
    (hcond : lh.cond = (handles lid).cond.erase thread) :
    Blocked (Function.update handles lid lh)
      (Function.update threads thread (.woken clt lid)) := by
  constructor
  · intro other
    by_cases heq : other = lid
    · subst other
      rw [Function.update_self, hcond]
      exact (h.nodup lid).erase thread
    · rw [Function.update_of_ne heq]
      exact h.nodup other
  · intro other t
    by_cases heq : other = lid
    · subst other
      rw [Function.update_self, hcond, (h.nodup lid).mem_erase_iff, h.mem_cond]
      by_cases ht : t = thread
      · simp [ht]
      · simp [ht]
    · rw [Function.update_of_ne heq, h.mem_cond]
      by_cases ht : t = thread
      · subst t
        simp [hwaits, Ne.symm heq]
      · rw [Function.update_of_ne ht]

/-! ## Woken threads -/

/-- The handle of one lock and one thread change. The other locks keep the threads
woken for them, so only the lock itself has to be looked at. -/
theorem Attended.update (h : Attended handles threads) {lh : LockHandle} {after : Thread}
    (hleft : ∀ clt other, threads thread = .woken clt other → other = lid)
    (hlid : lh.state = .free → lh.cond ≠ [] → ∃ clt, after = .woken clt lid) :
    Attended (Function.update handles lid lh) (Function.update threads thread after) := by
  intro other hfree hcond
  by_cases heq : other = lid
  · subst other
    rw [Function.update_self] at hfree hcond
    obtain ⟨clt, hafter⟩ := hlid hfree hcond
    exact ⟨thread, clt, by rw [Function.update_self, hafter]⟩
  · rw [Function.update_of_ne heq] at hfree hcond
    obtain ⟨t, clt, hwoken⟩ := h other hfree hcond
    have hne : t ≠ thread := by
      rintro rfl
      exact heq (hleft clt other hwoken)
    exact ⟨t, clt, by rw [Function.update_of_ne hne, hwoken]⟩

/-- A lock nobody is blocked on needs no attention. -/
theorem Attended.put (h : Attended handles threads) {lh : LockHandle} (hcond : lh.cond = []) :
    Attended (Function.update handles lid lh) threads := by
  intro other hfree hblocked
  by_cases heq : other = lid
  · subst other
    rw [Function.update_self] at hblocked
    exact absurd hcond hblocked
  · rw [Function.update_of_ne heq] at hfree hblocked
    exact h other hfree hblocked

/-! ## The invariant of a run -/

/-- Both together, for the server and the threads in it. -/
structure Waiters (state : State) : Prop where
  blocked : Blocked state.server.handle state.threads
  attended : Attended state.server.handle state.threads

/-- A section of `acquire` from the test of its loop: the thread blocks on a lock
that is taken, or takes a lock that is free. Either way the lock is taken after it. -/
theorem Waiters.acquireLoop {state : State} {server : LockServer}
    (h : Waiters state) (hserver : server.handle = state.server.handle)
    (hout : ∀ clt lid, state.threads thread ≠ .waiting clt lid)
    (hleft : ∀ clt' other, state.threads thread = .woken clt' other → other = lid) :
    Waiters (state.settle thread clt lid (server.acquireLoop thread clt lid)) := by
  by_cases hfree : (server.handle lid).state = .free
  · have hloop : state.settle thread clt lid (server.acquireLoop thread clt lid) =
        { server := { server with nacquire := server.nacquire + 1 }.put lid
            { server.handle lid with state := .locked, clt := clt }
          threads := Function.update state.threads thread .idle } := by
      simp [State.settle, LockServer.acquireLoop, hfree]
    have hhandle : ({ server with nacquire := server.nacquire + 1 } : LockServer).handle =
        state.server.handle := hserver
    rw [hloop]
    constructor
    · rw [LockServer.handle_put, hhandle]
      exact (h.blocked.put (by rw [hserver])).goOn hout (by simp)
    · rw [LockServer.handle_put, hhandle]
      exact h.attended.update hleft (by simp)
  · have hloop : state.settle thread clt lid (server.acquireLoop thread clt lid) =
        { server := server.put lid
            { server.handle lid with cond := (server.handle lid).cond ++ [thread] }
          threads := Function.update state.threads thread (.waiting clt lid) } := by
      simp [State.settle, LockServer.acquireLoop, hfree]
    rw [hloop]
    constructor
    · rw [LockServer.handle_put, hserver]
      exact h.blocked.join hout
    · rw [LockServer.handle_put, hserver]
      exact h.attended.update hleft fun hstate => absurd hstate (by rwa [← hserver])

/-- A successful `release` makes the lock free and wakes one of its waiters up, if
there are any. -/
theorem Waiters.release {state : State} (h : Waiters state) (choice : ℕ) :
    Waiters
      { server := (state.server.release clt lid choice).1
        threads := ((state.server.release clt lid choice).2.2.map
          (State.wakeUp state.threads)).getD state.threads } := by
  cases hlock : state.server.locks lid with
  | none => simpa [LockServer.release, hlock] using h
  | some lh =>
      by_cases hclt : lh.clt = clt
      · have hlh : state.server.handle lid = lh := by simp [LockServer.handle, hlock]
        have hhandle : ({ state.server with nacquire := state.server.nacquire - 1 } :
            LockServer).handle = state.server.handle := rfl
        simp only [LockServer.release, hlock, hclt, ne_eq, not_true_eq_false, if_false,
          LockServer.signalled]
        cases hwaiter : lh.cond[choice % lh.cond.length]? with
        | none =>
            -- nobody is blocked on the lock, so the signal is without effect
            have hnil : lh.cond = [] := by
              by_contra hne
              have hlt := Nat.mod_lt choice (List.length_pos_iff.mpr hne)
              exact absurd (List.getElem?_eq_none_iff.mp hwaiter) (by omega)
            constructor
            · rw [LockServer.handle_put, hhandle]
              exact h.blocked.put (by rw [hlh, hnil, List.eraseIdx_nil])
            · rw [LockServer.handle_put, hhandle]
              exact h.attended.put (by rw [hnil, List.eraseIdx_nil])
        | some waiter =>
            obtain ⟨hlt, hget⟩ := List.getElem?_eq_some_iff.mp hwaiter
            have hmem : waiter ∈ (state.server.handle lid).cond := by
              rw [hlh, ← hget]
              exact List.getElem_mem hlt
            obtain ⟨clt', hwaits⟩ := (h.blocked.mem_cond lid waiter).mp hmem
            have herase : lh.cond.eraseIdx (choice % lh.cond.length) =
                (state.server.handle lid).cond.erase waiter := by
              have hnodup := h.blocked.nodup lid
              rw [hlh] at hnodup ⊢
              rw [← hget, hnodup.erase_getElem]
            have hthreads : State.wakeUp state.threads waiter =
                Function.update state.threads waiter (.woken clt' lid) := by
              simp [State.wakeUp, hwaits]
            simp only [Option.map_some, Option.getD_some, hthreads]
            constructor
            · rw [LockServer.handle_put, hhandle]
              exact h.blocked.leave hwaits herase
            · rw [LockServer.handle_put, hhandle]
              exact h.attended.update (by simp [hwaits]) fun _ _ => ⟨clt', rfl⟩
      · simpa [LockServer.release, hlock, hclt] using h

theorem waiters_init : Waiters {} := by
  constructor
  · constructor
    · intro lid
      exact List.nodup_nil
    · intro lid thread
      simp [LockServer.handle]
  · intro lid _ hcond
    exact absurd rfl hcond

/-- Every section of every thread keeps the invariant. -/
theorem Waiters.step {state target : State} {label : Label} (h : Waiters state)
    (hstep : system.step state label = some target) : Waiters target := by
  cases moves_of_step hstep with
  | acquire thread clt lid outside =>
      apply h.acquireLoop (state.server.handle_emplace lid)
      · simp [outside]
      · simp [outside]
  | wake thread clt lid blocked =>
      constructor
      · rw [LockServer.leaveCond, LockServer.handle_put]
        exact h.blocked.leave blocked rfl
      · rw [LockServer.leaveCond, LockServer.handle_put]
        exact h.attended.update (by simp [blocked]) fun _ _ => ⟨clt, rfl⟩
  | resume thread clt lid awake =>
      apply h.acquireLoop rfl
      · simp [awake]
      · intro clt' other hwoken
        rw [awake] at hwoken
        injection hwoken with _ hlid
        exact hlid.symm
  | release thread clt lid choice outside => exact h.release choice
  | stat thread clt lid outside => exact h

theorem waiters_of_run {labels : List Label} {state : State}
    (hrun : system.Run anyStep labels state) : Waiters state :=
  System.Run.invariant Waiters waiters_init (fun _ h _ hstep => h.step hstep) hrun

/-- No wake-up is lost: in every reachable state, whenever a lock is `FREE` and a
thread is blocked on its condition variable, some thread that has been signalled or
has woken up for this lock is on its way back to the mutex. -/
theorem noLostWakeUp {labels : List Label} {state : State}
    (hrun : system.Run anyStep labels state) :
    ¬∃ lid lh, state.server.locks lid = some lh ∧ lh.state = .free ∧
      (∃ thread clt, state.threads thread = .waiting clt lid) ∧
      ∀ thread clt, state.threads thread ≠ .woken clt lid := by
  rintro ⟨lid, lh, hlock, hfree, ⟨thread, clt, hwaits⟩, hnobody⟩
  have h := waiters_of_run hrun
  have hlh : state.server.handle lid = lh := by simp [LockServer.handle, hlock]
  have hmem := (h.blocked.mem_cond lid thread).mpr ⟨clt, hwaits⟩
  obtain ⟨t, clt', hwoken⟩ :=
    h.attended lid (by rw [hlh, hfree]) (List.ne_nil_of_mem hmem)
  exact hnobody t clt' hwoken

/-- A waiter is signalled, a newcomer barges in, the waiter blocks again, and the
newcomer's release signals it once more while another thread is still blocked. -/
theorem noLostWakeUp_overtaken :
    ∃ state, system.Run anyStep
        [.acquire 0 5 1, .acquire 1 6 1, .acquire 2 7 1, .release 0 5 1 0, .acquire 3 8 1,
          .resume 1, .release 3 8 1 1] state ∧
      state.threads 1 = .woken 6 1 ∧ state.threads 2 = .waiting 7 1 ∧
      ¬∃ lid lh, state.server.locks lid = some lh ∧ lh.state = .free ∧
        (∃ thread clt, state.threads thread = .waiting clt lid) ∧
        ∀ thread clt, state.threads thread ≠ .woken clt lid := by
  obtain ⟨state, hexec, hwoken, hblocked⟩ : ∃ state, system.exec system.init
      [.acquire 0 5 1, .acquire 1 6 1, .acquire 2 7 1, .release 0 5 1 0, .acquire 3 8 1,
        .resume 1, .release 3 8 1 1] = some state ∧
      state.threads 1 = .woken 6 1 ∧ state.threads 2 = .waiting 7 1 :=
    ⟨_, rfl, by decide, by decide⟩
  have hrun := System.run_of_exec hexec
  exact ⟨state, hrun, hwoken, hblocked, noLostWakeUp hrun⟩

end YfsLab.Lock
