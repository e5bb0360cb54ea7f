/-
# Senders on a dead connection

A sender whose PDU has been written in part waits until `write_cb` has written the
rest, or until somebody finds the connection dead and signals it. Of the paths that
mark a connection dead, `closeconn` is the one that signals nobody. When no sender
waits at that moment, everybody who waits later on has somebody to wake it up: a
failed callback signals the sender of the PDU, and this sender wakes the others when
it returns.
-/

import YfsLab.Connection.Channel
import YfsLab.Connection.WholePdus

namespace YfsLab.Connection

open Monitor Poll Transition

namespace Sender

/-- Some section, apart from a wake-up without a signal, takes a thread off one of the two
condition variables. -/
def Signals (s : Sender) : Prop :=
  ∃ label s' events, s.run label = some (s', events) ∧
    (∀ i, label ≠ .wakeWait i) ∧ (∀ i, label ≠ .wakeComplete i) ∧
    (s'.sendWait.waiting.length < s.sendWait.waiting.length ∨
      s'.sendComplete.waiting.length < s.sendComplete.waiting.length)

/-- Waiting senders are counted, one of them or a removal is in front of them, and
nobody waits for a dead connection to write its PDU. -/
structure Awake (s : Sender) : Prop where
  waiters_eq : s.waiters = s.sendWait.threads.length
  headed : s.sendWait.waiting ≠ [] → s.sendComplete.threads ≠ [] ∨ s.removing ≠ []
  woken_of_dead : s.dead = true → s.sendComplete.waiting = []

/-- A call that returns leaves nobody blocked on `send_wait_`. -/
theorem waiting_finish {s : Sender} (hwaiters : s.waiters = s.sendWait.threads.length) (c : Call) :
    (s.finish c).1.sendWait.waiting = [] := by
  simp only [finish]
  split_ifs with hsome
  · rfl
  · have hnone : s.sendWait.threads.length = 0 := by omega
    simp only [CondVar.threads, List.length_append] at hnone
    exact List.length_eq_zero_iff.mp (by omega)

theorem awake_finish {s : Sender} (hwaiters : s.waiters = s.sendWait.threads.length)
    (hdead : s.dead = true → s.sendComplete.waiting = []) (c : Call) : (s.finish c).1.Awake := by
  refine ⟨?_, fun hne => absurd (waiting_finish hwaiters c) hne, hdead⟩
  rw [(Framed.finish_sendWait_perm s c).length_eq]
  exact hwaiters

theorem awake_awaitComplete {s : Sender} (hwaiters : s.waiters = s.sendWait.threads.length)
    (hdead : s.dead = true → s.sendComplete.waiting = []) (c : Call) :
    (s.awaitComplete c).1.Awake := by
  rw [awaitComplete]
  split_ifs with hwait
  · refine ⟨hwaiters, fun _ => .inl ?_, fun h => ?_⟩
    · simp [CondVar.wait, CondVar.threads]
    · rw [hwait.1] at h
      cases h
  · exact awake_finish hwaiters hdead c

theorem awake_firstWrite {s s' : Sender} {c : Call} {r : WriteResult} {events : List Event}
    (hwaiters : s.waiters = s.sendWait.threads.length) (hnobody : s.sendComplete.threads = [])
    (hwrite : s.FirstWrite c r s' events) : s'.Awake := by
  have hwaiting : s.sendComplete.waiting = [] := (List.append_eq_nil_iff.mp hnobody).1
  cases hwrite with
  | failed => exact ⟨hwaiters, fun _ => .inr (by simp), fun _ => hwaiting⟩
  | whole => exact awake_finish hwaiters (fun _ => hwaiting) c
  | @part w =>
      exact awake_awaitComplete (s := { s with wpdu := w }) hwaiters (fun _ => hwaiting) c

/-- A sender that is counted and not blocked has the mutex. -/
theorem awake_turn {s s' : Sender} {c : Call} {r : WriteResult} {events : List Event}
    (hwaiters : s.waiters = s.sendWait.threads.length + 1)
    (hheaded : s.sendWait.waiting ≠ [] → s.sendComplete.threads ≠ [] ∨ s.removing ≠ [])
    (hwoken : s.dead = true → s.sendComplete.waiting = [])
    (hbusy : s.dead = false → (s.wpdu.buf.isSome ↔ s.sendComplete.threads ≠ []))
    (hturn : s.Turn c r s' events) : s'.Awake := by
  cases hturn with
  | waits halive htaken =>
      refine ⟨?_, fun _ => .inl ((hbusy halive).mp htaken), hwoken⟩
      rw [(s.sendWait.threads_wait_perm c).length_eq, List.length_cons]
      simpa using hwaiters
  | refused => exact ⟨by simp only; omega, hheaded, hwoken⟩
  | writes halive hfree hwrite =>
      refine awake_firstWrite (s := { s with waiters := s.waiters - 1 }) ?_ ?_ hwrite
      · simp only
        omega
      · by_contra hne
        have htaken := (hbusy halive).mpr hne
        simp [hfree] at htaken

/-- On a live connection `wpdu_` is taken exactly while its one sender waits. -/
theorem busy_iff {s : Sender} {log : List Event} (hsound : Sound (s, log))
    (halive : s.dead = false) :
    (s.wpdu.buf.isSome ↔ s.sendComplete.threads ≠ []) ∧ s.sendComplete.threads.length ≤ 1 := by
  obtain ⟨-, done, part, h⟩ := hsound
  cases h.progress with
  | idle _ hidle hnobody =>
      have hempty : s.wpdu = {} := hidle
      have hnone : s.sendComplete.threads = [] := hnobody
      simp [hempty, hnone]
  | writing c k _ hat _ hone =>
      have hfull : s.wpdu = c.at k := hat
      have howner : s.sendComplete.threads = [c] := hone
      simp [hfull, howner, Call.at]
  | complete c _ hat hone =>
      have hfull : s.wpdu = c.at c.pdu.length := hat
      have howner : s.sendComplete.threads = [c] := hone
      simp [hfull, howner, Call.at]
  | dead hdead =>
      have hdead' : s.dead = true := hdead
      rw [halive] at hdead'
      cases hdead'

theorem waiting_length_le (c : CondVar Call) : c.waiting.length ≤ c.threads.length := by
  simp [CondVar.threads]

/-- A callback signals the sender, whatever else it changes. -/
theorem Awake.signalled {s s' : Sender} (h : s.Awake) (hone : s.sendComplete.threads.length ≤ 1)
    (choice : ℕ) (hwaiters : s'.waiters = s.waiters) (hwait : s'.sendWait = s.sendWait)
    (hcomplete : s'.sendComplete = s.sendComplete.signal choice)
    (hremoving : s'.removing = s.removing) : s'.Awake := by
  refine ⟨by rw [hwaiters, hwait]; exact h.waiters_eq, fun hne => ?_, fun _ => ?_⟩
  · rw [hwait] at hne
    rw [hremoving, hcomplete]
    refine (h.headed hne).imp_left fun hheaded hnone => hheaded ?_
    have hperm := s.sendComplete.threads_signal_perm choice
    rw [hnone] at hperm
    exact hperm.symm.eq_nil
  · rw [hcomplete]
    exact s.sendComplete.waiting_signal_of_length_le_one choice
      ((waiting_length_le _).trans hone)

theorem Awake.nextWrite {s s' : Sender} {r : WriteResult} {choice : ℕ} {events : List Event}
    (h : s.Awake) (hone : s.dead = false → s.sendComplete.threads.length ≤ 1)
    (hwrite : s.NextWrite r choice s' events) : s'.Awake := by
  cases hwrite with
  | nothing => exact h
  | part => exact ⟨h.waiters_eq, h.headed, h.woken_of_dead⟩
  | failed halive | whole halive => exact h.signalled (hone halive) choice rfl rfl rfl rfl

/-- Every section keeps the senders awake, except for a `closeconn` while a sender waits
for its PDU. -/
theorem Awake.run {s s' : Sender} {label : Label} {log events : List Event} (h : s.Awake)
    (hsound : Sound (s, log))
    (hclose : label = .closeconn → s.sendComplete.waiting = [])
    (hrun : s.run label = some (s', events)) : s'.Awake := by
  have hbusy := fun halive => (busy_iff hsound halive).1
  have hone := fun halive => (busy_iff hsound halive).2
  cases section_of_run hrun with
  | began _ hturn =>
      refine awake_turn (s := { s with calls := s.calls + 1, waiters := s.waiters + 1 })
        ?_ h.headed h.woken_of_dead hbusy hturn
      simp only [h.waiters_eq]
  | wokeWait hwake =>
      refine ⟨?_, fun _ => h.headed ?_, h.woken_of_dead⟩
      · rw [(CondVar.threads_wake_perm hwake).length_eq]
        exact h.waiters_eq
      · exact List.ne_nil_of_length_pos (by have := CondVar.wake_eq_some hwake; omega)
  | @resumedWait _ _ _ w _ _ hresume hturn =>
      obtain ⟨hwaiting, -, -⟩ := CondVar.resume_eq_some hresume
      have hlength := (CondVar.threads_resume_perm hresume).length_eq
      refine awake_turn (s := { s with sendWait := w }) ?_ ?_ h.woken_of_dead hbusy hturn
      · simp only [h.waiters_eq, hlength, List.length_cons, Nat.cast_add, Nat.cast_one]
      · simp only [hwaiting]
        exact h.headed
  | wokeComplete hwake =>
      have hperm := CondVar.threads_wake_perm hwake
      refine ⟨h.waiters_eq, fun hne => ?_, fun hdead => ?_⟩
      · refine (h.headed hne).imp_left fun hheaded hnone => hheaded ?_
        rw [hnone] at hperm
        exact hperm.symm.eq_nil
      · have hlength := (CondVar.wake_eq_some hwake).1
        rw [h.woken_of_dead hdead] at hlength
        cases hlength
  | @resumedComplete _ c w hresume =>
      obtain ⟨hwaiting, -, -⟩ := CondVar.resume_eq_some hresume
      refine awake_awaitComplete (s := { s with sendComplete := w }) h.waiters_eq ?_ c
      simp only [hwaiting]
      exact h.woken_of_dead
  | @removed i c =>
      exact awake_finish (s := { s with removing := s.removing.eraseIdx i }) h.waiters_eq
        h.woken_of_dead c
  | wrote hwrite => exact h.nextWrite hone hwrite
  | read => exact h
  | @readFailed choice halive => exact h.signalled (hone halive) choice rfl rfl rfl rfl
  | closed => exact ⟨h.waiters_eq, h.headed, fun _ => hclose rfl⟩

/-- Blocked senders that are awake have somebody to signal them when the connection is
dead: the sender in front of them is on its way out. -/
theorem Awake.signals {s : Sender} (h : s.Awake) (hdead : s.dead = true)
    (hwaiting : s.sendWait.waiting ≠ []) : s.Signals := by
  have hnobody := h.woken_of_dead hdead
  have hpos := List.length_pos_iff.mpr hwaiting
  rcases h.headed hwaiting with howner | hremoving
  · obtain ⟨c, rest, hwoken⟩ := List.exists_cons_of_ne_nil (l := s.sendComplete.woken) <| by
      simpa [CondVar.threads, hnobody] using howner
    have hrun : s.run (.resumeComplete 0) =
        some ({ s with sendComplete := ⟨s.sendComplete.waiting, rest⟩ }.finish c) := by
      simp [Sender.run, CondVar.resume, hwoken, awaitComplete, hdead]
    refine ⟨.resumeComplete 0, _, _, hrun, by simp, by simp, .inl ?_⟩
    have hnone := waiting_finish (s := { s with sendComplete := _ }) h.waiters_eq c
    exact (congrArg List.length hnone).trans_lt hpos
  · obtain ⟨c, rest, hhead⟩ := List.exists_cons_of_ne_nil hremoving
    have hrun : s.run (.removed 0) = some ({ s with removing := rest }.finish c) := by
      simp [Sender.run, hhead]
    refine ⟨.removed 0, _, _, hrun, by simp, by simp, .inl ?_⟩
    have hnone := waiting_finish (s := { s with removing := _ }) h.waiters_eq c
    exact (congrArg List.length hnone).trans_lt hpos

/-- On a dead connection, only a thread that has been woken up or is back from
`block_remove_fd` wakes others up. -/
theorem woken_or_removing_of_signals {s : Sender} (hdead : s.dead = true) (h : s.Signals) :
    s.sendComplete.woken ≠ [] ∨ s.removing ≠ [] := by
  by_contra! hquiet
  obtain ⟨hwoken, hremoving⟩ := hquiet
  obtain ⟨label, s', events, hrun, hwakeWait, hwakeComplete, hless⟩ := h
  have hsame : s'.sendWait.waiting = s.sendWait.waiting ∧
      s'.sendComplete.waiting = s.sendComplete.waiting := by
    cases section_of_run hrun with
    | began _ hturn =>
        obtain ⟨rfl, -⟩ := hturn.of_dead hdead
        exact ⟨rfl, rfl⟩
    | resumedWait hresume hturn =>
        obtain ⟨rfl, -⟩ := hturn.of_dead hdead
        exact ⟨(CondVar.resume_eq_some hresume).1, rfl⟩
    | wokeWait => exact absurd rfl (hwakeWait _)
    | wokeComplete => exact absurd rfl (hwakeComplete _)
    | resumedComplete hresume => simp [CondVar.resume, hwoken] at hresume
    | removed hc => simp [hremoving] at hc
    | wrote hwrite => simp [hwrite.alive] at hdead
    | readFailed halive => simp [halive] at hdead
    | read | closed => exact ⟨rfl, rfl⟩
  rw [hsame.1, hsame.2] at hless
  omega

end Sender

namespace Channel

/-- Somebody waits for a dead connection, the poll manager does not know it any more,
and nobody is left to wake him up. -/
def Stranded (s : Channel) : Prop :=
  s.conn.dead = true ∧
    (s.conn.sendComplete.waiting ≠ [] ∨ s.conn.sendWait.waiting ≠ []) ∧
    ((∃ t, .closer t ∈ s.returned) ∨ s.poll.callbacks s.fd = none) ∧
    ¬ s.conn.Signals

/-- `closeconn` finds no sender waiting for its PDU, unless the connection is dead. -/
def closesIdle (s : Channel) : Label → Bool
  | .closeconn _ => s.conn.dead || s.conn.sendComplete.waiting.isEmpty
  | _ => true

theorem awake_of_run {pipefd fd : Fd} {ch : ℕ} {labels : List Label} {reached : Channel}
    (hrun : (system pipefd fd ch).Run (fun source label => closesIdle source label = true)
      labels reached) :
    reached.conn.Awake ∧ ∃ log, Sound (reached.conn, log) := by
  refine hrun.invariant (fun s => s.conn.Awake ∧ ∃ log, Sound (s.conn, log)) ?_ ?_
  · exact ⟨⟨rfl, fun hne => absurd rfl hne, fun _ => rfl⟩, [], sound_of_run .start⟩
  · rintro _ source label target - ⟨hawake, log, hsound⟩ hidle hstep
    rcases conn_of_step hstep with hsame | ⟨section_, events, hsection, hpart⟩
    · rw [hsame]
      exact ⟨hawake, log, hsound⟩
    · refine ⟨hawake.run hsound (fun heq => ?_) hsection, _, hsound.run hsection⟩
      subst heq
      obtain ⟨t, rfl, halive⟩ := hpart
      simpa [closesIdle, halive] using hidle

/-- Nobody is stranded in a run in which `closeconn` never marks a connection dead whose
sender waits for its PDU. -/
theorem not_stranded {pipefd fd : Fd} {ch : ℕ} {labels : List Label} {reached : Channel}
    (hrun : (system pipefd fd ch).Run (fun source label => closesIdle source label = true)
      labels reached) : ¬ reached.Stranded := by
  obtain ⟨hawake, -⟩ := awake_of_run hrun
  rintro ⟨hdead, hwaits, -, hnobody⟩
  rcases hwaits with hcomplete | hwait
  · exact hcomplete (hawake.woken_of_dead hdead)
  · exact hnobody (hawake.signals hdead hwait)

/-- A sender waits with two bytes to write, and another one for its turn, when the write
of the poll thread fails. -/
def failedWriteRun : List Label :=
  [.send (.send [0, 0, 0, 0, 7] (.accepted 3)), .send (.send [0, 0, 0, 0, 8] .again),
    .poll .handOver, .poll .copySets, .poll (.ready [] [5]), .poll .test, .poll .load,
    .callback .error true 0, .poll .callbackReturns, .closeconn 0]

theorem not_stranded_failedWrite :
    ∃ reached, (system 3 5 1).Run (fun source label => closesIdle source label = true)
        failedWriteRun reached ∧
      (reached.conn.dead = true ∧ reached.conn.sendWait.waiting ≠ []) ∧
      ¬ reached.Stranded := by
  have hexec : ((system 3 5 1).execIf closesIdle (system 3 5 1).init failedWriteRun).any
      (fun s => s.conn.dead && !s.conn.sendWait.waiting.isEmpty) = true := by
    decide +kernel
  obtain ⟨reached, hrun, htest⟩ := System.exists_run_of_execIf hexec
  exact ⟨reached, hrun, by simpa using htest, not_stranded hrun⟩

/-- The same two senders, when the connection is closed. -/
def closedRun : List Label :=
  [.send (.send [0, 0, 0, 0, 7] (.accepted 3)), .send (.send [0, 0, 0, 0, 8] .again),
    .closeconn 0, .blockRemoveFd (.closer 0), .poll .handOver, .poll .copySets,
    .poll (.ready [] []), .poll .handOver, .poll (.resume (.closer 0))]

theorem stranded_closed :
    ∃ reached, (system 3 5 1).Run anyStep closedRun reached ∧ reached.Stranded := by
  have hexec : ((system 3 5 1).exec (system 3 5 1).init closedRun).any
      (fun s => s.conn.dead && !s.conn.sendComplete.waiting.isEmpty &&
        decide (.closer 0 ∈ s.returned) && s.conn.sendComplete.woken.isEmpty &&
        s.conn.removing.isEmpty) = true := by
    decide +kernel
  obtain ⟨reached, hrun, htest⟩ := System.exists_run_of_exec hexec
  simp only [Bool.and_eq_true, Bool.not_eq_true', List.isEmpty_eq_false_iff,
    List.isEmpty_iff, decide_eq_true_eq] at htest
  obtain ⟨⟨⟨⟨hdead, hwaits⟩, hback⟩, hwoken⟩, hremoving⟩ := htest
  refine ⟨reached, hrun, hdead, .inl hwaits, .inl ⟨0, hback⟩, fun hsignals => ?_⟩
  rcases Sender.woken_or_removing_of_signals hdead hsignals with hsome | hsome
  · exact hsome hwoken
  · exact hsome hremoving

end Channel

end YfsLab.Connection
