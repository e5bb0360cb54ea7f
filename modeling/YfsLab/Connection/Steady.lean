/-
# The buffer and its sender

`wpdu_` has a buffer exactly as long as the thread that has put it there is in `send`:
it waits for `write_cb` to write the rest, or it is in `block_remove_fd` after a write has
failed. `solong` is negative only behind a failed write, which has set the size to zero.
-/

import YfsLab.Connection.WholePdus

namespace YfsLab.Connection

open BigEndian Monitor

namespace Sender

/-- The sender of the PDU in `wpdu_`: it waits for the rest to be written, or is in
`block_remove_fd`. -/
def owners (s : Sender) : ℕ := s.sendComplete.threads.length + s.removing.length

/-- The threads in `send`. -/
def senders (s : Sender) : ℕ := s.sendWait.threads.length + s.owners

/-- `wpdu_` has a buffer as long as its sender is in `send`, and `solong` is negative only
together with the size zero. -/
structure Steady (s : Sender) : Prop where
  owners_eq : s.owners = if s.wpdu.buf.isSome then 1 else 0
  solong : s.wpdu.sz ≠ 0 → 0 ≤ s.wpdu.solong

theorem Steady.owners_eq_zero {s : Sender} (h : s.Steady) (hfree : s.wpdu.buf = none) :
    s.owners = 0 := by
  rw [h.owners_eq, hfree]
  rfl

/-- While somebody owns `wpdu_` it has a buffer, and he is alone. -/
theorem Steady.of_owner {s : Sender} (h : s.Steady) (hpos : 0 < s.owners) :
    s.owners = 1 ∧ s.wpdu.buf.isSome = true := by
  have howners := h.owners_eq
  split_ifs at howners with hbuf
  · exact ⟨howners, hbuf⟩
  · omega

/-- Threads may wake up and wait for `wpdu_`. -/
theorem Steady.congr {s s' : Sender} (h : s.Steady) (hwpdu : s'.wpdu = s.wpdu)
    (howners : s'.owners = s.owners) : s'.Steady :=
  ⟨by rw [howners, hwpdu, h.owners_eq], by rw [hwpdu]; exact h.solong⟩

theorem senders_finish (s : Sender) (c : Call) : (s.finish c).1.senders = s.senders := by
  have hperm := (Framed.finish_sendWait_perm s c).length_eq
  simp only [senders, owners, hperm]
  rfl

theorem steady_finish {s : Sender} (hnobody : s.owners = 0) (c : Call) :
    (s.finish c).1.Steady :=
  ⟨hnobody, fun hne => absurd rfl hne⟩

/-- The owner of `wpdu_` has the mutex. -/
theorem steady_awaitComplete {s : Sender} (hnobody : s.owners = 0)
    (hbuf : s.wpdu.buf.isSome = true) (hsolong : s.wpdu.sz ≠ 0 → 0 ≤ s.wpdu.solong) (c : Call) :
    (s.awaitComplete c).1.Steady ∧ (s.awaitComplete c).1.senders ≤ s.senders + 1 := by
  rw [awaitComplete]
  split_ifs
  · have hone : { s with sendComplete := s.sendComplete.wait c }.owners = s.owners + 1 := by
      simp only [owners, (s.sendComplete.threads_wait_perm c).length_eq, List.length_cons]
      omega
    refine ⟨⟨?_, hsolong⟩, ?_⟩
    · rw [hone, hnobody, if_pos hbuf]
    · simp only [senders, hone]
      omega
  · exact ⟨steady_finish hnobody c, (senders_finish s c).le.trans (Nat.le_succ _)⟩

/-- The first write of a call that has found `wpdu_` free. -/
theorem steady_firstWrite {s s' : Sender} {c : Call} {r : WriteResult} {events : List Event}
    (hnobody : s.owners = 0) (hwrite : s.FirstWrite c r s' events) :
    s'.Steady ∧ s'.senders ≤ s.senders + 1 := by
  cases hwrite with
  | @failed w _ hpdu =>
      obtain ⟨hbuf, hsolong, -⟩ := writepdu_keeps hpdu
      have hbuf : w.buf.isSome = true := hbuf
      have hone : { s with wpdu := w, dead := true, removing := s.removing ++ [c] }.owners = 1 := by
        simp only [owners, List.length_append, List.length_singleton] at hnobody ⊢
        omega
      refine ⟨⟨?_, hsolong⟩, ?_⟩
      · rw [hone, if_pos hbuf]
      · simp only [senders, hone, hnobody]
        omega
  | @whole w =>
      exact ⟨steady_finish (s := { s with wpdu := w }) hnobody c,
        (senders_finish { s with wpdu := w } c).le.trans (Nat.le_succ _)⟩
  | @part w _ hpdu =>
      obtain ⟨hbuf, hsolong, -⟩ := writepdu_keeps hpdu
      exact steady_awaitComplete (s := { s with wpdu := w }) hnobody hbuf hsolong c

/-- A thread in front of its turn has the mutex. -/
theorem Steady.inTurn {s s' : Sender} {c : Call} {r : WriteResult} {events : List Event}
    (h : s.Steady) (hturn : s.Turn c r s' events) :
    s'.Steady ∧ s'.senders ≤ s.senders + 1 := by
  cases hturn with
  | waits =>
      refine ⟨h.congr rfl rfl, ?_⟩
      simp only [senders, (s.sendWait.threads_wait_perm c).length_eq, List.length_cons, owners]
      omega
  | refused => exact ⟨h.congr rfl rfl, Nat.le_succ _⟩
  | writes _ hfree hwrite =>
      exact steady_firstWrite (s := { s with waiters := s.waiters - 1 })
        (h.owners_eq_zero hfree) hwrite

/-- A signal lets nobody leave. -/
theorem owners_signal (s : Sender) (w : Wpdu) (dead : Bool) (choice : ℕ) :
    { s with wpdu := w, dead, sendComplete := s.sendComplete.signal choice }.owners =
      s.owners := by
  simp only [owners, (s.sendComplete.threads_signal_perm choice).length_eq]

theorem Steady.nextWrite {s s' : Sender} {r : WriteResult} {choice : ℕ} {events : List Event}
    (h : s.Steady) (hwrite : s.NextWrite r choice s' events) :
    s'.Steady ∧ s'.senders = s.senders := by
  have hkept : ∀ {ok w bytes}, writepdu s.wpdu r = some (ok, w, bytes) →
      s.owners = (if w.buf.isSome then 1 else 0) ∧ (w.sz ≠ 0 → 0 ≤ w.solong) := by
    intro ok w bytes hpdu
    obtain ⟨hbuf, hsolong, -⟩ := writepdu_keeps hpdu
    exact ⟨hbuf ▸ h.owners_eq, hsolong⟩
  cases hwrite with
  | nothing => exact ⟨h, rfl⟩
  | part _ _ hpdu =>
      obtain ⟨howners, hsolong⟩ := hkept hpdu
      exact ⟨⟨howners, hsolong⟩, rfl⟩
  | failed _ _ hpdu | whole _ _ hpdu =>
      obtain ⟨howners, hsolong⟩ := hkept hpdu
      refine ⟨⟨?_, hsolong⟩, ?_⟩
      · rw [owners_signal, howners]
      · simp only [senders, owners_signal]

/-- A call of `send` begins in this section. -/
def begins : Label → Bool
  | .send .. => true
  | _ => false

/-- Every section keeps `wpdu_` and its sender together, and only a call of `send` brings
a new thread in. -/
theorem Steady.run {s s' : Sender} {label : Label} {events : List Event} (h : s.Steady)
    (hrun : s.run label = some (s', events)) :
    s'.Steady ∧ s'.senders ≤ s.senders + if begins label then 1 else 0 := by
  cases section_of_run hrun with
  | began _ hturn =>
      have hbefore : { s with calls := s.calls + 1, waiters := s.waiters + 1 }.Steady :=
        h.congr rfl rfl
      exact hbefore.inTurn hturn
  | wokeWait hwake =>
      refine ⟨h.congr rfl rfl, ?_⟩
      simp [senders, owners, (CondVar.threads_wake_perm hwake).length_eq]
  | @resumedWait _ _ _ w _ _ hresume hturn =>
      have hlength := (CondVar.threads_resume_perm hresume).length_eq
      have hbefore : { s with sendWait := w }.Steady := h.congr rfl rfl
      obtain ⟨hsteady, hsenders⟩ := hbefore.inTurn hturn
      refine ⟨hsteady, hsenders.trans ?_⟩
      simp only [senders, owners, hlength, List.length_cons, begins]
      omega
  | wokeComplete hwake =>
      have hlength := (CondVar.threads_wake_perm hwake).length_eq
      refine ⟨h.congr rfl ?_, ?_⟩
      · simp only [owners, hlength]
      · simp [senders, owners, hlength]
  | @resumedComplete _ c w hresume =>
      have hlength := (CondVar.threads_resume_perm hresume).length_eq
      rw [List.length_cons] at hlength
      obtain ⟨hone, hbuf⟩ := h.of_owner (by rw [owners]; omega)
      have hnobody : { s with sendComplete := w }.owners = 0 := by
        simp only [owners] at hone ⊢
        omega
      obtain ⟨hsteady, hsenders⟩ :=
        steady_awaitComplete (s := { s with sendComplete := w }) hnobody hbuf h.solong c
      refine ⟨hsteady, hsenders.trans ?_⟩
      simp only [senders, owners, begins] at hone hnobody ⊢
      omega
  | @removed i c hc =>
      obtain ⟨hlt, -⟩ := List.getElem?_eq_some_iff.mp hc
      obtain ⟨hone, hbuf⟩ := h.of_owner (by rw [owners]; omega)
      have hnobody : { s with removing := s.removing.eraseIdx i }.owners = 0 := by
        simp only [owners, List.length_eraseIdx_of_lt hlt] at hone ⊢
        omega
      refine ⟨steady_finish hnobody c,
        (senders_finish { s with removing := s.removing.eraseIdx i } c).le.trans ?_⟩
      simp only [senders, hnobody]
      omega
  | wrote hwrite =>
      obtain ⟨hsteady, hsenders⟩ := h.nextWrite hwrite
      exact ⟨hsteady, hsenders.le⟩
  | read => exact ⟨h, le_rfl⟩
  | @readFailed choice =>
      have howners := owners_signal s s.wpdu true choice
      exact ⟨h.congr rfl howners, by simp only [senders, howners]; exact le_rfl⟩
  | closed => exact ⟨h.congr rfl rfl, le_rfl⟩

end Sender

end YfsLab.Connection
