/-
# The write side of a connection

`send` puts its PDU into `wpdu_` and writes as much of it as the socket takes. What is
left is written by `write_cb`, in the poll thread, while the sender waits on
`send_complete_`; other senders wait on `send_wait_` until `wpdu_` is free. Any of
`send`, `write_cb`, `read_cb` and `closeconn` may find out that the connection is dead.

The mutex-protected sections are the steps. A section ends where the code returns,
waits, or lets go of the mutex to call `block_remove_fd`. What `write` does is part of
the step: it accepts some of the bytes, is not ready, or fails.
-/

import YfsLab.Foundations.CondVar
import YfsLab.Foundations.Transition
import YfsLab.Poll.SelectAIO
import YfsLab.Wire.Call

namespace YfsLab.Connection

open BigEndian Monitor Poll Transition Wire

/-! ## The buffer that is written -/

/-- A call of `send` and the contents of its buffer, which has room for the size. -/
structure Call where
  id : ℕ
  pdu : Bytes
  sizeof_le : sizeofRpcSz ≤ pdu.length
  deriving DecidableEq

/-- `wpdu_`: the buffer of the call that is written, its size, and how much of it has
been written. -/
structure Wpdu where
  buf : Option Call := none
  sz : ℤ := 0
  solong : ℤ := 0
  deriving DecidableEq

/-- What a call of `write` returns: the number of bytes it has accepted, or an error
with `errno` `EAGAIN` or another value. -/
inductive WriteResult
  | accepted (n : ℕ)
  | again
  | error
  deriving DecidableEq, Repr

theorem length_stampSize {b : Bytes} (h : sizeofRpcSz ≤ b.length) :
    (stampSize b).length = b.length := by
  simp only [stampSize, List.length_append, length_be32, List.length_drop]
  simp only [sizeofRpcSz] at h ⊢
  omega

/-- `bcopy` of the size into the first four bytes of the buffer. -/
def Call.stamp (c : Call) : Call where
  id := c.id
  pdu := stampSize c.pdu
  sizeof_le := by rw [length_stampSize c.sizeof_le]; exact c.sizeof_le

/-- The bytes that the call sends if it is completed. -/
def Call.frame (c : Call) : Bytes := stampSize c.pdu

/-- `connection::writepdu`: whether it has succeeded, what is left in `wpdu_`, and the
bytes that the socket has accepted. It asserts that `solong` is not negative. -/
def writepdu (w : Wpdu) (r : WriteResult) : Option (Bool × Wpdu × Bytes) :=
  if w.solong < 0 then none
  else if w.solong = w.sz then some (true, w, [])
  else
    match w.buf with
    | none => none
    | some b =>
        let b := if w.solong = 0 then b.stamp else b
        match r with
        | .accepted n =>
            if (n : ℤ) ≤ w.sz - w.solong then
              some (true, { w with buf := some b, solong := w.solong + n },
                (b.pdu.drop w.solong.toNat).take n)
            else none
        | .again => some (true, { w with buf := some b }, [])
        | .error => some (false, { buf := some b, sz := 0, solong := -1 }, [])

/-! ## The sections -/

/-- The write side of a `connection`, with the threads in `send`: those that wait for
`wpdu_`, the one that waits for its PDU to be written, and those in `block_remove_fd`. -/
structure Sender where
  wpdu : Wpdu := {}
  dead : Bool := false
  waiters : ℤ := 0
  sendWait : CondVar Call := {}
  sendComplete : CondVar Call := {}
  removing : List Call := []
  calls : ℕ := 0

/-- What a section does that others can see: a call of `send` begins or returns, bytes
of its PDU are accepted by the socket, or the poll manager is called. -/
inductive Event
  | began (c : Call)
  | wrote (id : ℕ) (bytes : Bytes)
  | returned (id : ℕ) (ret : Bool)
  | addCallback (flag : PollFlag)
  | delCallback (flag : PollFlag)
  | blockRemoveFd (id : ℕ)
  deriving DecidableEq

namespace Sender

/-- The end of `send`, behind its waits. -/
def finish (s : Sender) (c : Call) : Sender × List Event :=
  ({ s with
      wpdu := {}
      sendWait := if 0 < s.waiters then s.sendWait.broadcast else s.sendWait },
    [.returned c.id (!s.dead && s.wpdu.solong == s.wpdu.sz)])

/-- The wait of `send` for its PDU, from where the thread has the mutex. -/
def awaitComplete (s : Sender) (c : Call) : Sender × List Event :=
  if s.dead = false ∧ 0 ≤ s.wpdu.solong ∧ s.wpdu.solong < s.wpdu.sz then
    ({ s with sendComplete := s.sendComplete.wait c }, [])
  else s.finish c

/-- `send` behind its first wait: the first write of the PDU. A `lossy_` connection may
be shut down in front of it, which makes it fail. -/
def writeFirst (s : Sender) (c : Call) (r : WriteResult) : Option (Sender × List Event) :=
  (writepdu { buf := some c, sz := c.pdu.length, solong := 0 } r).map fun (ok, w, bytes) =>
    if !ok then
      ({ s with wpdu := w, dead := true, removing := s.removing ++ [c] },
        [.wrote c.id bytes, .blockRemoveFd c.id])
    else if w.solong = w.sz then
      let (s, events) := { s with wpdu := w }.finish c
      (s, .wrote c.id bytes :: events)
    else
      let (s, events) := { s with wpdu := w }.awaitComplete c
      (s, .wrote c.id bytes :: .addCallback .wronly :: events)

/-- The first wait of `send`, from where the thread has the mutex and is counted in
`waiters_`. -/
def awaitTurn (s : Sender) (c : Call) (r : WriteResult) : Option (Sender × List Event) :=
  if s.dead = false ∧ s.wpdu.buf.isSome then
    some ({ s with sendWait := s.sendWait.wait c }, [])
  else if s.dead then
    some ({ s with waiters := s.waiters - 1 }, [.returned c.id false])
  else { s with waiters := s.waiters - 1 }.writeFirst c r

/-- `connection::send`, up to where it waits or returns. -/
def send (s : Sender) (c : Call) (r : WriteResult) : Option (Sender × List Event) :=
  { s with waiters := s.waiters + 1 }.awaitTurn c r

/-- `connection::write_cb`. It asserts that the connection is not dead. -/
def writeCb (s : Sender) (r : WriteResult) (choice : ℕ) : Option (Sender × List Event) :=
  if s.dead then none
  else if s.wpdu.sz = 0 then some (s, [.delCallback .wronly])
  else
    s.wpdu.buf.bind fun b =>
      (writepdu s.wpdu r).bind fun (ok, w, bytes) =>
        if !ok then
          some ({ s with
              wpdu := w, dead := true, sendComplete := s.sendComplete.signal choice },
            [.wrote b.id bytes, .delCallback .rdwr])
        else if w.solong < 0 then none
        else if w.solong < w.sz then some ({ s with wpdu := w }, [.wrote b.id bytes])
        else
          some ({ s with wpdu := w, sendComplete := s.sendComplete.signal choice },
            [.wrote b.id bytes])

/-- `connection::read_cb`, as far as the write side is concerned: whether `readpdu` has
succeeded. -/
def readCb (s : Sender) (succ : Bool) (choice : ℕ) : Sender × List Event :=
  if s.dead || succ then (s, [])
  else
    ({ s with dead := true, sendComplete := s.sendComplete.signal choice },
      [.delCallback .rdwr])

/-- The mutex-protected section of `connection::closeconn`. -/
def closeconn (s : Sender) : Sender := { s with dead := true }

/-- The sections, the wake-ups without a signal, and the returns of
`block_remove_fd`. -/
inductive Label
  | send (pdu : Bytes) (r : WriteResult)
  | wakeWait (i : ℕ)
  | resumeWait (i : ℕ) (r : WriteResult)
  | wakeComplete (i : ℕ)
  | resumeComplete (i : ℕ)
  | removed (i : ℕ)
  | writeCb (r : WriteResult) (choice : ℕ)
  | readCb (succ : Bool) (choice : ℕ)
  | closeconn

/-- One section. The callers of `send` pass PDUs, which have room for their size and a
size that is an `int`. -/
def run (s : Sender) : Label → Option (Sender × List Event)
  | .send pdu r =>
      if h : sizeofRpcSz ≤ pdu.length ∧ pdu.length ≤ intMax then
        let c : Call := ⟨s.calls, pdu, h.1⟩
        ({ s with calls := s.calls + 1 }.send c r).map fun (s, events) => (s, .began c :: events)
      else none
  | .wakeWait i => (s.sendWait.wake i).map fun w => ({ s with sendWait := w }, [])
  | .resumeWait i r =>
      (s.sendWait.resume i).bind fun (c, w) => { s with sendWait := w }.awaitTurn c r
  | .wakeComplete i => (s.sendComplete.wake i).map fun w => ({ s with sendComplete := w }, [])
  | .resumeComplete i =>
      (s.sendComplete.resume i).map fun (c, w) => { s with sendComplete := w }.awaitComplete c
  | .removed i =>
      s.removing[i]?.map fun c => { s with removing := s.removing.eraseIdx i }.finish c
  | .writeCb r choice => s.writeCb r choice
  | .readCb succ choice => some (s.readCb succ choice)
  | .closeconn => some (s.closeconn, [])

/-- A new connection, with the history of its write side. -/
def system : System (Sender × List Event) Label where
  init := ({}, [])
  step state label := (state.1.run label).map fun (s, events) => (s, state.2 ++ events)

/-! ## What a section finds and leaves -/

/-- What the first write of a call leaves. -/
inductive FirstWrite (s : Sender) (c : Call) (r : WriteResult) : Sender → List Event → Prop
  | failed {w : Wpdu} {bytes : Bytes}
      (hpdu : writepdu { buf := some c, sz := c.pdu.length, solong := 0 } r =
        some (false, w, bytes)) :
      FirstWrite s c r { s with wpdu := w, dead := true, removing := s.removing ++ [c] }
        [.wrote c.id bytes, .blockRemoveFd c.id]
  | whole {w : Wpdu} {bytes : Bytes}
      (hpdu : writepdu { buf := some c, sz := c.pdu.length, solong := 0 } r =
        some (true, w, bytes))
      (hfull : w.solong = w.sz) :
      FirstWrite s c r ({ s with wpdu := w }.finish c).1
        (.wrote c.id bytes :: ({ s with wpdu := w }.finish c).2)
  | part {w : Wpdu} {bytes : Bytes}
      (hpdu : writepdu { buf := some c, sz := c.pdu.length, solong := 0 } r =
        some (true, w, bytes))
      (hrest : w.solong ≠ w.sz) :
      FirstWrite s c r ({ s with wpdu := w }.awaitComplete c).1
        (.wrote c.id bytes :: .addCallback .wronly :: ({ s with wpdu := w }.awaitComplete c).2)

theorem firstWrite_of_eq {s s' : Sender} {c : Call} {r : WriteResult} {events : List Event}
    (hwrite : s.writeFirst c r = some (s', events)) : s.FirstWrite c r s' events := by
  obtain ⟨⟨ok, w, bytes⟩, hpdu, heq⟩ := Option.map_eq_some_iff.mp hwrite
  cases ok with
  | false =>
      obtain ⟨rfl, rfl⟩ := Prod.mk.inj heq
      exact .failed hpdu
  | true =>
      simp only [Bool.not_true, Bool.false_eq_true, if_false] at heq
      split_ifs at heq with hfull
      · obtain ⟨rfl, rfl⟩ := Prod.mk.inj heq
        exact .whole hpdu hfull
      · obtain ⟨rfl, rfl⟩ := Prod.mk.inj heq
        exact .part hpdu hfull

/-- What a thread in front of its turn finds and leaves. -/
inductive Turn (s : Sender) (c : Call) (r : WriteResult) : Sender → List Event → Prop
  | waits (halive : s.dead = false) (hbusy : s.wpdu.buf.isSome = true) :
      Turn s c r { s with sendWait := s.sendWait.wait c } []
  | refused (hdead : s.dead = true) :
      Turn s c r { s with waiters := s.waiters - 1 } [.returned c.id false]
  | writes {s' : Sender} {events : List Event} (halive : s.dead = false)
      (hfree : s.wpdu.buf = none)
      (hwrite : FirstWrite { s with waiters := s.waiters - 1 } c r s' events) :
      Turn s c r s' events

theorem turn_of_eq {s s' : Sender} {c : Call} {r : WriteResult} {events : List Event}
    (hturn : s.awaitTurn c r = some (s', events)) : s.Turn c r s' events := by
  rw [awaitTurn] at hturn
  split_ifs at hturn with hwait hdead
  · obtain ⟨rfl, rfl⟩ := Prod.mk.inj (Option.some.inj hturn)
    exact .waits hwait.1 hwait.2
  · obtain ⟨rfl, rfl⟩ := Prod.mk.inj (Option.some.inj hturn)
    exact .refused hdead
  · have halive : s.dead = false := by simpa using hdead
    exact .writes halive (by simpa [halive] using hwait) (firstWrite_of_eq hturn)

/-- On a dead connection the turn of a thread is over at once. -/
theorem Turn.of_dead {s s' : Sender} {c : Call} {r : WriteResult} {events : List Event}
    (h : s.Turn c r s' events) (hdead : s.dead = true) :
    s' = { s with waiters := s.waiters - 1 } ∧ events = [.returned c.id false] := by
  cases h with
  | refused => exact ⟨rfl, rfl⟩
  | waits halive | writes halive =>
      rw [halive] at hdead
      cases hdead

/-- What `write_cb` finds and leaves. -/
inductive NextWrite (s : Sender) (r : WriteResult) (choice : ℕ) : Sender → List Event → Prop
  | nothing (halive : s.dead = false) : NextWrite s r choice s [.delCallback .wronly]
  | failed {b : Call} {w : Wpdu} {bytes : Bytes} (halive : s.dead = false)
      (hbuf : s.wpdu.buf = some b) (hpdu : writepdu s.wpdu r = some (false, w, bytes)) :
      NextWrite s r choice
        { s with wpdu := w, dead := true, sendComplete := s.sendComplete.signal choice }
        [.wrote b.id bytes, .delCallback .rdwr]
  | part {b : Call} {w : Wpdu} {bytes : Bytes} (halive : s.dead = false)
      (hbuf : s.wpdu.buf = some b) (hpdu : writepdu s.wpdu r = some (true, w, bytes))
      (hrest : w.solong < w.sz) :
      NextWrite s r choice { s with wpdu := w } [.wrote b.id bytes]
  | whole {b : Call} {w : Wpdu} {bytes : Bytes} (halive : s.dead = false)
      (hbuf : s.wpdu.buf = some b) (hpdu : writepdu s.wpdu r = some (true, w, bytes))
      (hfull : w.sz ≤ w.solong) :
      NextWrite s r choice { s with wpdu := w, sendComplete := s.sendComplete.signal choice }
        [.wrote b.id bytes]

/-- `write_cb` asserts that the connection is alive. -/
theorem NextWrite.alive {s s' : Sender} {r : WriteResult} {choice : ℕ} {events : List Event}
    (h : s.NextWrite r choice s' events) : s.dead = false := by
  cases h with
  | nothing halive | failed halive | part halive | whole halive => exact halive

theorem nextWrite_of_eq {s s' : Sender} {r : WriteResult} {choice : ℕ} {events : List Event}
    (hwrite : s.writeCb r choice = some (s', events)) : s.NextWrite r choice s' events := by
  rw [writeCb] at hwrite
  split_ifs at hwrite with hdead
  · obtain ⟨rfl, rfl⟩ := Prod.mk.inj (Option.some.inj hwrite)
    exact .nothing (by simpa using hdead)
  · have halive : s.dead = false := by simpa using hdead
    obtain ⟨b, hbuf, hrest⟩ := Option.bind_eq_some_iff.mp hwrite
    obtain ⟨⟨ok, w, bytes⟩, hpdu, heq⟩ := Option.bind_eq_some_iff.mp hrest
    cases ok with
    | false =>
        obtain ⟨rfl, rfl⟩ := Prod.mk.inj (Option.some.inj heq)
        exact .failed halive hbuf hpdu
    | true =>
        simp only [Bool.not_true, Bool.false_eq_true, if_false] at heq
        split_ifs at heq with hneg hmore
        · obtain ⟨rfl, rfl⟩ := Prod.mk.inj (Option.some.inj heq)
          exact .part halive hbuf hpdu hmore
        · obtain ⟨rfl, rfl⟩ := Prod.mk.inj (Option.some.inj heq)
          exact .whole halive hbuf hpdu (by omega)

/-- What a section of the write side finds and leaves. -/
inductive Section (s : Sender) : Label → Sender → List Event → Prop
  | began {pdu : Bytes} {r : WriteResult} {s' : Sender} {events : List Event}
      (hpdu : sizeofRpcSz ≤ pdu.length)
      (hturn : Turn { s with calls := s.calls + 1, waiters := s.waiters + 1 }
        ⟨s.calls, pdu, hpdu⟩ r s' events) :
      Section s (.send pdu r) s' (.began ⟨s.calls, pdu, hpdu⟩ :: events)
  | wokeWait {i : ℕ} {w : CondVar Call} (hwake : s.sendWait.wake i = some w) :
      Section s (.wakeWait i) { s with sendWait := w } []
  | resumedWait {i : ℕ} {r : WriteResult} {c : Call} {w : CondVar Call} {s' : Sender}
      {events : List Event} (hresume : s.sendWait.resume i = some (c, w))
      (hturn : Turn { s with sendWait := w } c r s' events) :
      Section s (.resumeWait i r) s' events
  | wokeComplete {i : ℕ} {w : CondVar Call} (hwake : s.sendComplete.wake i = some w) :
      Section s (.wakeComplete i) { s with sendComplete := w } []
  | resumedComplete {i : ℕ} {c : Call} {w : CondVar Call}
      (hresume : s.sendComplete.resume i = some (c, w)) :
      Section s (.resumeComplete i) ({ s with sendComplete := w }.awaitComplete c).1
        ({ s with sendComplete := w }.awaitComplete c).2
  | removed {i : ℕ} {c : Call} (hc : s.removing[i]? = some c) :
      Section s (.removed i) ({ s with removing := s.removing.eraseIdx i }.finish c).1
        ({ s with removing := s.removing.eraseIdx i }.finish c).2
  | wrote {r : WriteResult} {choice : ℕ} {s' : Sender} {events : List Event}
      (hwrite : s.NextWrite r choice s' events) : Section s (.writeCb r choice) s' events
  | read {succ : Bool} {choice : ℕ} : Section s (.readCb succ choice) s []
  | readFailed {choice : ℕ} (halive : s.dead = false) :
      Section s (.readCb false choice)
        { s with dead := true, sendComplete := s.sendComplete.signal choice }
        [.delCallback .rdwr]
  | closed : Section s .closeconn s.closeconn []

theorem section_of_run {s s' : Sender} {label : Label} {events : List Event}
    (hrun : s.run label = some (s', events)) : s.Section label s' events := by
  cases label with
  | send pdu r =>
      simp only [run] at hrun
      split_ifs at hrun with hpdu
      obtain ⟨_, hsend, heq⟩ := Option.map_eq_some_iff.mp hrun
      obtain ⟨rfl, rfl⟩ := Prod.mk.inj heq
      exact .began hpdu.1 (turn_of_eq hsend)
  | wakeWait i =>
      obtain ⟨w, hwake, heq⟩ := Option.map_eq_some_iff.mp hrun
      obtain ⟨rfl, rfl⟩ := Prod.mk.inj heq
      exact .wokeWait hwake
  | resumeWait i r =>
      obtain ⟨_, hresume, hturn⟩ := Option.bind_eq_some_iff.mp hrun
      exact .resumedWait hresume (turn_of_eq hturn)
  | wakeComplete i =>
      obtain ⟨w, hwake, heq⟩ := Option.map_eq_some_iff.mp hrun
      obtain ⟨rfl, rfl⟩ := Prod.mk.inj heq
      exact .wokeComplete hwake
  | resumeComplete i =>
      obtain ⟨_, hresume, heq⟩ := Option.map_eq_some_iff.mp hrun
      obtain ⟨rfl, rfl⟩ := Prod.mk.inj heq
      exact .resumedComplete hresume
  | removed i =>
      obtain ⟨c, hc, heq⟩ := Option.map_eq_some_iff.mp hrun
      obtain ⟨rfl, rfl⟩ := Prod.mk.inj heq
      exact .removed hc
  | writeCb r choice => exact .wrote (nextWrite_of_eq hrun)
  | readCb succ choice =>
      rw [run, readCb] at hrun
      split_ifs at hrun with hquiet
      · obtain ⟨rfl, rfl⟩ := Prod.mk.inj (Option.some.inj hrun)
        exact .read
      · obtain ⟨rfl, rfl⟩ := Prod.mk.inj (Option.some.inj hrun)
        obtain ⟨halive, rfl⟩ : s.dead = false ∧ succ = false := by simpa using hquiet
        exact .readFailed halive
  | closeconn =>
      obtain ⟨rfl, rfl⟩ := Prod.mk.inj (Option.some.inj hrun)
      exact .closed

end Sender

end YfsLab.Connection
