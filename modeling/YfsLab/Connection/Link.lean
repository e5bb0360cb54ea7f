/-
# From `send` to `got_pdu`

The two ends of a connection: the threads that call `send` and the callbacks of one end,
the bytes on the way, and `read_cb` of the other end. Bytes arrive in pieces of any size,
a `read` may find nothing, the end of the stream or an error, `got_pdu` may refuse a PDU
and is then offered it again, and either end may be closed at any time.

What the reader keeps is a function of the bytes of the current PDU, and what `got_pdu`
accepts are words of a prefix code. So the accepted PDUs are the first of those that the
other end has written, however the bytes were cut.
-/

import YfsLab.Connection.Reassembly
import YfsLab.Connection.WholePdus
import YfsLab.Foundations.PrefixCode

namespace YfsLab.Connection

open BigEndian Transition Wire

universe u

/-! ## The reader on any stream -/

/-- PDUs that begin with their size. -/
def pduCode : Set Bytes :=
  PrefixCode.lengthFirst sizeofRpcSz fun word => (ntohl word).toNat

theorem prefixCode_pduCode : PrefixCode pduCode :=
  PrefixCode.of_lengthFirst (by decide) _

/-- The PDU of a call as it is sent is one of them. -/
theorem Call.frame_mem_pduCode {c : Call} (hsize : c.pdu.length ≤ intMax) :
    c.frame ∈ pduCode := by
  have hlength := c.length_frame
  have hword := c.sizeof_le
  simp only [intMax] at hsize
  refine ⟨by omega, ?_⟩
  have htake : c.frame.take sizeofRpcSz = be32 (UInt32.ofNat c.pdu.length) := rfl
  have hnat : (UInt32.ofNat c.pdu.length).toNat = c.pdu.length := by
    rw [UInt32.toNat_ofNat', Nat.mod_eq_of_lt (by omega)]
  simp only [htake]
  rw [ntohl_be32 (by omega), hnat, hlength, Int.toNat_natCast]

/-- `rpdu_` when these bytes of a PDU have been read. -/
def Charbuf.holding (held : Bytes) : Charbuf :=
  if held = [] then {}
  else
    let sz := ntohl (held.take sizeofRpcSz)
    { buf := some held, capacity := sizeT (sz + sizeofRpcSz), sz, solong := held.length }

theorem Charbuf.holding_of_le {held : Bytes} (hword : sizeofRpcSz ≤ held.length) :
    Charbuf.holding held =
      { buf := some held, capacity := sizeT (ntohl (held.take sizeofRpcSz) + sizeofRpcSz),
        sz := ntohl (held.take sizeofRpcSz), solong := held.length } := by
  have hne : held ≠ [] := by
    rintro rfl
    simp [sizeofRpcSz] at hword
  rw [holding, if_neg hne]

/-- The bytes that a read has returned. -/
def ReadResult.bytes : ReadResult → Bytes
  | .data bytes => bytes
  | .eof | .fail => []

/-- An operating system whose reads return the bytes of a stream, one after the other, and
no more than are asked for. -/
structure IsStream {Kernel : Type u} (os : Os Kernel) (pending : Kernel → Bytes) : Prop where
  length_le : ∀ n kernel, (os.read n kernel).1.bytes.length ≤ n
  split : ∀ n kernel, pending kernel = (os.read n kernel).1.bytes ++ pending (os.read n kernel).2

/-- What the reader may hold: nothing, or the size word of a PDU and no more than it says.
A size that leaves no room for itself says nothing. -/
def Fits (held : Bytes) : Prop :=
  held = [] ∨ sizeofRpcSz ≤ held.length ∧
    (sizeofRpcSz ≤ ntohl (held.take sizeofRpcSz) →
      held.length ≤ ntohl (held.take sizeofRpcSz))

/-- What a call of `readpdu` that began with these bytes has taken from the stream, and
what it has made of it. -/
def Took (held taken : Bytes) (succ : Bool) (rpdu : Charbuf) : Prop :=
  (succ = true ∧ rpdu = Charbuf.holding (held ++ taken) ∧ Fits (held ++ taken)) ∨
    (succ = false ∧ rpdu = {})

theorem ntohl_lt (word : Bytes) : ntohl word < 2 ^ 31 := by
  unfold ntohl
  split
  · exact Int32.toInt_lt _
  · decide

section AnyStream

variable {Kernel : Type u} {os : Os Kernel} {pending : Kernel → Bytes}

theorem readBody_took (hos : IsStream os pending) {held : Bytes} {kernel kernel' : Kernel}
    {succ : Bool} {rpdu : Charbuf} (hfits : Fits held) (hword : sizeofRpcSz ≤ held.length)
    (hread : readBody os (Charbuf.holding held) kernel = some (succ, rpdu, kernel')) :
    ∃ taken, pending kernel = taken ++ pending kernel' ∧ Took held taken succ rpdu := by
  have hsplit := hos.split
    (sizeT ((Charbuf.holding held).sz - (Charbuf.holding held).solong)) kernel
  have hlength := hos.length_le
    (sizeT ((Charbuf.holding held).sz - (Charbuf.holding held).solong)) kernel
  obtain ⟨result, after, hresult⟩ : ∃ result after,
      os.read (sizeT ((Charbuf.holding held).sz - (Charbuf.holding held).solong)) kernel =
        (result, after) := ⟨_, _, rfl⟩
  simp only [readBody, hresult] at hread hsplit hlength
  -- a read that found nothing keeps the buffer, or gives it up with the connection
  have hnothing : pending after = pending kernel →
      (if os.errno after = .eagain then some (true, Charbuf.holding held, after)
        else some (false, {}, after)) = some (succ, rpdu, kernel') →
      ∃ taken, pending kernel = taken ++ pending kernel' ∧ Took held taken succ rpdu := by
    intro hsame heq
    have hstay : held ++ [] = held := List.append_nil held
    split_ifs at heq with hagain
    · obtain ⟨rfl, rfl, rfl⟩ : true = succ ∧ Charbuf.holding held = rpdu ∧ after = kernel' := by
        simpa using heq
      exact ⟨[], hsame.symm, .inl ⟨rfl, by rw [hstay], hstay.symm ▸ hfits⟩⟩
    · obtain ⟨rfl, rfl, rfl⟩ : false = succ ∧ ({} : Charbuf) = rpdu ∧ after = kernel' := by
        simpa using heq
      exact ⟨[], hsame.symm, .inr ⟨rfl, rfl⟩⟩
  cases result with
  | eof | fail => exact hnothing hsplit.symm hread
  | data bytes =>
      have hmore : sizeofRpcSz ≤ (held ++ bytes).length := by
        rw [List.length_append]
        omega
      have hsize : (held ++ bytes).take sizeofRpcSz = held.take sizeofRpcSz :=
        List.take_append_of_le_length hword
      simp only [Charbuf.holding_of_le hword, Option.getD_some, ReadResult.bytes] at hread hlength
      split_ifs at hread with hover
      simp only [Option.some.injEq, Prod.mk.injEq] at hread
      obtain ⟨hsucc, hrpdu, rfl⟩ := hread
      refine ⟨bytes, hsplit, .inl ⟨hsucc.symm, ?_, .inr ⟨hmore, ?_⟩⟩⟩
      · rw [← hrpdu, Charbuf.holding_of_le hmore, hsize]
        simp
      · intro hroom
        rw [hsize] at hroom ⊢
        have hlt := ntohl_lt (held.take sizeofRpcSz)
        have hheld : (held.length : ℤ) ≤ ntohl (held.take sizeofRpcSz) :=
          (hfits.resolve_left (by rintro rfl; simp [sizeofRpcSz] at hword)).2 hroom
        simp only [sizeT] at hlength
        rw [List.length_append]
        omega

theorem readpdu_took (hos : IsStream os pending) {held : Bytes} {kernel kernel' : Kernel}
    {succ : Bool} {rpdu : Charbuf} (hfits : Fits held)
    (hunfinished : (Charbuf.holding held).unfinished = true)
    (hread : readpdu os (Charbuf.holding held) kernel = some (succ, rpdu, kernel')) :
    ∃ taken, pending kernel = taken ++ pending kernel' ∧ Took held taken succ rpdu := by
  rcases hfits with rfl | ⟨hword, hroom⟩
  · -- a new PDU
    obtain ⟨result, after, hresult⟩ : ∃ result after,
        os.read sizeofRpcSz kernel = (result, after) := ⟨_, _, rfl⟩
    have hnew : (Charbuf.holding []).sz = 0 := rfl
    simp only [readpdu, if_pos hnew, hresult] at hread
    have hfailed : ∀ {taken}, pending kernel = taken ++ pending after →
        some (false, Charbuf.holding [], after) = some (succ, rpdu, kernel') →
        ∃ taken, pending kernel = taken ++ pending kernel' ∧ Took [] taken succ rpdu := by
      intro taken htaken heq
      obtain ⟨rfl, rfl, rfl⟩ := by simpa using heq
      exact ⟨taken, htaken, .inr ⟨rfl, rfl⟩⟩
    have hdata := hos.split sizeofRpcSz kernel
    rw [hresult] at hdata
    cases result with
    | eof => exact hfailed hdata hread
    | fail =>
        simp only at hread
        split_ifs at hread
        exact hfailed hdata hread
    | data word =>
        simp only at hread
        split_ifs at hread with hshort hlarge hbuf halloc
        · exact hfailed hdata hread
        · exact hfailed hdata hread
        · have hlength : word.length = sizeofRpcSz := not_not.mp hshort
          have hwhole : word.take sizeofRpcSz = word := List.take_of_length_le hlength.le
          have hword : Charbuf.holding word =
              { buf := some word, capacity := sizeT (ntohl word + sizeofRpcSz),
                sz := ntohl word, solong := sizeofRpcSz } := by
            rw [Charbuf.holding_of_le hlength.ge, hwhole, hlength]
          have hfits : Fits word := by
            refine .inr ⟨hlength.ge, fun hroom => ?_⟩
            rw [hwhole] at hroom ⊢
            rwa [hlength]
          rw [← hword] at hread
          obtain ⟨taken, htaken, htook⟩ := readBody_took hos hfits hlength.ge hread
          simp only [ReadResult.bytes, htaken] at hdata
          exact ⟨word ++ taken, by rw [hdata, List.append_assoc], htook⟩
  · refine readBody_took hos (.inr ⟨hword, hroom⟩) hword ?_
    rw [Charbuf.holding_of_le hword] at hunfinished hread ⊢
    have hmore : (held.length : ℤ) < ntohl (held.take sizeofRpcSz) := by
      simpa [Charbuf.unfinished] using hunfinished
    rw [readpdu, if_neg (by simp only; omega)] at hread
    exact hread

/-- The reader in terms of the bytes it has read: PDUs that have been accepted, and the
bytes of one more. -/
structure Reads (conn : Conn) (accepted : List Bytes) (consumed : Bytes) : Prop where
  mem_pduCode : ∀ pdu ∈ accepted, pdu ∈ pduCode
  isPrefix : accepted.flatten <+: consumed
  holding : conn.dead = false → ∃ held, conn.rpdu = Charbuf.holding held ∧ Fits held ∧
    consumed = accepted.flatten ++ held

theorem reads_init : Reads {} [] [] :=
  ⟨by simp, List.nil_prefix, fun _ => ⟨[], rfl, .inl rfl, rfl⟩⟩

/-- `closeconn` at the reader's end. -/
theorem Reads.close {conn : Conn} {accepted : List Bytes} {consumed : Bytes}
    (h : Reads conn accepted consumed) : Reads { conn with dead := true } accepted consumed :=
  ⟨h.mem_pduCode, h.isPrefix, by simp⟩

/-- The hand-over of a PDU that has been read as far as this. -/
theorem Reads.handOver {accepted : List Bytes} {consumed held : Bytes} {conn : Conn}
    {handed : List Bytes} {gotPdu : Bytes → Bool}
    (hmem : ∀ pdu ∈ accepted, pdu ∈ pduCode) (hconsumed : consumed = accepted.flatten ++ held)
    (hfits : Fits held)
    (hhand : Connection.handOver gotPdu { dead := false, rpdu := Charbuf.holding held } =
      (conn, handed)) :
    Reads conn (accepted ++ handed.filter gotPdu) consumed := by
  have hkeep : Reads { dead := false, rpdu := Charbuf.holding held } accepted consumed :=
    ⟨hmem, hconsumed ▸ List.prefix_append _ _, fun _ => ⟨held, rfl, hfits, hconsumed⟩⟩
  rcases hfits with rfl | ⟨hword, -⟩
  · obtain ⟨rfl, rfl⟩ := Prod.mk.inj hhand
    rwa [List.filter_nil, List.append_nil]
  · simp only [Connection.handOver, Charbuf.holding_of_le hword] at hhand
    split_ifs at hhand with hfull haccept
    · obtain ⟨rfl, rfl⟩ := Prod.mk.inj hhand
      have hflatten : (accepted ++ [held].filter gotPdu).flatten = accepted.flatten ++ held := by
        simp [haccept]
      refine ⟨fun pdu hpdu => ?_, by rw [hflatten, hconsumed], fun _ =>
        ⟨[], rfl, .inl rfl, by rw [hflatten, hconsumed, List.append_nil]⟩⟩
      rcases List.mem_append.mp hpdu with hpdu | hpdu
      · exact hmem pdu hpdu
      · obtain rfl : pdu = held := by simpa using (List.mem_filter.mp hpdu).1
        exact ⟨hword, by simp only [hfull, Int.toNat_natCast]⟩
    · obtain ⟨rfl, rfl⟩ := Prod.mk.inj hhand
      rw [Charbuf.holding_of_le hword] at hkeep
      simpa [haccept] using hkeep
    · obtain ⟨rfl, rfl⟩ := Prod.mk.inj hhand
      rw [Charbuf.holding_of_le hword] at hkeep
      rwa [List.filter_nil, List.append_nil]

/-- `read_cb` on any stream. -/
theorem Reads.readCb (hos : IsStream os pending) {conn conn' : Conn} {accepted handed : List Bytes}
    {consumed : Bytes} {kernel kernel' : Kernel} {gotPdu : Bytes → Bool}
    (h : Reads conn accepted consumed)
    (hread : Connection.readCb os gotPdu conn kernel = some ((conn', handed), kernel')) :
    ∃ taken, pending kernel = taken ++ pending kernel' ∧
      Reads conn' (accepted ++ handed.filter gotPdu) (consumed ++ taken) := by
  obtain ⟨dead, rpdu⟩ := conn
  cases dead with
  | true =>
      obtain ⟨⟨rfl, rfl⟩, rfl⟩ := by simpa [Connection.readCb] using hread
      exact ⟨[], rfl, by simpa using h⟩
  | false =>
      obtain ⟨held, hrpdu, hfits, hconsumed⟩ := h.holding rfl
      simp only at hrpdu
      subst hrpdu
      simp only [Connection.readCb, Bool.false_eq_true, if_false] at hread
      obtain ⟨⟨succ, rpdu, after⟩, hpdu, heq⟩ := Option.map_eq_some_iff.mp hread
      obtain ⟨hhand, rfl⟩ := Prod.mk.inj heq
      split_ifs at hpdu with hunfinished
      · obtain ⟨taken, htaken, ⟨rfl, rfl, hmore⟩ | ⟨rfl, rfl⟩⟩ :=
          readpdu_took hos hfits hunfinished hpdu
        · refine ⟨taken, htaken, Reads.handOver h.mem_pduCode ?_ hmore hhand⟩
          rw [hconsumed, List.append_assoc]
        · obtain ⟨rfl, rfl⟩ := Prod.mk.inj hhand
          refine ⟨taken, htaken, ?_, ?_, by simp⟩
          · rw [List.filter_nil, List.append_nil]
            exact h.mem_pduCode
          · rw [List.filter_nil, List.append_nil]
            exact h.isPrefix.trans (List.prefix_append _ _)
      · obtain ⟨rfl, rfl, rfl⟩ := by simpa using hpdu
        exact ⟨[], rfl, Reads.handOver h.mem_pduCode (by rw [hconsumed, List.append_nil]) hfits
          hhand⟩

end AnyStream

/-! ## The bytes on the way -/

/-- What the network lets a call of `read` see: no more than some of the bytes that are
there, the end of the stream, or an error. -/
inductive Arrival
  | upTo (n : ℕ)
  | eof
  | error
  deriving DecidableEq, Repr

/-- The receiving end of a socket: the bytes on the way, what the next reads see, and
`errno`. -/
structure Socket where
  pending : Bytes
  arrivals : List Arrival := []
  errno : Errno := .other
  deriving DecidableEq, Repr

/-- A read of no more than `n` bytes. It fails with `EAGAIN` if there is nothing. -/
def Socket.read (n : ℕ) (socket : Socket) : ReadResult × Socket :=
  let later := { socket with arrivals := socket.arrivals.tail }
  match socket.arrivals.headD (.upTo 0) with
  | .upTo k =>
      let count := min k (min n socket.pending.length)
      if count = 0 then (.fail, { later with errno := .eagain })
      else (.data (socket.pending.take count),
        { later with pending := socket.pending.drop count })
  | .eof => (.eof, later)
  | .error => (.fail, { later with errno := .other })

def socketOs : Os Socket where
  read := Socket.read
  errno := Socket.errno

theorem isStream_socketOs : IsStream socketOs Socket.pending := by
  constructor
  · intro n socket
    simp only [socketOs, Socket.read]
    cases socket.arrivals.headD (.upTo 0) with
    | eof | error => exact Nat.zero_le n
    | upTo k =>
        simp only
        split_ifs
        · exact Nat.zero_le n
        · simp only [ReadResult.bytes, List.length_take]
          omega
  · intro n socket
    simp only [socketOs, Socket.read]
    cases socket.arrivals.headD (.upTo 0) with
    | eof | error => rfl
    | upTo k =>
        simp only
        split_ifs
        · rfl
        · exact (List.take_append_drop _ _).symm

/-! ## Both ends -/

/-- One direction of a connection: the end that sends with the history of its write side,
the bytes on the way, the end that reads, and the PDUs its `got_pdu` has accepted. -/
structure Link where
  sender : Sender := {}
  log : List Event := []
  pending : Bytes := []
  conn : Conn := {}
  accepted : List Bytes := []

namespace Link

/-- The steps: a section at the sending end, a call of `read_cb` at the other end, with
`errno` as it is found and the answer of `got_pdu`, and a call of `closeconn` there. -/
inductive Label
  | sender (label : Sender.Label)
  | readCb (errno : Errno) (arrivals : List Arrival) (accept : Bool)
  | closeconn

/-- One step. -/
def step (l : Link) : Label → Option Link
  | .sender label =>
      (l.sender.run label).map fun (sender, events) =>
        { l with sender, log := l.log ++ events, pending := l.pending ++ written events }
  | .readCb errno arrivals accept =>
      (Connection.readCb socketOs (fun _ => accept) l.conn
        { pending := l.pending, arrivals, errno }).map fun ((conn, handed), socket) =>
          { l with
            conn, pending := socket.pending
            accepted := l.accepted ++ handed.filter fun _ => accept }
  | .closeconn => some { l with conn := { l.conn with dead := true } }

/-- A new connection. -/
def system : System Link Label where
  init := {}
  step := step

end Link

/-! ### The calls that begin -/

theorem Sender.began_notMem_awaitComplete (s : Sender) (b c : Call) :
    .began c ∉ (s.awaitComplete b).2 := by
  rw [Sender.awaitComplete]
  split_ifs
  · simp
  · simp [Sender.finish]

theorem Sender.Turn.began_notMem {s s' : Sender} {b c : Call} {r : WriteResult}
    {events : List Event} (hturn : s.Turn b r s' events) : .began c ∉ events := by
  cases hturn with
  | waits | refused => simp
  | writes _ _ hwrite =>
      cases hwrite with
      | failed => simp
      | whole => simp [Sender.finish]
      | part => simpa using Sender.began_notMem_awaitComplete _ b c

theorem Sender.NextWrite.began_notMem {s s' : Sender} {c : Call} {r : WriteResult} {choice : ℕ}
    {events : List Event} (hwrite : s.NextWrite r choice s' events) : .began c ∉ events := by
  cases hwrite with
  | nothing | failed | part | whole => simp

/-- The size of a PDU that `send` is called with is an `int`. -/
theorem Sender.length_le_intMax {s s' : Sender} {label : Sender.Label} {events : List Event}
    (hrun : s.run label = some (s', events)) {c : Call} (hc : .began c ∈ events) :
    c.pdu.length ≤ intMax := by
  have hsection := Sender.section_of_run hrun
  cases hsection with
  | began hpdu hturn =>
      obtain rfl : c = _ :=
        Event.began.inj ((List.mem_cons.mp hc).resolve_right hturn.began_notMem)
      simp only [Sender.run] at hrun
      split_ifs at hrun with hsize
      exact hsize.2
  | resumedWait _ hturn => exact absurd hc hturn.began_notMem
  | resumedComplete => exact absurd hc (Sender.began_notMem_awaitComplete _ _ c)
  | wrote hwrite => exact absurd hc hwrite.began_notMem
  | removed => simp [Sender.finish] at hc
  | readFailed => simp at hc
  | wokeWait | wokeComplete | read | closed => cases hc

namespace Link

/-! ### Runs -/

/-- What holds of a link: the write side is in order, and the reader has read what has
been written and is not on the way any more. -/
structure Carries (l : Link) : Prop where
  sound : Sound (l.sender, l.log)
  length_le : ∀ c, .began c ∈ l.log → c.pdu.length ≤ intMax
  reads : ∃ consumed, written l.log = consumed ++ l.pending ∧ Reads l.conn l.accepted consumed

theorem Carries.step {l l' : Link} {label : Label} (h : l.Carries)
    (hstep : l.step label = some l') : l'.Carries := by
  obtain ⟨hsound, hlength, consumed, hwritten, hreads⟩ := h
  cases label with
  | sender label =>
      obtain ⟨⟨sender, events⟩, hrun, rfl⟩ := Option.map_eq_some_iff.mp hstep
      refine ⟨hsound.run hrun, fun c hc => ?_, consumed, ?_, hreads⟩
      · rcases List.mem_append.mp hc with hold | hnew
        · exact hlength c hold
        · exact Sender.length_le_intMax hrun hnew
      · rw [written_append, hwritten, List.append_assoc]
  | readCb errno arrivals accept =>
      obtain ⟨⟨⟨conn, handed⟩, socket⟩, hread, rfl⟩ := Option.map_eq_some_iff.mp hstep
      obtain ⟨taken, htaken, hafter⟩ := hreads.readCb isStream_socketOs hread
      refine ⟨hsound, hlength, consumed ++ taken, ?_, hafter⟩
      rw [hwritten, List.append_assoc]
      exact congrArg _ htaken
  | closeconn =>
      obtain rfl := Option.some.inj hstep
      exact ⟨hsound, hlength, consumed, hwritten, hreads.close⟩

theorem carries_of_run {labels : List Label} {l : Link} (hrun : system.Run anyStep labels l) :
    l.Carries :=
  hrun.invariant Carries
    ⟨sound_of_run .start, by simp [system], [], rfl, reads_init⟩
    fun _ h _ hstep => h.step hstep

/-! ### The PDUs that have been written -/

/-- The bytes that have been written are these PDUs, and at most a part of one more. -/
structure Wrote (log : List Event) (pdus : List Bytes) : Prop where
  mem_pduCode : ∀ pdu ∈ pdus, pdu ∈ pduCode
  split : ∃ part, PrefixCode.Unfinished pduCode part ∧ written log = pdus.flatten ++ part

theorem Wrote.isPrefix {log log' : List Event} {pdus pdus' : List Bytes} (h : Wrote log pdus)
    (h' : Wrote log' pdus') (hwritten : written log <+: written log') : pdus <+: pdus' := by
  obtain ⟨part, -, hsplit⟩ := h.split
  obtain ⟨part', hpart', hsplit'⟩ := h'.split
  apply prefixCode_pduCode.isPrefix_of_flatten h.mem_pduCode h'.mem_pduCode hpart'
  rw [← hsplit']
  exact (hsplit ▸ List.prefix_append _ _).trans hwritten

/-- What has been written says which PDUs these are. -/
theorem Wrote.unique {log log' : List Event} {pdus pdus' : List Bytes} (h : Wrote log pdus)
    (h' : Wrote log' pdus') (hwritten : written log = written log') : pdus = pdus' := by
  obtain ⟨part, hpart, hsplit⟩ := h.split
  obtain ⟨part', hpart', hsplit'⟩ := h'.split
  rw [hsplit, hsplit'] at hwritten
  exact (prefixCode_pduCode.eq_of_flatten_append h.mem_pduCode h'.mem_pduCode hpart hpart'
    hwritten).1

/-- The PDUs of the calls that have been written to their end. -/
theorem Carries.wrote {l : Link} (h : l.Carries) {turn owners done : List Call} {part : Bytes}
    (hframed : Framed l.sender turn owners l.log done part) :
    Wrote l.log (done.map Call.frame) := by
  constructor
  · intro pdu hpdu
    obtain ⟨c, hc, rfl⟩ := List.mem_map.mp hpdu
    exact Call.frame_mem_pduCode (h.length_le c (hframed.began c (List.mem_append_left _ hc)))
  · refine ⟨part, ?_, by rw [hframed.written_eq, List.flatMap_def]⟩
    rcases hframed.toPartial with hnil | ⟨c, hbegan, -, hle, hne⟩
    · exact .inl hnil
    · exact .inr ⟨c.frame, Call.frame_mem_pduCode (h.length_le c hbegan), hle, hne⟩

theorem Carries.exists_wrote {l : Link} (h : l.Carries) : ∃ pdus, Wrote l.log pdus := by
  obtain ⟨-, done, part, hframed⟩ := h.sound
  exact ⟨done.map Call.frame, h.wrote hframed⟩

/-- What has been accepted are the first PDUs that have been written. -/
theorem Carries.accepted_isPrefix {l : Link} (h : l.Carries) {pdus : List Bytes}
    (hwrote : Wrote l.log pdus) : l.accepted <+: pdus := by
  obtain ⟨part, hpart, hsplit⟩ := hwrote.split
  obtain ⟨consumed, hwritten, hreads⟩ := h.reads
  apply prefixCode_pduCode.isPrefix_of_flatten hreads.mem_pduCode hwrote.mem_pduCode hpart
  rw [← hsplit, hwritten]
  exact hreads.isPrefix.trans (List.prefix_append _ _)

/-- Delivery from end to end, for any interleaving of senders, callbacks and closings at
both ends, any cuts of the bytes at both ends and any answers of `got_pdu`: the PDUs that
have been accepted are the first of those that have been written, in this order, and
each of them is the PDU of another call of `send`; a call that has returned true is
among the calls that have been written. -/
theorem delivery {labels : List Label} {l : Link} (hrun : system.Run anyStep labels l) :
    ∃ (done : List Call) (part : Bytes), written l.log = done.flatMap Call.frame ++ part ∧
      (done.map Call.id).Nodup ∧ (∀ c ∈ done, .began c ∈ l.log) ∧
      (∀ id, .returned id true ∈ l.log → id ∈ done.map Call.id) ∧
      l.accepted <+: done.map Call.frame := by
  have h := carries_of_run hrun
  obtain ⟨-, done, part, hframed⟩ := h.sound
  exact ⟨done, part, hframed.written_eq, hframed.done_nodup,
    fun c hc => hframed.began c (List.mem_append_left _ hc), hframed.returned_true,
    h.accepted_isPrefix (h.wrote hframed)⟩

/-- Two senders. The first PDU is written in two pieces and read in two, and refused once;
the second one is written as soon as the first has been. -/
def twoSendersRun : List Label :=
  [.sender (.send [0, 0, 0, 0, 7] (.accepted 3)), .sender (.send [0, 0, 0, 0, 8, 9] .again),
    .sender (.writeCb (.accepted 2) 0), .readCb .other [.upTo 4, .upTo 0] true,
    .readCb .other [.upTo 1] false, .sender (.resumeComplete 0),
    .sender (.resumeWait 0 (.accepted 6)), .readCb .other [] true,
    .readCb .other [.upTo 4, .upTo 9] true]

theorem delivery_twoSenders :
    ∃ l, system.Run anyStep twoSendersRun l ∧
      l.accepted = [[0, 0, 0, 5, 7], [0, 0, 0, 6, 8, 9]] ∧
      ∃ done : List Call, l.accepted <+: done.map Call.frame ∧
        ∀ id, .returned id true ∈ l.log → id ∈ done.map Call.id := by
  have hexec : (system.exec system.init twoSendersRun).any
      (fun l => l.accepted == [[0, 0, 0, 5, 7], [0, 0, 0, 6, 8, 9]]) = true := by
    decide +kernel
  obtain ⟨l, hrun, haccepted⟩ := System.exists_run_of_exec hexec
  obtain ⟨done, -, -, -, -, hreturned, hfirst⟩ := delivery hrun
  exact ⟨l, hrun, by simpa using haccepted, done, hfirst, hreturned⟩

/-! ### A step in terms of PDUs -/

/-- Further PDUs have been written and accepted, each at an end that was alive, and an end
that was dead still is. -/
structure Advances (l l' : Link) (pdus more new : List Bytes) : Prop where
  wrote : Wrote l'.log (pdus ++ more)
  accepted : l'.accepted = l.accepted ++ new
  sender_alive : more ≠ [] → l.sender.dead = false
  reader_alive : new ≠ [] → l.conn.dead = false
  sender_dead : l.sender.dead = true → l'.sender.dead = true
  reader_dead : l.conn.dead = true → l'.conn.dead = true

theorem advances_refl {l : Link} {pdus : List Bytes} (hwrote : Wrote l.log pdus) :
    Advances l l pdus [] [] :=
  ⟨by rwa [List.append_nil], (List.append_nil _).symm, by simp, by simp, id, id⟩

theorem Carries.advances {l l' : Link} {label : Label} (h : l.Carries)
    (hstep : l.step label = some l') {pdus : List Bytes} (hwrote : Wrote l.log pdus) :
    ∃ more new, Advances l l' pdus more new := by
  obtain ⟨pdus', hwrote'⟩ := (h.step hstep).exists_wrote
  cases label with
  | sender label =>
      obtain ⟨⟨sender, events⟩, hrun, rfl⟩ := Option.map_eq_some_iff.mp hstep
      have hdecays := Decays.run hrun
      simp only at hwrote'
      obtain ⟨more, rfl⟩ : pdus <+: pdus' := hwrote.isPrefix hwrote' (by simp)
      refine ⟨more, [], hwrote', (List.append_nil _).symm, fun hmore => ?_, by simp,
        hdecays.dead, id⟩
      cases hdead : l.sender.dead with
      | false => rfl
      | true =>
          have hsame : written l.log = written (l.log ++ events) := by
            rw [written_append, hdecays.silent hdead, List.append_nil]
          exact absurd (by simpa using hwrote.unique hwrote' hsame) hmore
  | readCb errno arrivals accept =>
      obtain ⟨⟨⟨conn, handed⟩, socket⟩, hread, rfl⟩ := Option.map_eq_some_iff.mp hstep
      refine ⟨[], handed.filter fun _ => accept, by rwa [List.append_nil], rfl, by simp,
        fun hnew => ?_, id, fun hdead => ?_⟩
      · cases hdead : l.conn.dead with
        | false => rfl
        | true =>
            obtain ⟨⟨-, rfl⟩, -⟩ := by simpa [Connection.readCb, hdead] using hread
            simp at hnew
      · obtain ⟨⟨rfl, -⟩, -⟩ := by simpa [Connection.readCb, hdead] using hread
        exact hdead
  | closeconn =>
      obtain rfl := Option.some.inj hstep
      exact ⟨[], [], by rwa [List.append_nil], (List.append_nil _).symm, by simp, by simp, id,
        fun _ => rfl⟩

end Link

end YfsLab.Connection
