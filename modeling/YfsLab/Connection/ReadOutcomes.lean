/-
# Every outcome of a read

The read side of a connection over any sequence of outcomes of `read`: bytes, a closed
peer, `EAGAIN`, another error. `errno` belongs to the poll thread and not to the
connection: a read that returns bytes or zero leaves it as it is, and between two
calls of `read_cb` the thread serves other connections, which may leave anything in it.

`readpdu` asks `errno` also when the read of a body has returned zero. With an
`EAGAIN` left over from before, it takes the closed peer for a socket without data.
-/

import YfsLab.Connection.SizeWord
import YfsLab.Foundations.Transition

namespace YfsLab.Connection.Outcomes

open BigEndian Transition Wire

/-! ## What `read` can do -/

/-- The outcomes of a call of `read`. -/
inductive Outcome
  | data (bytes : Bytes)
  | close
  | again
  | error
  deriving DecidableEq, Repr

/-- The outcomes of the next reads, and the `errno` of the thread. -/
structure Script where
  outcomes : List Outcome
  errno : Errno
  deriving DecidableEq, Repr

/-- A read with this outcome: only one that fails sets `errno`. -/
def Script.read (_ : ℕ) (script : Script) : ReadResult × Script :=
  let rest := { script with outcomes := script.outcomes.tail }
  match script.outcomes.headD .error with
  | .data bytes => (.data bytes, rest)
  | .close => (.eof, rest)
  | .again => (.fail, { rest with errno := .eagain })
  | .error => (.fail, { rest with errno := .other })

def scriptOs : Os Script where
  read := Script.read
  errno := Script.errno

/-! ## The connection and the thread -/

/-- A connection, and what its poll thread has in `errno`. -/
structure State where
  conn : Conn := {}
  errno : Errno := .other
  deriving DecidableEq, Repr

/-- A call of `read_cb` with the outcomes of its first and its second read and the answer
of `got_pdu`; other calls of the poll thread, which leave something in `errno`; and a
section of another thread that marks the connection dead. -/
inductive Label
  | readCb (first second : Outcome) (accepts : Bool)
  | elsewhere (errno : Errno)
  | die
  deriving DecidableEq, Repr

/-- A call of `read_cb`, with what it hands over and the outcomes it leaves unused. -/
def call (s : State) (first second : Outcome) (accepts : Bool) :
    Option ((Conn × List Bytes) × Script) :=
  readCb scriptOs (fun _ => accepts) s.conn { outcomes := [first, second], errno := s.errno }

/-- One step of the threads. -/
def step (s : State) : Label → Option State
  | .readCb first second accepts =>
      (call s first second accepts).map fun result =>
        { conn := result.1.1, errno := result.2.errno }
  | .elsewhere errno => some { s with errno }
  | .die => some { s with conn := { s.conn with dead := true } }

/-- A new connection. -/
def system : System State Label where
  init := {}
  step := step

/-! ## The phases of the reader -/

/-- A size word in the range of what a peer may send. -/
def GoodWord (word : Bytes) : Prop :=
  word.length = sizeofRpcSz ∧ (rpcHeaderSz : ℤ) ≤ ntohl word ∧ ntohl word ≤ maxPdu

instance (word : Bytes) : Decidable (GoodWord word) := inferInstanceAs (Decidable (_ ∧ _ ∧ _))

/-- The PDU whose body a call of `read_cb` goes on with, as far as it has been read, and
the outcome of that read. -/
def body (s : State) (first second : Outcome) : Option (Charbuf × Outcome) :=
  if s.conn.rpdu.sz = 0 then
    match first with
    | .data word => some (begun word, second)
    | _ => none
  else if s.conn.rpdu.unfinished then some (s.conn.rpdu, first)
  else none

/-- A read of a body returns at least one byte and no more than it has been asked for,
if it returns any. -/
def Fits (rpdu : Charbuf) : Outcome → Prop
  | .data bytes => bytes ≠ [] ∧ (bytes.length : ℤ) ≤ rpdu.sz - rpdu.solong
  | _ => True

instance (rpdu : Charbuf) : (outcome : Outcome) → Decidable (Fits rpdu outcome)
  | .data _ => inferInstanceAs (Decidable (_ ∧ _))
  | .close | .again | .error => inferInstanceAs (Decidable True)

/-- A size word arrives whole and in the range, or the read for it finds the peer gone or
fails; the socket that is ready does not say `EAGAIN` to it. -/
def FitsWord : Outcome → Prop
  | .data word => GoodWord word
  | .again => False
  | _ => True

instance : (outcome : Outcome) → Decidable (FitsWord outcome)
  | .data word => inferInstanceAs (Decidable (GoodWord word))
  | .again => inferInstanceAs (Decidable False)
  | .close | .error => inferInstanceAs (Decidable True)

/-- The outcomes that the reads of a call can have. -/
def Admissible (s : State) : Label → Prop
  | .readCb first second _ =>
      s.conn.dead = false →
        (s.conn.rpdu.sz = 0 → FitsWord first) ∧
        ∀ current ∈ body s first second, Fits current.1 current.2
  | _ => True

instance (s : State) : (label : Label) → Decidable (Admissible s label)
  | .readCb first second _ =>
      inferInstanceAs (Decidable (_ → (_ → _) ∧
        ∀ current ∈ body s first second, Fits current.1 current.2))
  | .elsewhere _ | .die => inferInstanceAs (Decidable True)

/-- A complete PDU that waits for `got_pdu` to take it. -/
def Complete (rpdu : Charbuf) : Prop := rpdu.sz ≠ 0 ∧ rpdu.unfinished = false

/-- The reader holds a buffer exactly while it is inside a PDU, and then the counters are
in order and count the bytes in it. -/
structure Sound (rpdu : Charbuf) : Prop where
  empty : rpdu.sz = 0 → rpdu = {}
  buf_iff : rpdu.buf.isSome = true ↔ rpdu.sz ≠ 0
  inBounds : rpdu.sz ≠ 0 → rpdu.InBounds
  stored : ∀ bytes, rpdu.buf = some bytes → (bytes.length : ℤ) = rpdu.solong
  le_maxPdu : rpdu.sz ≤ maxPdu

/-- A peer that has closed, or an error, as the outcome of the read of a size word or of
a body. -/
def Lost (s : State) (first second : Outcome) : Prop :=
  (s.conn.rpdu.sz = 0 ∧ (first = .close ∨ first = .error)) ∨
    ∃ current ∈ body s first second, current.2 = .close ∨ current.2 = .error

/-- The part of a PDU that a body read with these bytes leads to. -/
def extend (rpdu : Charbuf) (bytes : Bytes) : Charbuf :=
  { rpdu with
    buf := some (rpdu.buf.getD [] ++ bytes)
    solong := rpdu.solong + bytes.length }

/-- What is left of a PDU when it has been offered to `got_pdu`, if it is complete. -/
def offer (rpdu : Charbuf) (accepts : Bool) : Charbuf :=
  if rpdu.unfinished = false ∧ accepts = true then {} else rpdu

/-- What is handed over then. -/
def offered (rpdu : Charbuf) : List Bytes :=
  if rpdu.unfinished = true then [] else rpdu.buf.toList

/-- What a call of `read_cb` is to do. -/
structure Meets (s : State) (first second : Outcome) (accepts : Bool) (target : Conn)
    (handed : List Bytes) (left : Script) : Prop where
  /-- the buffer is set exactly if the size is, and the counters are in order -/
  sound : Sound target.rpdu
  /-- without data nothing changes: the part of the PDU stays, and the connection -/
  again : ∀ current ∈ body s first second, current.2 = .again →
    target = { dead := false, rpdu := current.1 } ∧ handed = []
  /-- with the peer gone or an error, the part is dropped and the connection is dead -/
  lost : Lost s first second → target = { dead := true, rpdu := {} } ∧ handed = []
  /-- what has been read is added, and kept as long as it is not complete or refused -/
  kept : ∀ current ∈ body s first second, ∀ bytes, current.2 = .data bytes →
    target = { dead := false, rpdu := offer (extend current.1 bytes) accepts }
  /-- a complete PDU is handed over before anything is read, and kept if it is refused -/
  refused : Complete s.conn.rpdu →
    left.outcomes = [first, second] ∧ handed = s.conn.rpdu.buf.toList ∧
      (accepts = false → target.rpdu = s.conn.rpdu)

/-! ## The reads of a call -/

variable {s : State} {first second : Outcome} {accepts : Bool}

theorem sound_empty : Sound {} :=
  ⟨fun _ => rfl, by decide, fun hsz => absurd rfl hsz, nofun, by decide⟩

/-- The reader behind a good size word. -/
theorem sound_begun {word : Bytes} (hword : GoodWord word) : Sound (begun word) := by
  obtain ⟨hlength, hlow, hhigh⟩ := hword
  have hlow' : (sizeofRpcSz : ℤ) ≤ ntohl word := by
    simp only [sizeofRpcSz, rpcHeaderSz] at hlow ⊢
    omega
  have hcapacity := capacity_begun hlow' hhigh
  have hsz : ntohl word ≠ 0 := by
    simp only [rpcHeaderSz] at hlow
    omega
  constructor
  · exact fun hzero => absurd hzero hsz
  · exact iff_of_true rfl hsz
  · intro _
    refine ⟨le_refl _, hlow', ?_⟩
    rw [hcapacity]
    show ntohl word ≤ ntohl word + (sizeofRpcSz : ℤ)
    simp [sizeofRpcSz]
  · intro bytes hbytes
    obtain rfl : word = bytes := Option.some.inj hbytes
    show ((word.length : ℕ) : ℤ) = (sizeofRpcSz : ℕ)
    rw [hlength]
  · exact hhigh

theorem Sound.extend {rpdu : Charbuf} (h : Sound rpdu) (hsz : rpdu.sz ≠ 0) {bytes : Bytes}
    (hfits : (bytes.length : ℤ) ≤ rpdu.sz - rpdu.solong) : Sound (extend rpdu bytes) := by
  obtain ⟨hlow, hle, hroom⟩ := h.inBounds hsz
  constructor
  · exact fun hzero => absurd hzero hsz
  · exact iff_of_true rfl hsz
  · intro _
    refine ⟨?_, ?_, hroom⟩
    · show (sizeofRpcSz : ℤ) ≤ rpdu.solong + bytes.length
      omega
    · show rpdu.solong + bytes.length ≤ rpdu.sz
      omega
  · intro stored hstored
    obtain ⟨old, hold⟩ := Option.isSome_iff_exists.mp (h.buf_iff.mpr hsz)
    obtain rfl : rpdu.buf.getD [] ++ bytes = stored := Option.some.inj hstored
    have hlength := h.stored old hold
    rw [hold, Option.getD_some, List.length_append]
    show ((old.length + bytes.length : ℕ) : ℤ) = rpdu.solong + bytes.length
    omega
  · exact h.le_maxPdu

/-- The read of a body, by its outcome. A zero is taken for a socket without data where
`errno` says so. -/
theorem readBody_eq {rpdu : Charbuf} (h : Sound rpdu) (hsz : rpdu.sz ≠ 0) {outcome : Outcome}
    (hfits : Fits rpdu outcome) (rest : List Outcome) (errno : Errno) :
    readBody scriptOs rpdu { outcomes := outcome :: rest, errno } =
      some (match outcome with
        | .data bytes => (true, extend rpdu bytes, { outcomes := rest, errno })
        | .again => (true, rpdu, { outcomes := rest, errno := .eagain })
        | .error => (false, {}, { outcomes := rest, errno := .other })
        | .close =>
            if errno = .eagain then (true, rpdu, { outcomes := rest, errno })
            else (false, {}, { outcomes := rest, errno })) := by
  cases outcome with
  | data bytes =>
      have hgrown := (h.extend hsz hfits.2).stored _ rfl
      have hroom := (h.inBounds hsz).sz_le
      have hle := hfits.2
      have hgrown' : ((rpdu.buf.getD [] ++ bytes).length : ℤ) = rpdu.solong + bytes.length :=
        hgrown
      simp only [readBody, scriptOs, Script.read, List.headD_cons, List.tail_cons]
      rw [if_neg (by omega)]
      rfl
  | close =>
      simp only [readBody, scriptOs, Script.read, List.headD_cons, List.tail_cons]
      split <;> rfl
  | again => simp [readBody, scriptOs, Script.read]
  | error => simp [readBody, scriptOs, Script.read]

/-- A good size word is taken, and the body is read at once. -/
theorem readpdu_begun {word : Bytes} (hword : GoodWord word) (second : Outcome)
    (errno : Errno) :
    readpdu scriptOs {} { outcomes := [.data word, second], errno } =
      readBody scriptOs (begun word) { outcomes := [second], errno } := by
  obtain ⟨hlength, hlow, hhigh⟩ := hword
  have hlow' : (sizeofRpcSz : ℤ) ≤ ntohl word := by
    simp only [sizeofRpcSz, rpcHeaderSz] at hlow ⊢
    omega
  have hcapacity := capacity_begun hlow' hhigh
  have hread : scriptOs.read sizeofRpcSz { outcomes := [.data word, second], errno } =
      (.data word, { outcomes := [second], errno }) := rfl
  rw [readpdu_word scriptOs hlength hread, if_neg (not_lt.mpr hhigh), if_neg]
  simp only [mallocMax, maxPdu, sizeofRpcSz] at hhigh hlow' hcapacity ⊢
  omega

/-! ## What a call does -/

/-- The hand-over behind a read. -/
theorem handOver_eq {rpdu : Charbuf} (h : Sound rpdu) (hsz : rpdu.sz ≠ 0) (dead : Bool) :
    handOver (fun _ => accepts) { dead, rpdu } =
      ({ dead, rpdu := offer rpdu accepts }, offered rpdu) := by
  obtain ⟨pdu, hbuf⟩ := Option.isSome_iff_exists.mp (h.buf_iff.mpr hsz)
  have hle := (h.inBounds hsz).solong_le
  cases hunfinished : rpdu.unfinished with
  | true =>
      have hless : rpdu.solong < rpdu.sz := by
        simpa [Charbuf.unfinished, hbuf] using hunfinished
      simp only [handOver, hbuf, offer, offered, hunfinished]
      rw [if_neg (by omega)]
      rfl
  | false =>
      have hmore : rpdu.sz ≤ rpdu.solong := by
        simpa [Charbuf.unfinished, hbuf] using hunfinished
      simp only [handOver, hbuf, offer, offered, hunfinished]
      rw [if_pos (by omega)]
      cases accepts <;> rfl

theorem Sound.offer {rpdu : Charbuf} (h : Sound rpdu) (accepts : Bool) :
    Sound (offer rpdu accepts) := by
  rw [Outcomes.offer]
  split
  · exact sound_empty
  · exact h

theorem offer_of_unfinished {rpdu : Charbuf} (hunfinished : rpdu.unfinished = true)
    (accepts : Bool) : offer rpdu accepts = rpdu := by
  simp [offer, hunfinished]

/-- The results that a call of `read_cb` on a live connection can have. -/
inductive Result (s : State) (first second : Outcome) (accepts : Bool) :
    (Conn × List Bytes) × Script → Prop
  /-- the read of a size word finds the peer gone, or fails -/
  | gone {left : Script} (start : s.conn.rpdu.sz = 0)
      (found : first = .close ∨ first = .error) :
      Result s first second accepts (({ dead := true, rpdu := {} }, []), left)
  /-- the read of a body finds no data, or is taken for one that does not -/
  | nothing {current : Charbuf × Outcome} {left : Script}
      (mem : current ∈ body s first second)
      (found : current.2 = .again ∨ current.2 = .close ∧ s.errno = .eagain) :
      Result s first second accepts (({ dead := false, rpdu := current.1 }, []), left)
  /-- the read of a body finds the peer gone, or fails -/
  | lost {current : Charbuf × Outcome} {left : Script} (mem : current ∈ body s first second)
      (found : current.2 = .error ∨ current.2 = .close ∧ s.errno ≠ .eagain) :
      Result s first second accepts (({ dead := true, rpdu := {} }, []), left)
  /-- the read of a body returns bytes -/
  | read {current : Charbuf × Outcome} {bytes : Bytes} {handed : List Bytes} {left : Script}
      (mem : current ∈ body s first second) (found : current.2 = .data bytes)
      (sound : Sound (extend current.1 bytes)) :
      Result s first second accepts
        (({ dead := false, rpdu := offer (extend current.1 bytes) accepts }, handed), left)
  /-- nothing is read, since a complete PDU is waiting -/
  | offered (complete : Complete s.conn.rpdu) :
      Result s first second accepts
        (({ dead := false, rpdu := offer s.conn.rpdu accepts }, s.conn.rpdu.buf.toList),
          { outcomes := [first, second], errno := s.errno })

/-- The body read of a call, with the hand-over behind it. -/
theorem result_of_readBody (accepts : Bool) {rpdu : Charbuf} {outcome : Outcome}
    (hmem : (rpdu, outcome) ∈ body s first second) (h : Sound rpdu) (hsz : rpdu.sz ≠ 0)
    (hunfinished : rpdu.unfinished = true) (hfits : Fits rpdu outcome) (rest : List Outcome) :
    ∃ result, ((readBody scriptOs rpdu { outcomes := outcome :: rest, errno := s.errno }).map
        fun (succ, rpdu, kernel) =>
          (handOver (fun _ => accepts) { dead := !succ, rpdu }, kernel)) = some result ∧
      Result s first second accepts result := by
  rw [readBody_eq h hsz hfits, Option.map_some]
  refine ⟨_, rfl, ?_⟩
  cases outcome with
  | data bytes =>
      have hsound := h.extend hsz hfits.2
      show Result s first second accepts (handOver _ { dead := false, rpdu := _ }, _)
      rw [handOver_eq hsound hsz]
      exact .read hmem rfl hsound
  | close =>
      by_cases herrno : s.errno = .eagain
      · simp only [if_pos herrno]
        show Result s first second accepts (handOver _ { dead := false, rpdu }, _)
        rw [handOver_eq h hsz, offer_of_unfinished hunfinished, offered, if_pos hunfinished]
        exact .nothing hmem (.inr ⟨rfl, herrno⟩)
      · simp only [if_neg herrno]
        exact .lost hmem (.inr ⟨rfl, herrno⟩)
  | again =>
      show Result s first second accepts (handOver _ { dead := false, rpdu }, _)
      rw [handOver_eq h hsz, offer_of_unfinished hunfinished, offered, if_pos hunfinished]
      exact .nothing hmem (.inl rfl)
  | error => exact .lost hmem (.inl rfl)

theorem unfinished_begun {word : Bytes} (hword : GoodWord word) :
    (begun word).unfinished = true := by
  have hlow := hword.2.1
  have hless : ((sizeofRpcSz : ℕ) : ℤ) < ntohl word := by
    simp only [rpcHeaderSz, sizeofRpcSz] at hlow ⊢
    omega
  exact decide_eq_true hless

/-- A call of `read_cb` on a live connection does not fail, and has one of the results. -/
theorem call_spec (halive : s.conn.dead = false) (h : Sound s.conn.rpdu)
    (hadmissible : Admissible s (.readCb first second accepts)) :
    ∃ result, call s first second accepts = some result ∧
      Result s first second accepts result := by
  obtain ⟨hword, hbody⟩ := hadmissible halive
  obtain ⟨⟨dead, rpdu⟩, errno⟩ := s
  obtain rfl : dead = false := halive
  by_cases hsz : rpdu.sz = 0
  · obtain rfl : rpdu = {} := h.empty hsz
    cases first with
    | data word =>
        have hgood : GoodWord word := hword rfl
        have hsound := sound_begun hgood
        have hmem : (begun word, second) ∈ body ⟨⟨false, {}⟩, errno⟩ (.data word) second := rfl
        obtain ⟨result, hresult, hcase⟩ := result_of_readBody accepts hmem hsound
          (hsound.buf_iff.mp rfl) (unfinished_begun hgood) (hbody _ hmem) []
        refine ⟨result, ?_, hcase⟩
        rw [← hresult, ← readpdu_begun hgood]
        rfl
    | close => exact ⟨_, rfl, .gone rfl (.inl rfl)⟩
    | error => exact ⟨_, rfl, .gone rfl (.inr rfl)⟩
    | again => exact (hword rfl).elim
  · cases hunfinished : rpdu.unfinished with
    | true =>
        have hmem : (rpdu, first) ∈ body ⟨⟨false, rpdu⟩, errno⟩ first second := by
          simp [body, hsz, hunfinished]
        obtain ⟨result, hresult, hcase⟩ := result_of_readBody accepts
          hmem h hsz hunfinished (hbody _ hmem) [second]
        refine ⟨result, ?_, hcase⟩
        rw [← hresult, call, readCb]
        simp [hunfinished, readpdu, hsz]
    | false =>
        refine ⟨_, ?_, .offered ⟨hsz, hunfinished⟩⟩
        rw [call, readCb]
        simp only [hunfinished, Bool.false_eq_true, if_false, Option.map_some, Bool.not_true]
        rw [handOver_eq h hsz, offered, if_neg (by rw [hunfinished]; exact Bool.false_ne_true)]

/-! ## Every reachable state -/

/-- The PDU that a call goes on with is in order. -/
theorem sound_of_mem_body (h : Sound s.conn.rpdu) (halive : s.conn.dead = false)
    (hadmissible : Admissible s (.readCb first second accepts)) {current : Charbuf × Outcome}
    (hmem : current ∈ body s first second) : Sound current.1 := by
  by_cases hsz : s.conn.rpdu.sz = 0
  · have hword := (hadmissible halive).1 hsz
    cases first with
    | data word =>
        simp only [body, hsz, if_true] at hmem
        obtain rfl : (begun word, second) = current := Option.some.inj hmem
        exact sound_begun hword
    | close | again | error =>
        simp only [body, hsz, if_true] at hmem
        cases hmem
  · simp only [body, hsz, if_false] at hmem
    obtain ⟨-, heq⟩ := Option.ite_none_right_eq_some.mp hmem
    obtain rfl : (s.conn.rpdu, first) = current := Option.some.inj heq
    exact h

/-- A complete PDU that waits keeps the reader from reading. -/
theorem not_mem_body_of_complete (hcomplete : Complete s.conn.rpdu)
    {current : Charbuf × Outcome} : current ∉ body s first second := by
  obtain ⟨hsz, hfinished⟩ := hcomplete
  simp [body, hsz, hfinished]

/-- There is no body to read when the read of the size word returns nothing. -/
theorem not_mem_body_of_gone (hsz : s.conn.rpdu.sz = 0)
    (hfound : first = .close ∨ first = .error) {current : Charbuf × Outcome} :
    current ∉ body s first second := by
  rcases hfound with rfl | rfl
  · simp [body, hsz]
  · simp [body, hsz]

/-- Whatever a call does, the buffer and the counters stay in order. -/
theorem Result.sound (h : Sound s.conn.rpdu) (halive : s.conn.dead = false)
    (hadmissible : Admissible s (.readCb first second accepts))
    {result : (Conn × List Bytes) × Script} (hresult : Result s first second accepts result) :
    Sound result.1.1.rpdu := by
  cases hresult with
  | gone start found => exact sound_empty
  | nothing mem found => exact sound_of_mem_body h halive hadmissible mem
  | lost mem found => exact sound_empty
  | read mem found sound => exact sound.offer accepts
  | offered complete => exact h.offer accepts

/-- A dead connection is left alone. -/
theorem call_of_dead (hdead : s.conn.dead = true) :
    call s first second accepts =
      some ((s.conn, []), { outcomes := [first, second], errno := s.errno }) := by
  rw [call, readCb, if_pos hdead]

theorem sound_of_run {labels : List Label} (hrun : system.Run Admissible labels s) :
    Sound s.conn.rpdu := by
  refine System.Run.invariant (fun s => Sound s.conn.rpdu) sound_empty ?_ hrun
  intro labels source label target _ h hadmissible hstep
  cases label with
  | readCb first second accepts =>
      obtain ⟨result, hcall, rfl⟩ := Option.map_eq_some_iff.mp hstep
      cases halive : source.conn.dead with
      | true =>
          rw [call_of_dead halive] at hcall
          obtain rfl := Option.some.inj hcall
          exact h
      | false =>
          obtain ⟨result', hcall', hresult⟩ := call_spec halive h hadmissible
          obtain rfl : result' = result := Option.some.inj (hcall'.symm.trans hcall)
          exact hresult.sound h halive hadmissible
  | elsewhere errno =>
      obtain rfl := Option.some.inj hstep
      exact h
  | die =>
      obtain rfl := Option.some.inj hstep
      exact h

/-- A zero read as the end of a body is taken for a socket without data. -/
def StaleErrno (s : State) (first second : Outcome) : Prop :=
  s.errno = .eagain ∧ ∃ current ∈ body s first second, current.2 = .close

/-- A call does what it is to do, unless it misreads a zero. -/
theorem Result.meets_iff (h : Sound s.conn.rpdu) (halive : s.conn.dead = false)
    (hadmissible : Admissible s (.readCb first second accepts))
    {target : Conn} {handed : List Bytes} {left : Script}
    (hresult : Result s first second accepts ((target, handed), left)) :
    Meets s first second accepts target handed left ↔ ¬StaleErrno s first second := by
  have hsound := hresult.sound h halive hadmissible
  cases hresult with
  | gone start found =>
      have hnone : ∀ current, current ∉ body s first second :=
        fun _ => not_mem_body_of_gone start found
      refine iff_of_true ⟨hsound, ?_, ?_, ?_, ?_⟩ ?_
      · exact fun current hmem => absurd hmem (hnone current)
      · exact fun _ => ⟨rfl, rfl⟩
      · exact fun current hmem => absurd hmem (hnone current)
      · exact fun hcomplete => absurd start hcomplete.1
      · exact fun hstale => hnone _ hstale.2.choose_spec.1
  | @nothing current left mem found =>
      have honly : ∀ other ∈ body s first second, other = current :=
        fun other hmem => Option.mem_unique hmem mem
      rcases found with hagain | ⟨hclose, herrno⟩
      · refine iff_of_true ⟨hsound, ?_, ?_, ?_, ?_⟩ ?_
        · intro other hmem _
          rw [honly other hmem]
          exact ⟨rfl, rfl⟩
        · rintro (⟨hsz, hgone⟩ | ⟨other, hmem, hend⟩)
          · exact absurd mem (not_mem_body_of_gone hsz hgone)
          · rw [honly other hmem, hagain] at hend
            rcases hend with hend | hend <;> cases hend
        · intro other hmem bytes hdata
          rw [honly other hmem, hagain] at hdata
          cases hdata
        · exact fun hcomplete => absurd mem (not_mem_body_of_complete hcomplete)
        · rintro ⟨-, other, hmem, hclose⟩
          rw [honly other hmem, hagain] at hclose
          cases hclose
      · refine iff_of_false ?_ (not_not_intro ⟨herrno, current, mem, hclose⟩)
        intro hmeets
        have hdropped := (hmeets.lost (.inr ⟨current, mem, .inl hclose⟩)).1
        exact absurd (congrArg Conn.dead hdropped) Bool.false_ne_true
  | @lost current left mem found =>
      have honly : ∀ other ∈ body s first second, other = current :=
        fun other hmem => Option.mem_unique hmem mem
      refine iff_of_true ⟨hsound, ?_, ?_, ?_, ?_⟩ ?_
      · intro other hmem hagain
        rw [honly other hmem] at hagain
        rcases found with hfound | ⟨hfound, -⟩ <;> rw [hfound] at hagain <;> cases hagain
      · exact fun _ => ⟨rfl, rfl⟩
      · intro other hmem bytes hdata
        rw [honly other hmem] at hdata
        rcases found with hfound | ⟨hfound, -⟩ <;> rw [hfound] at hdata <;> cases hdata
      · exact fun hcomplete => absurd mem (not_mem_body_of_complete hcomplete)
      · rintro ⟨herrno, other, hmem, hclose⟩
        rw [honly other hmem] at hclose
        rcases found with hfound | ⟨-, hother⟩
        · rw [hfound] at hclose
          cases hclose
        · exact hother herrno
  | @read current bytes handed left mem found sound =>
      have honly : ∀ other ∈ body s first second, other = current :=
        fun other hmem => Option.mem_unique hmem mem
      refine iff_of_true ⟨hsound, ?_, ?_, ?_, ?_⟩ ?_
      · intro other hmem hagain
        rw [honly other hmem, found] at hagain
        cases hagain
      · rintro (⟨hsz, hgone⟩ | ⟨other, hmem, hend⟩)
        · exact absurd mem (not_mem_body_of_gone hsz hgone)
        · rw [honly other hmem, found] at hend
          rcases hend with hend | hend <;> cases hend
      · intro other hmem bytes' hdata
        rw [honly other hmem] at hdata ⊢
        rw [found] at hdata
        injection hdata with hbytes
        rw [hbytes]
      · exact fun hcomplete => absurd mem (not_mem_body_of_complete hcomplete)
      · rintro ⟨-, other, hmem, hclose⟩
        rw [honly other hmem, found] at hclose
        cases hclose
  | offered complete =>
      have hnone : ∀ current, current ∉ body s first second :=
        fun _ => not_mem_body_of_complete complete
      refine iff_of_true ⟨hsound, ?_, ?_, ?_, ?_⟩ ?_
      · exact fun current hmem => absurd hmem (hnone current)
      · rintro (⟨hsz, -⟩ | ⟨current, hmem, -⟩)
        · exact absurd hsz complete.1
        · exact absurd hmem (hnone current)
      · exact fun current hmem => absurd hmem (hnone current)
      · refine fun _ => ⟨rfl, rfl, fun hrefused => ?_⟩
        show offer s.conn.rpdu accepts = s.conn.rpdu
        rw [offer, hrefused, if_neg (fun hboth => Bool.false_ne_true hboth.2)]
      · exact fun hstale => hnone _ hstale.2.choose_spec.1

/-- Every outcome of a read, in every state that a connection can reach: the buffer is set
exactly while the reader is inside a PDU and its counters are in order; a call of
`read_cb` never fails; it leaves a dead connection alone; and on a live one it does what
it is to do exactly if it does not read the end of the stream inside a body with an
`EAGAIN` left in `errno`. -/
theorem readOutcomes {labels : List Label} (hrun : system.Run Admissible labels s) :
    Sound s.conn.rpdu ∧
    ∀ first second accepts, Admissible s (.readCb first second accepts) →
      ∃ target handed left, call s first second accepts = some ((target, handed), left) ∧
        (s.conn.dead = true → target = s.conn ∧ handed = []) ∧
        (s.conn.dead = false →
          (Meets s first second accepts target handed left ↔ ¬StaleErrno s first second)) := by
  have h := sound_of_run hrun
  refine ⟨h, fun first second accepts hadmissible => ?_⟩
  cases halive : s.conn.dead with
  | true => exact ⟨_, _, _, call_of_dead halive, fun _ => ⟨rfl, rfl⟩, nofun⟩
  | false =>
      obtain ⟨⟨⟨target, handed⟩, left⟩, hcall, hresult⟩ := call_spec halive h hadmissible
      exact ⟨target, handed, left, hcall, nofun,
        fun _ => hresult.meets_iff h halive hadmissible⟩

/-- The size word of a PDU of 24 bytes. -/
def wordOf24 : Bytes := be32 24

/-- A PDU of 24 bytes: its size word and three bytes, then nothing, then the rest, which
`got_pdu` refuses; after that it would be offered again. -/
theorem readOutcomes_refused :
    ∃ s, system.Run Admissible
        [.readCb (.data wordOf24) (.data [1, 2, 3]) true, .readCb .again .error true,
          .readCb (.data (List.replicate 17 7)) .error false, .elsewhere .eagain] s ∧
      s.conn.rpdu.buf = some (wordOf24 ++ [1, 2, 3] ++ List.replicate 17 7) ∧
      ∃ target handed left, call s .close .error false = some ((target, handed), left) ∧
        Meets s .close .error false target handed left := by
  obtain ⟨s, hexec, hbuf, halive, hfinished⟩ : ∃ s, system.execIf
      (fun s label => decide (Admissible s label)) system.init
        [.readCb (.data wordOf24) (.data [1, 2, 3]) true, .readCb .again .error true,
          .readCb (.data (List.replicate 17 7)) .error false, .elsewhere .eagain] = some s ∧
      s.conn.rpdu.buf = some (wordOf24 ++ [1, 2, 3] ++ List.replicate 17 7) ∧
      s.conn.dead = false ∧ body s .close .error = none :=
    ⟨_, rfl, by decide, by decide, by decide⟩
  have hrun : system.Run Admissible _ s :=
    System.run_of_execIf (fun _ _ => of_decide_eq_true) hexec
  have hadmissible : Admissible s (.readCb .close .error false) := by
    intro _
    exact ⟨fun _ => trivial, fun current hmem => by rw [hfinished] at hmem; cases hmem⟩
  obtain ⟨target, handed, left, hcall, -, hmeets⟩ :=
    (readOutcomes hrun).2 .close .error false hadmissible
  refine ⟨s, hrun, hbuf, target, handed, left, hcall, (hmeets halive).mpr ?_⟩
  rintro ⟨-, current, hmem, -⟩
  rw [hfinished] at hmem
  cases hmem

/-- A PDU whose body finds no data at first, which leaves `EAGAIN` in `errno`, and whose
peer then closes: the half-read PDU is kept on a connection that stays alive. -/
theorem staleErrno_keepsHalfPdu :
    ∃ s target left, system.Run Admissible [.readCb (.data wordOf24) .again true] s ∧
      Admissible s (.readCb .close .error true) ∧
      call s .close .error true = some ((target, []), left) ∧
      Lost s .close .error ∧ target = s.conn ∧ target.dead = false ∧
      target.rpdu.buf = some wordOf24 ∧ ¬Meets s .close .error true target [] left := by
  obtain ⟨s, target, left, hexec, hadmissible, hcall, hmem, hsame, halive, hbuf⟩ :
      ∃ s target left, system.execIf (fun s label => decide (Admissible s label)) system.init
          [.readCb (.data wordOf24) .again true] = some s ∧
        Admissible s (.readCb .close .error true) ∧
        call s .close .error true = some ((target, []), left) ∧
        (begun wordOf24, Outcome.close) ∈ body s .close .error ∧ target = s.conn ∧
        target.dead = false ∧ target.rpdu.buf = some wordOf24 :=
    ⟨_, _, _, rfl, by decide, rfl, rfl, by decide, by decide, by decide⟩
  have hlost : Lost s .close .error := .inr ⟨_, hmem, .inl rfl⟩
  refine ⟨s, target, left, System.run_of_execIf (fun _ _ => of_decide_eq_true) hexec,
    hadmissible, hcall, hlost, hsame, halive, hbuf, fun hmeets => ?_⟩
  rw [(hmeets.lost hlost).1] at halive
  cases halive

end YfsLab.Connection.Outcomes
