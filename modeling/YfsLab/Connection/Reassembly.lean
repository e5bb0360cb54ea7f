/-
# Reassembly of PDUs

A run of the read side: the bytes a peer has sent are read in pieces of any size,
one call of `read_cb` after the other, and `got_pdu` accepts what it is handed.
The reader's state in the middle of a PDU is a function of the bytes of that PDU
that it has read, so what is delivered does not depend on where the bodies are
cut. A cut inside a size word is different: the reader drops the connection.
-/

import YfsLab.Connection.Reader
import YfsLab.Foundations.Transition

namespace YfsLab.Connection

open BigEndian Transition Wire

/-! ## The socket -/

/-- What a non-blocking socket holds: the bytes that are still to be read, how
many of them each of the next reads may return, and `errno`. -/
structure Stream where
  pending : Bytes
  pieces : List ℕ := []
  errno : Errno := .other
  deriving DecidableEq, Repr

/-- A read returns no more than what is there and what was asked for. If that is
nothing, it fails with `EAGAIN`. -/
def Stream.read (n : ℕ) (stream : Stream) : ReadResult × Stream :=
  let count := min (stream.pieces.headD 0) (min n stream.pending.length)
  if count = 0 then (.fail, { stream with pieces := stream.pieces.tail, errno := .eagain })
  else (.data (stream.pending.take count),
    { stream with pending := stream.pending.drop count, pieces := stream.pieces.tail })

def streamOs : Os Stream where
  read := Stream.read
  errno := Stream.errno

/-! ## Runs of the reader -/

/-- A connection, the bytes and the `errno` in front of it, and the PDUs it has
handed to `got_pdu`. -/
structure State where
  conn : Conn := {}
  pending : Bytes
  errno : Errno := .other
  delivered : List Bytes := []
  deriving DecidableEq, Repr

/-- One call of `read_cb`: how many bytes its first read may return, and how many
its second one, if there is one. -/
structure Pieces where
  first : ℕ
  second : ℕ
  deriving DecidableEq, Repr

/-- `read_cb` is called when the descriptor is ready, and the first read then
returns at least one byte. A dead connection has no callback any more. -/
def step (state : State) (pieces : Pieces) : Option State :=
  if state.conn.dead ∨ state.pending = [] ∨ pieces.first = 0 then none
  else
    (readCb streamOs (fun _ => true) state.conn
      { pending := state.pending, pieces := [pieces.first, pieces.second],
        errno := state.errno }).map fun ((conn, handed), stream) =>
      { conn, pending := stream.pending, errno := stream.errno,
        delivered := state.delivered ++ handed }

/-- A new connection with these bytes to read, and `errno` left over from before. -/
def reader (bytes : Bytes) (errno : Errno) : System State Pieces where
  init := { pending := bytes, errno }
  step := step

/-- A PDU as `send` puts it on a connection: its size in front, not shorter than
a header, and not larger than the reader accepts. -/
structure IsPdu (pdu : Bytes) : Prop where
  header_le : rpcHeaderSz ≤ pdu.length
  le_maxPdu : pdu.length ≤ maxPdu
  size_eq : pdu.take sizeofRpcSz = be32 (UInt32.ofNat pdu.length)

/-- A read that starts at a size word may return all of it. -/
def WholeSizeWord (state : State) (pieces : Pieces) : Prop :=
  state.conn.rpdu.sz = 0 → sizeofRpcSz ≤ pieces.first

/-! ## The state of the reader inside a PDU -/

/-- The reader's buffer after the first `n` bytes of a PDU. -/
def within (pdu : Bytes) (n : ℕ) : Charbuf where
  buf := some (pdu.take n)
  capacity := pdu.length + sizeofRpcSz
  sz := pdu.length
  solong := n

/-- The reader is at the start of a PDU, or it is inside one and has not read all
of it yet. -/
inductive Position : Charbuf → Bytes → List Bytes → Prop
  | start {rest : List Bytes} : Position {} rest.flatten rest
  | inside {pdu : Bytes} {rest : List Bytes} {n : ℕ} (hword : sizeofRpcSz ≤ n)
      (hlt : n < pdu.length) :
      Position (within pdu n) (pdu.drop n ++ rest.flatten) (pdu :: rest)

/-- The invariant of a run: what has been delivered, and what is still to come,
are the PDUs that were sent. -/
structure Reading (pdus : List Bytes) (state : State) : Prop where
  alive : state.conn.dead = false
  split : ∃ rest, pdus = state.delivered ++ rest ∧
    Position state.conn.rpdu state.pending rest

theorem sizeT_natCast_sub {m n : ℕ} (h : n ≤ m) (hm : m < 2 ^ 64) :
    sizeT ((m : ℤ) - n) = m - n := by
  simp only [sizeT]
  omega

theorem ntohl_be32 {x : UInt32} (hx : x.toNat < 2 ^ 31) : ntohl (be32 x) = x.toNat := by
  simp only [ntohl, be32, ofBe32_be32]
  exact BitVec.toInt_eq_toNat_of_lt (by simpa using by omega)

/-- The size word of a PDU gives its length back. -/
theorem IsPdu.ntohl_eq {pdu : Bytes} (h : IsPdu pdu) :
    ntohl (pdu.take sizeofRpcSz) = pdu.length := by
  have hle := h.le_maxPdu
  simp only [maxPdu] at hle
  have hlength : (UInt32.ofNat pdu.length).toNat = pdu.length := by
    rw [UInt32.toNat_ofNat', Nat.mod_eq_of_lt (by omega)]
  rw [h.size_eq, ntohl_be32 (by omega), hlength]

/-! ## One call of `read_cb` -/

/-- The body read takes the reader from one point inside a PDU to another. If it
finds nothing it stays where it is. -/
theorem readBody_within {pdu : Bytes} {n : ℕ} (hpdu : IsPdu pdu) (hn : n < pdu.length)
    (tail : Bytes) (k : ℕ) (pieces : List ℕ) (errno : Errno) :
    ∃ errno', readBody streamOs (within pdu n)
        { pending := pdu.drop n ++ tail, pieces := k :: pieces, errno } =
      some (true, within pdu (n + min k (pdu.length - n)),
        { pending := pdu.drop (n + min k (pdu.length - n)) ++ tail, pieces,
          errno := errno' }) := by
  have hmax := hpdu.le_maxPdu
  simp only [maxPdu] at hmax
  have hrequest : sizeT ((within pdu n).sz - (within pdu n).solong) = pdu.length - n :=
    sizeT_natCast_sub hn.le (by omega)
  have hcount : min k (min (pdu.length - n) (pdu.drop n ++ tail).length) =
      min k (pdu.length - n) := by
    rw [List.length_append, List.length_drop]
    omega
  simp only [readBody, streamOs, hrequest, Stream.read, List.headD_cons, hcount, List.tail_cons]
  by_cases hzero : min k (pdu.length - n) = 0
  · exact ⟨.eagain, by simp [hzero]⟩
  · have hle : min k (pdu.length - n) ≤ (pdu.drop n).length := by
      rw [List.length_drop]
      omega
    have hstored : pdu.take n ++ (pdu.drop n).take (min k (pdu.length - n)) =
        pdu.take (n + min k (pdu.length - n)) := List.take_add.symm
    have hlength : ((pdu.drop n).take (min k (pdu.length - n))).length =
        min k (pdu.length - n) := by
      rw [List.length_take]
      omega
    refine ⟨errno, ?_⟩
    rw [if_neg hzero, List.take_append_of_le_length hle, List.drop_append_of_le_length hle,
      List.drop_drop]
    simp only [within, Option.getD_some, hstored, hlength]
    rw [if_neg (by rw [List.length_take]; omega)]
    simp

/-- The hand-over after the body read. -/
theorem handOver_within {pdu : Bytes} {n : ℕ} (hword : sizeofRpcSz ≤ n)
    (hn : n ≤ pdu.length) (rest : List Bytes) :
    ∃ rpdu handed rest', handOver (fun _ => true) { dead := false, rpdu := within pdu n } =
        ({ dead := false, rpdu }, handed) ∧ pdu :: rest = handed ++ rest' ∧
      Position rpdu (pdu.drop n ++ rest.flatten) rest' := by
  by_cases hfull : n = pdu.length
  · subst hfull
    refine ⟨{}, [pdu], rest, by simp [handOver, within], rfl, ?_⟩
    simpa using Position.start
  · have hne : (pdu.length : ℤ) ≠ n := by omega
    exact ⟨within pdu n, [], pdu :: rest, by simp [handOver, within, hne], rfl,
      .inside hword (by omega)⟩

/-- A read that starts at the size word and returns all of it, and the body read
that follows it in the same call. -/
theorem readpdu_start {pdu : Bytes} {first : ℕ} (hpdu : IsPdu pdu)
    (hfirst : sizeofRpcSz ≤ first) (tail : Bytes) (second : ℕ) (errno : Errno) :
    ∃ errno', readpdu streamOs {}
        { pending := pdu ++ tail, pieces := [first, second], errno } =
      some (true, within pdu (sizeofRpcSz + min second (pdu.length - sizeofRpcSz)),
        { pending := pdu.drop (sizeofRpcSz + min second (pdu.length - sizeofRpcSz)) ++ tail,
          pieces := [], errno := errno' }) := by
  have hheader := hpdu.header_le
  have hmax := hpdu.le_maxPdu
  simp only [rpcHeaderSz] at hheader
  have hcount : min first (min sizeofRpcSz (pdu ++ tail).length) = sizeofRpcSz := by
    rw [List.length_append]
    omega
  have hread : Stream.read sizeofRpcSz
      { pending := pdu ++ tail, pieces := [first, second], errno } =
      (.data (pdu.take sizeofRpcSz),
        { pending := pdu.drop sizeofRpcSz ++ tail, pieces := [second], errno }) := by
    simp only [Stream.read, List.headD_cons, hcount, List.tail_cons]
    rw [if_neg (by simp [sizeofRpcSz]), List.take_append_of_le_length (by omega),
      List.drop_append_of_le_length (by omega)]
  obtain ⟨errno', hbody⟩ :=
    readBody_within (n := sizeofRpcSz) hpdu (by omega) tail second [] errno
  refine ⟨errno', ?_⟩
  have hcapacity : sizeT ((pdu.length : ℤ) + sizeofRpcSz) = pdu.length + sizeofRpcSz := by
    simp only [sizeT, maxPdu, sizeofRpcSz] at hmax ⊢
    omega
  have hallocated : ¬ (mallocMax < pdu.length + sizeofRpcSz ∨
      pdu.length + sizeofRpcSz < sizeofRpcSz) := by
    simp only [mallocMax, maxPdu, sizeofRpcSz] at hmax ⊢
    omega
  have hword : (pdu.take sizeofRpcSz).length = sizeofRpcSz := by
    rw [List.length_take]
    omega
  rw [readpdu, if_pos rfl]
  simp only [show streamOs.read = Stream.read from rfl, hread]
  rw [if_neg (not_not.mpr hword), hpdu.ntohl_eq, if_neg (by omega), if_neg (by simp), hcapacity,
    if_neg hallocated]
  exact hbody

/-- A call of `read_cb` in which `readpdu` gets to some point inside a PDU or to
its end. -/
theorem Reading.of_readpdu (delivered : List Bytes) {pdu : Bytes} {rest : List Bytes}
    {rpdu : Charbuf} {pending : Bytes} {errno errno' : Errno} {pieces : Pieces}
    {pieces' : List ℕ} {n : ℕ}
    (hpending : pending ≠ []) (hfirst : pieces.first ≠ 0) (hunfinished : rpdu.unfinished = true)
    (hread : readpdu streamOs rpdu
        { pending, pieces := [pieces.first, pieces.second], errno } =
      some (true, within pdu n,
        { pending := pdu.drop n ++ rest.flatten, pieces := pieces', errno := errno' }))
    (hword : sizeofRpcSz ≤ n) (hn : n ≤ pdu.length) :
    ∃ target, Connection.step
        { conn := { dead := false, rpdu }, pending, errno, delivered } pieces = some target ∧
      Reading (delivered ++ pdu :: rest) target ∧
      target.pending = pdu.drop n ++ rest.flatten := by
  obtain ⟨rpdu', handed, rest', hhand, hsplit, hposition⟩ :=
    handOver_within hword hn rest
  refine ⟨{ conn := { dead := false, rpdu := rpdu' }, pending := pdu.drop n ++ rest.flatten,
            errno := errno', delivered := delivered ++ handed }, ?_, ⟨rfl, rest', ?_, hposition⟩,
    rfl⟩
  · simp [Connection.step, readCb, hpending, hfirst, hunfinished, hread, hhand]
  · rw [hsplit, List.append_assoc]

/-- A call of `read_cb` that does not cut a size word succeeds, keeps the
invariant, and takes something from the stream. -/
theorem Reading.step {pdus : List Bytes} (hpdus : ∀ pdu ∈ pdus, IsPdu pdu) {state : State}
    (hreading : Reading pdus state) {pieces : Pieces} (hpending : state.pending ≠ [])
    (hfirst : pieces.first ≠ 0) (hwhole : WholeSizeWord state pieces) :
    ∃ target, Connection.step state pieces = some target ∧ Reading pdus target ∧
      target.pending.length < state.pending.length := by
  obtain ⟨⟨dead, rpdu⟩, pending, errno, delivered⟩ := state
  obtain ⟨halive, rest, rfl, hposition⟩ := hreading
  simp only at halive hposition hpending
  subst halive
  have hmem : ∀ pdu ∈ rest, IsPdu pdu := fun pdu h => hpdus pdu (List.mem_append_right _ h)
  cases hposition with
  | start =>
      cases rest with
      | nil => exact absurd rfl hpending
      | cons pdu rest =>
          have hpdu := hmem pdu List.mem_cons_self
          have hheader := hpdu.header_le
          simp only [rpcHeaderSz, sizeofRpcSz] at hheader
          obtain ⟨errno', hread⟩ :=
            readpdu_start hpdu (hwhole rfl) rest.flatten pieces.second errno
          obtain ⟨target, htarget, hreading, hleft⟩ :=
            Reading.of_readpdu delivered hpending hfirst rfl hread (by omega)
              (by simp only [sizeofRpcSz]; omega)
          refine ⟨target, htarget, hreading, ?_⟩
          simp only [hleft, List.flatten_cons, List.length_append, List.length_drop, sizeofRpcSz]
          omega
  | inside hword hlt =>
      rename_i pdu rest n
      have hpdu := hmem pdu List.mem_cons_self
      obtain ⟨errno', hbody⟩ :=
        readBody_within hpdu hlt rest.flatten pieces.first [pieces.second] errno
      have hunfinished : (within pdu n).unfinished = true := by
        simp [Charbuf.unfinished, within, hlt]
      have hread : readpdu streamOs (within pdu n) _ = _ :=
        (if_neg (by simp only [within]; omega)).trans hbody
      obtain ⟨target, htarget, hreading, hleft⟩ :=
        Reading.of_readpdu delivered hpending hfirst hunfinished hread (by omega) (by omega)
      refine ⟨target, htarget, hreading, ?_⟩
      simp only [hleft, List.length_append, List.length_drop]
      omega

/-! ## Whole runs -/

/-- In every run that does not cut a size word the invariant holds, and every call
has taken something from the stream. -/
theorem reading_of_run {pdus : List Bytes} (hpdus : ∀ pdu ∈ pdus, IsPdu pdu) {errno : Errno}
    {labels : List Pieces} {state : State}
    (hrun : (reader pdus.flatten errno).Run WholeSizeWord labels state) :
    Reading pdus state ∧ labels.length + state.pending.length ≤ pdus.flatten.length := by
  refine System.Run.invariantOn (fun labels state =>
    Reading pdus state ∧ labels.length + state.pending.length ≤ pdus.flatten.length) ?_ ?_ hrun
  · exact ⟨⟨rfl, pdus, rfl, .start⟩, by simp [reader]⟩
  · rintro labels source pieces target _ ⟨hreading, hlength⟩ hwhole hstep
    have hstep' : Connection.step source pieces = some target := hstep
    have henabled : ¬ (source.conn.dead ∨ source.pending = [] ∨ pieces.first = 0) := by
      intro hdisabled
      rw [Connection.step, if_pos hdisabled] at hstep'
      cases hstep'
    simp only [not_or] at henabled
    obtain ⟨target', htarget, hreading', hless⟩ :=
      hreading.step hpdus henabled.2.1 henabled.2.2 hwhole
    obtain rfl : target' = target := Option.some.inj (htarget.symm.trans hstep')
    exact ⟨hreading', by rw [List.length_append, List.length_singleton]; omega⟩

/-- When nothing is left in the stream, everything has been delivered. -/
theorem Reading.delivered_eq {pdus : List Bytes} (hpdus : ∀ pdu ∈ pdus, IsPdu pdu)
    {state : State} (hreading : Reading pdus state) (hpending : state.pending = []) :
    state.delivered = pdus := by
  obtain ⟨-, rest, rfl, hposition⟩ := hreading
  rw [hpending] at hposition
  generalize hrpdu : state.conn.rpdu = rpdu at hposition
  generalize hnil : ([] : Bytes) = pending at hposition
  cases hposition with
  | start =>
      cases rest with
      | nil => rw [List.append_nil]
      | cons pdu rest =>
          have hheader := (hpdus pdu (List.mem_append_right _ List.mem_cons_self)).header_le
          have hlength := congrArg List.length hnil
          simp only [rpcHeaderSz, sizeofRpcSz, List.flatten_cons, List.length_append,
            List.length_nil] at hheader hlength
          omega
  | inside _ hlt =>
      have hlength := congrArg List.length hnil
      simp only [List.length_append, List.length_drop, List.length_nil] at hlength
      omega

/-- Reassembly: the PDUs of a stream may be read in pieces of any size, as long as
a read that starts at a size word returns the whole word. The connection stays
alive, what has been delivered is at every moment an initial part of the PDUs
sent, a call of `read_cb` is always possible while bytes are left, and after no
more calls than there are bytes everything has been delivered, each PDU once and
in order. -/
theorem reassembly {pdus : List Bytes} (hpdus : ∀ pdu ∈ pdus, IsPdu pdu) {errno : Errno}
    {labels : List Pieces} {state : State}
    (hrun : (reader pdus.flatten errno).Run WholeSizeWord labels state) :
    state.conn.dead = false ∧ state.delivered <+: pdus ∧
    (state.pending = [] → state.delivered = pdus) ∧
    labels.length + state.pending.length ≤ pdus.flatten.length ∧
    (∀ pieces : Pieces, state.pending ≠ [] → pieces.first ≠ 0 → WholeSizeWord state pieces →
      ∃ target, step state pieces = some target) := by
  obtain ⟨hreading, hlength⟩ := reading_of_run hpdus hrun
  obtain ⟨rest, hsplit, _⟩ := hreading.split
  refine ⟨hreading.alive, ⟨rest, hsplit.symm⟩, hreading.delivered_eq hpdus, hlength, ?_⟩
  intro pieces hpending hfirst hwhole
  obtain ⟨target, htarget, _⟩ := hreading.step hpdus hpending hfirst hwhole
  exact ⟨target, htarget⟩

/-- The smallest PDU: nothing but a header. -/
def headerPdu : Bytes := be32 24 ++ List.replicate 20 0

theorem isPdu_headerPdu : IsPdu headerPdu := ⟨by decide, by decide, by decide⟩

/-- Two PDUs, the first one cut in the middle of its body, and the second one read
right behind it. -/
theorem reassembly_twoPdus :
    ∃ state, (reader [headerPdu, headerPdu].flatten .eagain).Run WholeSizeWord
        [⟨4, 3⟩, ⟨17, 0⟩, ⟨9, 20⟩] state ∧
      state.delivered = [headerPdu, headerPdu] ∧ state.conn.dead = false := by
  have hpdus : ∀ pdu ∈ [headerPdu, headerPdu], IsPdu pdu := by
    simp [isPdu_headerPdu]
  obtain ⟨state, hexec, hpending⟩ : ∃ state,
      (reader [headerPdu, headerPdu].flatten .eagain).execIf
        (fun state pieces => state.conn.rpdu.sz ≠ 0 || sizeofRpcSz ≤ pieces.first)
        (reader [headerPdu, headerPdu].flatten .eagain).init [⟨4, 3⟩, ⟨17, 0⟩, ⟨9, 20⟩] =
          some state ∧ state.pending = [] := ⟨_, rfl, by decide⟩
  have hrun : (reader [headerPdu, headerPdu].flatten .eagain).Run WholeSizeWord _ state :=
    System.run_of_execIf (fun state pieces hcheck hsz => by simpa [hsz] using hcheck) hexec
  obtain ⟨halive, _, hdelivered, _⟩ := reassembly hpdus hrun
  exact ⟨state, hrun, hdelivered hpending, halive⟩

/-- A read that returns one byte of a size word makes the reader drop the
connection: nothing is delivered, although a whole PDU is in the stream. -/
theorem shortRead_dropsConnection :
    ∃ state, (reader [headerPdu].flatten .other).Run anyStep [⟨1, 24⟩] state ∧
      IsPdu headerPdu ∧ state.conn.dead = true ∧ state.delivered = [] := by
  obtain ⟨state, hexec, hdead, hdelivered⟩ : ∃ state,
      (reader [headerPdu].flatten .other).exec (reader [headerPdu].flatten .other).init
        [⟨1, 24⟩] = some state ∧ state.conn.dead = true ∧ state.delivered = [] :=
    ⟨_, rfl, by decide, by decide⟩
  exact ⟨state, System.run_of_exec hexec, isPdu_headerPdu, hdead, hdelivered⟩

end YfsLab.Connection
