/-
# What has been sent arrives

Once no sender is in the middle of a PDU, the reader gets everything that has been
written by calls of `read_cb` alone: as long as the descriptor is readable, no size word
is cut and `got_pdu` accepts, every call takes something, and when nothing is on the way
any more every PDU has been handed over. The exception is a PDU that `got_pdu` has
refused: it stays in `rpdu_` until the descriptor is readable again.
-/

import YfsLab.Connection.Link

namespace YfsLab.Connection

open BigEndian Transition Wire

universe u v

/-! ## Operating systems that behave alike -/

/-- A view of one kernel as another one under which reads and `errno` are the same. -/
structure Os.Simulates {Kernel : Type u} {Kernel' : Type v} (os : Os Kernel) (os' : Os Kernel')
    (view : Kernel → Kernel') : Prop where
  read_eq : ∀ n kernel, os'.read n (view kernel) =
    ((os.read n kernel).1, view (os.read n kernel).2)
  errno_eq : ∀ kernel, os'.errno (view kernel) = os.errno kernel

section Simulation

variable {Kernel : Type u} {Kernel' : Type v} {os : Os Kernel} {os' : Os Kernel'}
variable {view : Kernel → Kernel'}

theorem Os.Simulates.readBody (h : os.Simulates os' view) (rpdu : Charbuf) (kernel : Kernel) :
    readBody os' rpdu (view kernel) =
      (readBody os rpdu kernel).map fun (succ, rpdu, kernel) => (succ, rpdu, view kernel) := by
  obtain ⟨result, after, hresult⟩ : ∃ result after,
      os.read (sizeT (rpdu.sz - rpdu.solong)) kernel = (result, after) := ⟨_, _, rfl⟩
  simp only [Connection.readBody, h.read_eq, hresult, h.errno_eq]
  cases result with
  | data bytes =>
      simp only
      split_ifs
      · rfl
      · rfl
  | eof | fail =>
      simp only
      split_ifs
      · rfl
      · rfl

theorem Os.Simulates.readpdu (h : os.Simulates os' view) (rpdu : Charbuf) (kernel : Kernel) :
    readpdu os' rpdu (view kernel) =
      (readpdu os rpdu kernel).map fun (succ, rpdu, kernel) => (succ, rpdu, view kernel) := by
  by_cases hnew : rpdu.sz = 0
  · obtain ⟨result, after, hresult⟩ : ∃ result after,
        os.read sizeofRpcSz kernel = (result, after) := ⟨_, _, rfl⟩
    simp only [Connection.readpdu, if_pos hnew, h.read_eq, hresult, h.errno_eq]
    cases result with
    | eof => rfl
    | fail =>
        simp only
        split_ifs
        · rfl
        · rfl
    | data word =>
        simp only
        split_ifs
        · rfl
        · rfl
        · rfl
        · rfl
        · exact h.readBody _ after
  · simp only [Connection.readpdu, if_neg hnew]
    exact h.readBody rpdu kernel

theorem Os.Simulates.readCb (h : os.Simulates os' view) (gotPdu : Bytes → Bool) (conn : Conn)
    (kernel : Kernel) :
    readCb os' gotPdu conn (view kernel) =
      (readCb os gotPdu conn kernel).map fun (handed, kernel) => (handed, view kernel) := by
  simp only [Connection.readCb]
  split_ifs
  · rfl
  · rw [h.readpdu, Option.map_map, Option.map_map]
    rfl
  · rfl

end Simulation

/-- A stream whose reads are cut in pieces is a socket. -/
def Stream.toSocket (stream : Stream) : Socket where
  pending := stream.pending
  arrivals := stream.pieces.map .upTo
  errno := stream.errno

theorem simulates_toSocket : streamOs.Simulates socketOs Stream.toSocket where
  read_eq n stream := by
    have hhead : (stream.pieces.map Arrival.upTo).headD (.upTo 0) =
        .upTo (stream.pieces.headD 0) := by
      cases stream.pieces with
      | nil | cons => rfl
    simp only [socketOs, streamOs, Socket.read, Stream.read, Stream.toSocket, hhead]
    split_ifs
    · simp [List.map_tail]
    · simp [List.map_tail]
  errno_eq _ := rfl

namespace Link

/-! ## Where the reader stands -/

/-- The reader is somewhere in these PDUs, or it has a whole one that was refused. -/
inductive Standing : Charbuf → Bytes → List Bytes → Prop
  | reading {rpdu : Charbuf} {pending : Bytes} {rest : List Bytes}
      (hposition : Position rpdu pending rest) : Standing rpdu pending rest
  | refused {pdu : Bytes} {rest : List Bytes} :
      Standing (within pdu pdu.length) rest.flatten (pdu :: rest)

/-- Whether the reader has a whole PDU. -/
def refusing (l : Link) : Bool := l.conn.rpdu.buf.isSome && !l.conn.rpdu.unfinished

/-- The invariant of a run that drains the link. -/
structure Draining (pdus : List Bytes) (l : Link) : Prop where
  alive : l.conn.dead = false
  split : ∃ rest, pdus = l.accepted ++ rest ∧ Standing l.conn.rpdu l.pending rest

/-- The sending end is alive, and no sender is in the middle of a PDU. -/
def Quiet (l : Link) : Prop := l.sender.dead = false ∧ l.sender.wpdu.buf = none

theorem standing_of_holding {held pending : Bytes} {rest : List Bytes}
    (hrest : ∀ pdu ∈ rest, IsPdu pdu) (hfits : Fits held)
    (hflatten : held ++ pending = rest.flatten) :
    Standing (Charbuf.holding held) pending rest := by
  rcases hfits with rfl | ⟨hword, hroom⟩
  · rw [List.nil_append] at hflatten
    subst hflatten
    exact .reading .start
  · cases rest with
    | nil =>
        obtain ⟨rfl, -⟩ := List.append_eq_nil_iff.mp hflatten
        simp [sizeofRpcSz] at hword
    | cons pdu rest =>
        have hpdu := hrest pdu List.mem_cons_self
        have hheader := hpdu.header_le
        have hmax := hpdu.le_maxPdu
        simp only [rpcHeaderSz, maxPdu] at hheader hmax
        rw [List.flatten_cons] at hflatten
        -- the size word is that of the PDU
        have hsize : held.take sizeofRpcSz = pdu.take sizeofRpcSz := by
          have hleft : (held ++ pending).take sizeofRpcSz = held.take sizeofRpcSz :=
            List.take_append_of_le_length hword
          rw [← hleft, hflatten, List.take_append_of_le_length (by omega)]
        have hsz : ntohl (held.take sizeofRpcSz) = pdu.length := by rw [hsize, hpdu.ntohl_eq]
        have hle : held.length ≤ pdu.length := by
          rw [hsz] at hroom
          exact_mod_cast hroom (by exact_mod_cast (by omega : sizeofRpcSz ≤ pdu.length))
        have hheld : held = pdu.take held.length := by
          have hleft : (pdu ++ rest.flatten).take held.length = pdu.take held.length :=
            List.take_append_of_le_length hle
          rw [← hleft, ← hflatten, List.take_left]
        have hpending : pending = pdu.drop held.length ++ rest.flatten := by
          rw [← List.drop_append_of_le_length hle, ← hflatten, List.drop_left]
        have hwithin : Charbuf.holding held = within pdu held.length := by
          have hcapacity : sizeT ((pdu.length : ℤ) + sizeofRpcSz) = pdu.length + sizeofRpcSz := by
            simp only [sizeT, sizeofRpcSz]
            omega
          rw [Charbuf.holding_of_le hword, hsz, hcapacity, within, ← hheld]
        rw [hwithin, hpending]
        rcases hle.lt_or_eq with hlt | heq
        · exact .reading (.inside hword hlt)
        · rw [heq, List.drop_length, List.nil_append]
          exact .refused

/-- A reader that is alive stands somewhere in what has been written. -/
theorem Carries.draining {l : Link} (h : l.Carries) (hquiet : l.Quiet)
    (hpdus : ∀ c, .began c ∈ l.log → rpcHeaderSz ≤ c.pdu.length ∧ c.pdu.length ≤ maxPdu)
    (halive : l.conn.dead = false) :
    ∃ done : List Call, written l.log = done.flatMap Call.frame ∧
      (∀ pdu ∈ done.map Call.frame, IsPdu pdu) ∧ Draining (done.map Call.frame) l := by
  obtain ⟨-, done, part, hframed⟩ := h.sound
  simp only at hframed
  obtain ⟨consumed, hwritten, hreads⟩ := h.reads
  obtain ⟨hsender, hfree⟩ := hquiet
  have hpart : part = [] := by
    cases hframed.progress with
    | idle _ _ _ hpart => exact hpart
    | writing c k _ hat => rw [hat] at hfree; cases hfree
    | complete c _ hat => rw [hat] at hfree; cases hfree
    | dead hdead => rw [hsender] at hdead; cases hdead
  subst hpart
  have heq : written l.log = (done.map Call.frame).flatten := by
    rw [hframed.written_eq, List.append_nil, List.flatMap_def]
  have hbegan : ∀ c ∈ done, .began c ∈ l.log :=
    fun c hc => hframed.began c (List.mem_append_left _ hc)
  have hframes : ∀ pdu ∈ done.map Call.frame, IsPdu pdu := by
    intro pdu hpdu
    obtain ⟨c, hc, rfl⟩ := List.mem_map.mp hpdu
    obtain ⟨hheader, hmax⟩ := hpdus c (hbegan c hc)
    refine ⟨by rwa [c.length_frame], by rwa [c.length_frame], ?_⟩
    rw [c.length_frame]
    rfl
  obtain ⟨held, hrpdu, hfits, hconsumed⟩ := hreads.holding halive
  have hfirst : l.accepted <+: done.map Call.frame := h.accepted_isPrefix (h.wrote hframed)
  obtain ⟨rest, hrest⟩ := hfirst
  refine ⟨done, by rw [heq, List.flatMap_def], hframes, halive, rest, hrest.symm, ?_⟩
  rw [hrpdu]
  refine standing_of_holding (fun pdu hpdu => hframes pdu ?_) hfits ?_
  · rw [← hrest]
    exact List.mem_append_right _ hpdu
  · rw [hwritten, hconsumed, ← hrest, List.flatten_append, List.append_assoc] at heq
    exact List.append_cancel_left heq

/-! ## Calls of `read_cb` -/

/-- A call of `read_cb` for a descriptor that is readable. Its first read returns
something, and all of a size word, and `got_pdu` accepts. -/
inductive Serves (l : Link) : Label → Prop
  | call {errno : Errno} {first second : ℕ} (hready : l.pending ≠ []) (hfirst : first ≠ 0)
      (hwhole : l.conn.rpdu.sz = 0 → sizeofRpcSz ≤ first) :
      Serves l (.readCb errno [.upTo first, .upTo second] true)

/-- The bytes and the PDU that are still to be handed over. -/
def load (l : Link) : ℕ := l.pending.length + if l.refusing then 1 else 0

theorem refusing_of_refused {l : Link} (pdu : Bytes)
    (hrpdu : l.conn.rpdu = within pdu pdu.length) : l.refusing = true := by
  simp [refusing, hrpdu, Charbuf.unfinished, within]

theorem not_refusing_of_position {l : Link} {rest : List Bytes}
    (hposition : Position l.conn.rpdu l.pending rest) : l.refusing = false := by
  obtain ⟨sender, log, pending, ⟨dead, rpdu⟩, accepted⟩ := l
  cases hposition with
  | start => rfl
  | inside _ hlt => simp [refusing, Charbuf.unfinished, hlt]

/-- Such a call is possible, takes something, and leaves no whole PDU behind. -/
theorem Draining.serve {pdus : List Bytes} (hpdus : ∀ pdu ∈ pdus, IsPdu pdu) {l : Link}
    (h : Draining pdus l) {label : Label} (hserves : Serves l label) :
    ∃ l', l.step label = some l' ∧ Draining pdus l' ∧ l'.load < l.load ∧
      l'.refusing = false := by
  obtain ⟨halive, rest, hsplit, hstanding⟩ := h
  obtain @⟨errno, first, second, hready, hfirst, hwhole⟩ := hserves
  obtain ⟨sender, log, pending, ⟨dead, rpdu⟩, accepted⟩ := l
  simp only at halive hsplit hstanding hready hwhole
  subst halive
  cases hstanding with
  | reading hposition =>
      have hreading : Reading pdus
          { conn := { dead := false, rpdu }, pending, errno, delivered := accepted } :=
        ⟨rfl, rest, hsplit, hposition⟩
      have hcut : WholeSizeWord
          { conn := { dead := false, rpdu }, pending, errno, delivered := accepted }
          ⟨first, second⟩ := hwhole
      obtain ⟨⟨conn, pending', errno', delivered⟩, htarget, hafter, hless⟩ :=
        hreading.step hpdus hready hfirst hcut
      rw [Connection.step, if_neg (by simp [hready, hfirst])] at htarget
      obtain ⟨⟨⟨conn', handed⟩, stream⟩, hread, heq⟩ := Option.map_eq_some_iff.mp htarget
      simp only [State.mk.injEq] at heq
      obtain ⟨rfl, rfl, rfl, rfl⟩ := heq
      -- the same call on the socket
      have hsocket := simulates_toSocket.readCb (fun _ => true) { dead := false, rpdu }
        { pending, pieces := [first, second], errno }
      rw [hread] at hsocket
      obtain ⟨hdead, rest', hsplit', hposition'⟩ := hafter
      have hnone := not_refusing_of_position (l := ⟨sender, log, stream.pending, conn',
        accepted ++ handed⟩) hposition'
      have hold := not_refusing_of_position (l := ⟨sender, log, pending, ⟨false, rpdu⟩,
        accepted⟩) hposition
      refine ⟨⟨sender, log, stream.pending, conn', accepted ++ handed⟩, ?_,
        ⟨hdead, rest', hsplit', .reading hposition'⟩, ?_, hnone⟩
      · simp only [step]
        exact (congrArg _ hsocket).trans (by simp [Stream.toSocket])
      · simpa only [load, hnone, hold, Bool.false_eq_true, if_false, Nat.add_zero] using hless
  | @refused pdu rest =>
      refine ⟨⟨sender, log, rest.flatten, {}, accepted ++ [pdu]⟩, ?_,
        ⟨rfl, rest, by rw [hsplit]; simp, .reading .start⟩, ?_, rfl⟩
      · simp [step, readCb, handOver, within, Charbuf.unfinished]
      · simp [load, refusing, within, Charbuf.unfinished]

/-- The system from a state on. -/
def onwards (l : Link) : System Link Label where
  init := l
  step := step

/-- Everything that has been written arrives. From any state that a run reaches in which
both ends are alive, no sender is in the middle of a PDU, and the PDUs whose calls of
`send` have begun have a header and at most `MAX_PDU` bytes, calls of `read_cb` that cut
no size word and whose PDUs are accepted keep the reader alive and are possible as long
as bytes are on the way; there are no more of them than bytes and one; and when no bytes
are left, all PDUs that were written have been accepted, in their order, unless the last
one had been refused before and the descriptor was never readable again. -/
theorem everything_arrives {labels : List Label} {l : Link} (hrun : system.Run anyStep labels l)
    (hpdus : ∀ c, .began c ∈ l.log → rpcHeaderSz ≤ c.pdu.length ∧ c.pdu.length ≤ maxPdu)
    (hquiet : l.Quiet) (halive : l.conn.dead = false) :
    ∃ done : List Call, written l.log = done.flatMap Call.frame ∧
      ∀ calls l', l.onwards.Run Serves calls l' →
        l'.conn.dead = false ∧ l'.accepted <+: done.map Call.frame ∧
        calls.length ≤ l.pending.length + 1 ∧
        (∀ label, Serves l' label → ∃ l'', l'.step label = some l'') ∧
        (l'.pending = [] → l'.accepted = done.map Call.frame ∨
          calls = [] ∧ ∃ pdu, l'.accepted ++ [pdu] = done.map Call.frame) := by
  obtain ⟨done, hwritten, hframes, hdraining⟩ :=
    (carries_of_run hrun).draining hquiet hpdus halive
  refine ⟨done, hwritten, fun calls l' hserve => ?_⟩
  -- a call leaves no whole PDU behind, so only the first one may find one
  have hinv : Draining (done.map Call.frame) l' ∧ calls.length + l'.load ≤ l.load ∧
      (calls ≠ [] → l'.refusing = false) := by
    refine hserve.invariantOn (fun calls l' => Draining (done.map Call.frame) l' ∧
      calls.length + l'.load ≤ l.load ∧ (calls ≠ [] → l'.refusing = false)) ?_ ?_
    · exact ⟨hdraining, by simp [onwards], fun hne => absurd rfl hne⟩
    · rintro calls source label target - ⟨hdrain, hlength, -⟩ hserves hstep
      obtain ⟨target', htarget, hafter, hless, hnone⟩ := hdrain.serve hframes hserves
      obtain rfl : target' = target := Option.some.inj (htarget.symm.trans hstep)
      refine ⟨hafter, ?_, fun _ => hnone⟩
      rw [List.length_append, List.length_singleton]
      omega
  obtain ⟨hdrain, hlength, hnone⟩ := hinv
  obtain ⟨rest, hsplit, hstanding⟩ := hdrain.split
  refine ⟨hdrain.alive, ⟨rest, hsplit.symm⟩, ?_, fun label hserves => ?_, fun hpending => ?_⟩
  · have hload : l.load ≤ l.pending.length + 1 := by
      rw [load]
      split_ifs <;> omega
    omega
  · obtain ⟨l'', hl'', -⟩ := hdrain.serve hframes hserves
    exact ⟨l'', hl''⟩
  · obtain ⟨sender, log, pending, conn, accepted⟩ := l'
    obtain ⟨dead, rpdu⟩ := conn
    simp only at hpending hstanding
    subst hpending
    generalize hnil : ([] : Bytes) = pending at hstanding
    cases hstanding with
    | reading hposition =>
        subst hnil
        have hreading : Reading (done.map Call.frame)
            { conn := { dead, rpdu }, pending := [], delivered := accepted } :=
          ⟨hdrain.alive, rest, hsplit, hposition⟩
        exact .inl (hreading.delivered_eq hframes rfl)
    | @refused pdu rest =>
        have hcalls : calls = [] := by
          by_contra hne
          have hwhole := refusing_of_refused (l := ⟨sender, log, [], ⟨dead, within pdu pdu.length⟩,
            accepted⟩) pdu rfl
          rw [hnone hne] at hwhole
          cases hwhole
        have hrest : rest = [] := by
          cases rest with
          | nil => rfl
          | cons next rest =>
              have hheader := (hframes next (by rw [hsplit]; simp)).header_le
              obtain ⟨rfl, -⟩ := List.append_eq_nil_iff.mp hnil.symm
              simp [rpcHeaderSz] at hheader
        subst hrest
        exact .inr ⟨hcalls, pdu, hsplit.symm⟩

/-- Two calls of `send`, and one of `read_cb` that gets as far as the body of the first
PDU. -/
def halfReadRun : List Label :=
  [.sender (.send (List.replicate 24 0) (.accepted 24)),
    .sender (.send (List.replicate 24 7) (.accepted 24)),
    .readCb .other [.upTo 4, .upTo 3] true]

/-- Two more calls of `read_cb`. -/
def restRun : List Label :=
  [.readCb .other [.upTo 17, .upTo 0] true, .readCb .other [.upTo 9, .upTo 20] true]

/-- Whether a call that begins has a PDU of a size that is read. -/
def sizeOk : Event → Bool
  | .began c => rpcHeaderSz ≤ c.pdu.length && c.pdu.length ≤ maxPdu
  | _ => true

/-- Whether a state is one to begin with. -/
def readyToDrain (l : Link) : Bool :=
  l.log.all sizeOk && !l.sender.dead && l.sender.wpdu.buf.isNone && !l.conn.dead

/-- Whether a call is one that drains the link. -/
def serves (l : Link) : Label → Bool
  | .readCb _ [.upTo first, .upTo _] true =>
      !l.pending.isEmpty && first != 0 && (l.conn.rpdu.sz != 0 || sizeofRpcSz ≤ first)
  | _ => false

theorem serves_of_check (l : Link) (label : Label) (hcheck : serves l label = true) :
    Serves l label := by
  unfold serves at hcheck
  split at hcheck
  · simp only [Bool.and_eq_true, Bool.not_eq_true', List.isEmpty_eq_false_iff, bne_iff_ne,
      Bool.or_eq_true, decide_eq_true_eq] at hcheck
    obtain ⟨⟨hready, hfirst⟩, hwhole⟩ := hcheck
    exact .call hready hfirst fun hsz => hwhole.resolve_left (not_not.mpr hsz)
  · cases hcheck

theorem everything_arrives_halfRead :
    ∃ l l', system.Run anyStep halfReadRun l ∧ l.onwards.Run Serves restRun l' ∧
      l'.accepted = [be32 24 ++ List.replicate 20 0, be32 24 ++ List.replicate 20 7] ∧
      ∃ done : List Call, written l.log = done.flatMap Call.frame ∧
        l'.accepted = done.map Call.frame := by
  have hexec : (system.exec system.init halfReadRun).any (fun l => l.readyToDrain &&
      (l.onwards.execIf serves l restRun).any fun l' => l'.pending.isEmpty && l'.accepted ==
        [be32 24 ++ List.replicate 20 0, be32 24 ++ List.replicate 20 7]) = true := by
    decide +kernel
  obtain ⟨l, hrun, htest⟩ := System.exists_run_of_exec hexec
  obtain ⟨hready, hrest⟩ := (Bool.and_eq_true _ _).mp htest
  obtain ⟨l', hserve, hend⟩ := System.exists_run_of_execIf hrest
  have hdrain := hserve.mono fun l label => serves_of_check l label
  simp only [readyToDrain, Bool.and_eq_true, Bool.not_eq_true', Option.isNone_iff_eq_none,
    List.all_eq_true] at hready
  obtain ⟨⟨⟨hsizes, hsender⟩, hfree⟩, halive⟩ := hready
  simp only [Bool.and_eq_true, List.isEmpty_iff, beq_iff_eq] at hend
  obtain ⟨done, hwritten, harrive⟩ := everything_arrives hrun
    (fun c hc => by simpa [sizeOk] using hsizes _ hc) ⟨hsender, hfree⟩ halive
  obtain ⟨-, -, -, -, hall⟩ := harrive _ l' hdrain
  refine ⟨l, l', hrun, hdrain, hend.2, done, hwritten, (hall hend.1).resolve_right ?_⟩
  rintro ⟨hnil, -⟩
  cases hnil

end Link

end YfsLab.Connection
