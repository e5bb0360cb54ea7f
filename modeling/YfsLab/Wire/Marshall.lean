/-
# The output buffer

`marshall` is a growing buffer with a write position. It starts with a header
area of `RPC_HEADER_SZ` bytes, whose first four bytes are left for the
connection to fill with the size of the PDU; the rest of the header is patched in
before or after the payload is written.

Undefined behaviour is modelled as the absence of a result: a signed overflow in
a capacity, or a write outside the allocated buffer.
-/

import YfsLab.Foundations.BigEndian

namespace YfsLab.Wire

open BigEndian

/-! ## Headers and sizes -/

/-- `req_header`. -/
structure ReqHeader where
  xid : Int32 := 0
  proc : Int32 := 0
  cltNonce : UInt32 := 0
  srvNonce : UInt32 := 0
  xidRep : Int32 := 0
  deriving DecidableEq, Repr

/-- `reply_header`. -/
structure ReplyHeader where
  xid : Int32 := 0
  ret : Int32 := 0
  deriving DecidableEq, Repr

/-- `sizeof(rpc_sz_t)`. -/
def sizeofRpcSz : ℕ := 4

/-- `DEFAULT_RPC_SZ`. -/
def defaultRpcSz : ℕ := 1024

/-- `RPC_HEADER_SZ`: the larger header and the size word, without checksums. -/
def rpcHeaderSz : ℕ := max 20 8 + sizeofRpcSz

/-- `MAX_PDU`: the largest PDU that a connection reads. -/
def maxPdu : ℕ := 10 * 2 ^ 20

/-- The largest `int`. -/
def intMax : ℕ := 2 ^ 31 - 1

/-! ## The output buffer -/

/-- `marshall`. The cells that `malloc` and `realloc` hand out hold whatever was
in memory before, which `fresh` gives by position. -/
structure Marshall where
  buf : Bytes
  capa : ℕ
  ind : ℕ
  fresh : ℕ → UInt8

namespace Marshall

/-- `marshall::marshall()`. -/
def new (fresh : ℕ → UInt8) : Marshall where
  buf := (List.range defaultRpcSz).map fresh
  capa := defaultRpcSz
  ind := rpcHeaderSz
  fresh := fresh

/-- `_buf = (char *)realloc(_buf, _capa)` after `_capa` has been recomputed. -/
def grow (m : Marshall) (capa : ℕ) : Option Marshall :=
  if intMax < capa then none
  else some { m with
    buf := m.buf ++ (List.range' m.buf.length (capa - m.buf.length)).map m.fresh
    capa := capa }

/-- Write bytes at the write position and move it behind them. -/
def store (m : Marshall) (p : Bytes) : Option Marshall :=
  if m.buf.length < m.ind + p.length then none
  else some { m with
    buf := m.buf.take m.ind ++ p ++ m.buf.drop (m.ind + p.length)
    ind := m.ind + p.length }

/-- `marshall::rawbyte`. -/
def rawbyte (m : Marshall) (x : UInt8) : Option Marshall := do
  let m ← if m.capa ≤ m.ind then m.grow (m.capa * 2) else some m
  m.store [x]

/-- `marshall::rawbytes`. -/
def rawbytes (m : Marshall) (p : Bytes) : Option Marshall := do
  let n := p.length
  if intMax < m.ind + n then none
  else
    let m ← if m.capa < m.ind + n then
        m.grow (if n < m.capa then 2 * m.capa else m.capa + n)
      else some m
    m.store p

/-- `marshall::pack`. The mask keeps the low byte, so the sign that the
arithmetic shift copies in does not matter. -/
def pack (m : Marshall) (x : Int32) : Option Marshall := do
  let m ← m.rawbyte ((x >>> 24) &&& 0xff).toUInt32.toUInt8
  let m ← m.rawbyte ((x >>> 16) &&& 0xff).toUInt32.toUInt8
  let m ← m.rawbyte ((x >>> 8) &&& 0xff).toUInt32.toUInt8
  m.rawbyte (x &&& 0xff).toUInt32.toUInt8

/-- `marshall::pack_req_header`. -/
def packReqHeader (m : Marshall) (h : ReqHeader) : Option Marshall := do
  let savedSz := m.ind
  let m := { m with ind := sizeofRpcSz }
  let m ← m.pack h.xid
  let m ← m.pack h.proc
  let m ← m.pack h.cltNonce.toInt32
  let m ← m.pack h.srvNonce.toInt32
  let m ← m.pack h.xidRep
  some { m with ind := savedSz }

/-- `marshall::pack_reply_header`. -/
def packReplyHeader (m : Marshall) (h : ReplyHeader) : Option Marshall := do
  let savedSz := m.ind
  let m := { m with ind := sizeofRpcSz }
  let m ← m.pack h.xid
  let m ← m.pack h.ret
  some { m with ind := savedSz }

/-- `marshall::str`, and the bytes `take_buf` hands over: everything below the
write position, header area included. -/
def str (m : Marshall) : Bytes := m.buf.take m.ind

/-- `marshall::size`. -/
def size (m : Marshall) : ℕ := m.ind

/-! ### The invariant of the buffer -/

/-- The write position lies behind the header area and inside the buffer. -/
structure InBounds (m : Marshall) : Prop where
  header_le : rpcHeaderSz ≤ m.ind
  ind_le : m.ind ≤ m.capa
  length_eq : m.buf.length = m.capa

/-- The capacity is bounded by the position as well, which keeps it inside an
`int` while the contents stay small. -/
structure WellFormed (m : Marshall) : Prop extends InBounds m where
  capa_le : m.capa ≤ max defaultRpcSz (2 * m.ind)

theorem wellFormed_new (fresh : ℕ → UInt8) : (new fresh).WellFormed where
  header_le := le_refl _
  ind_le := by simp only [new]; decide
  length_eq := by simp [new]
  capa_le := le_max_left _ _

theorem InBounds.length_str {m : Marshall} (h : m.InBounds) : m.str.length = m.size := by
  have hind := h.ind_le
  simp [str, size, h.length_eq, hind]

/-- Writing inside the buffer. -/
theorem store_eq {m : Marshall} {p : Bytes} (hfits : m.ind + p.length ≤ m.buf.length) :
    m.store p = some { m with
      buf := m.buf.take m.ind ++ p ++ m.buf.drop (m.ind + p.length)
      ind := m.ind + p.length } := by
  rw [store, if_neg (by omega)]

theorem length_store {m : Marshall} {p : Bytes} (hfits : m.ind + p.length ≤ m.buf.length) :
    (m.buf.take m.ind ++ p ++ m.buf.drop (m.ind + p.length)).length = m.buf.length := by
  simp only [List.length_append, List.length_take, List.length_drop]
  omega

/-- A write that fits the buffer appends to its contents. -/
theorem InBounds.store {m : Marshall} (h : m.InBounds) {p : Bytes}
    (hfits : m.ind + p.length ≤ m.capa) :
    ∃ after, m.store p = some after ∧ after.InBounds ∧ after.str = m.str ++ p ∧
      after.size = m.size + p.length ∧ after.capa = m.capa := by
  have hlength := h.length_eq
  have hheader := h.header_le
  have hin : m.ind + p.length ≤ m.buf.length := by omega
  refine ⟨_, store_eq hin, ⟨?_, hfits, ?_⟩, ?_, rfl, rfl⟩
  · simp only; omega
  · simpa only [length_store hin] using hlength
  · have htake : (m.buf.take m.ind ++ p).length = m.ind + p.length := by simp; omega
    simp only [str]
    rw [List.take_append_of_le_length (by omega), List.take_of_length_le (by omega)]

/-- Growing keeps the contents and makes the new capacity available. -/
theorem InBounds.grow {m : Marshall} (h : m.InBounds) {capa : ℕ}
    (hle : m.capa ≤ capa) (hmax : capa ≤ intMax) :
    ∃ after, m.grow capa = some after ∧ after.InBounds ∧ after.str = m.str ∧
      after.ind = m.ind ∧ after.capa = capa := by
  have hlength := h.length_eq
  have hind := h.ind_le
  refine ⟨_, if_neg (by omega), ⟨h.header_le, hind.trans hle, ?_⟩, ?_, rfl, rfl⟩
  · simp only [List.length_append, List.length_map, List.length_range']
    omega
  · simp only [str]
    rw [List.take_append_of_le_length (by omega)]

/-! ### Appending -/

/-- An operation appends bytes: on every well-formed buffer that stays below the
size limit it succeeds, keeps the invariant and the bytes before, and writes
nothing else below the new position. -/
def Appends (operation : Marshall → Option Marshall) (bytes : Bytes) : Prop :=
  ∀ m : Marshall, m.WellFormed → m.size + bytes.length < 2 ^ 30 →
    ∃ after, operation m = some after ∧ after.WellFormed ∧
      after.str = m.str ++ bytes ∧ after.size = m.size + bytes.length

theorem Appends.nil : Appends some [] :=
  fun m hwf _ => ⟨m, rfl, hwf, by simp, rfl⟩

theorem Appends.bind {first second : Marshall → Option Marshall} {left right : Bytes}
    (hfirst : Appends first left) (hsecond : Appends second right) :
    Appends (fun m => (first m).bind second) (left ++ right) := by
  intro m hwf hsize
  rw [List.length_append] at hsize
  obtain ⟨middle, hmiddle, hwfMiddle, hstr, hlen⟩ := hfirst m hwf (by omega)
  obtain ⟨after, hafter, hwfAfter, hstr', hlen'⟩ := hsecond middle hwfMiddle (by omega)
  refine ⟨after, by simp [hmiddle, hafter], hwfAfter, ?_, ?_⟩
  · rw [hstr', hstr, List.append_assoc]
  · rw [hlen', hlen, List.length_append, Nat.add_assoc]

/-- Both append operations grow the buffer, if at all, to a capacity that has
room for the bytes and is at most twice the new position. -/
theorem WellFormed.growThenStore {m : Marshall} (h : m.WellFormed) {p : Bytes} (capa : ℕ)
    (hle : m.capa ≤ capa) (hmax : capa ≤ intMax) (hfits : m.ind + p.length ≤ capa)
    (hbound : capa ≤ max defaultRpcSz (2 * (m.ind + p.length))) :
    ∃ after, (m.grow capa).bind (fun grown => grown.store p) = some after ∧
      after.WellFormed ∧ after.str = m.str ++ p ∧ after.size = m.size + p.length := by
  obtain ⟨grown, hgrow, hin, hstr, hind, hcapa⟩ := h.grow hle hmax
  obtain ⟨after, hstore, hinAfter, hstrAfter, hsize, hcapaAfter⟩ :=
    hin.store (p := p) (by omega)
  have hsizeAfter : after.ind = m.ind + p.length := by
    rw [← hind]
    exact hsize
  exact ⟨after, by simp [hgrow, hstore],
    { toInBounds := hinAfter, capa_le := by omega }, by rw [hstrAfter, hstr], hsizeAfter⟩

theorem WellFormed.storeInPlace {m : Marshall} (h : m.WellFormed) {p : Bytes}
    (hfits : m.ind + p.length ≤ m.capa) :
    ∃ after, m.store p = some after ∧ after.WellFormed ∧ after.str = m.str ++ p ∧
      after.size = m.size + p.length := by
  obtain ⟨after, hstore, hin, hstr, hsize, hcapa⟩ := h.store hfits
  have hbound := h.capa_le
  have hind : after.ind = m.ind + p.length := hsize
  exact ⟨after, hstore, { toInBounds := hin, capa_le := by omega }, hstr, hsize⟩

/-- `rawbyte` appends its byte. -/
theorem appends_rawbyte (x : UInt8) : Appends (fun m => m.rawbyte x) [x] := by
  intro m hwf hsize
  have hind := hwf.ind_le
  have hheader := hwf.header_le
  simp only [size, List.length_singleton, rpcHeaderSz, sizeofRpcSz] at hsize hheader
  by_cases hfull : m.capa ≤ m.ind
  · obtain ⟨after, hafter, hrest⟩ := hwf.growThenStore (p := [x]) (m.capa * 2)
      (by omega) (by simp only [intMax]; omega)
      (by simp only [List.length_singleton]; omega)
      (by simp only [List.length_singleton]; omega)
    exact ⟨after, by simpa [rawbyte, hfull] using hafter, hrest⟩
  · obtain ⟨after, hafter, hrest⟩ :=
      hwf.storeInPlace (p := [x]) (by simp only [List.length_singleton]; omega)
    exact ⟨after, by simpa [rawbyte, hfull] using hafter, hrest⟩

/-- `rawbytes` appends its bytes. -/
theorem appends_rawbytes (p : Bytes) : Appends (fun m => m.rawbytes p) p := by
  intro m hwf hsize
  have hind := hwf.ind_le
  simp only [size] at hsize
  have hmax : ¬ intMax < m.ind + p.length := by simp only [intMax]; omega
  by_cases hfull : m.capa < m.ind + p.length
  · have hchoice : ∃ capa, (if p.length < m.capa then 2 * m.capa else m.capa + p.length) =
        capa ∧ m.ind + p.length ≤ capa ∧ capa ≤ 2 * (m.ind + p.length) := by
      split_ifs
      · exact ⟨_, rfl, by omega, by omega⟩
      · exact ⟨_, rfl, by omega, by omega⟩
    obtain ⟨capa, hcapa, hfits, hbound⟩ := hchoice
    obtain ⟨after, hafter, hrest⟩ := hwf.growThenStore (p := p) capa
      (by omega) (by simp only [intMax]; omega) hfits (by omega)
    exact ⟨after, by simpa [rawbytes, hmax, hfull, hcapa] using hafter, hrest⟩
  · obtain ⟨after, hafter, hrest⟩ := hwf.storeInPlace (p := p) (by omega)
    exact ⟨after, by simpa [rawbytes, hmax, hfull] using hafter, hrest⟩

/-! ### Packing a header -/

/-- An operation that never needs to grow the buffer is a plain write at the
position. -/
def Stores (operation : Marshall → Option Marshall) (bytes : Bytes) : Prop :=
  ∀ m : Marshall, m.buf.length = m.capa → m.ind + bytes.length ≤ m.capa →
    operation m = m.store bytes

theorem store_store {m : Marshall} {p q : Bytes}
    (hfits : m.ind + (p ++ q).length ≤ m.buf.length) :
    (m.store p).bind (fun after => after.store q) = m.store (p ++ q) := by
  rw [List.length_append] at hfits
  rw [store_eq (p := p) (by omega), store_eq (p := p ++ q) (by rw [List.length_append]; omega),
    Option.bind_some, store_eq (by simp only [length_store (m := m) (p := p) (by omega)]; omega)]
  have hprefix : (m.buf.take m.ind ++ p).length = m.ind + p.length := by simp; omega
  simp only [List.length_append, ← Nat.add_assoc]
  rw [List.take_append_of_le_length (by omega), List.take_of_length_le (by omega),
    List.drop_append, hprefix, List.drop_of_length_le (by omega), List.drop_drop,
    List.nil_append, Nat.add_sub_cancel_left]
  simp only [List.append_assoc, Nat.add_assoc]

theorem Stores.bind {first second : Marshall → Option Marshall} {left right : Bytes}
    (hfirst : Stores first left) (hsecond : Stores second right) :
    Stores (fun m => (first m).bind second) (left ++ right) := by
  intro m hlength hfits
  have hboth := hfits
  rw [List.length_append] at hfits
  have hin : m.ind + left.length ≤ m.buf.length := by omega
  rw [← store_store (by omega)]
  change (first m).bind second = _
  rw [hfirst m hlength (by omega), store_eq hin]
  simp only [Option.bind_some]
  refine hsecond _ ?_ ?_
  · simpa only [length_store hin] using hlength
  · simp only; omega

theorem stores_rawbyte (x : UInt8) : Stores (fun m => m.rawbyte x) [x] := by
  intro m _ hfits
  rw [List.length_singleton] at hfits
  simp [rawbyte, show ¬ m.capa ≤ m.ind by omega]

/-! The four bytes that `pack` writes are the bytes of the unsigned
representation: the copies of the sign bit that an arithmetic shift brings in
lie above the mask. -/

theorem getElem_byteMask {i : ℕ} (hi : i < 8) : (255#8)[i] = true := by
  rw [show (255#8 : BitVec 8) = BitVec.allOnes 8 from rfl, BitVec.getElem_allOnes]

theorem packByte_24 (x : Int32) :
    ((x >>> 24) &&& 0xff).toUInt32.toUInt8 = (x.toUInt32 >>> 24).toUInt8 := by
  apply UInt8.toBitVec_inj.mp
  ext i hi
  have h32 : ¬ 32 ≤ i := by omega
  have h24 : 24 + i < 32 := by omega
  simp [Int32.toBitVec_shiftRight, BitVec.getLsbD_sshiftRight, getElem_byteMask hi, h32, h24]

theorem packByte_16 (x : Int32) :
    ((x >>> 16) &&& 0xff).toUInt32.toUInt8 = (x.toUInt32 >>> 16).toUInt8 := by
  apply UInt8.toBitVec_inj.mp
  ext i hi
  have h32 : ¬ 32 ≤ i := by omega
  have h16 : 16 + i < 32 := by omega
  simp [Int32.toBitVec_shiftRight, BitVec.getLsbD_sshiftRight, getElem_byteMask hi, h32, h16]

theorem packByte_8 (x : Int32) :
    ((x >>> 8) &&& 0xff).toUInt32.toUInt8 = (x.toUInt32 >>> 8).toUInt8 := by
  apply UInt8.toBitVec_inj.mp
  ext i hi
  have h32 : ¬ 32 ≤ i := by omega
  have h8 : 8 + i < 32 := by omega
  simp [Int32.toBitVec_shiftRight, BitVec.getLsbD_sshiftRight, getElem_byteMask hi, h32, h8]

theorem packByte_0 (x : Int32) :
    (x &&& 0xff).toUInt32.toUInt8 = x.toUInt32.toUInt8 := by
  apply UInt8.toBitVec_inj.mp
  ext i hi
  simp [getElem_byteMask hi]

/-- `pack` writes the big-endian bytes of its argument. -/
theorem stores_pack (x : Int32) : Stores (fun m => m.pack x) (be32 x.toUInt32) := by
  have hbytes := (stores_rawbyte (x.toUInt32 >>> 24).toUInt8).bind
    ((stores_rawbyte (x.toUInt32 >>> 16).toUInt8).bind
      ((stores_rawbyte (x.toUInt32 >>> 8).toUInt8).bind
        (stores_rawbyte x.toUInt32.toUInt8)))
  intro m hlength hfits
  rw [← show _ = m.store (be32 x.toUInt32) from hbytes m hlength hfits]
  change m.pack x = _
  rw [pack, packByte_24, packByte_16, packByte_8, packByte_0]
  rfl

/-- Overwrite part of the header area and put the position back where it was.
The size word in front, the rest of the header and the payload stay. -/
theorem InBounds.overwriteHeader {m : Marshall} (h : m.InBounds)
    {operation : Marshall → Option Marshall} {bytes : Bytes}
    (hstores : Stores operation bytes) (hfits : sizeofRpcSz + bytes.length ≤ rpcHeaderSz) :
    ∃ after, (operation { m with ind := sizeofRpcSz }).bind
        (fun written => some { written with ind := m.ind }) = some after ∧
      after.InBounds ∧ after.size = m.size ∧ after.capa = m.capa ∧
      after.str = m.str.take sizeofRpcSz ++ bytes ++
        m.str.drop (sizeofRpcSz + bytes.length) := by
  have hind := h.ind_le
  have hheader := h.header_le
  have hlength := h.length_eq
  have hin : sizeofRpcSz + bytes.length ≤ m.buf.length := by omega
  have hstored := hstores { m with ind := sizeofRpcSz } hlength (by simp only; omega)
  have hafter : (operation { m with ind := sizeofRpcSz }).bind
      (fun written => some { written with ind := m.ind }) =
      some { m with
        buf := m.buf.take sizeofRpcSz ++ bytes ++ m.buf.drop (sizeofRpcSz + bytes.length) } := by
    rw [hstored, store_eq hin, Option.bind_some]
  refine ⟨_, hafter, ⟨hheader, hind, ?_⟩, rfl, rfl, ?_⟩
  · simpa only [length_store (m := { m with ind := sizeofRpcSz }) hin] using hlength
  · have htake : (m.buf.take sizeofRpcSz ++ bytes).length = sizeofRpcSz + bytes.length := by
      simp; omega
    simp only [str]
    rw [List.take_append, htake, List.take_of_length_le (by omega), List.take_take,
      min_eq_left (by omega), List.drop_take]

/-- A buffer stays well-formed where neither its size nor its capacity changes. -/
theorem WellFormed.of_patched {m after : Marshall} (h : m.WellFormed) (hin : after.InBounds)
    (hsize : after.size = m.size) (hcapa : after.capa = m.capa) : after.WellFormed where
  toInBounds := hin
  capa_le := by
    have hind : after.ind = m.ind := hsize
    rw [hcapa, hind]
    exact h.capa_le

end Marshall

/-- The header fields of a request, as they stand behind the size word. -/
def ReqHeader.bytes (h : ReqHeader) : Bytes :=
  be32 h.xid.toUInt32 ++ (be32 h.proc.toUInt32 ++ (be32 h.cltNonce ++
    (be32 h.srvNonce ++ be32 h.xidRep.toUInt32)))

/-- The header fields of a reply, as they stand behind the size word. -/
def ReplyHeader.bytes (h : ReplyHeader) : Bytes :=
  be32 h.xid.toUInt32 ++ be32 h.ret.toUInt32

@[simp]
theorem ReqHeader.length_bytes (h : ReqHeader) : h.bytes.length = 20 := rfl

@[simp]
theorem ReplyHeader.length_bytes (h : ReplyHeader) : h.bytes.length = 8 := rfl

namespace Marshall

/-- `pack_req_header` patches the header fields in and leaves everything else. -/
theorem InBounds.packReqHeader {m : Marshall} (hin : m.InBounds) (h : ReqHeader) :
    ∃ after, m.packReqHeader h = some after ∧ after.InBounds ∧ after.size = m.size ∧
      after.capa = m.capa ∧
      after.str = m.str.take sizeofRpcSz ++ h.bytes ++ m.str.drop (sizeofRpcSz + 20) := by
  have hstores := (stores_pack h.xid).bind ((stores_pack h.proc).bind
    ((stores_pack h.cltNonce.toInt32).bind
      ((stores_pack h.srvNonce.toInt32).bind (stores_pack h.xidRep))))
  obtain ⟨after, hafter, hrest⟩ := hin.overwriteHeader hstores (by simp [sizeofRpcSz, rpcHeaderSz])
  exact ⟨after, by simpa [Marshall.packReqHeader, Option.bind_assoc] using hafter, hrest⟩

/-- `pack_reply_header` patches the header fields in and leaves everything else. -/
theorem InBounds.packReplyHeader {m : Marshall} (hin : m.InBounds) (h : ReplyHeader) :
    ∃ after, m.packReplyHeader h = some after ∧ after.InBounds ∧ after.size = m.size ∧
      after.capa = m.capa ∧
      after.str = m.str.take sizeofRpcSz ++ h.bytes ++ m.str.drop (sizeofRpcSz + 8) := by
  have hstores := (stores_pack h.xid).bind (stores_pack h.ret)
  obtain ⟨after, hafter, hrest⟩ := hin.overwriteHeader hstores (by simp [sizeofRpcSz, rpcHeaderSz])
  exact ⟨after, by simpa [Marshall.packReplyHeader, Option.bind_assoc] using hafter, hrest⟩

theorem WellFormed.packReqHeader {m : Marshall} (hwf : m.WellFormed) (h : ReqHeader) :
    ∃ after, m.packReqHeader h = some after ∧ after.WellFormed ∧ after.size = m.size ∧
      after.str = m.str.take sizeofRpcSz ++ h.bytes ++ m.str.drop (sizeofRpcSz + 20) := by
  obtain ⟨after, hafter, hin, hsize, hcapa, hstr⟩ := hwf.toInBounds.packReqHeader h
  exact ⟨after, hafter, hwf.of_patched hin hsize hcapa, hsize, hstr⟩

theorem WellFormed.packReplyHeader {m : Marshall} (hwf : m.WellFormed) (h : ReplyHeader) :
    ∃ after, m.packReplyHeader h = some after ∧ after.WellFormed ∧ after.size = m.size ∧
      after.str = m.str.take sizeofRpcSz ++ h.bytes ++ m.str.drop (sizeofRpcSz + 8) := by
  obtain ⟨after, hafter, hin, hsize, hcapa, hstr⟩ := hwf.toInBounds.packReplyHeader h
  exact ⟨after, hafter, hwf.of_patched hin hsize hcapa, hsize, hstr⟩

end Marshall

end YfsLab.Wire
