/-
# What memory leaves in a PDU

The cells of a `marshall` buffer that nobody has written hold what was in memory
before. Two runs that put the same PDU together in different memories keep their
buffers in agreement behind the header area, so what can differ is the header area
alone. A request header fills it; a reply header does not, and the twelve bytes
behind it are sent as `malloc` left them.
-/

import YfsLab.Foundations.TwoRuns
import YfsLab.Wire.Call

namespace YfsLab.Wire

open BigEndian TwoRuns

/-! ## Buffers that agree behind the header area -/

/-- Two buffers with these header areas, the same payload behind them and the same
capacity. -/
structure Agree (area area' : Bytes) (m m' : Marshall) : Prop where
  left : m.InBounds
  right : m'.InBounds
  capa_eq : m.capa = m'.capa
  length_left : area.length = rpcHeaderSz
  length_right : area'.length = rpcHeaderSz
  payload_eq : ∃ payload, m.str = area ++ payload ∧ m'.str = area' ++ payload

namespace Agree

variable {area area' : Bytes} {m m' : Marshall}

theorem ind_eq (h : Agree area area' m m') : m.ind = m'.ind := by
  obtain ⟨payload, hstr, hstr'⟩ := h.payload_eq
  have hsize := h.left.length_str
  have hsize' := h.right.length_str
  rw [hstr, List.length_append, h.length_left] at hsize
  rw [hstr', List.length_append, h.length_right] at hsize'
  exact hsize.symm.trans hsize'

/-- New buffers agree, with the header areas that their memories give them. -/
theorem new (fresh fresh' : ℕ → UInt8) :
    Agree (Marshall.new fresh).str (Marshall.new fresh').str (Marshall.new fresh)
      (Marshall.new fresh') where
  left := (Marshall.wellFormed_new fresh).toInBounds
  right := (Marshall.wellFormed_new fresh').toInBounds
  capa_eq := rfl
  length_left := (Marshall.wellFormed_new fresh).length_str
  length_right := (Marshall.wellFormed_new fresh').length_str
  payload_eq := ⟨[], (List.append_nil _).symm, (List.append_nil _).symm⟩

theorem store (h : Agree area area' m m') (p : Bytes) :
    Option.Rel (Agree area area') (m.store p) (m'.store p) := by
  have hind := h.ind_eq
  have hcapa := h.capa_eq
  have hlength := h.left.length_eq
  have hlength' := h.right.length_eq
  by_cases hfits : m.ind + p.length ≤ m.capa
  · obtain ⟨after, hafter, hin, hstr, -, hsame⟩ := h.left.store hfits
    obtain ⟨after', hafter', hin', hstr', -, hsame'⟩ := h.right.store (p := p) (by omega)
    obtain ⟨payload, hpayload, hpayload'⟩ := h.payload_eq
    rw [hafter, hafter']
    refine .some ⟨hin, hin', by rw [hsame, hsame', hcapa], h.length_left, h.length_right,
      payload ++ p, ?_, ?_⟩
    · rw [hstr, hpayload, List.append_assoc]
    · rw [hstr', hpayload', List.append_assoc]
  · have hnone : m.store p = none := if_pos (by omega)
    have hnone' : m'.store p = none := if_pos (by omega)
    rw [hnone, hnone']
    exact .none

theorem grow (h : Agree area area' m m') {capa : ℕ} (hle : m.capa ≤ capa) :
    Option.Rel (Agree area area') (m.grow capa) (m'.grow capa) := by
  have hcapa := h.capa_eq
  by_cases hmax : capa ≤ intMax
  · obtain ⟨after, hafter, hin, hstr, -, hsame⟩ := h.left.grow hle hmax
    obtain ⟨after', hafter', hin', hstr', -, hsame'⟩ := h.right.grow (by omega) hmax
    obtain ⟨payload, hpayload, hpayload'⟩ := h.payload_eq
    rw [hafter, hafter']
    exact .some ⟨hin, hin', hsame.trans hsame'.symm, h.length_left, h.length_right,
      payload, hstr.trans hpayload, hstr'.trans hpayload'⟩
  · have hnone : m.grow capa = none := if_pos (by omega)
    have hnone' : m'.grow capa = none := if_pos (by omega)
    rw [hnone, hnone']
    exact .none

/-- Making room if there is too little, and writing. -/
theorem growThenStore (h : Agree area area' m m') (capa : ℕ) (hle : m.capa ≤ capa)
    (full : Prop) [Decidable full] (p : Bytes) :
    Option.Rel (Agree area area')
      (if full then (m.grow capa).bind fun grown => grown.store p else m.store p)
      (if full then (m'.grow capa).bind fun grown => grown.store p else m'.store p) := by
  split_ifs
  · exact rel_bind (h.grow hle) fun _ _ hgrown => hgrown.store p
  · exact h.store p

end Agree

/-! ## Marshalling preserves the agreement -/

variable {area area' : Bytes}

/-- The buffers of both runs agree after the operation if they did before. -/
abbrev KeepsAgreement (area area' : Bytes) (operation : Marshall → Option Marshall) : Prop :=
  Preserves (Agree area area') operation operation

theorem keeps_rawbyte (x : UInt8) : KeepsAgreement area area' fun m => m.rawbyte x := by
  intro m m' h
  have hwritten := h.growThenStore (m.capa * 2) (by omega) (m.capa ≤ m.ind) [x]
  simp only [Marshall.rawbyte, ← h.capa_eq, ← h.ind_eq]
  exact hwritten

theorem keeps_rawbytes (p : Bytes) : KeepsAgreement area area' fun m => m.rawbytes p := by
  intro m m' h
  have hwritten := h.growThenStore
    (if p.length < m.capa then 2 * m.capa else m.capa + p.length)
    (by split_ifs <;> omega) (m.capa < m.ind + p.length) p
  simp only [Marshall.rawbytes, ← h.capa_eq, ← h.ind_eq]
  by_cases hmax : intMax < m.ind + p.length
  · rw [if_pos hmax, if_pos hmax]
    exact .none
  · rw [if_neg hmax, if_neg hmax]
    exact hwritten

namespace Ty

theorem keeps_insertUshort (x : UInt16) : KeepsAgreement area area' (insertUshort x) :=
  (keeps_rawbyte _).bind (keeps_rawbyte _)

theorem keeps_insertUint (x : UInt32) : KeepsAgreement area area' (insertUint x) :=
  (keeps_rawbyte _).bind ((keeps_rawbyte _).bind ((keeps_rawbyte _).bind (keeps_rawbyte _)))

theorem keeps_insertUlonglong (x : UInt64) : KeepsAgreement area area' (insertUlonglong x) :=
  (keeps_insertUint _).bind (keeps_insertUint _)

theorem keeps_insertString (s : Bytes) : KeepsAgreement area area' (insertString s) :=
  (keeps_insertUint _).bind (keeps_rawbytes s)

theorem keeps_insert (p : Platform) (t : Ty) (v : t.Val p) :
    KeepsAgreement area area' (insert p t v) := by
  induction t with
  | uchar => exact keeps_rawbyte v
  | char => exact keeps_rawbyte _
  | ushort => exact keeps_insertUshort v
  | short => exact keeps_insertUshort _
  | uint => exact keeps_insertUint v
  | int => exact keeps_insertUint _
  | ulonglong => exact keeps_insertUlonglong v
  | ulong =>
      cases p with
      | ilp32 => exact keeps_insertUint v
      | lp64 => exact keeps_insertUlonglong v
  | string => exact keeps_insertString v
  | vector elem ih => exact (keeps_insertUint _).bind (Preserves.foldlM ih v)
  | map key value ihKey ihValue =>
      exact (keeps_insertUint _).bind
        (Preserves.foldlM (fun entry => (ihKey entry.1).bind (ihValue entry.2)) v.1)

end Ty

theorem keeps_insertAll (p : Platform) (ts : List Ty) (vs : Vals p ts) :
    KeepsAgreement area area' (insertAll p ts vs) := by
  induction ts with
  | nil => exact Preserves.pure
  | cons t ts ih => exact (Ty.keeps_insert p t vs.1).bind (ih vs.2)

/-! ## Packing the header -/

/-- The size word replaces what stood in its place. -/
theorem stampSize_patched {area fields rest : Bytes} (harea : sizeofRpcSz ≤ area.length) :
    stampSize (area.take sizeofRpcSz ++ fields ++ rest) =
      be32 (UInt32.ofNat (sizeofRpcSz + (fields ++ rest).length)) ++ (fields ++ rest) := by
  have htake : (area.take sizeofRpcSz).length = sizeofRpcSz := by
    rw [List.length_take]
    omega
  rw [stampSize, List.append_assoc, List.length_append, htake]
  nth_rewrite 2 [← htake]
  rw [List.drop_left]

/-- The request that a buffer with this header area and payload is sent as. -/
theorem stampSize_packReqHeader {m : Marshall} (hin : m.InBounds) (h : ReqHeader)
    {area payload : Bytes} (harea : area.length = rpcHeaderSz) (hstr : m.str = area ++ payload) :
    ∃ after, m.packReqHeader h = some after ∧ stampSize after.str =
      be32 (UInt32.ofNat (sizeofRpcSz + (h.bytes ++ payload).length)) ++
        (h.bytes ++ payload) := by
  obtain ⟨after, hafter, -, -, -, hpatched⟩ := hin.packReqHeader h
  have hskip : sizeofRpcSz + 20 = area.length := harea.symm
  refine ⟨after, hafter, ?_⟩
  rw [hpatched, stampSize_patched]
  · rw [hstr, hskip, List.drop_left]
  · rw [hstr, List.length_append, harea]
    simp only [rpcHeaderSz]
    omega

/-- The reply that a buffer with this header area and payload is sent as. -/
theorem stampSize_packReplyHeader {m : Marshall} (hin : m.InBounds) (h : ReplyHeader)
    {area payload : Bytes} (harea : area.length = rpcHeaderSz) (hstr : m.str = area ++ payload) :
    ∃ after, m.packReplyHeader h = some after ∧ stampSize after.str =
      be32 (UInt32.ofNat (sizeofRpcSz + (h.bytes ++ (area.drop 12 ++ payload)).length)) ++
        (h.bytes ++ (area.drop 12 ++ payload)) := by
  obtain ⟨after, hafter, -, -, -, hpatched⟩ := hin.packReplyHeader h
  refine ⟨after, hafter, ?_⟩
  rw [hpatched, stampSize_patched]
  · rw [hstr, List.drop_append_of_le_length (by rw [harea]; decide)]
    rfl
  · rw [hstr, List.length_append, harea]
    simp only [rpcHeaderSz]
    omega

/-! ## PDUs and their memories -/

/-- What a PDU is put together from. `call` marshals the arguments of a request
and `call1` packs its header. `h1::fn` marshals the result of a handler, if there is
one, and `dispatch` packs the reply header. -/
inductive Pdu (p : Platform)
  | request (h : ReqHeader) (ts : List Ty) (args : Vals p ts)
  | reply (h : ReplyHeader) (result : Option (Σ t : Ty, t.Val p))

namespace Pdu

variable {p : Platform}

/-- The marshalled result of a handler. Replies with one of the return codes of the
library have none. -/
def insertResult (result : Option (Σ t : Ty, t.Val p)) (m : Marshall) : Option Marshall :=
  match result with
  | none => some m
  | some ⟨t, v⟩ => t.insert p v m

/-- The bytes that are sent, when the buffer is allocated in this memory. -/
def send (fresh : ℕ → UInt8) : Pdu p → Option Bytes
  | request h ts args => makeRequest p fresh h ts args
  | reply h result => (insertResult result (Marshall.new fresh)).bind fun ret => makeReply ret h

/-- The PDU is a request. -/
def IsRequest : Pdu p → Prop
  | request .. => True
  | reply .. => False

theorem keeps_insertResult (result : Option (Σ t : Ty, t.Val p)) :
    KeepsAgreement area area' (insertResult result) := by
  cases result with
  | none => exact Preserves.pure
  | some value => exact Ty.keeps_insert p value.1 value.2

/-- Requests that are sent from two memories carry the same bytes. -/
theorem send_request {h : ReqHeader} {ts : List Ty} {args : Vals p ts} {fresh : ℕ → UInt8}
    {b : Bytes} (hsent : (request h ts args).send fresh = some b) (fresh' : ℕ → UInt8) :
    (request h ts args).send fresh' = some b := by
  obtain ⟨m, hm, hpack⟩ := Option.bind_eq_some_iff.mp hsent
  obtain ⟨m', hm', hagree⟩ :=
    (keeps_insertAll p ts args).follow (Agree.new fresh fresh') hm
  obtain ⟨payload, hstr, hstr'⟩ := hagree.payload_eq
  obtain ⟨after, hafter, hbytes⟩ :=
    stampSize_packReqHeader hagree.left h hagree.length_left hstr
  obtain ⟨after', hafter', hbytes'⟩ :=
    stampSize_packReqHeader hagree.right h hagree.length_right hstr'
  have hb : stampSize after.str = b := by simpa [hafter] using hpack
  simp only [send, makeRequest, hm', Option.bind_eq_bind, Option.bind_some, hafter']
  rw [← hb, hbytes, hbytes']
  rfl

/-- Replies that are sent from two memories differ in the bytes 12 to 23, which are
what the memories hold there. -/
theorem send_reply {h : ReplyHeader} {result : Option (Σ t : Ty, t.Val p)}
    {fresh : ℕ → UInt8} {b : Bytes} (hsent : (reply h result).send fresh = some b)
    (fresh' : ℕ → UInt8) :
    ∃ payload b', (reply h result).send fresh' = some b' ∧
      b.drop sizeofRpcSz = h.bytes ++ ((Marshall.new fresh).str.drop 12 ++ payload) ∧
      b'.drop sizeofRpcSz = h.bytes ++ ((Marshall.new fresh').str.drop 12 ++ payload) := by
  obtain ⟨m, hm, hpack⟩ := Option.bind_eq_some_iff.mp hsent
  obtain ⟨m', hm', hagree⟩ :=
    (keeps_insertResult result).follow (Agree.new fresh fresh') hm
  obtain ⟨payload, hstr, hstr'⟩ := hagree.payload_eq
  obtain ⟨after, hafter, hbytes⟩ :=
    stampSize_packReplyHeader hagree.left h hagree.length_left hstr
  obtain ⟨after', hafter', hbytes'⟩ :=
    stampSize_packReplyHeader hagree.right h hagree.length_right hstr'
  have hb : stampSize after.str = b := by simpa [makeReply, hafter] using hpack
  refine ⟨payload, stampSize after'.str, ?_, ?_, ?_⟩
  · simp [send, makeReply, hm', hafter']
  · rw [← hb, hbytes]
    rfl
  · rw [hbytes']
    rfl

/-- The header area of a new buffer is what its memory holds. -/
theorem drop_str_new (fresh : ℕ → UInt8) :
    (Marshall.new fresh).str.drop 12 = (List.range' 12 12).map fresh := by
  have hcells : ((List.range defaultRpcSz).take rpcHeaderSz).drop 12 = List.range' 12 12 := by
    rw [List.take_range, List.range_eq_range', List.drop_range']
    rfl
  simp only [Marshall.str, Marshall.new, ← List.map_take, ← List.map_drop, hcells]

/-- In another memory a reply carries other bytes. -/
theorem send_reply_ne {h : ReplyHeader} {result : Option (Σ t : Ty, t.Val p)}
    {fresh : ℕ → UInt8} {b : Bytes} (hsent : (reply h result).send fresh = some b) :
    (reply h result).send (fun i => fresh i + 1) ≠ some b := by
  intro hsame
  obtain ⟨payload, b', hsent', hb, hb'⟩ := send_reply hsent fun i => fresh i + 1
  obtain rfl : b = b' := Option.some.inj (hsame.symm.trans hsent')
  rw [hb] at hb'
  have harea := List.append_cancel_right (List.append_cancel_left hb')
  rw [drop_str_new, drop_str_new] at harea
  have hcell : fresh 12 = fresh 12 + 1 := (List.cons.inj harea).1
  exact absurd hcell (by simp)

/-- Of the PDUs that are sent, the requests are those whose bytes do not depend on
the memory that the buffer was allocated in. -/
theorem sameInEveryMemory_iff {pdu : Pdu p} {fresh : ℕ → UInt8} {b : Bytes}
    (hsent : pdu.send fresh = some b) :
    (∀ fresh', pdu.send fresh' = some b) ↔ pdu.IsRequest := by
  cases pdu with
  | request h ts args => exact ⟨fun _ => trivial, fun _ => send_request hsent⟩
  | reply h result =>
      exact ⟨fun hall => send_reply_ne hsent (hall _), False.elim⟩

/-- A call without arguments. -/
theorem sameInEveryMemory_bind :
    ∃ b, ∀ fresh', (Pdu.request (p := .lp64) { xid := 1, proc := 1 } [] ()).send fresh' =
      some b := by
  have hsent : (Pdu.request (p := .lp64) { xid := 1, proc := 1 } [] ()).send (fun _ => 0) =
      some (be32 24 ++ ReqHeader.bytes { xid := 1, proc := 1 }) := by
    decide +kernel
  exact ⟨_, (sameInEveryMemory_iff hsent).mpr trivial⟩

/-- A reply with a result of moderate size is sent. -/
theorem exists_send_reply (h : ReplyHeader) (t : Ty) (v : t.Val p) (fresh : ℕ → UInt8)
    (hsize : rpcHeaderSz + (t.encode p v).length < 2 ^ 30) :
    ∃ b, (reply h (some ⟨t, v⟩)).send fresh = some b := by
  obtain ⟨ret, hret, hwf, -⟩ :=
    Ty.appends_insert p t v _ (Marshall.wellFormed_new fresh) hsize
  obtain ⟨after, hafter, -⟩ := hwf.toInBounds.packReplyHeader h
  exact ⟨stampSize after.str, by simp [send, insertResult, makeReply, hret, hafter]⟩

/-- The reply of a handler that returns 0 to the request with xid 1. -/
def okReply : Pdu .lp64 := .reply { xid := 1, ret := 0 } (some ⟨.int, (0 : Int32)⟩)

/-- Its bytes are not the same in every memory. -/
theorem okReply_carriesMemory : ¬ ∀ fresh fresh', okReply.send fresh = okReply.send fresh' := by
  intro hall
  obtain ⟨b, hsent⟩ := exists_send_reply (p := .lp64) { xid := 1, ret := 0 } .int (0 : Int32)
    (fun _ => 0) (by decide)
  exact send_reply_ne hsent ((hall _ _).trans hsent)

end Pdu

end YfsLab.Wire
