/-
# How the output buffer grows

`rawbyte` doubles the capacity, `rawbytes` doubles it or adds the number of bytes, and
between them the headers are packed with the position set back. Whatever is called, the
capacity stays below twice the position, as far as it is not the initial one; so as long
as `size` stays below 2^30, no capacity overflows an `int`.
-/

import Mathlib.Data.List.Induction
import YfsLab.Wire.Marshall

namespace YfsLab.Wire.Marshall

open BigEndian

/-- The calls that change the buffer. -/
inductive Call
  | rawbyte (x : UInt8)
  | rawbytes (p : Bytes)
  | packReqHeader (h : ReqHeader)
  | packReplyHeader (h : ReplyHeader)
  deriving DecidableEq, Repr

/-- What a call appends to the payload. -/
def Call.payload : Call → Bytes
  | .rawbyte x => [x]
  | .rawbytes p => p
  | .packReqHeader _ | .packReplyHeader _ => []

/-- The call packs a header. -/
def Call.packs : Call → Bool
  | .packReqHeader _ | .packReplyHeader _ => true
  | .rawbyte _ | .rawbytes _ => false

/-- One call. -/
def call (m : Marshall) : Call → Option Marshall
  | .rawbyte x => m.rawbyte x
  | .rawbytes p => m.rawbytes p
  | .packReqHeader h => m.packReqHeader h
  | .packReplyHeader h => m.packReplyHeader h

/-- Calls, one after the other. -/
def run (m : Marshall) (calls : List Call) : Option Marshall := calls.foldlM call m

theorem run_append_singleton (m : Marshall) (calls : List Call) (c : Call) :
    m.run (calls ++ [c]) = (m.run calls).bind fun after => after.call c := by
  simp [run, List.foldlM_append]

/-! ## Headers -/

/-- A header that is packed leaves everything behind the header area alone, also what is
not part of the contents. -/
theorem InBounds.drop_overwriteHeader {m after : Marshall} (h : m.InBounds)
    {operation : Marshall → Option Marshall} {bytes : Bytes}
    (hstores : Stores operation bytes) (hfits : sizeofRpcSz + bytes.length ≤ rpcHeaderSz)
    (hafter : (operation { m with ind := sizeofRpcSz }).bind
      (fun written => some { written with ind := m.ind }) = some after) :
    after.ind = m.ind ∧ after.capa = m.capa ∧
      after.buf.drop rpcHeaderSz = m.buf.drop rpcHeaderSz := by
  have hind := h.ind_le
  have hheader := h.header_le
  have hlength := h.length_eq
  have hin : sizeofRpcSz + bytes.length ≤ m.buf.length := by omega
  rw [hstores { m with ind := sizeofRpcSz } hlength (by simp only; omega), store_eq hin,
    Option.bind_some] at hafter
  obtain rfl := Option.some.inj hafter
  have hwritten : (m.buf.take sizeofRpcSz ++ bytes).length = sizeofRpcSz + bytes.length := by
    rw [List.length_append, List.length_take, min_eq_left (by omega)]
  refine ⟨rfl, rfl, ?_⟩
  simp only
  rw [List.drop_append, List.drop_of_length_le (hwritten.trans_le hfits), List.nil_append,
    hwritten, List.drop_drop, Nat.add_sub_cancel' hfits]

/-- The same for the two headers that there are. -/
theorem InBounds.drop_call {m after : Marshall} (hin : m.InBounds) {c : Call}
    (hpacks : c.packs = true) (hafter : m.call c = some after) :
    after.ind = m.ind ∧ after.capa = m.capa ∧
      after.buf.drop rpcHeaderSz = m.buf.drop rpcHeaderSz := by
  cases c with
  | rawbyte | rawbytes => cases hpacks
  | packReqHeader h =>
      have hstores := (stores_pack h.xid).bind ((stores_pack h.proc).bind
        ((stores_pack h.cltNonce.toInt32).bind
          ((stores_pack h.srvNonce.toInt32).bind (stores_pack h.xidRep))))
      refine hin.drop_overwriteHeader hstores (by simp [sizeofRpcSz, rpcHeaderSz]) ?_
      simpa [call, Marshall.packReqHeader, Option.bind_assoc] using hafter
  | packReplyHeader h =>
      have hstores := (stores_pack h.xid).bind (stores_pack h.ret)
      refine hin.drop_overwriteHeader hstores (by simp [sizeofRpcSz, rpcHeaderSz]) ?_
      simpa [call, Marshall.packReplyHeader, Option.bind_assoc] using hafter

/-! ## Calls -/

/-- What has been marshalled, without the header area. -/
def payload (m : Marshall) : Bytes := m.str.drop rpcHeaderSz

theorem InBounds.rpcHeaderSz_le_length_str {m : Marshall} (h : m.InBounds) :
    rpcHeaderSz ≤ m.str.length := by
  rw [h.length_str]
  exact h.header_le

/-- A call on a well-formed buffer succeeds, keeps it well-formed, and appends its bytes
to the payload. -/
theorem WellFormed.call {m : Marshall} (h : m.WellFormed) (c : Call)
    (hsize : m.size + c.payload.length < 2 ^ 30) :
    ∃ after, m.call c = some after ∧ after.WellFormed ∧
      after.size = m.size + c.payload.length ∧ after.payload = m.payload ++ c.payload := by
  have hlength := h.rpcHeaderSz_le_length_str
  cases c with
  | rawbyte x =>
      obtain ⟨after, hafter, hwf, hstr, hsize'⟩ := appends_rawbyte x m h hsize
      refine ⟨after, hafter, hwf, hsize', ?_⟩
      rw [payload, hstr, List.drop_append_of_le_length hlength]
      rfl
  | rawbytes p =>
      obtain ⟨after, hafter, hwf, hstr, hsize'⟩ := appends_rawbytes p m h hsize
      refine ⟨after, hafter, hwf, hsize', ?_⟩
      rw [payload, hstr, List.drop_append_of_le_length hlength]
      rfl
  | packReqHeader header =>
      obtain ⟨after, hafter, hwf, hsize', -⟩ := h.packReqHeader header
      obtain ⟨hind, -, hdrop⟩ := h.drop_call (c := .packReqHeader header) rfl hafter
      refine ⟨after, hafter, hwf, hsize', ?_⟩
      simp only [payload, str, Call.payload, List.append_nil, List.drop_take, hind, hdrop]
  | packReplyHeader header =>
      obtain ⟨after, hafter, hwf, hsize', -⟩ := h.packReplyHeader header
      obtain ⟨hind, -, hdrop⟩ := h.drop_call (c := .packReplyHeader header) rfl hafter
      refine ⟨after, hafter, hwf, hsize', ?_⟩
      simp only [payload, str, Call.payload, List.append_nil, List.drop_take, hind, hdrop]

/-- The payload of a sequence of calls. -/
def payloads (calls : List Call) : Bytes := calls.flatMap Call.payload

theorem payloads_append_singleton (calls : List Call) (c : Call) :
    payloads (calls ++ [c]) = payloads calls ++ c.payload := by
  simp [payloads]

/-- A run of calls on a new buffer. -/
theorem wellFormed_run (fresh : ℕ → UInt8) (calls : List Call)
    (hsize : rpcHeaderSz + (payloads calls).length < 2 ^ 30) :
    ∃ m, (new fresh).run calls = some m ∧ m.WellFormed ∧
      m.size = rpcHeaderSz + (payloads calls).length ∧ m.payload = payloads calls := by
  induction calls using List.reverseRecOn with
  | nil =>
      have hwf := wellFormed_new fresh
      have hpayload : (new fresh).payload = [] := by
        rw [payload, List.drop_eq_nil_iff, hwf.length_str]
        exact le_refl rpcHeaderSz
      exact ⟨_, rfl, hwf, rfl, hpayload⟩
  | append_singleton calls c ih =>
      rw [payloads_append_singleton, List.length_append] at hsize ⊢
      obtain ⟨m, hm, hwf, hsizeM, hpayload⟩ := ih (by omega)
      obtain ⟨after, hafter, hwf', hsize', hpayload'⟩ := hwf.call c (by omega)
      refine ⟨after, ?_, hwf', by omega, by rw [hpayload', hpayload]⟩
      rw [run_append_singleton, hm, Option.bind_some, hafter]

/-- The growth of the buffer. Any sequence of calls on a new one whose `size` stays below
2^30 has a result, so that no `int` overflows and no byte is written outside; the position
lies between the header area and the capacity, which is at most `DEFAULT_RPC_SZ` or twice
the position; and the payload is what the calls have appended, one after the other. Packing
a header then moves neither the position nor any byte behind the header area. -/
theorem bufferGrowth (fresh : ℕ → UInt8) (calls : List Call)
    (hsize : rpcHeaderSz + (payloads calls).length < 2 ^ 30) :
    ∃ m, (new fresh).run calls = some m ∧
      (rpcHeaderSz ≤ m.ind ∧ m.ind ≤ m.capa ∧ m.capa ≤ max defaultRpcSz (2 * m.ind) ∧
        m.buf.length = m.capa) ∧
      m.ind = rpcHeaderSz + (payloads calls).length ∧ m.payload = payloads calls ∧
      ∀ c, c.packs = true → ∃ after, m.call c = some after ∧ after.ind = m.ind ∧
        after.capa = m.capa ∧ after.buf.drop rpcHeaderSz = m.buf.drop rpcHeaderSz := by
  obtain ⟨m, hm, hwf, hind, hpayload⟩ := wellFormed_run fresh calls hsize
  refine ⟨m, hm, ⟨hwf.header_le, hwf.ind_le, hwf.capa_le, hwf.length_eq⟩, hind, hpayload,
    fun c hpacks => ?_⟩
  have hempty : c.payload = [] := by
    cases c with
    | rawbyte | rawbytes => cases hpacks
    | packReqHeader | packReplyHeader => rfl
  have hsizeM : m.size + c.payload.length < 2 ^ 30 := by
    rw [hempty, hind]
    exact hsize
  obtain ⟨after, hafter, -⟩ := hwf.call c hsizeM
  exact ⟨after, hafter, hwf.drop_call hpacks hafter⟩

/-- The calls that put together a reply with a long string. -/
def longReply : List Call := [.rawbytes (List.replicate 2000 7), .packReplyHeader {}, .rawbyte 1]

theorem bufferGrowth_longReply :
    ∃ m, (new fun _ => 0).run longReply = some m ∧ m.ind = 2025 ∧ m.capa ≤ 4050 := by
  have hlength : rpcHeaderSz + (payloads longReply).length = 2025 := by decide +kernel
  obtain ⟨m, hm, ⟨-, -, hcapa, -⟩, hind, -⟩ :=
    bufferGrowth (fun _ => 0) longReply (hlength.trans_lt (by decide))
  rw [hlength] at hind
  rw [hind] at hcapa
  exact ⟨m, hm, hind, hcapa⟩

end YfsLab.Wire.Marshall
