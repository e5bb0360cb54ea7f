/-
# The round trip of the wire format

Unmarshalling what was marshalled, with the same types, gives the same header and
the same values and uses up the buffer, whether the header was packed before or
after the payload. Along a whole call this means that the handler gets the
arguments of the caller, and the caller gets the result of the handler.
-/

import YfsLab.Wire.Call

namespace YfsLab.Wire

open BigEndian Unmarshall

/-- The order in which a message is put together. -/
inductive HeaderPlace
  | before
  | after
  deriving DecidableEq, Repr

variable {Header : Type}

/-- Put a message together in a new buffer. -/
def HeaderLayout.marshal (layout : HeaderLayout Header) (place : HeaderPlace) (p : Platform)
    (fresh : ℕ → UInt8) (h : Header) (ts : List Ty) (vs : Vals p ts) : Option Marshall :=
  match place with
  | .before => (layout.pack h (Marshall.new fresh)).bind (insertAll p ts vs)
  | .after => (insertAll p ts vs (Marshall.new fresh)).bind (layout.pack h)

/-- Unmarshalling a buffer gives this header and these values, and nothing is
left over. -/
def HeaderLayout.Recovers (layout : HeaderLayout Header) (h : Header) (p : Platform)
    (ts : List Ty) (vs : Vals p ts) (b : Bytes) : Prop :=
  ∃ body rest, layout.unpack (ofBuf b) = some (h, body) ∧
    extractAll p ts body = some (vs, rest) ∧ rest.okdone = true

/-! ## What is marshalled -/

theorem length_str_new (fresh : ℕ → UInt8) : (Marshall.new fresh).str.length = rpcHeaderSz :=
  (Marshall.wellFormed_new fresh).length_str

/-- A header area with patched fields and a payload behind it. -/
theorem framed_of_patch {area fields payload : Bytes} (harea : area.length = rpcHeaderSz)
    (hfits : sizeofRpcSz + fields.length ≤ rpcHeaderSz) :
    Framed fields payload
      (area.take sizeofRpcSz ++ fields ++ area.drop (sizeofRpcSz + fields.length) ++ payload) := by
  refine ⟨_, _, ?_, ?_, rfl⟩
  · rw [List.length_take, harea]
    omega
  · rw [List.length_drop, harea]
    omega

/-- Packing the header of a buffer that starts with a header area. -/
theorem HeaderLayout.pack_framed (layout : HeaderLayout Header) (h : Header) {m : Marshall}
    (hwf : m.WellFormed) {area payload : Bytes} (harea : area.length = rpcHeaderSz)
    (hstr : m.str = area ++ payload) :
    ∃ after, layout.pack h m = some after ∧ after.WellFormed ∧ after.size = m.size ∧
      Framed (layout.fields h) payload after.str := by
  obtain ⟨after, hafter, hwf', hsize, hstr'⟩ := layout.patches h m hwf
  have hfits := layout.fits h
  refine ⟨after, hafter, hwf', hsize, ?_⟩
  rw [hstr', hstr, List.take_append_of_le_length (by omega),
    List.drop_append_of_le_length (by omega), ← List.append_assoc]
  exact framed_of_patch harea hfits

/-- Both orders of packing lead to a buffer with this header and this payload. -/
theorem HeaderLayout.marshal_framed (layout : HeaderLayout Header) (place : HeaderPlace)
    {p : Platform} (fresh : ℕ → UInt8) (h : Header) {ts : List Ty} (vs : Vals p ts)
    (hsize : rpcHeaderSz + (encodeAll p ts vs).length < 2 ^ 30) :
    ∃ m, layout.marshal place p fresh h ts vs = some m ∧
      Framed (layout.fields h) (encodeAll p ts vs) m.str := by
  have hnew := Marshall.wellFormed_new fresh
  have hinsert := appends_insertAll p ts vs
  cases place with
  | before =>
      obtain ⟨packed, hpacked, hwf, hlen, sizeWord, padding, hword, hsum, hstr⟩ :=
        layout.pack_framed h hnew (length_str_new fresh) (List.append_nil _).symm
      obtain ⟨m, hm, _, hstr', _⟩ := hinsert packed hwf (by rw [hlen]; exact hsize)
      refine ⟨m, by simp [marshal, hpacked, hm], sizeWord, padding, hword, hsum, ?_⟩
      rw [hstr', hstr, List.append_nil]
  | after =>
      obtain ⟨filled, hfilled, hwf, hstr, _⟩ := hinsert _ hnew hsize
      obtain ⟨m, hm, _, _, hframed⟩ := layout.pack_framed h hwf (length_str_new fresh) hstr
      exact ⟨m, by simp [marshal, hfilled, hm], hframed⟩

/-! ## What is unmarshalled -/

/-- Reading a value that is all that is left of the buffer uses the buffer up. -/
theorem Reads.okdone {α : Type} {op : Extract α} {bytes : Bytes} {a : α}
    (hreads : Reads op bytes a) {u : Unmarshall} (hrange : u.InRange) (hok : u.ok = true)
    (hremaining : u.remaining = bytes) :
    ∃ rest, op u = some (a, rest) ∧ rest.okdone = true := by
  refine ⟨_, hreads u hrange hok [] (by simpa using hremaining), okdone_iff.mpr ⟨hok, ?_⟩⟩
  have hind := hrange.ind_le hok
  rw [ind_advance, buf_advance, ← hremaining, length_remaining]
  omega

theorem Framed.inRange {fields payload b : Bytes} (h : Framed fields payload b)
    (hlt : b.length < 2 ^ 31) :
    ({ buf := b, ind := rpcHeaderSz, ok := true } : Unmarshall).InRange :=
  ⟨hlt, fun _ => by simp only [h.length_eq]; omega⟩

/-- A buffer with a header and the bytes of values gives both back. -/
theorem HeaderLayout.recovers_of_framed (layout : HeaderLayout Header) {h : Header}
    {p : Platform} {ts : List Ty} {vs : Vals p ts} {b : Bytes} (hlt : b.length < 2 ^ 31)
    (hframed : Framed (layout.fields h) (encodeAll p ts vs) b) :
    layout.Recovers h p ts vs b := by
  obtain ⟨rest, hrest, hdone⟩ := (reads_extractAll p ts vs).okdone (hframed.inRange hlt) rfl
    hframed.drop_rpcHeaderSz
  exact ⟨_, rest, layout.unpacks h b _ hlt hframed, hrest, hdone⟩

theorem HeaderLayout.recovers_marshal (layout : HeaderLayout Header) (place : HeaderPlace)
    {p : Platform} (fresh : ℕ → UInt8) (h : Header) {ts : List Ty} (vs : Vals p ts)
    (hsize : rpcHeaderSz + (encodeAll p ts vs).length < 2 ^ 30) :
    ∃ m, layout.marshal place p fresh h ts vs = some m ∧ layout.Recovers h p ts vs m.str := by
  obtain ⟨m, hm, hframed⟩ := layout.marshal_framed place fresh h vs hsize
  have hlength := hframed.length_eq
  exact ⟨m, hm, layout.recovers_of_framed (by omega) hframed⟩

/-! ## A whole call -/

/-- The request PDU carries the header and the arguments. -/
theorem makeRequest_framed {p : Platform} (fresh : ℕ → UInt8) (h : ReqHeader) {ts : List Ty}
    (args : Vals p ts) (hsize : rpcHeaderSz + (encodeAll p ts args).length < 2 ^ 30) :
    ∃ pdu, makeRequest p fresh h ts args = some pdu ∧
      Framed h.bytes (encodeAll p ts args) pdu := by
  obtain ⟨m, hm, hframed⟩ := reqLayout.marshal_framed .after fresh h args hsize
  obtain ⟨filled, hfilled, hpacked⟩ := Option.bind_eq_some_iff.mp hm
  have hpack : filled.packReqHeader h = some m := hpacked
  exact ⟨_, by simp [makeRequest, hfilled, hpack], hframed.stampSize⟩

/-- On a well-formed request `h1::fn` calls the handler with the arguments and
marshals its result. -/
theorem h1Fn_framed {p : Platform} {ts : List Ty} {args : Vals p ts} {result : Ty}
    {Object : Type} (meth : Vals p ts → Object → Int32 × result.Val p × Object) (sob : Object)
    (fresh : ℕ → UInt8) {fields pdu : Bytes} (hlt : pdu.length < 2 ^ 31)
    (hframed : Framed fields (encodeAll p ts args) pdu)
    (hsize : rpcHeaderSz + (result.encode p (meth args sob).2.1).length < 2 ^ 30) :
    ∃ ret, h1Fn p ts result meth { buf := pdu, ind := rpcHeaderSz, ok := true }
        (Marshall.new fresh) sob = some ((meth args sob).1, ret, (meth args sob).2.2) ∧
      ret.WellFormed ∧
      ret.str = (Marshall.new fresh).str ++ result.encode p (meth args sob).2.1 := by
  obtain ⟨rest, hrest, hdone⟩ := (reads_extractAll p ts args).okdone (hframed.inRange hlt) rfl
    hframed.drop_rpcHeaderSz
  obtain ⟨ret, hret, hwf, hstr, _⟩ := Ty.appends_insert p result (meth args sob).2.1 _
    (Marshall.wellFormed_new fresh) hsize
  exact ⟨ret, by simp [h1Fn, hrest, hdone, hret], hwf, hstr⟩

/-- `call_m` returns the return code and the result that a reply carries. -/
theorem callM_framed {p : Platform} {result : Ty} {value : result.Val p} {ret : Int32}
    (hret : 0 ≤ ret) {fields reply : Bytes} (hlt : reply.length < 2 ^ 31)
    (hframed : Framed fields (result.encode p value) reply) :
    callM p result ret
      (takeIn { buf := reply, ind := rpcHeaderSz, ok := true }) (result.fresh p) =
        some (ret, value) := by
  have hlength := hframed.length_eq
  have htake : takeIn { buf := reply, ind := rpcHeaderSz, ok := true } =
      { buf := reply, ind := rpcHeaderSz, ok := true } := by
    simp only [takeIn, Unmarshall.mk.injEq, true_and, decide_eq_true_eq]
    omega
  obtain ⟨rest, hrest, hdone⟩ := (Ty.reads_extract p result value).okdone (hframed.inRange hlt)
    rfl hframed.drop_rpcHeaderSz
  rw [htake, callM, if_neg (Int32.not_lt.mpr hret), hrest]
  simp [hdone]

/-- The round trip: for both kinds of headers and both orders of packing,
unmarshalling with the same types gives the header fields and the values back and
leaves nothing over. Along a call, the handler is run on the arguments of the
caller, and a non-negative return code reaches the caller with the result. -/
theorem roundTrip (p : Platform) (fresh : ℕ → UInt8) (ts : List Ty) (vs : Vals p ts)
    (hsize : rpcHeaderSz + (encodeAll p ts vs).length < 2 ^ 30) :
    (∀ (h : ReqHeader) (place : HeaderPlace), ∃ m,
      reqLayout.marshal place p fresh h ts vs = some m ∧ reqLayout.Recovers h p ts vs m.str) ∧
    (∀ (h : ReplyHeader) (place : HeaderPlace), ∃ m,
      replyLayout.marshal place p fresh h ts vs = some m ∧
        replyLayout.Recovers h p ts vs m.str) ∧
    (∀ (h : ReqHeader) (result : Ty) (Object : Type)
      (meth : Vals p ts → Object → Int32 × result.Val p × Object) (sob : Object)
      (fresh' : ℕ → UInt8),
      rpcHeaderSz + (result.encode p (meth vs sob).2.1).length < 2 ^ 30 →
      ∃ pdu req ret reply rep,
        makeRequest p fresh h ts vs = some pdu ∧
        unpackReqHeader (ofBuf pdu) = some (h, req) ∧ req.ok = true ∧
        h1Fn p ts result meth req (Marshall.new fresh') sob =
          some ((meth vs sob).1, ret, (meth vs sob).2.2) ∧
        makeReply ret ⟨h.xid, (meth vs sob).1⟩ = some reply ∧
        unpackReplyHeader (ofBuf reply) = some (⟨h.xid, (meth vs sob).1⟩, rep) ∧
        rep.ok = true ∧
        (0 ≤ (meth vs sob).1 →
          callM p result (meth vs sob).1 rep.takeIn (result.fresh p) =
            some ((meth vs sob).1, (meth vs sob).2.1))) := by
  refine ⟨fun h place => reqLayout.recovers_marshal place fresh h vs hsize,
    fun h place => replyLayout.recovers_marshal place fresh h vs hsize, ?_⟩
  intro h result Object meth sob fresh' hresult
  obtain ⟨pdu, hpdu, hframed⟩ := makeRequest_framed fresh h vs hsize
  have hlt : pdu.length < 2 ^ 31 := by
    rw [hframed.length_eq]
    omega
  obtain ⟨ret, hret, hwf, hstr⟩ := h1Fn_framed meth sob fresh' hlt hframed hresult
  obtain ⟨packed, hpacked, _, _, hframed'⟩ :=
    replyLayout.pack_framed ⟨h.xid, (meth vs sob).1⟩ hwf (length_str_new fresh') hstr
  have hreply := hframed'.stampSize
  have hlt' : (stampSize packed.str).length < 2 ^ 31 := by
    rw [hreply.length_eq]
    omega
  refine ⟨pdu, _, ret, _, _, hpdu, reqLayout.unpacks h pdu _ hlt hframed, rfl, hret, ?_,
    replyLayout.unpacks _ _ _ hlt' hreply, rfl, fun hnonneg => callM_framed hnonneg hlt' hreply⟩
  rw [makeReply, show ret.packReplyHeader _ = some packed from hpacked]
  rfl

/-- A call with a string and a vector of integers. -/
theorem roundTrip_stringAndVector :
    ∃ pdu req, makeRequest .lp64 (fun _ => 0) { xid := 1, proc := 2 } [.string, .vector .int]
        (([104, 105] : Bytes), ([1, -2] : List Int32), ()) = some pdu ∧
      unpackReqHeader (ofBuf pdu) = some ({ xid := 1, proc := 2 }, req) ∧ req.ok = true := by
  obtain ⟨_, _, hcall⟩ := roundTrip .lp64 (fun _ => 0) [.string, .vector .int]
    (([104, 105] : Bytes), ([1, -2] : List Int32), ()) (by decide)
  obtain ⟨pdu, req, _, _, _, hpdu, hreq, hok, _⟩ := hcall { xid := 1, proc := 2 } .int Unit
    (fun _ _ => (0, (7 : Int32), ())) () (fun _ => 255) (by decide)
  exact ⟨pdu, req, hpdu, hreq, hok⟩

end YfsLab.Wire
