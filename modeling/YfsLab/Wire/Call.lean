/-
# Marshalled calls

The path of a call through the wire format: `rpcc::call` marshals the arguments,
`call1` packs the request header, `connection::send` writes the size in front,
the server's `h1::fn` unmarshals the arguments, runs the handler and marshals the
result, and `call_m` unmarshals the result. The seven arities of `call` and of
`reg` differ only in the list of their argument types.
-/

import YfsLab.Wire.Codec

namespace YfsLab.Wire

open BigEndian Unmarshall

universe u

/-! ## The return codes of the library -/

namespace RpcConst

def bind : Int32 := 1
def timeoutFailure : Int32 := -1
def unmarshalArgsFailure : Int32 := -2
def unmarshalReplyFailure : Int32 := -3
def atmostonceFailure : Int32 := -4
def oldsrvFailure : Int32 := -5
def bindFailure : Int32 := -6

end RpcConst

/-! ## Argument lists -/

/-- The values of a list of arguments. -/
def Vals (p : Platform) : List Ty → Type
  | [] => Unit
  | t :: ts => t.Val p × Vals p ts

/-- `m << a1; m << a2; ...`. -/
def insertAll (p : Platform) : (ts : List Ty) → Vals p ts → Marshall → Option Marshall
  | [], _ => some
  | t :: ts, vs => fun m => (t.insert p vs.1 m).bind (insertAll p ts vs.2)

/-- `args >> a1; args >> a2; ...`, into freshly constructed variables. -/
def extractAll (p : Platform) : (ts : List Ty) → Extract (Vals p ts)
  | [] => Extract.pure ()
  | t :: ts =>
      Extract.bind (t.extract p (t.fresh p)) fun v =>
        Extract.bind (extractAll p ts) fun vs => Extract.pure (v, vs)

/-- The bytes of a list of arguments. -/
def encodeAll (p : Platform) : (ts : List Ty) → Vals p ts → Bytes
  | [], _ => []
  | t :: ts, vs => t.encode p vs.1 ++ encodeAll p ts vs.2

theorem appends_insertAll (p : Platform) (ts : List Ty) (vs : Vals p ts) :
    Marshall.Appends (insertAll p ts vs) (encodeAll p ts vs) := by
  induction ts with
  | nil => exact Marshall.Appends.nil
  | cons t ts ih => exact (Ty.appends_insert p t vs.1).bind (ih vs.2)

theorem reads_extractAll (p : Platform) (ts : List Ty) (vs : Vals p ts) :
    Reads (extractAll p ts) (encodeAll p ts vs) vs := by
  induction ts with
  | nil => exact Reads.pure _
  | cons t ts ih =>
      exact Reads.bind (Ty.reads_extract p t vs.1) ((ih vs.2).map fun rest => (vs.1, rest))

/-! ## The two ends of a call -/

/-- What `connection::send` does to a PDU: the size goes into the first four
bytes. -/
def stampSize (b : Bytes) : Bytes := be32 (UInt32.ofNat b.length) ++ b.drop sizeofRpcSz

/-- The request PDU of `rpcc::call`: the arguments are marshalled first, and
`call1` packs the header afterwards. -/
def makeRequest (p : Platform) (fresh : ℕ → UInt8) (h : ReqHeader) (ts : List Ty)
    (args : Vals p ts) : Option Bytes := do
  let m ← insertAll p ts args (Marshall.new fresh)
  let req ← m.packReqHeader h
  return stampSize req.str

/-- `h1::fn`, for a handler with arguments of these types that works on the state
`sob` of its object. -/
def h1Fn (p : Platform) (ts : List Ty) (result : Ty) {Object : Type u}
    (meth : Vals p ts → Object → Int32 × result.Val p × Object)
    (args : Unmarshall) (ret : Marshall) (sob : Object) :
    Option (Int32 × Marshall × Object) :=
  (extractAll p ts args).bind fun read =>
    if read.2.okdone then
      let called := meth read.1 sob
      (result.insert p called.2.1 ret).map fun ret => (called.1, ret, called.2.2)
    else some (RpcConst.unmarshalArgsFailure, ret, sob)

/-- The reply PDU of a request: `dispatch` packs the header after the handler
has marshalled its result. -/
def makeReply (ret : Marshall) (rh : ReplyHeader) : Option Bytes := do
  let rep ← ret.packReplyHeader rh
  return stampSize rep.str

/-- `call_m` after `call1` has returned `intret` and the contents of the reply in
`u`; `r` is what the result variable holds. -/
def callM (p : Platform) (result : Ty) (intret : Int32) (u : Unmarshall) (r : result.Val p) :
    Option (Int32 × result.Val p) :=
  if intret < 0 then some (intret, r)
  else
    (result.extract p r u).map fun read =>
      if read.2.okdone then (intret, read.1) else (RpcConst.unmarshalReplyFailure, read.1)

/-! ## Headers

A header area is the size word, the header fields, and the rest of the area. What
the two kinds of headers have in common is that packing patches the fields in,
and unpacking reads them wherever the size word and the rest of the area are.
-/

/-- A buffer with these header fields and this payload. -/
def Framed (fields payload b : Bytes) : Prop :=
  ∃ sizeWord padding : Bytes, sizeWord.length = sizeofRpcSz ∧
    sizeofRpcSz + fields.length + padding.length = rpcHeaderSz ∧
    b = sizeWord ++ fields ++ padding ++ payload

/-- A kind of header, with what packing and unpacking do. -/
structure HeaderLayout (Header : Type) where
  pack : Header → Marshall → Option Marshall
  unpack : Extract Header
  fields : Header → Bytes
  fits : ∀ h, sizeofRpcSz + (fields h).length ≤ rpcHeaderSz
  patches : ∀ h (m : Marshall), m.WellFormed → ∃ after, pack h m = some after ∧
    after.WellFormed ∧ after.size = m.size ∧
    after.str = m.str.take sizeofRpcSz ++ fields h ++
      m.str.drop (sizeofRpcSz + (fields h).length)
  unpacks : ∀ h b payload, b.length < 2 ^ 31 → Framed (fields h) payload b →
    unpack (ofBuf b) = some (h, { buf := b, ind := rpcHeaderSz, ok := true })

theorem Framed.drop_sizeofRpcSz {fields payload b : Bytes} (h : Framed fields payload b) :
    ∃ rest, b.drop sizeofRpcSz = fields ++ rest := by
  obtain ⟨sizeWord, padding, hsize, _, rfl⟩ := h
  exact ⟨padding ++ payload, by simp [← hsize]⟩

theorem Framed.drop_rpcHeaderSz {fields payload b : Bytes} (h : Framed fields payload b) :
    b.drop rpcHeaderSz = payload := by
  obtain ⟨sizeWord, padding, hsize, hsum, rfl⟩ := h
  have hlength : (sizeWord ++ fields ++ padding).length = rpcHeaderSz := by
    simp only [List.length_append]
    omega
  rw [← hlength, List.drop_left]

theorem Framed.length_eq {fields payload b : Bytes} (h : Framed fields payload b) :
    b.length = rpcHeaderSz + payload.length := by
  obtain ⟨sizeWord, padding, hsize, hsum, rfl⟩ := h
  simp only [List.length_append]
  omega

/-- Writing the size in front changes neither header nor payload. -/
theorem Framed.stampSize {fields payload b : Bytes} (h : Framed fields payload b) :
    Framed fields payload (stampSize b) := by
  obtain ⟨sizeWord, padding, hsize, hsum, rfl⟩ := h
  refine ⟨be32 (UInt32.ofNat (sizeWord ++ fields ++ padding ++ payload).length), padding,
    rfl, hsum, ?_⟩
  simp only [Wire.stampSize, List.append_assoc, ← hsize, List.drop_left]

/-- Operations that read header fields from behind the size word. -/
theorem Reads.header {Header : Type} {op : Extract Header} {fields payload b : Bytes}
    {h : Header} (hreads : Reads op fields h) (hlt : b.length < 2 ^ 31)
    (hframed : Framed fields payload b) :
    (op { ofBuf b with ind := sizeofRpcSz }).map
        (fun result => (result.1, { result.2 with ind := rpcHeaderSz })) =
      some (h, { buf := b, ind := rpcHeaderSz, ok := true }) := by
  obtain ⟨rest, hrest⟩ := hframed.drop_sizeofRpcSz
  have hlength := hframed.length_eq
  have hind : sizeofRpcSz ≤ b.length := by
    simp only [rpcHeaderSz] at hlength
    omega
  rw [hreads { ofBuf b with ind := sizeofRpcSz } ⟨hlt, fun _ => hind⟩ rfl rest hrest]
  rfl

theorem reads_reqHeader (h : ReqHeader) :
    Reads (do
      let xid ← unpack
      let proc ← unpack
      let cltNonce ← unpack
      let srvNonce ← unpack
      let xidRep ← unpack
      return ({ xid, proc, cltNonce := cltNonce.toUInt32, srvNonce := srvNonce.toUInt32,
                xidRep } : ReqHeader) : Extract ReqHeader) h.bytes h := by
  have hint := fun x : Int32 => Ty.decodes_unpack.reads x _ rfl
  exact (hint h.xid).bind ((hint h.proc).bind ((hint h.cltNonce.toInt32).bind
    ((hint h.srvNonce.toInt32).bind ((hint h.xidRep).map fun xidRep =>
      { h with xidRep := xidRep }))))

theorem reads_replyHeader (h : ReplyHeader) :
    Reads (do
      let xid ← unpack
      let ret ← unpack
      return ({ xid, ret } : ReplyHeader) : Extract ReplyHeader) h.bytes h := by
  have hint := fun x : Int32 => Ty.decodes_unpack.reads x _ rfl
  exact (hint h.xid).bind ((hint h.ret).map fun ret => { h with ret := ret })

/-- The request header. -/
def reqLayout : HeaderLayout ReqHeader where
  pack h m := m.packReqHeader h
  unpack := unpackReqHeader
  fields := ReqHeader.bytes
  fits h := by simp [sizeofRpcSz, rpcHeaderSz]
  patches h m hwf := hwf.packReqHeader h
  unpacks h b payload hlt hframed := (reads_reqHeader h).header hlt hframed

/-- The reply header. -/
def replyLayout : HeaderLayout ReplyHeader where
  pack h m := m.packReplyHeader h
  unpack := unpackReplyHeader
  fields := ReplyHeader.bytes
  fits h := by simp [sizeofRpcSz, rpcHeaderSz]
  patches h m hwf := hwf.packReplyHeader h
  unpacks h b payload hlt hframed := (reads_replyHeader h).header hlt hframed

end YfsLab.Wire
