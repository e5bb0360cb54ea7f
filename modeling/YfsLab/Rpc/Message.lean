/-
# Request and reply PDUs

Clients and servers exchange PDUs, which are byte sequences; what they mean is
what the header and the payload say. The two directions are connected by the round
trip of the wire format: a PDU that one side has put together is taken apart by
the other side into the same header and payload.
-/

import YfsLab.Wire.Grammar

namespace YfsLab.Rpc

open BigEndian Wire Unmarshall

/-- A request: the header, and the marshalled arguments. -/
structure Request where
  header : ReqHeader
  args : Bytes
  deriving DecidableEq, Repr

/-- A reply as the client accepts it: the header, and what `take_in` leaves in the
caller's `unmarshall`. -/
structure Reply where
  header : ReplyHeader
  un : Unmarshall
  deriving DecidableEq, Repr

/-- The xid of a request, as the server compares it. -/
def Request.xid (request : Request) : UInt32 := request.header.xid.toUInt32

/-- The acknowledgement a request carries, as the server compares it. -/
def Request.xidRep (request : Request) : UInt32 := request.header.xidRep.toUInt32

/-- The xid of a reply, as a key of `calls_`. -/
def Reply.xid (reply : Reply) : UInt32 := reply.header.xid.toUInt32

/-! ## Putting PDUs together -/

/-- The PDU of a request. -/
def Request.pdu (request : Request) : Bytes :=
  be32 (UInt32.ofNat (rpcHeaderSz + request.args.length)) ++ request.header.bytes ++
    request.args

/-- The PDU of a reply. The header area is larger than a reply header; the rest of
it holds whatever was in memory. -/
def replyPdu (rest : Bytes) (header : ReplyHeader) (result : Bytes) : Bytes :=
  be32 (UInt32.ofNat (rpcHeaderSz + result.length)) ++ header.bytes ++ rest ++ result

theorem Request.framed_pdu (request : Request) :
    Framed request.header.bytes request.args request.pdu :=
  ⟨_, [], length_be32 _, rfl, by rw [List.append_nil]; rfl⟩

theorem framed_replyPdu {rest : Bytes} (hrest : rest.length = 12) (header : ReplyHeader)
    (result : Bytes) : Framed header.bytes result (replyPdu rest header result) :=
  ⟨_, rest, length_be32 _, by rw [hrest]; rfl, rfl⟩

/-- What `dispatch` finds in a PDU, if the header is complete. -/
def decodeRequest (b : Bytes) : Option Request :=
  (unpackReqHeader (ofBuf b)).bind fun (header, req) =>
    if req.ok then some ⟨header, req.remaining⟩ else none

/-- What `rpcc::got_pdu` finds in a PDU, if the header is complete. -/
def decodeReply (b : Bytes) : Option Reply :=
  (unpackReplyHeader (ofBuf b)).bind fun (header, rep) =>
    if rep.ok then some ⟨header, rep.takeIn⟩ else none

/-- With these bytes ahead, the operation delivers the value, whatever the size of
the buffer. -/
def Gets {α : Type} (op : Extract α) (bytes : Bytes) (a : α) : Prop :=
  ∀ (u : Unmarshall) (rest : Bytes), u.remaining = bytes ++ rest →
    op u = some (a, u.advance bytes.length)

theorem Gets.bind {α β : Type} {op : Extract α} {next : α → Extract β} {left right : Bytes}
    {a : α} {b : β} (hfirst : Gets op left a) (hnext : Gets (next a) right b) :
    Gets (op.bind next) (left ++ right) b := by
  intro u rest hremaining
  rw [List.append_assoc] at hremaining
  rw [Extract.bind, hfirst u _ hremaining, Option.bind_some,
    hnext _ rest (remaining_advance hremaining), advance_advance, List.length_append]

theorem Gets.map {α β : Type} {op : Extract α} {bytes : Bytes} {a : α}
    (hop : Gets op bytes a) (f : α → β) :
    Gets (op.bind fun a => Extract.pure (f a)) bytes (f a) := by
  intro u rest hremaining
  rw [Extract.bind, hop u rest hremaining]
  rfl

theorem gets_rawbyte (c : UInt8) : Gets rawbyte [c] c.toInt8.toInt32.toUInt32 := by
  intro u rest hremaining
  have hget : u.buf[u.ind]? = some c := by
    rw [← List.head?_drop, ← remaining, hremaining]
    rfl
  simp [rawbyte, hget, advance]

/-- The `int` that `unpack` assembles from four bytes. -/
private theorem unpack_word (x : Int32) :
    ((((x.toUInt32 >>> 24).toUInt8.toInt8.toInt32.toUInt32 &&& 0xff) <<< 24) |||
      (((x.toUInt32 >>> 16).toUInt8.toInt8.toInt32.toUInt32 &&& 0xff) <<< 16) |||
      (((x.toUInt32 >>> 8).toUInt8.toInt8.toInt32.toUInt32 &&& 0xff) <<< 8) |||
      (x.toUInt32.toUInt8.toInt8.toInt32.toUInt32 &&& 0xff)).toInt32 = x := by
  simp only [signExtend_and_mask]
  exact congrArg UInt32.toInt32 (ofBe32_be32 x.toUInt32)

/-- A byte, and what is read behind it. -/
theorem Gets.byte {β : Type} {next : UInt32 → Extract β} {bytes : Bytes} {b : β} (c : UInt8)
    (hnext : Gets (next c.toInt8.toInt32.toUInt32) bytes b) :
    Gets (rawbyte.bind next) (c :: bytes) b :=
  (gets_rawbyte c).bind hnext

theorem gets_unpack (x : Int32) : Gets unpack (be32 x.toUInt32) x := by
  have hunpack : unpack = rawbyte.bind fun a => rawbyte.bind fun b => rawbyte.bind fun c =>
      rawbyte.bind fun d => Extract.pure (((a &&& 0xff) <<< 24) ||| ((b &&& 0xff) <<< 16) |||
        ((c &&& 0xff) <<< 8) ||| (d &&& 0xff)).toInt32 := rfl
  rw [hunpack]
  refine Eq.mp (congrArg (Gets _ _) (unpack_word x)) ?_
  exact Gets.byte _ (Gets.byte _ (Gets.byte _ ((gets_rawbyte _).map _)))

theorem gets_reqHeader (h : ReqHeader) :
    Gets (do
      let xid ← unpack
      let proc ← unpack
      let cltNonce ← unpack
      let srvNonce ← unpack
      let xidRep ← unpack
      return ({ xid, proc, cltNonce := cltNonce.toUInt32, srvNonce := srvNonce.toUInt32,
                xidRep } : ReqHeader) : Extract ReqHeader) h.bytes h :=
  (gets_unpack h.xid).bind ((gets_unpack h.proc).bind ((gets_unpack h.cltNonce.toInt32).bind
    ((gets_unpack h.srvNonce.toInt32).bind ((gets_unpack h.xidRep).map fun xidRep =>
      { h with xidRep := xidRep }))))

theorem gets_replyHeader (h : ReplyHeader) :
    Gets (do
      let xid ← unpack
      let ret ← unpack
      return ({ xid, ret } : ReplyHeader) : Extract ReplyHeader) h.bytes h :=
  (gets_unpack h.xid).bind ((gets_unpack h.ret).map fun ret => { h with ret := ret })

/-- The server finds in a request PDU the request it was made from. -/
@[simp]
theorem decodeRequest_pdu (request : Request) : decodeRequest request.pdu = some request := by
  have hframed := request.framed_pdu
  obtain ⟨rest, hrest⟩ := hframed.drop_sizeofRpcSz
  have hunpack : unpackReqHeader (ofBuf request.pdu) = some (request.header,
      { buf := request.pdu, ind := rpcHeaderSz, ok := true }) := by
    rw [unpackReqHeader, gets_reqHeader request.header { ofBuf request.pdu with ind := sizeofRpcSz }
      rest hrest]
    rfl
  rw [decodeRequest, hunpack]
  simp [remaining, hframed.drop_rpcHeaderSz]

/-- What a client accepts of a reply PDU. -/
def Reply.ofPdu (pdu : Bytes) (header : ReplyHeader) : Reply where
  header := header
  un := { buf := pdu, ind := rpcHeaderSz, ok := true }

/-- The client finds in a reply PDU the header and the payload it was made from. -/
theorem decodeReply_replyPdu {rest : Bytes} (hrest : rest.length = 12) (header : ReplyHeader)
    (result : Bytes) :
    decodeReply (replyPdu rest header result) =
      some (Reply.ofPdu (replyPdu rest header result) header) := by
  have hframed := framed_replyPdu hrest header result
  obtain ⟨tail, htail⟩ := hframed.drop_sizeofRpcSz
  have hlength := hframed.length_eq
  have hunpack : unpackReplyHeader (ofBuf (replyPdu rest header result)) = some (header,
      { buf := replyPdu rest header result, ind := rpcHeaderSz, ok := true }) := by
    rw [unpackReplyHeader, gets_replyHeader header
      { ofBuf (replyPdu rest header result) with ind := sizeofRpcSz } tail htail]
    rfl
  have hfull : rpcHeaderSz ≤ (replyPdu rest header result).length := by omega
  rw [decodeReply, hunpack]
  simp [takeIn, Reply.ofPdu, hfull]

end YfsLab.Rpc
