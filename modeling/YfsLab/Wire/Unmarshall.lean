/-
# The input buffer

`unmarshall` is a received buffer with a read position and a failure flag that
stays down once it has gone down. A read that finds no byte left clears the flag
and delivers zero; the program goes on, and looks at the flag at the end.

Undefined behaviour is the absence of a result here too: the only source of it is
`rawbytes`, when its bound check lets a read outside the buffer pass.
-/

import YfsLab.Wire.Marshall

namespace YfsLab.Wire

open BigEndian

universe u

/-- `unmarshall`: the received bytes (`_buf` and `_sz`), the read position and
the failure flag. -/
structure Unmarshall where
  buf : Bytes := []
  ind : ℕ := 0
  ok : Bool := false
  deriving DecidableEq, Repr

/-- A read operation: it moves the position, may clear the flag, and has no
result if it would read outside the buffer. -/
abbrev Extract (α : Type u) := Unmarshall → Option (α × Unmarshall)

namespace Extract

variable {α β : Type u}

/-- Deliver a value without reading. -/
def pure (a : α) : Extract α := fun u => some (a, u)

/-- Read, and go on with what was read. -/
def bind (first : Extract α) (next : α → Extract β) : Extract β :=
  fun u => (first u).bind fun result => next result.1 result.2

instance : Monad Extract where
  pure := pure
  bind := bind

/-- A `for` loop whose body updates a value. -/
def loop (body : α → Extract α) : ℕ → α → Extract α
  | 0, a => Extract.pure a
  | n + 1, a => (body a).bind fun b => loop body n b

end Extract

namespace Unmarshall

/-- `unmarshall(char *b, int sz)`. -/
def ofBuf (b : Bytes) : Unmarshall where
  buf := b
  ind := 0
  ok := true

/-- `unmarshall::take_in`: the contents of another buffer, with the position
behind the header. -/
def takeIn (another : Unmarshall) : Unmarshall where
  buf := another.buf
  ind := rpcHeaderSz
  ok := decide (rpcHeaderSz ≤ another.buf.length)

/-- `unmarshall::okdone`. -/
def okdone (u : Unmarshall) : Bool := u.ok && decide (u.ind = u.buf.length)

/-- `unmarshall::rawbyte`: a `char`, sign-extended to an `unsigned int`. -/
def rawbyte : Extract UInt32 := fun u =>
  match u.buf[u.ind]? with
  | none => some (0, { u with ok := false })
  | some c => some (c.toInt8.toInt32.toUInt32, { u with ind := u.ind + 1 })

/-- `unmarshall::rawbytes`, given what the destination string holds. The bound
check is unsigned 32-bit arithmetic; the read that follows it is not. -/
def rawbytes (ss : Bytes) (n : UInt32) : Extract Bytes := fun u =>
  if UInt32.ofNat u.buf.length < UInt32.ofNat u.ind + n then
    some (ss, { u with ok := false })
  else if u.ind + n.toNat ≤ u.buf.length then
    some ((u.buf.drop u.ind).take n.toNat, { u with ind := u.ind + n.toNat })
  else none

/-- `unmarshall::unpack`. -/
def unpack : Extract Int32 := do
  let a ← rawbyte
  let b ← rawbyte
  let c ← rawbyte
  let d ← rawbyte
  return (((a &&& 0xff) <<< 24) ||| ((b &&& 0xff) <<< 16) ||| ((c &&& 0xff) <<< 8) |||
    (d &&& 0xff)).toInt32

/-- `unmarshall::unpack_req_header`. -/
def unpackReqHeader : Extract ReqHeader := fun u =>
  (do
    let xid ← unpack
    let proc ← unpack
    let cltNonce ← unpack
    let srvNonce ← unpack
    let xidRep ← unpack
    return ({ xid, proc, cltNonce := cltNonce.toUInt32, srvNonce := srvNonce.toUInt32,
              xidRep } : ReqHeader) : Extract ReqHeader) { u with ind := sizeofRpcSz }
    |>.map fun result => (result.1, { result.2 with ind := rpcHeaderSz })

/-- `unmarshall::unpack_reply_header`. -/
def unpackReplyHeader : Extract ReplyHeader := fun u =>
  (do
    let xid ← unpack
    let ret ← unpack
    return ({ xid, ret } : ReplyHeader) : Extract ReplyHeader) { u with ind := sizeofRpcSz }
    |>.map fun result => (result.1, { result.2 with ind := rpcHeaderSz })

/-- The bytes from the read position to the end. -/
def remaining (u : Unmarshall) : Bytes := u.buf.drop u.ind

/-- Move the read position. -/
def advance (u : Unmarshall) (n : ℕ) : Unmarshall := { u with ind := u.ind + n }

@[simp]
theorem ind_advance (u : Unmarshall) (n : ℕ) : (u.advance n).ind = u.ind + n := rfl

@[simp]
theorem buf_advance (u : Unmarshall) (n : ℕ) : (u.advance n).buf = u.buf := rfl

@[simp]
theorem ok_advance (u : Unmarshall) (n : ℕ) : (u.advance n).ok = u.ok := rfl

@[simp]
theorem advance_zero (u : Unmarshall) : u.advance 0 = u := rfl

theorem advance_advance (u : Unmarshall) (m n : ℕ) :
    (u.advance m).advance n = u.advance (m + n) := by
  simp [advance, Nat.add_assoc]

theorem remaining_advance {u : Unmarshall} {bytes rest : Bytes}
    (hremaining : u.remaining = bytes ++ rest) :
    (u.advance bytes.length).remaining = rest := by
  rw [remaining, advance, ← List.drop_drop, ← remaining, hremaining, List.drop_left]

theorem okdone_iff {u : Unmarshall} :
    u.okdone = true ↔ u.ok = true ∧ u.ind = u.buf.length := by
  simp [okdone]

/-- The buffer has the size of an `int`, and while nothing has failed the
position is inside it. -/
structure InRange (u : Unmarshall) : Prop where
  length_lt : u.buf.length < 2 ^ 31
  ind_le : u.ok = true → u.ind ≤ u.buf.length

theorem length_remaining {u : Unmarshall} : u.remaining.length = u.buf.length - u.ind :=
  List.length_drop

theorem InRange.advance {u : Unmarshall} (h : u.InRange) {bytes rest : Bytes}
    (hremaining : u.remaining = bytes ++ rest) (hok : u.ok = true) :
    (u.advance bytes.length).InRange := by
  have hlength := congrArg List.length hremaining
  rw [length_remaining, List.length_append] at hlength
  have hind := h.ind_le hok
  exact ⟨h.length_lt, fun _ => by simp only [ind_advance, buf_advance]; omega⟩

end Unmarshall

end YfsLab.Wire
