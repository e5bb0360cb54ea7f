/-
# The read side of a connection

`readpdu` is a resumable reader: it keeps the PDU it is in the middle of in
`rpdu_`, reads the size word of a new one with a read of its own, and asks for the
rest of the body in the same call. `read_cb` runs it once for each time the
descriptor is ready, and hands a finished PDU to `got_pdu`.

The operating system is a parameter: what `read` returns and what `errno` holds.
A failed assertion and a write outside the allocated buffer have no result.
-/

import YfsLab.Wire.Marshall

namespace YfsLab.Connection

open BigEndian Wire

universe u

/-- The values of `errno` that the code tells apart. -/
inductive Errno
  | eagain
  | other
  deriving DecidableEq, Repr

/-- What a call of `read` returns: a positive count with the bytes, zero, or a
negative count. -/
inductive ReadResult
  | data (bytes : Bytes)
  | eof
  | fail
  deriving DecidableEq, Repr

/-- The part of the operating system a connection reads from. -/
structure Os (Kernel : Type u) where
  read : ℕ → Kernel → ReadResult × Kernel
  errno : Kernel → Errno

/-- `charbuf`, on the read side: the bytes stored in `buf` so far, the size of its
allocation, and the two counters. The cells behind the stored bytes are never
looked at. -/
structure Charbuf where
  buf : Option Bytes := none
  capacity : ℕ := 0
  sz : ℤ := 0
  solong : ℤ := 0
  deriving DecidableEq, Repr

/-- The conversion of an `int` to `size_t`. -/
def sizeT (n : ℤ) : ℕ := (n % 2 ^ 64).toNat

/-- The largest request that `malloc` can meet, `PTRDIFF_MAX`. -/
def mallocMax : ℕ := 2 ^ 63 - 1

/-- `ntohl`, as the `int` the code stores it in. -/
def ntohl : Bytes → ℤ
  | [a, b, c, d] => (ofBe32 a b c d).toInt32.toInt
  | _ => 0

variable {Kernel : Type u}

/-- The read of the body, in the second half of `connection::readpdu`. -/
def readBody (os : Os Kernel) (rpdu : Charbuf) (kernel : Kernel) :
    Option (Bool × Charbuf × Kernel) :=
  let (result, kernel) := os.read (sizeT (rpdu.sz - rpdu.solong)) kernel
  match result with
  | .data bytes =>
      let stored := rpdu.buf.getD [] ++ bytes
      if rpdu.capacity < stored.length then none
      else some (true,
        { rpdu with buf := some stored, solong := rpdu.solong + bytes.length }, kernel)
  | .eof | .fail =>
      if os.errno kernel = .eagain then some (true, rpdu, kernel)
      else some (false, {}, kernel)

/-- `connection::readpdu`. -/
def readpdu (os : Os Kernel) (rpdu : Charbuf) (kernel : Kernel) :
    Option (Bool × Charbuf × Kernel) :=
  if rpdu.sz = 0 then
    let (result, kernel) := os.read sizeofRpcSz kernel
    match result with
    | .eof => some (false, rpdu, kernel)
    | .fail => if os.errno kernel = .eagain then none else some (false, rpdu, kernel)
    | .data word =>
        -- "short read of sz"
        if word.length ≠ sizeofRpcSz then some (false, rpdu, kernel)
        else
          let sz := ntohl word
          if (maxPdu : ℤ) < sz then some (false, rpdu, kernel)
          else if rpdu.buf.isSome then none
          else
            let capacity := sizeT (sz + sizeofRpcSz)
            -- `malloc` fails, or the size word does not fit
            if mallocMax < capacity ∨ capacity < sizeofRpcSz then none
            else readBody os { buf := some word, capacity, sz, solong := sizeofRpcSz } kernel
  else readBody os rpdu kernel

/-- The fields of a connection that its read side works on. -/
structure Conn where
  dead : Bool := false
  rpdu : Charbuf := {}
  deriving DecidableEq, Repr

/-- Whether `read_cb` still has something to read for the current PDU. -/
def Charbuf.unfinished (rpdu : Charbuf) : Bool :=
  rpdu.buf.isNone || decide (rpdu.solong < rpdu.sz)

/-- The hand-over at the end of `read_cb`: a complete PDU goes to `got_pdu`, and
the buffer is given up if it is accepted. The second component lists what was
handed over. -/
def handOver (gotPdu : Bytes → Bool) (conn : Conn) : Conn × List Bytes :=
  match conn.rpdu.buf with
  | none => (conn, [])
  | some pdu =>
      if conn.rpdu.sz = conn.rpdu.solong then
        (if gotPdu pdu then { conn with rpdu := {} } else conn, [pdu])
      else (conn, [])

/-- `connection::read_cb`. -/
def readCb (os : Os Kernel) (gotPdu : Bytes → Bool) (conn : Conn) (kernel : Kernel) :
    Option ((Conn × List Bytes) × Kernel) :=
  if conn.dead then some ((conn, []), kernel)
  else
    (if conn.rpdu.unfinished then readpdu os conn.rpdu kernel
      else some (true, conn.rpdu, kernel)).map fun (succ, rpdu, kernel) =>
        (handOver gotPdu { dead := !succ, rpdu }, kernel)

end YfsLab.Connection
