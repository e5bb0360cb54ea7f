/-
# Wire types

The C++ types that can go into a message: the integer types `marshall.h` declares
operators for, `std::string`, and `std::vector` and `std::map` over wire types to
any depth. The operators `<<` and `>>` are defined by recursion on the type, as
the overload resolution of the source does, and `encode` is the byte sequence a
value stands for.
-/

import YfsLab.Foundations.SortedMap
import YfsLab.Wire.Unmarshall

namespace YfsLab.Wire

open BigEndian

/-- The two platforms on which `operator<<(unsigned long)` returns: `unsigned
long` has the size of `unsigned int`, or the size of `unsigned long long`. -/
inductive Platform
  | ilp32
  | lp64
  deriving DecidableEq, Repr

/-- The wire types. Plain `char` is signed. -/
inductive Ty
  | uchar
  | char
  | ushort
  | short
  | uint
  | int
  | ulonglong
  | ulong
  | string
  | vector (elem : Ty)
  | map (key value : Ty)
  deriving DecidableEq, Repr

/-- A type with the order that `std::map` uses for its keys. -/
structure Ordered where
  Carrier : Type
  order : LinearOrder Carrier

namespace Ty

/-- The values of a wire type, ordered as `operator<` of the source orders them:
numbers by value, strings by their bytes as unsigned characters, containers
lexicographically. -/
def ordered (p : Platform) : Ty → Ordered
  | .uchar => ⟨UInt8, LinearOrder.lift' UInt8.toNat fun _ _ => UInt8.toNat_inj.mp⟩
  | .char => ⟨Int8, LinearOrder.lift' Int8.toInt fun _ _ => Int8.toInt_inj.mp⟩
  | .ushort => ⟨UInt16, LinearOrder.lift' UInt16.toNat fun _ _ => UInt16.toNat_inj.mp⟩
  | .short => ⟨Int16, LinearOrder.lift' Int16.toInt fun _ _ => Int16.toInt_inj.mp⟩
  | .uint => ⟨UInt32, LinearOrder.lift' UInt32.toNat fun _ _ => UInt32.toNat_inj.mp⟩
  | .int => ⟨Int32, LinearOrder.lift' Int32.toInt fun _ _ => Int32.toInt_inj.mp⟩
  | .ulonglong => ⟨UInt64, LinearOrder.lift' UInt64.toNat fun _ _ => UInt64.toNat_inj.mp⟩
  | .ulong =>
      match p with
      | .ilp32 => ⟨UInt32, LinearOrder.lift' UInt32.toNat fun _ _ => UInt32.toNat_inj.mp⟩
      | .lp64 => ⟨UInt64, LinearOrder.lift' UInt64.toNat fun _ _ => UInt64.toNat_inj.mp⟩
  | .string =>
      ⟨Bytes, LinearOrder.lift' (List.map UInt8.toNat) fun _ _ heq =>
        List.map_injective_iff.mpr (fun _ _ => UInt8.toNat_inj.mp) heq⟩
  | .vector elem =>
      let elems := ordered p elem
      ⟨List elems.Carrier, @List.instLinearOrder _ elems.order⟩
  | .map key value =>
      let keys := ordered p key
      let values := ordered p value
      ⟨@SortedMap keys.Carrier values.Carrier keys.order.toLT,
        @SortedMap.instLinearOrder _ _ keys.order values.order⟩

/-- The values of a wire type. -/
abbrev Val (p : Platform) (t : Ty) : Type := (t.ordered p).Carrier

instance (p : Platform) (t : Ty) : LinearOrder (t.Val p) := (t.ordered p).order

/-- A freshly constructed variable. An integer is not initialized in C++, but
every read operator overwrites it. -/
def fresh (p : Platform) : (t : Ty) → t.Val p
  | .uchar => (0 : UInt8)
  | .char => (0 : Int8)
  | .ushort => (0 : UInt16)
  | .short => (0 : Int16)
  | .uint => (0 : UInt32)
  | .int => (0 : Int32)
  | .ulonglong => (0 : UInt64)
  | .ulong =>
      match p with
      | .ilp32 => (0 : UInt32)
      | .lp64 => (0 : UInt64)
  | .string => ([] : Bytes)
  | .vector elem => ([] : List (elem.Val p))
  | .map key value => (SortedMap.empty : SortedMap (key.Val p) (value.Val p))

/-! ## Marshalling -/

/-- `operator<<(marshall &, unsigned char)`. -/
def insertUchar (x : UInt8) (m : Marshall) : Option Marshall := m.rawbyte x

/-- `operator<<(marshall &, char)`. -/
def insertChar (x : Int8) (m : Marshall) : Option Marshall := insertUchar x.toUInt8 m

/-- `operator<<(marshall &, unsigned short)`. -/
def insertUshort (x : UInt16) (m : Marshall) : Option Marshall := do
  let m ← m.rawbyte ((x >>> 8) &&& 0xff).toUInt8
  m.rawbyte (x &&& 0xff).toUInt8

/-- `operator<<(marshall &, short)`. -/
def insertShort (x : Int16) (m : Marshall) : Option Marshall := insertUshort x.toUInt16 m

/-- `operator<<(marshall &, unsigned int)`. -/
def insertUint (x : UInt32) (m : Marshall) : Option Marshall := do
  let m ← m.rawbyte ((x >>> 24) &&& 0xff).toUInt8
  let m ← m.rawbyte ((x >>> 16) &&& 0xff).toUInt8
  let m ← m.rawbyte ((x >>> 8) &&& 0xff).toUInt8
  m.rawbyte (x &&& 0xff).toUInt8

/-- `operator<<(marshall &, int)`. -/
def insertInt (x : Int32) (m : Marshall) : Option Marshall := insertUint x.toUInt32 m

/-- `operator<<(marshall &, unsigned long long)`. -/
def insertUlonglong (x : UInt64) (m : Marshall) : Option Marshall := do
  let m ← insertUint (x >>> 32).toUInt32 m
  insertUint x.toUInt32 m

/-- `operator<<(marshall &, const std::string &)`. -/
def insertString (s : Bytes) (m : Marshall) : Option Marshall := do
  let m ← insertUint (UInt32.ofNat s.length) m
  m.rawbytes s

/-- `operator<<` at a wire type. -/
def insert (p : Platform) : (t : Ty) → t.Val p → Marshall → Option Marshall
  | .uchar, x => insertUchar x
  | .char, x => insertChar x
  | .ushort, x => insertUshort x
  | .short, x => insertShort x
  | .uint, x => insertUint x
  | .int, x => insertInt x
  | .ulonglong, x => insertUlonglong x
  | .ulong, x =>
      match p, x with
      | .ilp32, x => insertUint x
      | .lp64, x => insertUlonglong x
  | .string, s => insertString s
  | .vector elem, v => fun m => do
      let items : List (elem.Val p) := v
      let m ← insertUint (UInt32.ofNat items.length) m
      items.foldlM (fun m x => insert p elem x m) m
  | .map key value, d => fun m => do
      let entries : List (key.Val p × value.Val p) := d.1
      let m ← insertUint (UInt32.ofNat entries.length) m
      entries.foldlM
        (fun m entry => (insert p key entry.1 m).bind (insert p value entry.2)) m

/-! ## Unmarshalling

Each operator is given what the destination holds before the read, because a
failed read of a string, and the entries a vector has already, survive it.
-/

open Unmarshall

/-- `operator>>(unmarshall &, unsigned char &)`. -/
def extractUchar : Extract UInt8 := do
  let a ← rawbyte
  return a.toUInt8

/-- `operator>>(unmarshall &, char &)`. -/
def extractChar : Extract Int8 := do
  let a ← rawbyte
  return a.toUInt8.toInt8

/-- `operator>>(unmarshall &, unsigned short &)`. -/
def extractUshort : Extract UInt16 := do
  let a ← rawbyte
  let x : UInt16 := ((a &&& 0xff) <<< 8).toUInt16
  let b ← rawbyte
  return (x.toUInt32 ||| (b &&& 0xff)).toUInt16

/-- `operator>>(unmarshall &, short &)`. -/
def extractShort : Extract Int16 := do
  let a ← rawbyte
  let x : Int16 := ((a &&& 0xff) <<< 8).toUInt16.toInt16
  let b ← rawbyte
  return (x.toInt32.toUInt32 ||| (b &&& 0xff)).toUInt16.toInt16

/-- `operator>>(unmarshall &, unsigned int &)`. -/
def extractUint : Extract UInt32 := do
  let a ← rawbyte
  let b ← rawbyte
  let c ← rawbyte
  let d ← rawbyte
  return ((a &&& 0xff) <<< 24) ||| ((b &&& 0xff) <<< 16) ||| ((c &&& 0xff) <<< 8) |||
    (d &&& 0xff)

/-- `operator>>(unmarshall &, int &)`. -/
def extractInt : Extract Int32 := do
  let a ← rawbyte
  let b ← rawbyte
  let c ← rawbyte
  let d ← rawbyte
  return (((a &&& 0xff) <<< 24) ||| ((b &&& 0xff) <<< 16) ||| ((c &&& 0xff) <<< 8) |||
    (d &&& 0xff)).toInt32

/-- `operator>>(unmarshall &, unsigned long long &)`. -/
def extractUlonglong : Extract UInt64 := do
  let h ← extractUint
  let l ← extractUint
  return l.toUInt64 ||| (h.toUInt64 <<< 32)

/-- `operator>>(unmarshall &, std::string &)`. -/
def extractString (s : Bytes) : Extract Bytes := do
  let sz ← extractUint
  fun u => if u.ok then rawbytes s sz u else some (s, u)

/-- `operator>>` at a wire type, given what the destination holds. -/
def extract (p : Platform) : (t : Ty) → t.Val p → Extract (t.Val p)
  | .uchar, _ => extractUchar
  | .char, _ => extractChar
  | .ushort, _ => extractUshort
  | .short, _ => extractShort
  | .uint, _ => extractUint
  | .int, _ => extractInt
  | .ulonglong, _ => extractUlonglong
  | .ulong, _ =>
      match p with
      | .ilp32 => extractUint
      | .lp64 => extractUlonglong
  | .string, s => extractString s
  | .vector elem, v =>
      Extract.bind extractUint fun n =>
        Extract.loop (fun items : List (elem.Val p) =>
          Extract.bind (extract p elem (elem.fresh p)) fun z =>
            Extract.pure (items ++ [z])) n.toNat v
  | .map key value, _ =>
      Extract.bind extractUint fun n =>
        Extract.loop (fun d : SortedMap (key.Val p) (value.Val p) =>
          Extract.bind (extract p key (key.fresh p)) fun a =>
            Extract.bind (extract p value (value.fresh p)) fun b =>
              Extract.pure (d.assign a b)) n.toNat SortedMap.empty

/-! ## The bytes of a value -/

/-- The bytes of a counted sequence: the number of its elements, then the
elements. -/
def counted {α : Type} (bytes : α → Bytes) (items : List α) : Bytes :=
  be32 (UInt32.ofNat items.length) ++ items.flatMap bytes

/-- The bytes that stand for a value. -/
def encode (p : Platform) : (t : Ty) → t.Val p → Bytes
  | .uchar, x => [x]
  | .char, (x : Int8) => [x.toUInt8]
  | .ushort, x => be16 x
  | .short, (x : Int16) => be16 x.toUInt16
  | .uint, x => be32 x
  | .int, (x : Int32) => be32 x.toUInt32
  | .ulonglong, x => be64 x
  | .ulong, x =>
      match p, x with
      | .ilp32, x => be32 x
      | .lp64, x => be64 x
  | .string, (s : Bytes) => be32 (UInt32.ofNat s.length) ++ s
  | .vector elem, (v : List (elem.Val p)) => counted (encode p elem) v
  | .map key value, d =>
      counted (fun entry : key.Val p × value.Val p =>
        encode p key entry.1 ++ encode p value entry.2) d.1

end Ty

end YfsLab.Wire
