/-
# The operators of the wire types

Every `operator<<` appends the bytes of its argument, and every `operator>>` reads
them back. Both follow the recursion on the type: the integer operators are
composed from byte operations, and the containers from a count and a loop.
-/

import YfsLab.Wire.Decodes
import YfsLab.Wire.Types

namespace YfsLab.Wire

open BigEndian Unmarshall

namespace Ty

/-! ## Marshalling appends the bytes of a value -/

theorem ushort_and_mask (x : UInt16) : (x &&& 0xff).toUInt8 = x.toUInt8 := by
  apply UInt8.toBitVec_inj.mp
  ext i hi
  simp [Marshall.getElem_byteMask hi]

theorem uint_and_mask (x : UInt32) : (x &&& 0xff).toUInt8 = x.toUInt8 := by
  apply UInt8.toBitVec_inj.mp
  ext i hi
  simp [Marshall.getElem_byteMask hi]

theorem appends_insertUchar (x : UInt8) : Marshall.Appends (insertUchar x) [x] :=
  Marshall.appends_rawbyte x

theorem appends_insertUshort (x : UInt16) : Marshall.Appends (insertUshort x) (be16 x) := by
  have h := (Marshall.appends_rawbyte (x >>> 8).toUInt8).bind
    (Marshall.appends_rawbyte x.toUInt8)
  intro m hwf hsize
  rw [insertUshort, ushort_and_mask, ushort_and_mask]
  exact h m hwf hsize

theorem appends_insertUint (x : UInt32) : Marshall.Appends (insertUint x) (be32 x) := by
  have h := (Marshall.appends_rawbyte (x >>> 24).toUInt8).bind
    ((Marshall.appends_rawbyte (x >>> 16).toUInt8).bind
      ((Marshall.appends_rawbyte (x >>> 8).toUInt8).bind
        (Marshall.appends_rawbyte x.toUInt8)))
  intro m hwf hsize
  rw [insertUint, uint_and_mask, uint_and_mask, uint_and_mask, uint_and_mask]
  exact h m hwf hsize

theorem appends_insertUlonglong (x : UInt64) :
    Marshall.Appends (insertUlonglong x) (be64 x) :=
  (appends_insertUint (x >>> 32).toUInt32).bind (appends_insertUint x.toUInt32)

theorem appends_insertString (s : Bytes) :
    Marshall.Appends (insertString s) (be32 (UInt32.ofNat s.length) ++ s) :=
  (appends_insertUint (UInt32.ofNat s.length)).bind (Marshall.appends_rawbytes s)

/-- A loop over the elements appends their bytes, one after the other. -/
theorem appends_foldlM {α : Type} {operation : α → Marshall → Option Marshall}
    {bytes : α → Bytes} (hoperation : ∀ a, Marshall.Appends (operation a) (bytes a))
    (items : List α) :
    Marshall.Appends (fun m => items.foldlM (fun m a => operation a m) m)
      (items.flatMap bytes) := by
  induction items with
  | nil => exact Marshall.Appends.nil
  | cons item rest ih => exact (hoperation item).bind ih

/-- A container appends its element count and its elements. -/
theorem appends_counted {α : Type} {operation : α → Marshall → Option Marshall}
    {bytes : α → Bytes} (hoperation : ∀ a, Marshall.Appends (operation a) (bytes a))
    (items : List α) :
    Marshall.Appends
      (fun m => (insertUint (UInt32.ofNat items.length) m).bind fun m =>
        items.foldlM (fun m a => operation a m) m)
      (counted bytes items) :=
  (appends_insertUint _).bind (appends_foldlM hoperation items)

/-- `operator<<` appends the bytes of its argument. -/
theorem appends_insert (p : Platform) (t : Ty) (v : t.Val p) :
    Marshall.Appends (insert p t v) (encode p t v) := by
  induction t with
  | uchar => exact appends_insertUchar v
  | char => exact appends_insertUchar _
  | ushort => exact appends_insertUshort v
  | short => exact appends_insertUshort _
  | uint => exact appends_insertUint v
  | int => exact appends_insertUint _
  | ulonglong => exact appends_insertUlonglong v
  | ulong =>
      cases p with
      | ilp32 => exact appends_insertUint v
      | lp64 => exact appends_insertUlonglong v
  | string => exact appends_insertString v
  | vector elem ih => exact appends_counted ih v
  | map key value ihKey ihValue =>
      exact appends_counted (fun entry => (ihKey entry.1).bind (ihValue entry.2)) v.1

/-! ## Every encoding has at least one byte -/

theorem length_encode_pos (p : Platform) (t : Ty) (v : t.Val p) :
    0 < (encode p t v).length := by
  cases t with
  | ulong => cases p <;> exact Nat.succ_pos _
  | _ => exact Nat.succ_pos _

/-- A sequence of elements is no longer than its bytes. -/
theorem length_le_flatMap {α : Type} {bytes : α → Bytes}
    (hpos : ∀ a, 0 < (bytes a).length) (items : List α) :
    items.length ≤ (items.flatMap bytes).length := by
  induction items with
  | nil => simp
  | cons item rest ih =>
      have hitem := hpos item
      rw [List.flatMap_cons, List.length_append, List.length_cons]
      omega

/-! ## Unmarshalling integers -/

theorem toUInt16_shiftLeft_8 (a : UInt8) : (a.toUInt32 <<< 8).toUInt16 = a.toUInt16 <<< 8 := by
  apply UInt16.toNat_inj.mp
  have ha := a.toNat_lt
  simp [Nat.shiftLeft_eq]

theorem signExtend_truncate (x : Int16) : x.toInt32.toUInt32.toUInt16 = x.toUInt16 := by
  apply UInt16.toBitVec_inj.mp
  ext i hi
  have h32 : i < 32 := by omega
  simp [BitVec.getElem_signExtend, hi, h32]

/-- The word that the unsigned and the signed 16-bit operator assemble. -/
theorem ushort_word (a b : UInt8) :
    (((a.toInt8.toInt32.toUInt32 &&& 0xff) <<< 8).toUInt16.toUInt32 |||
      (b.toInt8.toInt32.toUInt32 &&& 0xff)).toUInt16 = ofBe16 a b := by
  rw [signExtend_and_mask, signExtend_and_mask, toUInt16_shiftLeft_8, UInt32.toUInt16_or,
    UInt16.toUInt16_toUInt32, UInt8.toUInt16_toUInt32]
  rfl

theorem short_word (a b : UInt8) :
    (((a.toInt8.toInt32.toUInt32 &&& 0xff) <<< 8).toUInt16.toInt16.toInt32.toUInt32 |||
      (b.toInt8.toInt32.toUInt32 &&& 0xff)).toUInt16 = ofBe16 a b := by
  rw [signExtend_and_mask, signExtend_and_mask, toUInt16_shiftLeft_8, UInt32.toUInt16_or,
    signExtend_truncate, UInt16.toUInt16_toInt16, UInt8.toUInt16_toUInt32]
  rfl

/-- A byte that was read as a `char` is stored unchanged. -/
theorem toUInt8_signExtend (c : UInt8) : c.toInt8.toInt32.toUInt32.toUInt8 = c := by
  rw [← uint_and_mask, signExtend_and_mask, UInt8.toUInt8_toUInt32]

theorem decodes_extractUchar : Decodes extractUchar (fun x bytes => bytes = [x]) never := by
  refine (decodes_rawbyte.map UInt32.toUInt8).congr (fun x bytes _ => ?_) fun _ _ _ => Iff.rfl
  constructor
  · rintro ⟨_, rfl, a, rfl, rfl⟩
    rw [toUInt8_signExtend]
  · rintro rfl
    exact ⟨_, (toUInt8_signExtend x).symm, x, rfl, rfl⟩

theorem decodes_extractChar :
    Decodes extractChar (fun x bytes => bytes = [x.toUInt8]) never := by
  refine (decodes_rawbyte.map fun a => a.toUInt8.toInt8).congr (fun x bytes _ => ?_)
    fun _ _ _ => Iff.rfl
  constructor
  · rintro ⟨_, rfl, a, rfl, rfl⟩
    rw [toUInt8_signExtend, UInt8.toUInt8_toInt8]
  · rintro rfl
    refine ⟨_, ?_, x.toUInt8, rfl, rfl⟩
    rw [toUInt8_signExtend, Int8.toInt8_toUInt8]

theorem decodes_extractUshort :
    Decodes extractUshort (fun x bytes => bytes = be16 x) never := by
  have h := decodes_rawbyte.bind fun a => decodes_rawbyte.map fun b =>
    (((a &&& 0xff) <<< 8).toUInt16.toUInt32 ||| (b &&& 0xff)).toUInt16
  refine h.congr (fun x bytes _ => ?_) fun _ _ _ => by simp [never]
  constructor
  · rintro ⟨_, _, _, rfl, ⟨a, rfl, rfl⟩, _, rfl, b, rfl, rfl⟩
    rw [ushort_word]
    exact (be16_ofBe16 a b).symm
  · rintro rfl
    refine ⟨_, [_], [_], rfl, ⟨_, rfl, rfl⟩, _, ?_, _, rfl, rfl⟩
    rw [ushort_word]
    exact (ofBe16_be16 x).symm

theorem decodes_extractShort :
    Decodes extractShort (fun x bytes => bytes = be16 x.toUInt16) never := by
  have h := decodes_rawbyte.bind fun a => decodes_rawbyte.map fun b =>
    (((a &&& 0xff) <<< 8).toUInt16.toInt16.toInt32.toUInt32 ||| (b &&& 0xff)).toUInt16.toInt16
  refine h.congr (fun x bytes _ => ?_) fun _ _ _ => by simp [never]
  constructor
  · rintro ⟨_, _, _, rfl, ⟨a, rfl, rfl⟩, _, rfl, b, rfl, rfl⟩
    rw [short_word]
    exact (be16_ofBe16 a b).symm
  · rintro rfl
    refine ⟨_, [_], [_], rfl, ⟨_, rfl, rfl⟩, _, ?_, _, rfl, rfl⟩
    rw [short_word, ofBe16_be16, Int16.toInt16_toUInt16]

theorem decodes_extractUint : Decodes extractUint (fun x bytes => bytes = be32 x) never := by
  have h := decodes_rawbyte.bind fun a => decodes_rawbyte.bind fun b =>
    decodes_rawbyte.bind fun c => decodes_rawbyte.map fun d =>
      ((a &&& 0xff) <<< 24) ||| ((b &&& 0xff) <<< 16) ||| ((c &&& 0xff) <<< 8) ||| (d &&& 0xff)
  refine h.congr (fun x bytes _ => ?_) fun _ _ _ => by simp [never]
  constructor
  · rintro ⟨_, _, _, rfl, ⟨a, rfl, rfl⟩, _, _, _, rfl, ⟨b, rfl, rfl⟩, _, _, _, rfl,
      ⟨c, rfl, rfl⟩, _, rfl, d, rfl, rfl⟩
    simp only [signExtend_and_mask]
    exact (be32_ofBe32 a b c d).symm
  · rintro rfl
    refine ⟨_, [_], _, rfl, ⟨_, rfl, rfl⟩, _, [_], _, rfl, ⟨_, rfl, rfl⟩, _, [_], [_], rfl,
      ⟨_, rfl, rfl⟩, _, ?_, _, rfl, rfl⟩
    simp only [signExtend_and_mask]
    exact (ofBe32_be32 x).symm

/-- The signed operator reads what the unsigned one reads. -/
theorem extractInt_eq : extractInt = extractUint.bind fun x => Extract.pure x.toInt32 := by
  funext u
  simp only [extractInt, extractUint, Bind.bind, Extract.bind, Option.bind_assoc]
  rfl

theorem decodes_extractInt :
    Decodes extractInt (fun x bytes => bytes = be32 x.toUInt32) never := by
  rw [extractInt_eq]
  refine (decodes_extractUint.map UInt32.toInt32).congr (fun x bytes _ => ?_)
    fun _ _ _ => Iff.rfl
  constructor
  · rintro ⟨a, rfl, rfl⟩
    simp
  · rintro rfl
    exact ⟨x.toUInt32, by simp, rfl⟩

/-- `unpack` reads an `int` as `operator>>` does. -/
theorem decodes_unpack : Decodes unpack (fun x bytes => bytes = be32 x.toUInt32) never :=
  decodes_extractInt

theorem decodes_extractUlonglong :
    Decodes extractUlonglong (fun x bytes => bytes = be64 x) never := by
  have h := decodes_extractUint.bind fun high => decodes_extractUint.map fun low =>
    ofBe64 high low
  refine h.congr (fun x bytes _ => ?_) fun _ _ _ => by simp [never]
  constructor
  · rintro ⟨high, _, _, rfl, rfl, low, rfl, rfl⟩
    exact (be64_ofBe64 high low).symm
  · rintro rfl
    exact ⟨(x >>> 32).toUInt32, _, _, rfl, rfl, x.toUInt32, (ofBe64_be64 x).symm, rfl⟩

/-! ## Unmarshalling strings and containers -/

/-- The inputs on which reading a string leaves the buffer: the length field
that lies ahead, added to the position behind it, reaches 2^32. -/
def LongString (pos : ℕ) (rest : Bytes) : Prop :=
  ∃ (n : UInt32) (right : Bytes), rest = be32 n ++ right ∧ 2 ^ 32 ≤ pos + 4 + n.toNat

theorem ofNat_length {α : Type} {items : List α} {n : UInt32} (h : items.length = n.toNat) :
    UInt32.ofNat items.length = n := by
  rw [h, UInt32.ofNat_toNat]

theorem toNat_ofNat_length {α : Type} {items : List α} (h : items.length < 2 ^ 32) :
    (UInt32.ofNat items.length).toNat = items.length := by
  rw [UInt32.toNat_ofNat', Nat.mod_eq_of_lt h]

theorem decodes_extractString (s : Bytes) :
    Decodes (extractString s)
      (fun out bytes => bytes = be32 (UInt32.ofNat out.length) ++ out) LongString := by
  refine (decodes_extractUint.bind fun n => decodes_rawbytes s n).congr
    (fun out bytes hlt => ?_) fun pos rest _ => ?_
  · constructor
    · rintro ⟨n, _, right, rfl, rfl, rfl, hlength⟩
      rw [ofNat_length hlength]
    · rintro rfl
      rw [List.length_append, length_be32] at hlt
      exact ⟨_, _, out, rfl, rfl, rfl, (toNat_ofNat_length (by omega)).symm⟩
  · constructor
    · rintro (hnever | ⟨n, _, right, rfl, rfl, hlong⟩)
      · exact hnever.elim
      · exact ⟨n, right, rfl, hlong⟩
    · rintro ⟨n, right, rfl, hlong⟩
      exact .inr ⟨n, _, right, rfl, rfl, hlong⟩

/-- Reading a vector into a variable that holds some elements already. -/
theorem decodes_vector {p : Platform} {elem : Ty} {stray : ℕ → Bytes → Prop}
    (helem : Decodes (extract p elem (elem.fresh p)) (fun v bytes => bytes = encode p elem v)
      stray) :
    Decodes (extract p (.vector elem) ((Ty.vector elem).fresh p))
      (fun v bytes => bytes = encode p (.vector elem) v)
      (fun pos rest => ∃ (n : UInt32) (items : List (elem.Val p)) (right : Bytes),
        items.length < n.toNat ∧ rest = be32 n ++ (items.flatMap (encode p elem) ++ right) ∧
        stray (pos + 4 + (items.flatMap (encode p elem)).length) right) := by
  refine (decodes_extractUint.bind fun n => helem.pushLoop n.toNat []).congr
    (fun v bytes hlt => ?_) fun pos rest _ => ?_
  · constructor
    · rintro ⟨n, _, _, rfl, rfl, items, hlength, rfl, rfl⟩
      simp only [encode, counted, ofNat_length hlength]
    · rintro rfl
      simp only [encode, counted, List.length_append, length_be32] at hlt
      have hle := length_le_flatMap (length_encode_pos p elem) v
      exact ⟨_, _, _, rfl, rfl, v, (toNat_ofNat_length (by omega)).symm, rfl, rfl⟩
  · constructor
    · rintro (hnever | ⟨n, _, _, rfl, rfl, items, right, hlt, rfl, hstray⟩)
      · exact hnever.elim
      · exact ⟨n, items, right, hlt, rfl, hstray⟩
    · rintro ⟨n, items, right, hlt, rfl, hstray⟩
      exact .inr ⟨n, _, _, rfl, rfl, items, right, hlt, rfl, hstray⟩

/-! ## Reading the bytes of any value back -/

/-- A container reads its own bytes back when its loop body reads the bytes of
every element. -/
theorem reads_counted {α β : Type} {body : α → Extract α} {next : α → β → α}
    {bytes : β → Bytes} (hpos : ∀ b, 0 < (bytes b).length) (items : List β)
    (hbody : ∀ a, ∀ b ∈ items, Reads (body a) (bytes b) (next a b)) (a : α) :
    Reads (extractUint.bind fun n => Extract.loop body n.toNat a) (counted bytes items)
      (items.foldl next a) := by
  intro u hrange hok rest hremaining
  have hlength := congrArg List.length hremaining
  simp only [length_remaining, counted, List.length_append, length_be32] at hlength
  have hle := length_le_flatMap hpos items
  have hlt := hrange.length_lt
  have hcount := decodes_extractUint.reads (UInt32.ofNat items.length) _ rfl
  refine (hcount.bind (b := items.foldl next a) ?_) u hrange hok rest hremaining
  rw [toNat_ofNat_length (by omega)]
  exact Reads.loop items hbody a

theorem foldl_push {α : Type} (items done : List α) :
    items.foldl (fun done z => done ++ [z]) done = done ++ items := by
  induction items generalizing done with
  | nil => simp
  | cons item rest ih => simp [ih]

theorem reads_vector {p : Platform} {elem : Ty}
    (helem : ∀ z, Reads (extract p elem (elem.fresh p)) (encode p elem z) z)
    (v : List (elem.Val p)) :
    Reads (extract p (.vector elem) ((Ty.vector elem).fresh p)) (encode p (.vector elem) v) v := by
  have h := reads_counted (length_encode_pos p elem) v
    (fun items z _ => (helem z).map fun z => items ++ [z]) []
  rw [foldl_push] at h
  exact h

theorem reads_map {p : Platform} {key value : Ty}
    (hkey : ∀ a, Reads (extract p key (key.fresh p)) (encode p key a) a)
    (hvalue : ∀ b, Reads (extract p value (value.fresh p)) (encode p value b) b)
    (d : SortedMap (key.Val p) (value.Val p)) :
    Reads (extract p (.map key value) ((Ty.map key value).fresh p))
      (encode p (.map key value) d) d := by
  have hpos : ∀ entry : key.Val p × value.Val p,
      0 < (encode p key entry.1 ++ encode p value entry.2).length := fun entry => by
    rw [List.length_append]
    exact Nat.add_pos_left (length_encode_pos p key entry.1) _
  have hassign : ∀ (current : SortedMap (key.Val p) (value.Val p)), ∀ entry ∈ d.1,
      Reads ((extract p key (key.fresh p)).bind fun a =>
          (extract p value (value.fresh p)).bind fun b => Extract.pure (current.assign a b))
        (encode p key entry.1 ++ encode p value entry.2)
        (current.assign entry.1 entry.2) := fun current entry _ =>
    (hkey entry.1).bind ((hvalue entry.2).map fun b => current.assign entry.1 b)
  have h := reads_counted hpos d.1 hassign SortedMap.empty
  rw [show d.1.foldl (fun current entry => current.assign entry.1 entry.2) SortedMap.empty = d
    from SortedMap.assignAll_entries d] at h
  exact h

/-- `operator>>` into a fresh variable reads the bytes of any value back. -/
theorem reads_extract (p : Platform) (t : Ty) (v : t.Val p) :
    Reads (extract p t (t.fresh p)) (encode p t v) v := by
  induction t with
  | uchar => exact decodes_extractUchar.reads v _ rfl
  | char => exact decodes_extractChar.reads v _ rfl
  | ushort => exact decodes_extractUshort.reads v _ rfl
  | short => exact decodes_extractShort.reads v _ rfl
  | uint => exact decodes_extractUint.reads v _ rfl
  | int => exact decodes_extractInt.reads v _ rfl
  | ulonglong => exact decodes_extractUlonglong.reads v _ rfl
  | ulong =>
      cases p with
      | ilp32 => exact decodes_extractUint.reads v _ rfl
      | lp64 => exact decodes_extractUlonglong.reads v _ rfl
  | string => exact (decodes_extractString []).reads v _ rfl
  | vector elem ih => exact reads_vector ih v
  | map key value ihKey ihValue => exact reads_map ihKey ihValue v

end Ty

end YfsLab.Wire
