/-
# Containers from any message

The grammar of all wire types, maps included. A map has many encodings: its entries
may come in any order and any number of times. Reading a container is a loop whose
trip count is a number from the message, and the loop does not look at the failure
flag: it makes as many passes as the message announces, whether there are bytes for
them or not, unless a string length takes it outside the buffer first.
-/

import YfsLab.Wire.Destination

namespace YfsLab.Wire

open BigEndian Unmarshall

universe u

/-! ## Counted sequences and pairs -/

section Formats

variable {α β : Type u}

/-- Items, each with bytes that spell it. -/
def Spelled (format : β → Bytes → Prop) (items : List (β × Bytes)) : Prop :=
  ∀ item ∈ items, format item.1 item.2

/-- A count, and as many items, of which a value is built. -/
def Sequence (format : β → Bytes → Prop) (next : α → β → α) (start : α) : α → Bytes → Prop :=
  fun a bytes => ∃ (n : UInt32) (items : List (β × Bytes)), items.length = n.toNat ∧
    Spelled format items ∧ a = items.foldl (fun a item => next a item.1) start ∧
    bytes = be32 n ++ items.flatMap Prod.snd

/-- Behind a count and fewer items than it announces, the buffer is left. -/
def SequenceStray (format : β → Bytes → Prop) (stray : ℕ → Bytes → Prop) : ℕ → Bytes → Prop :=
  fun pos rest => ∃ (n : UInt32) (items : List (β × Bytes)) (right : Bytes),
    items.length < n.toNat ∧ Spelled format items ∧
    rest = be32 n ++ (items.flatMap Prod.snd ++ right) ∧
    stray (pos + 4 + (items.flatMap Prod.snd).length) right

/-- One thing behind another. -/
def Pair (first : α → Bytes → Prop) (second : β → Bytes → Prop) : α × β → Bytes → Prop :=
  fun x bytes => ∃ left right, bytes = left ++ right ∧ first x.1 left ∧ second x.2 right

/-- The buffer is left by the first thing, or behind it by the second. -/
def PairStray (first : α → Bytes → Prop) (stray stray' : ℕ → Bytes → Prop) :
    ℕ → Bytes → Prop :=
  fun pos rest => stray pos rest ∨
    ∃ a left right, rest = left ++ right ∧ first a left ∧ stray' (pos + left.length) right

variable {op : Extract α} {op' : Extract β} {format : α → Bytes → Prop}
  {format' : β → Bytes → Prop} {stray stray' : ℕ → Bytes → Prop}

theorem Decodes.pair (hop : Decodes op format stray) (hop' : Decodes op' format' stray') :
    Decodes (op.bind fun a => op'.bind fun b => Extract.pure (a, b)) (Pair format format')
      (PairStray format stray stray') := by
  refine (hop.bind fun a => hop'.map fun b => (a, b)).congr (fun x bytes _ => ?_)
    fun _ _ _ => Iff.rfl
  constructor
  · rintro ⟨a, left, right, rfl, hleft, b, rfl, hright⟩
    exact ⟨left, right, rfl, hleft, hright⟩
  · rintro ⟨left, right, rfl, hleft, hright⟩
    exact ⟨x.1, left, right, rfl, hleft, x.2, rfl, hright⟩

end Formats

theorem Decodes.sequence {α β : Type} {op : Extract β} {format : β → Bytes → Prop}
    {stray : ℕ → Bytes → Prop} (hop : Decodes op format stray) (next : α → β → α) (start : α) :
    Decodes
      (Ty.extractUint.bind fun n =>
        Extract.loop (fun a => op.bind fun b => Extract.pure (next a b)) n.toNat start)
      (Sequence format next start) (SequenceStray format stray) := by
  refine (Ty.decodes_extractUint.bind fun n => hop.foldLoop next n.toNat start).congr
    (fun a bytes _ => ?_) fun pos rest _ => ?_
  · constructor
    · rintro ⟨n, _, _, rfl, rfl, items, hlength, hall, rfl, rfl⟩
      exact ⟨n, items, hlength, hall, rfl, rfl⟩
    · rintro ⟨n, items, hlength, hall, rfl, rfl⟩
      exact ⟨n, _, _, rfl, rfl, items, hlength, hall, rfl, rfl⟩
  · constructor
    · rintro (hnever | ⟨n, _, _, rfl, rfl, items, right, hlt, hall, rfl, hstray⟩)
      · exact hnever.elim
      · exact ⟨n, items, right, hlt, hall, rfl, hstray⟩
    · rintro ⟨n, items, right, hlt, hall, rfl, hstray⟩
      exact .inr ⟨n, _, _, rfl, rfl, items, right, hlt, hall, rfl, hstray⟩

namespace Ty

/-! ## The grammar of the wire types -/

/-- The bytes from which `operator>>` reads a value. -/
def Spells (p : Platform) : (t : Ty) → t.Val p → Bytes → Prop
  | .vector elem =>
      Sequence (Spells p elem) (fun (items : List (elem.Val p)) z => items ++ [z]) []
  | .map key value =>
      Sequence (Pair (Spells p key) (Spells p value))
        (fun (d : SortedMap (key.Val p) (value.Val p)) entry => d.assign entry.1 entry.2)
        SortedMap.empty
  | t => fun v bytes => bytes = encode p t v

/-- The positions and the bytes ahead with which `operator>>` leaves the buffer. -/
def Strays (p : Platform) : Ty → ℕ → Bytes → Prop
  | .string => LongString
  | .vector elem => SequenceStray (Spells p elem) (Strays p elem)
  | .map key value =>
      SequenceStray (Pair (Spells p key) (Spells p value))
        (PairStray (Spells p key) (Strays p key) (Strays p value))
  | _ => never

/-- The entry that the loop of a map reads in one pass. -/
def extractEntry (p : Platform) (key value : Ty) : Extract (key.Val p × value.Val p) :=
  (extract p key (key.fresh p)).bind fun a =>
    (extract p value (value.fresh p)).bind fun b => Extract.pure (a, b)

/-- The body of the loop of a vector. -/
def pushBody (p : Platform) (elem : Ty) (items : List (elem.Val p)) :
    Extract (List (elem.Val p)) :=
  (extract p elem (elem.fresh p)).bind fun z => Extract.pure (items ++ [z])

/-- The body of the loop of a map. -/
def assignBody (p : Platform) (key value : Ty) (d : SortedMap (key.Val p) (value.Val p)) :
    Extract (SortedMap (key.Val p) (value.Val p)) :=
  (extractEntry p key value).bind fun entry => Extract.pure (d.assign entry.1 entry.2)

theorem extract_map_eq (p : Platform) (key value : Ty) (held : (Ty.map key value).Val p) :
    extract p (.map key value) held = Extract.bind extractUint fun n =>
      Extract.loop (assignBody p key value) n.toNat SortedMap.empty := by
  have hbody : assignBody p key value = fun d =>
      Extract.bind (extract p key (key.fresh p)) fun a =>
        Extract.bind (extract p value (value.fresh p)) fun b =>
          Extract.pure (d.assign a b) := by
    funext d u
    simp only [assignBody, extractEntry, Extract.bind, Extract.pure, Option.bind_assoc,
      Option.bind_some]
  rw [hbody]
  rfl

/-- `operator>>` into a new variable reads what the grammar says, for every wire
type. -/
theorem decodes_spells (p : Platform) (t : Ty) :
    Decodes (extract p t (t.fresh p)) (Spells p t) (Strays p t) := by
  induction t with
  | uchar => exact decodes_extractUchar
  | char => exact decodes_extractChar
  | ushort => exact decodes_extractUshort
  | short => exact decodes_extractShort
  | uint => exact decodes_extractUint
  | int => exact decodes_extractInt
  | ulonglong => exact decodes_extractUlonglong
  | ulong =>
      cases p with
      | ilp32 => exact decodes_extractUint
      | lp64 => exact decodes_extractUlonglong
  | string => exact decodes_extractString []
  | vector elem ih =>
      exact ih.sequence (fun (items : List (elem.Val p)) z => items ++ [z]) []
  | map key value ihKey ihValue =>
      rw [extract_map_eq]
      exact (ihKey.pair ihValue).sequence
        (fun (d : SortedMap (key.Val p) (value.Val p)) entry => d.assign entry.1 entry.2)
        SortedMap.empty

/-- No value is spelled with less than one byte. -/
theorem Spells.length_pos {p : Platform} {t : Ty} {v : t.Val p} {bytes : Bytes}
    (h : Spells p t v bytes) : 0 < bytes.length := by
  cases t with
  | vector elem =>
      obtain ⟨n, items, -, -, -, rfl⟩ := h
      rw [List.length_append, length_be32]
      omega
  | map key value =>
      obtain ⟨n, items, -, -, -, rfl⟩ := h
      rw [List.length_append, length_be32]
      omega
  | _ =>
      obtain rfl := h
      exact length_encode_pos p _ v

end Ty

/-! ## The passes of a loop -/

/-- The number of passes a loop begins: all that it is told to make, or those up to the
one that leaves the buffer. -/
def Extract.passes {α : Type u} (body : α → Extract α) : ℕ → α → Unmarshall → ℕ
  | 0, _, _ => 0
  | n + 1, a, u =>
      match body a u with
      | none => 1
      | some (b, after) => Extract.passes body n b after + 1

/-- The bytes that have not been read. -/
def Unmarshall.unread (u : Unmarshall) : ℕ := u.buf.length - u.ind

section Passes

variable {α β : Type u}

/-- Nothing but leaving the buffer ends the loop early. -/
theorem passes_eq_of_loop (body : α → Extract α) (n : ℕ) (a : α) (u : Unmarshall)
    (hloop : Extract.loop body n a u ≠ none) : Extract.passes body n a u = n := by
  induction n generalizing a u with
  | zero => rfl
  | succ n ih =>
      rw [Extract.loop, Extract.bind] at hloop
      rw [Extract.passes]
      cases hbody : body a u with
      | none => exact absurd (by rw [hbody]; rfl) hloop
      | some result =>
          rw [hbody] at hloop
          show Extract.passes body n result.1 result.2 + 1 = n + 1
          rw [ih result.1 result.2 hloop]

/-- A loop that leaves the buffer has read at least one byte in each pass before that
one, since the buffer is only left while nothing has failed. -/
theorem passes_le_of_loop {op : Extract β} {next : α → β → α} {format : β → Bytes → Prop}
    {stray : ℕ → Bytes → Prop} (hop : Decodes op format stray)
    (hpos : ∀ b bytes, format b bytes → 0 < bytes.length) (n : ℕ) (a : α) {u : Unmarshall}
    (hrange : u.InRange)
    (hloop : Extract.loop (fun a => op.bind fun b => Extract.pure (next a b)) n a u = none) :
    Extract.passes (fun a => op.bind fun b => Extract.pure (next a b)) n a u ≤
      u.unread + 1 := by
  induction n generalizing a u with
  | zero => exact Nat.zero_le _
  | succ n ih =>
      have houtcome := hop.outcome u hrange
      rw [Extract.loop, Extract.bind] at hloop
      rw [Extract.passes]
      cases hread : op u with
      | none =>
          have hbody : (op.bind fun b => Extract.pure (next a b)) u = none := by
            rw [Extract.bind, hread]
            rfl
          rw [hbody]
          show 1 ≤ u.unread + 1
          omega
      | some result =>
          obtain ⟨b, after⟩ := result
          have hbody : (op.bind fun b => Extract.pure (next a b)) u =
              some (next a b, after) := by
            rw [Extract.bind, hread]
            rfl
          rw [hbody] at hloop ⊢
          rw [hread] at houtcome
          cases houtcome with
          | delivered hinside hprogress haccepted =>
              have hrest := ih (next a b) hprogress.inRange hloop
              -- the rest of the loop leaves the buffer, so nothing has failed yet
              have hok : after.ok = true := by
                have hrun := (hop.foldLoop next n (next a b)).outcome _ hprogress.inRange
                rw [show Extract.loop (fun a => op.bind fun b => Extract.pure (next a b)) n
                  (next a b) after = none from hloop] at hrun
                cases hrun with
                | outside hok hstray => exact hok
              obtain ⟨hok', bytes, hremaining, hind, hbytes⟩ := haccepted hok
              have hbuf := hprogress.buf_eq
              have hend := hprogress.inRange.ind_le hok
              have hlength := hpos b bytes hbytes
              show Extract.passes _ n (next a b) after + 1 ≤ u.unread + 1
              rw [unread] at hrest ⊢
              rw [hbuf] at hrest hend
              omega

/-- A loop whose passes never leave the buffer does not leave it. -/
theorem loop_ne_none {op : Extract β} {format : β → Bytes → Prop}
    (hop : Decodes op format never) (next : α → β → α) (n : ℕ) (a : α) {u : Unmarshall}
    (hrange : u.InRange) :
    Extract.loop (fun a => op.bind fun b => Extract.pure (next a b)) n a u ≠ none := by
  intro hnone
  have houtcome := (hop.foldLoop next n a).outcome u hrange
  rw [hnone] at houtcome
  cases houtcome with
  | outside hok hstray =>
      obtain ⟨items, right, -, -, -, hnever⟩ := hstray
      exact hnever

end Passes

/-! ## The loops of the containers -/

/-- The element count that the message announces. -/
def announced (u : Unmarshall) : ℕ := ((Ty.extractUint u).map fun count => count.1.toNat).getD 0

/-- The passes of a loop behind an element count. -/
def countedPasses {α : Type} (body : α → Extract α) (start : α) (u : Unmarshall) : ℕ :=
  ((Ty.extractUint u).map fun count => Extract.passes body count.1.toNat start count.2).getD 0

/-- The passes that the loop of a container makes are within the bytes ahead just where
the announced number is, or where the buffer is left on the way. -/
theorem countedPasses_le_iff {α β : Type} {op : Extract β} {format : β → Bytes → Prop}
    {stray : ℕ → Bytes → Prop} (hop : Decodes op format stray)
    (hpos : ∀ b bytes, format b bytes → 0 < bytes.length) (next : α → β → α) (start : α)
    {u : Unmarshall} (hrange : u.InRange) :
    countedPasses (fun a => op.bind fun b => Extract.pure (next a b)) start u ≤ u.unread + 1 ↔
      announced u ≤ u.unread + 1 ∨
        (u.ok = true ∧ SequenceStray format stray u.ind u.remaining) := by
  have hcount := Ty.decodes_extractUint.outcome u hrange
  have hwhole := (hop.sequence next start).outcome u hrange
  rw [Extract.bind] at hwhole
  rw [countedPasses, announced]
  cases hread : Ty.extractUint u with
  | none =>
      rw [hread] at hcount
      cases hcount with
      | outside hok hstray => exact hstray.elim
  | some count =>
      obtain ⟨n, middle⟩ := count
      rw [hread] at hcount hwhole
      simp only [Option.map_some, Option.getD_some]
      rw [Option.bind_some] at hwhole
      cases hcount with
      | delivered hinside hprogress haccepted =>
          cases hloop : Extract.loop (fun a => op.bind fun b => Extract.pure (next a b))
              n.toNat start middle with
          | none =>
              rw [hloop] at hwhole
              cases hwhole with
              | outside hok hstray =>
                  have hpasses :=
                    passes_le_of_loop hop hpos n.toNat start hprogress.inRange hloop
                  have hfewer : middle.unread ≤ u.unread := by
                    rw [unread, unread, hprogress.buf_eq]
                    exact Nat.sub_le_sub_left hprogress.ind_le _
                  exact iff_of_true (by omega) (.inr ⟨hok, hstray⟩)
          | some result =>
              rw [hloop] at hwhole
              have hpasses := passes_eq_of_loop (fun a => op.bind fun b =>
                Extract.pure (next a b)) n.toNat start middle (by rw [hloop]; simp)
              rw [hpasses]
              cases hwhole with
              | delivered hinside' hprogress' haccepted' =>
                  exact ⟨fun hle => .inl hle, fun h => h.resolve_right hinside'⟩

/-- Decoding a container from any message: the loop of `operator>>` for a vector and for
a map makes no more passes than there were unread bytes, and one, exactly if the element
count that the message announces is no larger than that, or a string length takes the
read outside the buffer on the way. -/
theorem boundedPasses (p : Platform) {u : Unmarshall} (hrange : u.InRange) :
    (∀ (elem : Ty) (held : List (elem.Val p)),
      countedPasses (Ty.pushBody p elem) held u ≤ u.unread + 1 ↔
        announced u ≤ u.unread + 1 ∨
          (u.ok = true ∧ (Ty.vector elem).Strays p u.ind u.remaining)) ∧
    ∀ key value : Ty,
      countedPasses (Ty.assignBody p key value) SortedMap.empty u ≤ u.unread + 1 ↔
        announced u ≤ u.unread + 1 ∨
          (u.ok = true ∧ (Ty.map key value).Strays p u.ind u.remaining) := by
  constructor
  · intro elem held
    exact countedPasses_le_iff (Ty.decodes_spells p elem) (fun _ _ => Ty.Spells.length_pos)
      (fun items z => items ++ [z]) held hrange
  · intro key value
    apply countedPasses_le_iff ((Ty.decodes_spells p key).pair (Ty.decodes_spells p value))
      _ (fun d entry => d.assign entry.1 entry.2) SortedMap.empty hrange
    rintro entry bytes ⟨left, right, rfl, hleft, -⟩
    rw [List.length_append]
    exact Nat.add_pos_left hleft.length_pos _

/-- A vector of two bytes: two passes for six unread bytes. -/
theorem boundedPasses_twoBytes :
    countedPasses (Ty.pushBody .lp64 .uchar) [] (ofBuf [0, 0, 0, 2, 7, 8]) ≤ 7 :=
  ((boundedPasses .lp64 (u := ofBuf [0, 0, 0, 2, 7, 8])
    ⟨by decide, fun _ => by decide⟩).1 .uchar []).mpr (.inl (by decide))

/-- A payload of four bytes that announces 4294967295 elements: the loop makes that many
passes, and appends an element in each. -/
theorem announcedOnly_passes :
    (ofBuf [255, 255, 255, 255]).unread = 4 ∧
      countedPasses (Ty.pushBody .lp64 .uchar) [] (ofBuf [255, 255, 255, 255]) = 4294967295 ∧
      ¬countedPasses (Ty.pushBody .lp64 .uchar) [] (ofBuf [255, 255, 255, 255]) ≤
        (ofBuf [255, 255, 255, 255]).unread + 1 := by
  have hread : Ty.extractUint (ofBuf [255, 255, 255, 255]) =
      some (4294967295, { buf := [255, 255, 255, 255], ind := 4, ok := true }) := by decide
  have hloop : Extract.loop (Ty.pushBody .lp64 .uchar) (4294967295 : UInt32).toNat []
      { buf := [255, 255, 255, 255], ind := 4, ok := true } ≠ none :=
    loop_ne_none (Ty.decodes_spells .lp64 .uchar) (fun items z => items ++ [z]) _ _
      ⟨by decide, fun _ => by decide⟩
  have hpasses : countedPasses (Ty.pushBody .lp64 .uchar) [] (ofBuf [255, 255, 255, 255]) =
      4294967295 := by
    rw [countedPasses, hread, Option.map_some, Option.getD_some, passes_eq_of_loop _ _ _ _ hloop]
    rfl
  refine ⟨rfl, hpasses, ?_⟩
  rw [hpasses]
  decide

end YfsLab.Wire
