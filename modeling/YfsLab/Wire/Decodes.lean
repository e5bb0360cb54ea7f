/-
# What a read operation does to its input

Two descriptions of a read operation, and how they compose. `Reads` says what it
delivers when the bytes of one value lie ahead. `Decodes` classifies what can
happen on any input: the operation accepts exactly the byte sequences of a
format, clears the failure flag on everything else, and runs outside the buffer
exactly on the inputs a second predicate names.
-/

import YfsLab.Wire.Unmarshall

namespace YfsLab.Wire

open BigEndian Unmarshall

universe u

variable {α β : Type u}

/-! ## Reading the bytes of a value -/

/-- With these bytes ahead, the operation delivers the value and moves the
position behind them. -/
def Reads (op : Extract α) (bytes : Bytes) (a : α) : Prop :=
  ∀ u : Unmarshall, u.InRange → u.ok = true → ∀ rest, u.remaining = bytes ++ rest →
    op u = some (a, u.advance bytes.length)

theorem Reads.pure (a : α) : Reads (Extract.pure a) [] a :=
  fun _ _ _ _ _ => rfl

theorem Reads.bind {op : Extract α} {next : α → Extract β} {left right : Bytes} {a : α} {b : β}
    (hfirst : Reads op left a) (hnext : Reads (next a) right b) :
    Reads (op.bind next) (left ++ right) b := by
  intro u hrange hok rest hremaining
  rw [List.append_assoc] at hremaining
  rw [Extract.bind, hfirst u hrange hok _ hremaining, Option.bind_some,
    hnext _ (hrange.advance hremaining hok) hok rest (remaining_advance hremaining),
    advance_advance, List.length_append]

theorem Reads.map {op : Extract α} {bytes : Bytes} {a : α} (hop : Reads op bytes a)
    (f : α → β) : Reads (op.bind fun a => Extract.pure (f a)) bytes (f a) := by
  intro u hrange hok rest hremaining
  rw [Extract.bind, hop u hrange hok rest hremaining]
  rfl

/-- A loop reads a sequence whose elements each iteration reads. -/
theorem Reads.loop {body : α → Extract α} {next : α → β → α} {bytes : β → Bytes}
    (items : List β) (hbody : ∀ a, ∀ b ∈ items, Reads (body a) (bytes b) (next a b)) (a : α) :
    Reads (Extract.loop body items.length a) (items.flatMap bytes) (items.foldl next a) := by
  induction items generalizing a with
  | nil => exact Reads.pure a
  | cons item rest ih =>
      have hhead := hbody a item List.mem_cons_self
      have htail := ih (fun a b hmem => hbody a b (List.mem_cons_of_mem _ hmem)) (next a item)
      exact hhead.bind htail

/-! ## What can happen on any input -/

/-- The frame of a read: the buffer stays, the position never moves backwards,
and it stays inside the buffer if it was there. -/
structure Progress (u after : Unmarshall) : Prop where
  buf_eq : after.buf = u.buf
  ind_le : u.ind ≤ after.ind
  ind_le_max : after.ind ≤ max u.ind u.buf.length
  inRange : after.InRange

theorem Progress.refl {u : Unmarshall} (h : u.InRange) : Progress u u :=
  ⟨rfl, le_refl _, le_max_left _ _, h⟩

theorem Progress.trans {u middle after : Unmarshall} (hleft : Progress u middle)
    (hright : Progress middle after) : Progress u after := by
  have hbuf := hleft.buf_eq
  have hmax := hright.ind_le_max
  have hmax' := hleft.ind_le_max
  rw [hbuf] at hmax
  exact ⟨hright.buf_eq.trans hbuf, hleft.ind_le.trans hright.ind_le, by omega, hright.inRange⟩

/-- The result of a read operation on an input: it leaves the buffer, or it
delivers a value, and then, if the flag is still up, the bytes it went past are
bytes of that value. -/
inductive Outcome (format : α → Bytes → Prop) (stray : ℕ → Bytes → Prop) (u : Unmarshall) :
    Option (α × Unmarshall) → Prop
  | outside (hok : u.ok = true) (hstray : stray u.ind u.remaining) :
      Outcome format stray u none
  | delivered {a : α} {after : Unmarshall}
      (hinside : ¬ (u.ok = true ∧ stray u.ind u.remaining))
      (hprogress : Progress u after)
      (haccepted : after.ok = true → u.ok = true ∧
        ∃ bytes, u.remaining = bytes ++ after.remaining ∧ after.ind = u.ind + bytes.length ∧
          format a bytes) :
      Outcome format stray u (some (a, after))

/-- Formats are compared on byte sequences that fit a buffer only. -/
theorem Outcome.congr {format format' : α → Bytes → Prop} {stray stray' : ℕ → Bytes → Prop}
    {u : Unmarshall} (hrange : u.InRange) {result : Option (α × Unmarshall)}
    (hformat : ∀ a bytes, bytes.length < 2 ^ 31 → format a bytes → format' a bytes)
    (hstray : ∀ pos rest, rest.length < 2 ^ 31 → (stray pos rest ↔ stray' pos rest))
    (h : Outcome format stray u result) : Outcome format' stray' u result := by
  have hlt := hrange.length_lt
  have hiff := hstray u.ind u.remaining (by rw [length_remaining]; omega)
  cases h with
  | outside hok hstray => exact .outside hok (hiff.mp hstray)
  | delivered hinside hprogress haccepted =>
      refine .delivered (fun hboth => hinside ⟨hboth.1, hiff.mpr hboth.2⟩) hprogress
        fun hok => ?_
      obtain ⟨hok', bytes, hremaining, hind, hbytes⟩ := haccepted hok
      have hlength := congrArg List.length hremaining
      rw [length_remaining, List.length_append] at hlength
      exact ⟨hok', bytes, hremaining, hind, hformat _ bytes (by omega) hbytes⟩

/-- The operation accepts the byte sequences of a format and nothing else, and it
reads outside the buffer exactly where `stray` holds of the position and the
bytes ahead. -/
structure Decodes (op : Extract α) (format : α → Bytes → Prop) (stray : ℕ → Bytes → Prop) :
    Prop where
  reads : ∀ a bytes, format a bytes → Reads op bytes a
  outcome : ∀ u : Unmarshall, u.InRange → Outcome format stray u (op u)

/-- The inputs of an operation that never leaves the buffer. -/
def never : ℕ → Bytes → Prop := fun _ _ => False

namespace Decodes

theorem pure (a : α) : Decodes (Extract.pure a) (fun b bytes => b = a ∧ bytes = []) never where
  reads := by
    rintro _ _ ⟨rfl, rfl⟩
    exact Reads.pure _
  outcome u hrange := .delivered (fun h => h.2) (.refl hrange)
    fun hok => ⟨hok, [], by simp, by simp, rfl, rfl⟩

/-- Formats are compared on byte sequences that fit a buffer only. -/
theorem congr {op : Extract α} {format format' : α → Bytes → Prop}
    {stray stray' : ℕ → Bytes → Prop} (h : Decodes op format stray)
    (hformat : ∀ a bytes, bytes.length < 2 ^ 31 → (format a bytes ↔ format' a bytes))
    (hstray : ∀ pos rest, rest.length < 2 ^ 31 → (stray pos rest ↔ stray' pos rest)) :
    Decodes op format' stray' where
  reads a bytes hbytes u hrange hok rest hremaining := by
    have hlength := congrArg List.length hremaining
    rw [length_remaining, List.length_append] at hlength
    have hlt := hrange.length_lt
    exact h.reads a bytes ((hformat a bytes (by omega)).mpr hbytes) u hrange hok rest hremaining
  outcome u hrange :=
    (h.outcome u hrange).congr hrange (fun a bytes hlt => (hformat a bytes hlt).mp) hstray

/-- One operation after another. The second one is described for every value the
first one can deliver; a parse of the first part is unique, because the first
operation delivers it. -/
theorem bind {op : Extract α} {next : α → Extract β} {format : α → Bytes → Prop}
    {format' : α → β → Bytes → Prop} {stray : ℕ → Bytes → Prop}
    {stray' : α → ℕ → Bytes → Prop} (hop : Decodes op format stray)
    (hnext : ∀ a, Decodes (next a) (format' a) (stray' a)) :
    Decodes (op.bind next)
      (fun b bytes => ∃ a left right, bytes = left ++ right ∧ format a left ∧ format' a b right)
      (fun pos rest => stray pos rest ∨
        ∃ a left right, rest = left ++ right ∧ format a left ∧
          stray' a (pos + left.length) right) where
  reads := by
    rintro b _ ⟨a, left, right, rfl, hleft, hright⟩
    exact (hop.reads a left hleft).bind ((hnext a).reads b right hright)
  outcome u hrange := by
    have hfirst := hop.outcome u hrange
    rw [Extract.bind]
    revert hfirst
    cases hresult : op u with
    | none =>
        intro hfirst
        cases hfirst with
        | outside hok hstray => exact .outside hok (.inl hstray)
    | some result =>
        intro hfirst
        cases hfirst with
        | delivered hinside hprogress haccepted =>
            rename_i a middle
            have hsecond := (hnext a).outcome middle hprogress.inRange
            rw [Option.bind_some]
            revert hsecond
            cases next a middle with
            | none =>
                intro hsecond
                cases hsecond with
                | outside hok hstray =>
                    obtain ⟨hok', left, hremaining, hind, hleft⟩ := haccepted hok
                    exact .outside hok' (.inr ⟨a, left, _, hremaining, hleft, hind ▸ hstray⟩)
            | some final =>
                intro hsecond
                cases hsecond with
                | delivered hinside' hprogress' haccepted' =>
                    refine .delivered ?_ (hprogress.trans hprogress') fun hok => ?_
                    · rintro ⟨hok, hstray | ⟨a', left, right, hremaining, hleft, hstray⟩⟩
                      · exact hinside ⟨hok, hstray⟩
                      · have heq := hop.reads a' left hleft u hrange hok right hremaining
                        rw [hresult, Option.some.injEq, Prod.mk.injEq] at heq
                        obtain ⟨rfl, rfl⟩ := heq
                        refine hinside' ⟨hok, ?_⟩
                        rw [remaining_advance hremaining]
                        exact hstray
                    · obtain ⟨hok', right, hremaining', hind', hright⟩ := haccepted' hok
                      obtain ⟨hok'', left, hremaining, hind, hleft⟩ := haccepted hok'
                      refine ⟨hok'', left ++ right, ?_, ?_, a, left, right, rfl, hleft, hright⟩
                      · rw [hremaining, hremaining', List.append_assoc]
                      · rw [hind', hind, List.length_append, Nat.add_assoc]

/-- Apply a function to what was read. -/
theorem map {op : Extract α} {format : α → Bytes → Prop} {stray : ℕ → Bytes → Prop}
    (hop : Decodes op format stray) (f : α → β) :
    Decodes (op.bind fun a => Extract.pure (f a))
      (fun b bytes => ∃ a, b = f a ∧ format a bytes) stray := by
  refine (hop.bind fun a => Decodes.pure (f a)).congr (fun b bytes _ => ?_) fun pos rest _ => ?_
  · constructor
    · rintro ⟨a, left, right, rfl, hleft, rfl, rfl⟩
      exact ⟨a, rfl, by simpa using hleft⟩
    · rintro ⟨a, rfl, hbytes⟩
      exact ⟨a, bytes, [], by simp, hbytes, rfl, rfl⟩
  · simp [never]

/-- A loop that reads one item after another and puts each into an accumulator reads a
sequence of that length; it leaves the buffer where one of its iterations does. -/
theorem foldLoop {op : Extract β} {format : β → Bytes → Prop} {stray : ℕ → Bytes → Prop}
    (hop : Decodes op format stray) (next : α → β → α) (n : ℕ) (a : α) :
    Decodes (Extract.loop (fun a => op.bind fun b => Extract.pure (next a b)) n a)
      (fun out l => ∃ items : List (β × Bytes), items.length = n ∧
        (∀ item ∈ items, format item.1 item.2) ∧
        out = items.foldl (fun a item => next a item.1) a ∧ l = items.flatMap Prod.snd)
      (fun pos rest => ∃ (items : List (β × Bytes)) (right : Bytes), items.length < n ∧
        (∀ item ∈ items, format item.1 item.2) ∧ rest = items.flatMap Prod.snd ++ right ∧
        stray (pos + (items.flatMap Prod.snd).length) right) := by
  induction n generalizing a with
  | zero =>
      refine (Decodes.pure a).congr (fun out l _ => ?_) fun pos rest _ => by simp [never]
      constructor
      · rintro ⟨rfl, rfl⟩
        exact ⟨[], rfl, nofun, rfl, rfl⟩
      · rintro ⟨items, hlength, -, rfl, rfl⟩
        obtain rfl := List.length_eq_zero_iff.mp hlength
        exact ⟨rfl, rfl⟩
  | succ n ih =>
      refine ((hop.map fun b => next a b).bind ih).congr (fun out l _ => ?_) fun pos rest _ => ?_
      · constructor
        · rintro ⟨_, left, _, rfl, ⟨b, rfl, hb⟩, items, rfl, hall, rfl, rfl⟩
          exact ⟨(b, left) :: items, rfl, List.forall_mem_cons.mpr ⟨hb, hall⟩, rfl, rfl⟩
        · rintro ⟨items, hlength, hall, rfl, rfl⟩
          obtain ⟨⟨b, left⟩, items, rfl⟩ := List.exists_cons_of_length_eq_add_one hlength
          obtain ⟨hb, hall⟩ := List.forall_mem_cons.mp hall
          exact ⟨_, left, _, rfl, ⟨b, rfl, hb⟩, items, by simpa using hlength, hall, rfl, rfl⟩
      · constructor
        · rintro (hstray | ⟨_, left, _, rfl, ⟨b, rfl, hb⟩, items, right, hlt, hall, rfl, hstray⟩)
          · exact ⟨[], rest, by simp, nofun, by simp, by simpa using hstray⟩
          · exact ⟨(b, left) :: items, right, by simpa using hlt,
              List.forall_mem_cons.mpr ⟨hb, hall⟩, by simp,
              by simpa [Nat.add_assoc] using hstray⟩
        · rintro ⟨items, right, hlt, hall, rfl, hstray⟩
          cases items with
          | nil => exact .inl (by simpa using hstray)
          | cons item items =>
              obtain ⟨hb, hall⟩ := List.forall_mem_cons.mp hall
              exact .inr ⟨_, item.2, _, by simp, ⟨item.1, rfl, hb⟩, items, right,
                by simpa using hlt, hall, rfl, by simpa [Nat.add_assoc] using hstray⟩

/-- Appending one item after another appends them all. -/
theorem foldl_push_fst (items : List (α × Bytes)) (done : List α) :
    items.foldl (fun done item => done ++ [item.1]) done = done ++ items.map Prod.fst := by
  induction items generalizing done with
  | nil => simp
  | cons item rest ih => simp [ih]

/-- Items with the bytes that a function gives them. -/
theorem items_eq_map {bytes : α → Bytes} {items : List (α × Bytes)}
    (hall : ∀ item ∈ items, item.2 = bytes item.1) :
    items.flatMap Prod.snd = (items.map Prod.fst).flatMap bytes := by
  induction items with
  | nil => rfl
  | cons item rest ih =>
      obtain ⟨hitem, hrest⟩ := List.forall_mem_cons.mp hall
      rw [List.flatMap_cons, List.map_cons, List.flatMap_cons, hitem, ih hrest]

/-- A loop that appends what it reads to a list reads a sequence of that length;
it leaves the buffer where one of its iterations does. -/
theorem pushLoop {op : Extract α} {bytes : α → Bytes} {stray : ℕ → Bytes → Prop}
    (hop : Decodes op (fun a l => l = bytes a) stray) (n : ℕ) (done : List α) :
    Decodes
      (Extract.loop (fun items => op.bind fun a => Extract.pure (items ++ [a])) n done)
      (fun out l => ∃ items : List α,
        items.length = n ∧ out = done ++ items ∧ l = items.flatMap bytes)
      (fun pos rest => ∃ (items : List α) (right : Bytes), items.length < n ∧
        rest = items.flatMap bytes ++ right ∧
        stray (pos + (items.flatMap bytes).length) right) := by
  refine (hop.foldLoop (fun items a => items ++ [a]) n done).congr (fun out l _ => ?_)
    fun pos rest _ => ?_
  · constructor
    · rintro ⟨items, rfl, hall, rfl, rfl⟩
      exact ⟨items.map Prod.fst, List.length_map .., foldl_push_fst items done,
        items_eq_map hall⟩
    · rintro ⟨items, rfl, rfl, rfl⟩
      refine ⟨items.map fun a => (a, bytes a), List.length_map .., ?_, ?_, ?_⟩
      · intro item hitem
        obtain ⟨a, -, rfl⟩ := List.mem_map.mp hitem
        rfl
      · rw [foldl_push_fst, List.map_map, List.map_id'']
        exact fun _ => rfl
      · rw [List.flatMap_map]
  · constructor
    · rintro ⟨items, right, hlt, hall, rfl, hstray⟩
      rw [items_eq_map hall] at hstray ⊢
      exact ⟨items.map Prod.fst, right, by simpa using hlt, rfl, hstray⟩
    · rintro ⟨items, right, hlt, rfl, hstray⟩
      refine ⟨items.map fun a => (a, bytes a), right, by simpa using hlt, ?_, ?_, ?_⟩
      · intro item hitem
        obtain ⟨a, -, rfl⟩ := List.mem_map.mp hitem
        rfl
      · rw [List.flatMap_map]
      · rwa [List.flatMap_map]

end Decodes

/-! ## The raw reads -/

private theorem getElem_wordMask {i : ℕ} (hi : i < 32) : (255#32)[i] = decide (i < 8) := by
  rw [show (255#32 : BitVec 32) = (BitVec.allOnes 8).setWidth 32 from rfl,
    BitVec.getElem_setWidth, BitVec.getLsbD_allOnes]

/-- A byte survives the sign extension that reading it as a `char` brings, once
the upper bits are masked off. -/
theorem signExtend_and_mask (c : UInt8) :
    c.toInt8.toInt32.toUInt32 &&& 0xff = c.toUInt32 := by
  apply UInt32.toBitVec_inj.mp
  ext i hi
  by_cases h : i < 8
  · simp [BitVec.getElem_signExtend, getElem_wordMask hi, h]
  · simp [BitVec.getElem_signExtend, getElem_wordMask hi, h,
      BitVec.getLsbD_of_ge c.toBitVec i (by omega)]

theorem decodes_rawbyte :
    Decodes rawbyte (fun a bytes => ∃ c : UInt8, bytes = [c] ∧ a = c.toInt8.toInt32.toUInt32)
      never where
  reads := by
    rintro _ _ ⟨c, rfl, rfl⟩ u hrange hok rest hremaining
    have hget : u.buf[u.ind]? = some c := by
      rw [← List.head?_drop, ← remaining, hremaining]
      rfl
    simp [rawbyte, hget, advance]
  outcome u hrange := by
    rw [rawbyte]
    cases hget : u.buf[u.ind]? with
    | none =>
        exact .delivered (fun h => h.2)
          ⟨rfl, le_refl _, le_max_left _ _, ⟨hrange.length_lt, by simp⟩⟩ (by simp)
    | some c =>
        obtain ⟨hlt, hc⟩ := List.getElem?_eq_some_iff.mp hget
        refine .delivered (fun h => h.2)
          ⟨rfl, Nat.le_succ _, by simp only; omega, ⟨hrange.length_lt, fun _ => hlt⟩⟩ ?_
        intro hok
        exact ⟨hok, [c], by simp [remaining, List.drop_eq_getElem_cons hlt, hc], rfl, c, rfl, rfl⟩

/-- The bound check of `rawbytes` is wrong exactly when position and length add
up to 2^32 or more: it then passes, whatever the size of the buffer is. -/
theorem decodes_rawbytes (s : Bytes) (n : UInt32) :
    Decodes (fun u => if u.ok then rawbytes s n u else some (s, u))
      (fun out bytes => out = bytes ∧ bytes.length = n.toNat)
      (fun pos _ => 2 ^ 32 ≤ pos + n.toNat) where
  reads := by
    rintro bytes _ ⟨rfl, hlength⟩ u hrange hok rest hremaining
    have hsum := congrArg List.length hremaining
    rw [length_remaining, List.length_append] at hsum
    have hlt := hrange.length_lt
    have hind := hrange.ind_le hok
    have hcheck : ¬ UInt32.ofNat u.buf.length < UInt32.ofNat u.ind + n := by
      rw [UInt32.lt_iff_toNat_lt, UInt32.toNat_add, UInt32.toNat_ofNat', UInt32.toNat_ofNat']
      omega
    have hfits : u.ind + bytes.length ≤ u.buf.length := by omega
    simp only [hok, if_true, rawbytes, hcheck, if_false, ← hlength]
    rw [if_pos hfits, ← remaining, hremaining, List.take_left]
    simp [advance, hok]
  outcome u hrange := by
    have hlt := hrange.length_lt
    by_cases hok : u.ok = true
    · have hind := hrange.ind_le hok
      have hn := n.toNat_lt
      simp only [hok, if_true, rawbytes, UInt32.lt_iff_toNat_lt, UInt32.toNat_add,
        UInt32.toNat_ofNat']
      by_cases hwrap : 2 ^ 32 ≤ u.ind + n.toNat
      · rw [if_neg (by omega), if_neg (by omega)]
        exact .outside hok hwrap
      · by_cases hfits : u.ind + n.toNat ≤ u.buf.length
        · rw [if_neg (by omega), if_pos hfits]
          refine .delivered (fun h => hwrap h.2)
            ⟨rfl, Nat.le_add_right _ _, by simp only; omega, ⟨hlt, fun _ => hfits⟩⟩
            fun _ => ⟨hok, (u.buf.drop u.ind).take n.toNat, ?_, ?_, rfl, ?_⟩
          · simp only [remaining]
            rw [← List.drop_drop, List.take_append_drop]
          · simp only [List.length_take, List.length_drop]
            omega
          · simp only [List.length_take, List.length_drop]
            omega
        · rw [if_pos (by omega)]
          exact .delivered (fun h => hwrap h.2)
            ⟨rfl, le_refl _, le_max_left _ _, ⟨hlt, by simp⟩⟩ (by simp)
    · simp only [hok]
      exact .delivered (fun h => hok h.1) (.refl hrange) fun h => absurd h hok

end YfsLab.Wire
