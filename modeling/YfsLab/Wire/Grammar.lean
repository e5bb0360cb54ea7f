/-
# What the decoder accepts

On argument types without maps, a value has one encoding, and decoding accepts a
payload exactly if it is the encoding of the values it delivers. There is one
exception to staying inside the buffer: the bound check for strings is computed
modulo 2^32, so a length field that wraps around with the position passes it.
-/

import YfsLab.Wire.RoundTrip

namespace YfsLab.Wire

open BigEndian Unmarshall

universe u

namespace Ty

/-- The types built from integers, strings and vectors. -/
def MapFree : Ty → Prop
  | .vector elem => MapFree elem
  | .map _ _ => False
  | _ => True

/-- A string length that wraps around with the position lies ahead: for a
vector, behind the count and some of its elements. Integers have no length
field, and maps are not part of the grammar. -/
def Overlong (p : Platform) : Ty → ℕ → Bytes → Prop
  | .string => LongString
  | .vector elem => fun pos rest =>
      ∃ (n : UInt32) (items : List (elem.Val p)) (right : Bytes),
        items.length < n.toNat ∧ rest = be32 n ++ (items.flatMap (encode p elem) ++ right) ∧
        Overlong p elem (pos + 4 + (items.flatMap (encode p elem)).length) right
  | _ => never

/-- `operator>>` accepts the encodings of the values of its type, and leaves the
buffer exactly at an overlong string. -/
theorem decodes_extract (p : Platform) {t : Ty} (ht : t.MapFree) :
    Decodes (extract p t (t.fresh p)) (fun v bytes => bytes = encode p t v) (t.Overlong p) := by
  induction t with
  | uchar => exact decodes_extractUchar
  | char => exact decodes_extractChar
  | ushort => exact decodes_extractUshort
  | short => exact decodes_extractShort
  | uint => exact decodes_extractUint
  | int => exact decodes_extractInt
  | ulonglong => exact decodes_extractUlonglong
  | ulong =>
      cases p with
      | ilp32 => exact decodes_extractUint
      | lp64 => exact decodes_extractUlonglong
  | string => exact decodes_extractString []
  | vector elem ih => exact decodes_vector (ih ht)
  | map key value => exact ht.elim

/-- Nothing overlong lies ahead at the end of the buffer. -/
theorem not_overlong_nil (p : Platform) (t : Ty) (pos : ℕ) : ¬ t.Overlong p pos [] := by
  cases t with
  | string =>
      rintro ⟨n, right, hnil, _⟩
      simp [be32] at hnil
  | vector elem =>
      rintro ⟨n, items, right, _, hnil, _⟩
      simp [be32] at hnil
  | _ => exact id

end Ty

/-- An overlong string lies ahead in a list of arguments: behind some arguments
that are there in full. -/
def OverlongAll (p : Platform) : List Ty → ℕ → Bytes → Prop
  | [], _, _ => False
  | t :: ts, pos, rest =>
      t.Overlong p pos rest ∨ ∃ (v : t.Val p) (right : Bytes), rest = t.encode p v ++ right ∧
        OverlongAll p ts (pos + (t.encode p v).length) right

theorem decodes_extractAll (p : Platform) {ts : List Ty} (hts : ∀ t ∈ ts, t.MapFree) :
    Decodes (extractAll p ts) (fun vs bytes => bytes = encodeAll p ts vs) (OverlongAll p ts) := by
  induction ts with
  | nil =>
      refine (Decodes.pure ()).congr (fun vs bytes _ => ?_) fun _ _ _ => Iff.rfl
      exact ⟨fun h => h.2, fun h => ⟨rfl, h⟩⟩
  | cons t ts ih =>
      have hhead := Ty.decodes_extract p (hts t List.mem_cons_self)
      have htail := ih fun t ht => hts t (List.mem_cons_of_mem _ ht)
      refine (hhead.bind fun v => htail.map fun vs => (v, vs)).congr (fun vs bytes _ => ?_)
        fun pos rest _ => ?_
      · constructor
        · rintro ⟨v, _, _, rfl, rfl, vs, rfl, rfl⟩
          rfl
        · rintro rfl
          exact ⟨vs.1, _, _, rfl, rfl, vs.2, rfl, rfl⟩
      · constructor
        · rintro (hstray | ⟨v, _, right, rfl, rfl, hstray⟩)
          · exact .inl hstray
          · exact .inr ⟨v, right, rfl, hstray⟩
        · rintro (hstray | ⟨v, right, rfl, hstray⟩)
          · exact .inl hstray
          · exact .inr ⟨v, _, right, rfl, rfl, hstray⟩

theorem not_overlongAll_nil (p : Platform) (ts : List Ty) (pos : ℕ) :
    ¬ OverlongAll p ts pos [] := by
  cases ts with
  | nil => exact id
  | cons t ts =>
      rintro (hstray | ⟨v, right, hnil, _⟩)
      · exact t.not_overlong_nil p pos hstray
      · have hpos := t.length_encode_pos p v
        rw [(List.append_eq_nil_iff.mp hnil.symm).1] at hpos
        exact absurd hpos (lt_irrefl 0)

/-! ## The header of any buffer

A header read never leaves the buffer. It clears the failure flag exactly if the
buffer has no room for the header.
-/

/-- A read of a fixed number of bytes. -/
def Grabs {α : Type u} (op : Extract α) (n : ℕ) : Prop :=
  ∀ u : Unmarshall, ∃ a after, op u = some (a, after) ∧ after.buf = u.buf ∧
    (u.ok = false → after.ok = false) ∧
    if u.ind + n ≤ u.buf.length then after = u.advance n else after.ok = false

theorem Grabs.map {α β : Type u} {op : Extract α} {n : ℕ} (hop : Grabs op n) (f : α → β) :
    Grabs (op.bind fun a => Extract.pure (f a)) n := by
  intro u
  obtain ⟨a, after, hafter, hrest⟩ := hop u
  exact ⟨f a, after, by rw [Extract.bind, hafter]; rfl, hrest⟩

theorem Grabs.bind {α β : Type u} {op : Extract α} {next : α → Extract β} {m n : ℕ}
    (hop : Grabs op m) (hnext : ∀ a, Grabs (next a) n) : Grabs (op.bind next) (m + n) := by
  intro u
  obtain ⟨a, middle, hmiddle, hbuf, hkeep, hfits⟩ := hop u
  obtain ⟨b, after, hafter, hbuf', hkeep', hfits'⟩ := hnext a middle
  refine ⟨b, after, by rw [Extract.bind, hmiddle]; exact hafter, hbuf'.trans hbuf,
    fun hok => hkeep' (hkeep hok), ?_⟩
  by_cases hfirst : u.ind + m ≤ u.buf.length
  · rw [if_pos hfirst] at hfits
    subst hfits
    simpa only [ind_advance, buf_advance, advance_advance, Nat.add_assoc] using hfits'
  · rw [if_neg hfirst] at hfits
    rw [if_neg (by omega)]
    exact hkeep' hfits

theorem grabs_rawbyte : Grabs rawbyte 1 := by
  intro u
  rw [rawbyte]
  cases hget : u.buf[u.ind]? with
  | none =>
      have hle := List.getElem?_eq_none_iff.mp hget
      exact ⟨_, _, rfl, rfl, fun _ => rfl, by rw [if_neg (by omega)]⟩
  | some c =>
      have hlt := (List.getElem?_eq_some_iff.mp hget).1
      exact ⟨_, _, rfl, rfl, id, by rw [if_pos (by omega)]; rfl⟩

theorem grabs_unpack : Grabs unpack 4 :=
  grabs_rawbyte.bind fun a => grabs_rawbyte.bind fun b => grabs_rawbyte.bind fun c =>
    grabs_rawbyte.map fun d => (((a &&& 0xff) <<< 24) ||| ((b &&& 0xff) <<< 16) |||
      ((c &&& 0xff) <<< 8) ||| (d &&& 0xff)).toInt32

/-- Unpacking the request header of any received buffer. -/
theorem unpackReqHeader_ofBuf (b : Bytes) :
    ∃ h, unpackReqHeader (ofBuf b) =
      some (h, { buf := b, ind := rpcHeaderSz, ok := decide (rpcHeaderSz ≤ b.length) }) := by
  have hheader := grabs_unpack.bind fun xid => grabs_unpack.bind fun proc =>
    grabs_unpack.bind fun cltNonce => grabs_unpack.bind fun srvNonce =>
      grabs_unpack.map fun xidRep =>
        ({ xid, proc, cltNonce := cltNonce.toUInt32, srvNonce := srvNonce.toUInt32,
           xidRep } : ReqHeader)
  obtain ⟨h, after, hafter, hbuf, _, hif⟩ := hheader { ofBuf b with ind := sizeofRpcSz }
  have hfits : if rpcHeaderSz ≤ b.length then
      after = { buf := b, ind := rpcHeaderSz, ok := true } else after.ok = false := hif
  refine ⟨h, ?_⟩
  have hunpack : unpackReqHeader (ofBuf b) = some (h, { after with ind := rpcHeaderSz }) := by
    rw [unpackReqHeader]
    exact congrArg (Option.map fun result => (result.1, { result.2 with ind := rpcHeaderSz }))
      hafter
  rw [hunpack]
  have hbuf' : after.buf = b := hbuf
  by_cases hlength : rpcHeaderSz ≤ b.length
  · rw [if_pos hlength] at hfits
    simp [hfits, hlength]
  · rw [if_neg hlength] at hfits
    simp [hfits, hlength, hbuf']

/-! ## Decoding a request -/

/-- What decoding the payload of a request should do: stay inside the buffer,
never move the position backwards, use the buffer up exactly if the payload is
the encoding of the values delivered, and otherwise make `h1::fn` return
`unmarshal_args_failure` and leave the handler uncalled. -/
def DecodesExactly (p : Platform) (ts : List Ty) (b : Bytes) : Prop :=
  ∃ h req vs rest, unpackReqHeader (ofBuf b) = some (h, req) ∧
    extractAll p ts req = some (vs, rest) ∧
    req.ind ≤ rest.ind ∧ rest.ind ≤ max rpcHeaderSz b.length ∧
    (rest.okdone = true ↔
      rpcHeaderSz ≤ b.length ∧ b.drop rpcHeaderSz = encodeAll p ts vs) ∧
    (rest.okdone = false → ∀ (result : Ty) (Object : Type)
      (meth : Vals p ts → Object → Int32 × result.Val p × Object) (ret : Marshall)
      (sob : Object),
      h1Fn p ts result meth req ret sob = some (RpcConst.unmarshalArgsFailure, ret, sob))

/-- Decoding does all of this exactly if no string length that lies ahead on the
way wraps around with its position. -/
theorem decodesExactly_iff (p : Platform) {ts : List Ty} (hts : ∀ t ∈ ts, t.MapFree)
    {b : Bytes} (hsize : b.length ≤ maxPdu) :
    DecodesExactly p ts b ↔ ¬ OverlongAll p ts rpcHeaderSz (b.drop rpcHeaderSz) := by
  obtain ⟨h, hheader⟩ := unpackReqHeader_ofBuf b
  set req : Unmarshall :=
    { buf := b, ind := rpcHeaderSz, ok := decide (rpcHeaderSz ≤ b.length) } with hreq
  have hrange : req.InRange := by
    refine ⟨?_, fun hok => by simpa [hreq] using hok⟩
    simp only [maxPdu] at hsize
    simp only [hreq]
    omega
  have hdecodes := decodes_extractAll p hts
  have houtcome := hdecodes.outcome req hrange
  revert houtcome
  cases hresult : extractAll p ts req with
  | none =>
      intro houtcome
      cases houtcome with
      | outside hok hstray =>
          constructor
          · rintro ⟨_, _, _, _, hheader', hvs, _⟩
            rw [hheader, Option.some.injEq, Prod.mk.injEq] at hheader'
            rw [← hheader'.2, hresult] at hvs
            cases hvs
          · exact fun hnot => absurd hstray hnot
  | some result =>
      intro houtcome
      cases houtcome with
      | delivered hinside hprogress haccepted =>
          rename_i vs rest
          constructor
          · intro _ hstray
            by_cases hlength : rpcHeaderSz ≤ b.length
            · exact hinside ⟨by simpa [hreq] using hlength, hstray⟩
            · rw [List.drop_of_length_le (by omega)] at hstray
              exact not_overlongAll_nil p ts _ hstray
          · intro _
            refine ⟨h, req, vs, rest, hheader, hresult, hprogress.ind_le, hprogress.ind_le_max,
              ⟨fun hdone => ?_, ?_⟩, fun hdone result Object meth ret sob => ?_⟩
            · obtain ⟨hok, hind⟩ := okdone_iff.mp hdone
              obtain ⟨hok', bytes, hremaining, _, rfl⟩ := haccepted hok
              have hnil : rest.remaining = [] := by
                rw [remaining, hind, List.drop_length]
              rw [hnil, List.append_nil] at hremaining
              exact ⟨by simpa [hreq] using hok', hremaining⟩
            · rintro ⟨hlength, hpayload⟩
              obtain ⟨rest', hrest', hdone⟩ :=
                (hdecodes.reads vs _ rfl).okdone hrange (by simpa [hreq] using hlength) hpayload
              rw [hresult, Option.some.injEq, Prod.mk.injEq] at hrest'
              rw [hrest'.2]
              exact hdone
            · simp [h1Fn, hresult, hdone]

/-- A request for a handler whose first argument is a string: a header, and a
string length that wraps around at position 28. -/
def wrappingRequest : Bytes := be32 28 ++ List.replicate 20 0 ++ be32 4294967268

/-- The request is as long as its size word says and no longer than a PDU may be,
and decoding it reads outside the buffer. -/
theorem wrappingRequest_not_decodesExactly :
    wrappingRequest.length = 28 ∧ ¬ DecodesExactly .lp64 [.string] wrappingRequest := by
  refine ⟨by decide, ?_⟩
  rintro ⟨_, _, _, _, hheader, hvs, _⟩
  have hreq : unpackReqHeader (ofBuf wrappingRequest) =
      some ({}, { buf := wrappingRequest, ind := 24, ok := true }) := by decide
  rw [hreq, Option.some.injEq, Prod.mk.injEq] at hheader
  rw [← hheader.2] at hvs
  have hnone : extractAll .lp64 [.string] { buf := wrappingRequest, ind := 24, ok := true } =
      none := by rfl
  rw [hnone] at hvs
  cases hvs

/-- A request for the same handler with a string of two bytes. -/
def stringRequest : Bytes := be32 30 ++ List.replicate 20 0 ++ be32 2 ++ [104, 105]

theorem stringRequest_decodesExactly : DecodesExactly .lp64 [.string] stringRequest := by
  refine (decodesExactly_iff .lp64 (by simp [Ty.MapFree]) (by decide)).mpr ?_
  rintro (⟨n, right, hrest, hwrap⟩ | ⟨_, _, _, hnever⟩)
  · have hbytes : be32 2 ++ [104, 105] = be32 n ++ right := hrest
    obtain rfl := be32_injective (List.append_inj hbytes rfl).1
    exact absurd hwrap (by decide)
  · exact hnever

end YfsLab.Wire
