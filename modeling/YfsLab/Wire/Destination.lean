/-
# What the destination of a read held before

Each `operator>>` treats its destination in a way of its own: integers are assigned,
a string is swapped with what has been read, a map is cleared, and a vector is only
appended to. On a buffer from which a value is read successfully, a vector at the top
level is therefore the one type whose result depends on what the variable held
before; the elements of a container are read into new variables and do not.
-/

import YfsLab.Wire.RoundTrip

namespace YfsLab.Wire

open BigEndian Unmarshall

universe u

namespace Ty

/-! ## Appending to a vector -/

/-- What a loop that appends finds in front stays in front, and nothing else depends on
it. -/
theorem loop_push {α : Type u} (op : Extract α) (n : ℕ) (held items : List α) (u : Unmarshall) :
    Extract.loop (fun items => op.bind fun z => Extract.pure (items ++ [z])) n (held ++ items) u =
      (Extract.loop (fun items => op.bind fun z => Extract.pure (items ++ [z])) n items u).map
        fun read => (held ++ read.1, read.2) := by
  induction n generalizing items u with
  | zero => rfl
  | succ n ih =>
      simp only [Extract.loop, Extract.bind, Extract.pure, Option.bind_assoc, Option.bind_some,
        Option.map_bind, List.append_assoc]
      apply Option.bind_congr
      intro read _
      exact ih (items ++ [read.1]) read.2

theorem loop_push_nil {α : Type u} (op : Extract α) (n : ℕ) (held : List α) (u : Unmarshall) :
    Extract.loop (fun items => op.bind fun z => Extract.pure (items ++ [z])) n held u =
      (Extract.loop (fun items => op.bind fun z => Extract.pure (items ++ [z])) n [] u).map
        fun read => (held ++ read.1, read.2) := by
  have h := loop_push op n held [] u
  rwa [List.append_nil] at h

/-- The elements of one vector behind those of another. -/
def appended {p : Platform} {elem : Ty} (held items : (Ty.vector elem).Val p) :
    (Ty.vector elem).Val p :=
  (show List (elem.Val p) from held) ++ (show List (elem.Val p) from items)

/-- Reading a vector appends to the destination what reading it into an empty one
delivers. -/
theorem extract_vector (p : Platform) (elem : Ty) (held : (Ty.vector elem).Val p)
    (u : Unmarshall) :
    extract p (.vector elem) held u =
      (extract p (.vector elem) ((Ty.vector elem).fresh p) u).map
        fun read => (appended held read.1, read.2) := by
  show (extractUint u).bind _ = ((extractUint u).bind _).map _
  cases extractUint u with
  | none => rfl
  | some read => exact loop_push_nil (extract p elem (elem.fresh p)) read.1.toNat held read.2

/-! ## The other types -/

/-- A string that has been read successfully has been swapped with the bytes of the
message. -/
theorem extractString_congr {u after : Unmarshall} {first v : Bytes} (second : Bytes)
    (hread : extractString first u = some (v, after)) (hok : after.ok = true) :
    extractString second u = some (v, after) := by
  obtain ⟨⟨sz, middle⟩, hsize, hrest⟩ := Option.bind_eq_some_iff.mp hread
  refine Option.bind_eq_some_iff.mpr ⟨(sz, middle), hsize, ?_⟩
  by_cases hmiddle : middle.ok = true
  · simp only [hmiddle, if_true, rawbytes] at hrest ⊢
    by_cases hshort : UInt32.ofNat middle.buf.length < UInt32.ofNat middle.ind + sz
    · rw [if_pos hshort] at hrest
      obtain ⟨-, rfl⟩ := Prod.mk.inj (Option.some.inj hrest)
      exact absurd hok Bool.false_ne_true
    · rw [if_neg hshort] at hrest ⊢
      exact hrest
  · simp only [hmiddle] at hrest
    obtain ⟨-, rfl⟩ := Prod.mk.inj (Option.some.inj hrest)
    exact absurd hok hmiddle

/-- A read that succeeds into one destination succeeds into every other one and stops at
the same place; and the values are the same, unless the destinations are different
vectors. -/
theorem extract_congr {p : Platform} {t : Ty} {u after : Unmarshall} {first v : t.Val p}
    (second : t.Val p) (hread : t.extract p first u = some (v, after)) (hok : after.ok = true) :
    ∃ w, t.extract p second u = some (w, after) ∧
      (w = v ↔ (∀ elem, t ≠ .vector elem) ∨ first = second) := by
  cases t with
  | vector elem =>
      have hother : ¬∀ elem', Ty.vector elem ≠ .vector elem' := fun hne => hne elem rfl
      have hread' := hread
      rw [extract_vector p elem first u] at hread'
      obtain ⟨⟨items, middle⟩, hitems, heq⟩ := Option.map_eq_some_iff.mp hread'
      obtain ⟨rfl, rfl⟩ := Prod.mk.inj heq
      refine ⟨appended second items, ?_, ?_⟩
      · rw [extract_vector p elem second u, hitems]
        rfl
      · rw [or_iff_right hother]
        constructor
        · intro hlists
          exact (List.append_cancel_right hlists).symm
        · rintro rfl
          rfl
  | string =>
      exact ⟨v, extractString_congr second hread hok, iff_of_true rfl (.inl fun _ => nofun)⟩
  | uchar | char | ushort | short | uint | int | ulonglong | map _ _ =>
      exact ⟨v, hread, iff_of_true rfl (.inl fun _ => nofun)⟩
  | ulong =>
      refine ⟨v, ?_, iff_of_true rfl (.inl fun _ => nofun)⟩
      cases p <;> exact hread

end Ty

/-! ## A call with a reused result variable -/

/-- A call that delivers a result into a new variable delivers it into a used one under
the same condition. -/
theorem callM_reused_iff {p : Platform} {result : Ty} {code : Int32} (hcode : 0 ≤ code)
    {u : Unmarshall} {value : result.Val p}
    (hfresh : callM p result code u (result.fresh p) = some (code, value)) (r : result.Val p) :
    callM p result code u r = some (code, value) ↔
      (∀ elem, result ≠ .vector elem) ∨ r = result.fresh p := by
  have hnonneg : ¬code < 0 := Int32.not_lt.mpr hcode
  rw [callM, if_neg hnonneg] at hfresh
  obtain ⟨⟨read, after⟩, hread, hvalue⟩ := Option.map_eq_some_iff.mp hfresh
  have hdone : after.okdone = true := by
    by_contra hfailed
    rw [if_neg hfailed] at hvalue
    rw [← (Prod.mk.inj hvalue).1] at hcode
    exact absurd hcode (by decide)
  rw [if_pos hdone] at hvalue
  obtain rfl : read = value := (Prod.mk.inj hvalue).2
  have hok := (okdone_iff.mp hdone).1
  obtain ⟨w, hsecond, hsame⟩ := Ty.extract_congr r hread hok
  rw [@eq_comm _ r, ← hsame, callM, if_neg hnonneg, hsecond, Option.map_some, if_pos hdone,
    Option.some.injEq, Prod.mk.injEq, and_iff_right rfl]

/-- The reply that a server puts together for a result: it is decoded into the same
header again, and the result variable gets the result unless it is a vector that holds
something already. -/
theorem callM_reply (p : Platform) (result : Ty) (fresh : ℕ → UInt8) {h : ReplyHeader}
    (hret : 0 ≤ h.ret) (value : result.Val p)
    (hsize : rpcHeaderSz + (result.encode p value).length < 2 ^ 30) :
    ∃ ret reply rep, result.insert p value (Marshall.new fresh) = some ret ∧
      makeReply ret h = some reply ∧ unpackReplyHeader (ofBuf reply) = some (h, rep) ∧
      ∀ r, callM p result h.ret rep.takeIn r = some (h.ret, value) ↔
        (∀ elem, result ≠ .vector elem) ∨ r = result.fresh p := by
  obtain ⟨ret, hinsert, hwf, hstr, -⟩ :=
    Ty.appends_insert p result value _ (Marshall.wellFormed_new fresh) hsize
  obtain ⟨packed, hpacked, -, -, hframed⟩ :=
    replyLayout.pack_framed h hwf (length_str_new fresh) hstr
  have hreply := hframed.stampSize
  have hlt : (stampSize packed.str).length < 2 ^ 31 := by
    rw [hreply.length_eq]
    omega
  refine ⟨ret, stampSize packed.str, _, hinsert, ?_, replyLayout.unpacks _ _ _ hlt hreply, ?_⟩
  · rw [makeReply, show ret.packReplyHeader _ = some packed from hpacked]
    rfl
  · exact callM_reused_iff hret (callM_framed hret hlt hreply)

/-! ## Both together -/

/-- Independence of the destination: a successful read leaves the same value and the
same position whatever the destination held before, and a call returns the server's
result into whatever variable it is given, exactly as long as the destination is no
vector, or the two contents are the same, or the variable of the call is empty. -/
theorem destinationIndependent (p : Platform) (t : Ty) :
    (∀ (u after : Unmarshall) (first second v : t.Val p),
      t.extract p first u = some (v, after) → after.ok = true →
        (t.extract p second u = some (v, after) ↔
          (∀ elem, t ≠ .vector elem) ∨ first = second)) ∧
    ∀ (fresh : ℕ → UInt8) (h : ReplyHeader) (value : t.Val p), 0 ≤ h.ret →
      rpcHeaderSz + (t.encode p value).length < 2 ^ 30 →
      ∃ ret reply rep, t.insert p value (Marshall.new fresh) = some ret ∧
        makeReply ret h = some reply ∧ unpackReplyHeader (ofBuf reply) = some (h, rep) ∧
        ∀ r, callM p t h.ret rep.takeIn r = some (h.ret, value) ↔
          (∀ elem, t ≠ .vector elem) ∨ r = t.fresh p := by
  refine ⟨fun u after first second v hread hok => ?_,
    fun fresh h value hret hsize => callM_reply p t fresh hret value hsize⟩
  obtain ⟨w, hsecond, hsame⟩ := Ty.extract_congr second hread hok
  rw [← hsame, hsecond, Option.some.injEq, Prod.mk.injEq, and_iff_left rfl]

/-- A string is read into a variable that holds another one. -/
theorem destinationIndependent_string :
    Ty.string.extract .lp64 ([104, 105] : Bytes) (ofBuf [0, 0, 0, 1, 7]) =
      some (([7] : Bytes), { buf := [0, 0, 0, 1, 7], ind := 5, ok := true }) :=
  ((destinationIndependent .lp64 .string).1 _ _ ([] : Bytes) _ _ rfl rfl).mpr
    (.inl fun _ => nofun)

/-- A vector that holds 1 is read from a message with the one element 2, and the reply
to a call, whose result is that vector, is read into a variable used before. -/
theorem reusedVector_appends :
    ((Ty.vector .uchar).extract .lp64 ([] : List UInt8) (ofBuf [0, 0, 0, 1, 2]) =
        some (([2] : List UInt8), { buf := [0, 0, 0, 1, 2], ind := 5, ok := true }) ∧
      (Ty.vector .uchar).extract .lp64 ([1] : List UInt8) (ofBuf [0, 0, 0, 1, 2]) =
        some (([1, 2] : List UInt8), { buf := [0, 0, 0, 1, 2], ind := 5, ok := true })) ∧
    ∃ ret reply rep, (Ty.vector .uchar).insert .lp64 ([2] : List UInt8)
          (Marshall.new fun _ => 0) = some ret ∧
      makeReply ret { xid := 1, ret := 0 } = some reply ∧
      unpackReplyHeader (ofBuf reply) = some ({ xid := 1, ret := 0 }, rep) ∧
      callM .lp64 (.vector .uchar) 0 rep.takeIn ([1] : List UInt8) ≠
        some (0, ([2] : List UInt8)) := by
  refine ⟨⟨rfl, rfl⟩, ?_⟩
  obtain ⟨ret, reply, rep, hret, hreply, hrep, hresult⟩ :=
    callM_reply .lp64 (.vector .uchar) (fun _ => 0) (h := { xid := 1, ret := 0 }) (by decide)
      ([2] : List UInt8) (by decide)
  refine ⟨ret, reply, rep, hret, hreply, hrep, fun hsame => ?_⟩
  rcases (hresult ([1] : List UInt8)).mp hsame with hother | hempty
  · exact hother .uchar rfl
  · exact absurd hempty (List.cons_ne_nil _ _)

end YfsLab.Wire
