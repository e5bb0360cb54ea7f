/-
# Whole PDUs on the wire

Whatever the interleaving of senders and callbacks, and however the socket cuts the
writes, the bytes it accepts are whole PDUs of different calls of `send`, and at the
end at most a part of one more. A part is left behind only on a dead connection, on
which nothing more is written.
-/

import YfsLab.Connection.Sender

namespace YfsLab.Connection

open BigEndian Monitor Transition Wire

/-! ## Writing one PDU -/

theorem stampSize_stampSize {b : Bytes} (h : sizeofRpcSz ≤ b.length) :
    stampSize (stampSize b) = stampSize b := by
  rw [stampSize, length_stampSize h]
  rfl

@[simp]
theorem Call.stamp_stamp (c : Call) : c.stamp.stamp = c.stamp := by
  simp only [Call.stamp, stampSize_stampSize c.sizeof_le]

theorem Call.length_frame (c : Call) : c.frame.length = c.pdu.length :=
  length_stampSize c.sizeof_le

/-- `wpdu_` with this much of the PDU written. -/
def Call.at (c : Call) (k : ℕ) : Wpdu := ⟨some c.stamp, c.pdu.length, k⟩

/-- A write that succeeds accepts a further piece of the PDU. -/
theorem writepdu_piece {c b : Call} {k : ℕ} {r : WriteResult} {w : Wpdu} {bytes : Bytes}
    (hb : (if k = 0 then b.stamp else b) = c.stamp) (hk : k < c.pdu.length)
    (hwrite : writepdu ⟨some b, c.pdu.length, k⟩ r = some (true, w, bytes)) :
    ∃ n, k + n ≤ c.pdu.length ∧ w = c.at (k + n) ∧ bytes = (c.frame.drop k).take n := by
  have hneg : ¬ (k : ℤ) < 0 := by omega
  have hfull : ¬ (k : ℤ) = c.pdu.length := by omega
  have hstamp : (if (k : ℤ) = 0 then b.stamp else b) = c.stamp := by
    simpa only [Nat.cast_eq_zero] using hb
  simp only [writepdu, if_neg hneg, if_neg hfull, hstamp] at hwrite
  cases r with
  | accepted n =>
      simp only at hwrite
      split_ifs at hwrite with hn
      obtain ⟨rfl, rfl⟩ := Prod.mk.inj (Prod.mk.inj (Option.some.inj hwrite)).2
      exact ⟨n, by omega, by simp [Call.at], by simp [Call.frame, Call.stamp]⟩
  | again =>
      obtain ⟨rfl, rfl⟩ := Prod.mk.inj (Prod.mk.inj (Option.some.inj hwrite)).2
      exact ⟨0, by omega, by simp [Call.at], by simp⟩
  | error => cases hwrite

/-- A write keeps the buffer, and leaves a negative `solong` only together with the size
zero, when it has failed and written nothing. -/
theorem writepdu_keeps {w w' : Wpdu} {r : WriteResult} {ok : Bool} {bytes : Bytes}
    (hwrite : writepdu w r = some (ok, w', bytes)) :
    w'.buf.isSome = w.buf.isSome ∧ (w'.sz ≠ 0 → 0 ≤ w'.solong) ∧
      (ok = true → 0 ≤ w'.solong) ∧ (ok = false → r = .error ∧ bytes = []) := by
  by_cases hneg : w.solong < 0
  · simp [writepdu, hneg] at hwrite
  by_cases hfull : w.solong = w.sz
  · simp only [writepdu, if_neg hneg, if_pos hfull, Option.some.injEq, Prod.mk.injEq] at hwrite
    obtain ⟨rfl, rfl, -⟩ := hwrite
    exact ⟨rfl, fun _ => by omega, fun _ => by omega, fun hno => by cases hno⟩
  · cases hbuf : w.buf with
    | none => simp [writepdu, hneg, hfull, hbuf] at hwrite
    | some b =>
        simp only [writepdu, if_neg hneg, if_neg hfull, hbuf] at hwrite
        cases r with
        | accepted n =>
            simp only [Option.ite_none_right_eq_some, Option.some.injEq, Prod.mk.injEq] at hwrite
            obtain ⟨-, rfl, rfl, -⟩ := hwrite
            have hsolong : 0 ≤ w.solong + n := by omega
            exact ⟨rfl, fun _ => hsolong, fun _ => hsolong, fun hno => by cases hno⟩
        | again =>
            simp only [Option.some.injEq, Prod.mk.injEq] at hwrite
            obtain ⟨rfl, rfl, -⟩ := hwrite
            have hsolong : 0 ≤ w.solong := by omega
            exact ⟨rfl, fun _ => hsolong, fun _ => hsolong, fun hno => by cases hno⟩
        | error =>
            simp only [Option.some.injEq, Prod.mk.injEq] at hwrite
            obtain ⟨rfl, rfl, rfl⟩ := hwrite
            exact ⟨rfl, fun hne => absurd rfl hne, (fun hno => by cases hno), fun _ => ⟨rfl, rfl⟩⟩

/-- The first write of a call. -/
theorem writepdu_first {c : Call} {r : WriteResult} {w : Wpdu} {bytes : Bytes}
    (hwrite : writepdu ⟨some c, c.pdu.length, 0⟩ r = some (true, w, bytes)) :
    ∃ n ≤ c.pdu.length, w = c.at n ∧ bytes = c.frame.take n := by
  have hpos := c.sizeof_le
  simp only [sizeofRpcSz] at hpos
  obtain ⟨n, hn, hw, hbytes⟩ := writepdu_piece (k := 0) (by simp) (by omega) hwrite
  exact ⟨n, by omega, by simpa using hw, by simpa using hbytes⟩

/-- A later write of a call. -/
theorem writepdu_at {c : Call} {k : ℕ} {r : WriteResult} {w : Wpdu} {bytes : Bytes}
    (hk : k < c.pdu.length) (hwrite : writepdu (c.at k) r = some (true, w, bytes)) :
    ∃ n, k + n ≤ c.pdu.length ∧ w = c.at (k + n) ∧ bytes = (c.frame.drop k).take n :=
  writepdu_piece (by simp) hk hwrite

/-- Nothing is left to write. -/
theorem writepdu_full (c : Call) (r : WriteResult) :
    writepdu (c.at c.pdu.length) r = some (true, c.at c.pdu.length, []) := by
  simp [writepdu, Call.at]

/-! ## What has been written -/

/-- The bytes that the socket has accepted. -/
def written (log : List Event) : Bytes :=
  log.flatMap fun event =>
    match event with
    | .wrote _ bytes => bytes
    | _ => []

@[simp]
theorem written_append (log more : List Event) :
    written (log ++ more) = written log ++ written more :=
  List.flatMap_append

/-- Nothing, or a proper part of a PDU of a call that has not been completed. -/
def Partial (log : List Event) (done : List Call) (part : Bytes) : Prop :=
  part = [] ∨ ∃ c, .began c ∈ log ∧ c.id ∉ done.map Call.id ∧ part <+: c.frame ∧ part ≠ c.frame

theorem Partial.append {log : List Event} {done : List Call} {part : Bytes}
    (h : Partial log done part) (more : List Event) : Partial (log ++ more) done part := by
  rcases h with hnil | ⟨c, hbegan, hrest⟩
  · exact .inl hnil
  · exact .inr ⟨c, List.mem_append_left _ hbegan, hrest⟩

/-- How far the PDU in `wpdu_` is: there is none, some of it has been written, all of it
has been written and its sender does not know yet, or the connection is dead. -/
inductive Progress (s : Sender) (owners : List Call) (log : List Event) (done : List Call)
    (part : Bytes) : Prop
  | idle (alive : s.dead = false) (wpdu_eq : s.wpdu = {}) (owners_eq : owners = [])
      (part_eq : part = [])
  | writing (c : Call) (k : ℕ) (alive : s.dead = false) (wpdu_eq : s.wpdu = c.at k)
      (lt : k < c.pdu.length) (owners_eq : owners = [c]) (part_eq : part = c.frame.take k)
      (fresh : c.id ∉ done.map Call.id)
  | complete (c : Call) (alive : s.dead = false) (wpdu_eq : s.wpdu = c.at c.pdu.length)
      (owners_eq : owners = [c]) (part_eq : part = []) (mem : c ∈ done)
  | dead (dead : s.dead = true) (left : Partial log done part)

/-- The write side is in order: `done` lists the calls whose PDUs have been written,
`part` is what has been written of another one, `turn` are the calls that wait for
`wpdu_`, and `owners` those that wait for their PDU to be written. A thread that has the
mutex is counted among them. -/
structure Framed (s : Sender) (turn owners : List Call) (log : List Event) (done : List Call)
    (part : Bytes) : Prop where
  written_eq : written log = done.flatMap Call.frame ++ part
  done_nodup : (done.map Call.id).Nodup
  began : ∀ c ∈ done ++ (turn ++ owners), .began c ∈ log
  inside_nodup : ((turn ++ owners).map Call.id).Nodup
  turn_fresh : ∀ c ∈ turn, c.id ∉ done.map Call.id
  began_lt : ∀ c, .began c ∈ log → c.id < s.calls
  returned_true : ∀ id, .returned id true ∈ log → id ∈ done.map Call.id
  returned_false : ∀ id, .returned id false ∈ log → s.dead = true
  progress : Progress s owners log done part

variable {s : Sender} {turn owners : List Call} {log : List Event} {done : List Call} {part : Bytes}

theorem Framed.toPartial (h : Framed s turn owners log done part) : Partial log done part := by
  cases h.progress with
  | idle _ _ _ hpart => exact .inl hpart
  | writing c k _ _ hlt howners hpart hfresh =>
      refine .inr ⟨c, h.began c (by simp [howners]), hfresh, hpart ▸ List.take_prefix _ _, ?_⟩
      intro heq
      have hlength := congrArg List.length (hpart.symm.trans heq)
      rw [List.length_take, c.length_frame] at hlength
      omega
  | complete c _ _ _ hpart _ => exact .inl hpart
  | dead _ hleft => exact hleft

namespace Framed

/-! ### Changes that write nothing -/

/-- The lists of waiting threads and the poll manager do not matter. -/
theorem congr (h : Framed s turn owners log done part) (s' : Sender)
    (hdead : s'.dead = s.dead) (hwpdu : s'.wpdu = s.wpdu) (hcalls : s'.calls = s.calls) :
    Framed s' turn owners log done part := by
  refine { h with began_lt := ?_, returned_false := ?_, progress := ?_ }
  · rw [hcalls]
    exact h.began_lt
  · rw [hdead]
    exact h.returned_false
  · cases h.progress with
    | idle halive hidle howners hpart =>
        exact .idle (by rw [hdead, halive]) (by rw [hwpdu, hidle]) howners hpart
    | writing c k halive hat hlt howners hpart hfresh =>
        exact .writing c k (by rw [hdead, halive]) (by rw [hwpdu, hat]) hlt howners hpart hfresh
    | complete c halive hat howners hpart hmem =>
        exact .complete c (by rw [hdead, halive]) (by rw [hwpdu, hat]) howners hpart hmem
    | dead hdead' hleft => exact .dead (by rw [hdead, hdead']) hleft

/-- The order in which threads wait does not matter. -/
theorem perm (h : Framed s turn owners log done part) {turn' owners' : List Call}
    (hturn : turn'.Perm turn) (howners : owners'.Perm owners) :
    Framed s turn' owners' log done part := by
  refine { h with
    began := fun c hc => h.began c ?_
    inside_nodup := ?_
    turn_fresh := ?_
    progress := ?_ }
  · exact ((hturn.append howners).append_left done).mem_iff.mp hc
  · exact ((hturn.append howners).map Call.id).nodup_iff.mpr h.inside_nodup
  · exact fun c hc => h.turn_fresh c (hturn.mem_iff.mp hc)
  · cases h.progress with
    | idle halive hidle hnobody hpart =>
        exact .idle halive hidle (by rw [hnobody] at howners; exact howners.eq_nil) hpart
    | writing c k halive hat hlt hone hpart hfresh =>
        rw [hone] at howners
        exact .writing c k halive hat hlt howners.eq_singleton hpart hfresh
    | complete c halive hat hone hpart hmem =>
        rw [hone] at howners
        exact .complete c halive hat howners.eq_singleton hpart hmem
    | dead hdead hleft => exact .dead hdead hleft

/-- Events that write nothing, and of which none is a beginning or a return. -/
theorem note (h : Framed s turn owners log done part) (event : Event)
    (hbegan : ∀ c, event ≠ .began c) (hwrote : written [event] = [])
    (hreturned : ∀ id ret, event ≠ .returned id ret) :
    Framed s turn owners (log ++ [event]) done part := by
  have hmem : ∀ {other}, (∀ e, e = event → e ≠ other) → other ∈ log ++ [event] → other ∈ log := by
    intro other hne hmem
    rcases List.mem_append.mp hmem with hmem | hmem
    · exact hmem
    · exact absurd (List.mem_singleton.mp hmem) (hne event rfl).symm
  refine ⟨by rw [written_append, hwrote, List.append_nil]; exact h.written_eq, h.done_nodup,
    fun c hc => List.mem_append_left _ (h.began c hc), h.inside_nodup, h.turn_fresh,
    fun c hc => h.began_lt c (hmem (fun e he => he ▸ hbegan c) hc),
    fun id hid => h.returned_true id (hmem (fun e he => he ▸ hreturned id true) hid),
    fun id hid => h.returned_false id (hmem (fun e he => he ▸ hreturned id false) hid), ?_⟩
  cases h.progress with
  | idle halive hidle hnobody hpart => exact .idle halive hidle hnobody hpart
  | writing c k halive hat hlt hone hpart hfresh =>
      exact .writing c k halive hat hlt hone hpart hfresh
  | complete c halive hat hone hpart hmem => exact .complete c halive hat hone hpart hmem
  | dead hdead hleft => exact .dead hdead (hleft.append _)

/-- A new call is among those that wait for `wpdu_`. -/
theorem begin (h : Framed s turn owners log done part) {c : Call} (hid : c.id = s.calls) :
    Framed { s with calls := s.calls + 1 } (c :: turn) owners (log ++ [.began c]) done part := by
  have hnew : ∀ other, .began other ∈ log → other.id ≠ c.id := fun other hmem heq => by
    have hlt := h.began_lt other hmem
    omega
  have hmem : ∀ {event}, event ∈ log ++ [.began c] → (event ≠ .began c) → event ∈ log :=
    fun hmem hne => (List.mem_append.mp hmem).resolve_right (by simpa using hne)
  refine ⟨?_, h.done_nodup, fun other hc => ?_, ?_, fun other hc => ?_, fun other hc => ?_,
    fun id hid => h.returned_true id (hmem hid (by simp)),
    fun id hid => h.returned_false id (hmem hid (by simp)), ?_⟩
  · rw [written_append, h.written_eq]
    exact List.append_nil _
  · have hold := h.began other
    simp only [List.cons_append, List.mem_append, List.mem_cons] at hc hold ⊢
    rcases hc with hc | rfl | hc
    · exact .inl (hold (.inl hc))
    · exact .inr (.inl rfl)
    · exact .inl (hold (.inr hc))
  · rw [List.cons_append, List.map_cons, List.nodup_cons]
    refine ⟨fun hmem => ?_, h.inside_nodup⟩
    obtain ⟨other, hother, heq⟩ := List.mem_map.mp hmem
    exact hnew other (h.began other (List.mem_append_right _ hother)) heq
  · rcases List.mem_cons.mp hc with rfl | hc
    · intro hmem
      obtain ⟨other, hother, heq⟩ := List.mem_map.mp hmem
      exact hnew other (h.began other (List.mem_append_left _ hother)) heq
    · exact h.turn_fresh other hc
  · rcases List.mem_append.mp hc with hc | hc
    · have hlt := h.began_lt other hc
      simp only
      omega
    · obtain rfl := Event.began.inj (List.mem_singleton.mp hc)
      simp only
      omega
  · cases h.progress with
    | idle halive hidle hnobody hpart => exact .idle halive hidle hnobody hpart
    | writing c k halive hat hlt hone hpart hfresh =>
        exact .writing c k halive hat hlt hone hpart hfresh
    | complete c halive hat hone hpart hmem => exact .complete c halive hat hone hpart hmem
    | dead hdead hleft => exact .dead hdead (hleft.append _)

/-- The connection dies. From then on threads may leave in any order. -/
theorem kill (h : Framed s turn owners log done part) {s' : Sender} (hdead : s'.dead = true)
    (hcalls : s'.calls = s.calls) {turn' owners' : List Call}
    (hsub : (turn' ++ owners').Sublist (turn ++ owners)) (hturn : turn' ⊆ turn) :
    Framed s' turn' owners' log done part where
  written_eq := h.written_eq
  done_nodup := h.done_nodup
  began c hc := h.began c ((List.Sublist.append_left hsub done).subset hc)
  inside_nodup := h.inside_nodup.sublist (hsub.map Call.id)
  turn_fresh c hc := h.turn_fresh c (hturn hc)
  began_lt := by rw [hcalls]; exact h.began_lt
  returned_true := h.returned_true
  returned_false _ _ := hdead
  progress := .dead hdead h.toPartial

/-- A call of `send` fails because the connection is dead. -/
theorem returnFalse (h : Framed s turn owners log done part) (hdead : s.dead = true) (id : ℕ) :
    Framed s turn owners (log ++ [.returned id false]) done part := by
  have hmem : ∀ {event}, event ∈ log ++ [.returned id false] → event ≠ .returned id false →
      event ∈ log :=
    fun hmem hne => (List.mem_append.mp hmem).resolve_right (by simpa using hne)
  refine ⟨?_, h.done_nodup, fun c hc => List.mem_append_left _ (h.began c hc), h.inside_nodup,
    h.turn_fresh, fun c hc => h.began_lt c (hmem hc (by simp)),
    fun other hid => h.returned_true other (hmem hid (by simp)), fun _ _ => hdead,
    .dead hdead (h.toPartial.append _)⟩
  rw [written_append, h.written_eq]
  exact List.append_nil _

/-- A call takes the free `wpdu_` for its PDU. -/
theorem claim {c : Call} (h : Framed s (c :: turn) owners log done part) (halive : s.dead = false)
    (hfree : s.wpdu.buf = none) :
    owners = [] ∧ part = [] ∧ Framed { s with wpdu := c.at 0 } turn [c] log done [] := by
  have hpos := c.sizeof_le
  simp only [sizeofRpcSz] at hpos
  have hidle : owners = [] ∧ part = [] := by
    cases h.progress with
    | idle _ _ hnobody hpart => exact ⟨hnobody, hpart⟩
    | writing other k _ hat => rw [hat] at hfree; cases hfree
    | complete other _ hat => rw [hat] at hfree; cases hfree
    | dead hdead => rw [halive] at hdead; cases hdead
  obtain ⟨rfl, rfl⟩ := hidle
  have hperm : (turn ++ [c]).Perm (c :: turn ++ []) := by
    rw [List.append_nil]
    exact List.perm_append_comm
  refine ⟨rfl, rfl, { h with
    began := fun other hc => h.began other ((hperm.append_left done).mem_iff.mp hc)
    inside_nodup := (hperm.map Call.id).nodup_iff.mpr h.inside_nodup
    turn_fresh := fun other hc => h.turn_fresh other (List.mem_cons_of_mem _ hc)
    progress := .writing c 0 halive rfl (by omega) rfl rfl
      (h.turn_fresh c List.mem_cons_self) }⟩

/-- The socket accepts a further piece of the PDU. -/
theorem wrote {c : Call} {k n : ℕ} (h : Framed s turn [c] log done (c.frame.take k))
    (halive : s.dead = false) (hfresh : c.id ∉ done.map Call.id)
    (hle : k + n ≤ c.pdu.length) :
    ∃ done' part', Framed { s with wpdu := c.at (k + n) } turn [c]
        (log ++ [.wrote c.id ((c.frame.drop k).take n)]) done' part' ∧
      (k + n = c.pdu.length → c ∈ done' ∧ part' = []) := by
  have hmem : ∀ {event}, event ∈ log ++ [.wrote c.id ((c.frame.drop k).take n)] →
      (∀ bytes, event ≠ .wrote c.id bytes) → event ∈ log :=
    fun hmem hne => (List.mem_append.mp hmem).resolve_right fun hnew =>
      hne _ (List.mem_singleton.mp hnew)
  have hwritten : written (log ++ [.wrote c.id ((c.frame.drop k).take n)]) =
      done.flatMap Call.frame ++ c.frame.take (k + n) := by
    rw [written_append, h.written_eq, List.append_assoc, List.take_add]
    simp [written]
  have hbegan : .began c ∈ log := h.began c (by simp)
  by_cases hfull : k + n = c.pdu.length
  · refine ⟨done ++ [c], [], ⟨?_, ?_, fun other hc => ?_, h.inside_nodup, fun other hc => ?_,
      fun other hc => h.began_lt other (hmem hc (by simp)), fun id hid => ?_,
      fun id hid => h.returned_false id (hmem hid (by simp)),
      .complete c halive (by rw [hfull]) rfl rfl (by simp)⟩, fun _ => ⟨by simp, rfl⟩⟩
    · rw [hwritten, hfull, ← c.length_frame, List.take_length]
      simp
    · rw [List.map_append, List.nodup_append]
      refine ⟨h.done_nodup, by simp, fun a ha b hb heq => hfresh ?_⟩
      rw [List.map_singleton, List.mem_singleton] at hb
      rw [← hb, ← heq]
      exact ha
    · refine List.mem_append_left _ (h.began other ?_)
      simp only [List.mem_append, List.mem_singleton] at hc ⊢
      tauto
    · have hne : other.id ≠ c.id := by
        intro heq
        have hnodup := h.inside_nodup
        rw [List.map_append, List.nodup_append] at hnodup
        exact hnodup.2.2 other.id (List.mem_map_of_mem hc) c.id (by simp) heq
      rw [List.map_append, List.mem_append]
      rintro (hdone | hsame)
      · exact h.turn_fresh other hc hdone
      · exact hne (by simpa using hsame)
    · rw [List.map_append, List.mem_append]
      exact .inl (h.returned_true id (hmem hid (by simp)))
  · refine ⟨done, c.frame.take (k + n), ⟨hwritten, h.done_nodup,
      fun other hc => List.mem_append_left _ (h.began other hc), h.inside_nodup, h.turn_fresh,
      fun other hc => h.began_lt other (hmem hc (by simp)),
      fun id hid => h.returned_true id (hmem hid (by simp)),
      fun id hid => h.returned_false id (hmem hid (by simp)),
      .writing c (k + n) halive rfl (by omega) rfl rfl hfresh⟩, fun h => absurd h hfull⟩

/-! ### The sections of `send` -/

/-- `send` ends on a dead connection. -/
theorem finish_dead (h : Framed s turn owners log done part) (hdead : s.dead = true) (c : Call) :
    Framed (s.finish c).1 turn owners (log ++ (s.finish c).2) done part := by
  have hret : (s.finish c).2 = [.returned c.id false] := by simp [Sender.finish, hdead]
  have hstill : (s.finish c).1.dead = true := hdead
  rw [hret]
  exact (h.returnFalse hdead c.id).kill hstill rfl (.refl _) (List.Subset.refl _)

/-- `send` ends after all of its PDU has been written. -/
theorem finish_complete {c : Call} (h : Framed s turn [c] log done []) (halive : s.dead = false)
    (hat : s.wpdu = c.at c.pdu.length) (hdone : c ∈ done) :
    Framed (s.finish c).1 turn [] (log ++ (s.finish c).2) done [] := by
  have hret : (s.finish c).2 = [.returned c.id true] := by
    simp [Sender.finish, halive, hat, Call.at]
  have hmem : ∀ {event}, event ∈ log ++ [.returned c.id true] → event ≠ .returned c.id true →
      event ∈ log :=
    fun hmem hne => (List.mem_append.mp hmem).resolve_right (by simpa using hne)
  have hsub : (turn ++ []).Sublist (turn ++ [c]) := (List.nil_sublist _).append_left turn
  rw [hret]
  refine ⟨?_, h.done_nodup,
    fun other hc => List.mem_append_left _ (h.began other ((hsub.append_left done).subset hc)),
    h.inside_nodup.sublist (hsub.map Call.id), h.turn_fresh,
    fun other hc => h.began_lt other (hmem hc (by simp)), fun id hid => ?_,
    fun id hid => h.returned_false id (hmem hid (by simp)), .idle halive rfl rfl rfl⟩
  · rw [written_append, h.written_eq]
    exact List.append_nil _
  · rcases List.mem_append.mp hid with hid | hid
    · exact h.returned_true id hid
    · obtain ⟨rfl, -⟩ := Event.returned.inj (List.mem_singleton.mp hid)
      exact List.mem_map_of_mem hdone

/-- The waiting senders that are woken up are still waiting senders. -/
theorem finish_sendWait_perm (s : Sender) (c : Call) :
    (s.finish c).1.sendWait.threads.Perm s.sendWait.threads := by
  simp only [Sender.finish]
  split_ifs
  · exact s.sendWait.threads_broadcast_perm
  · exact .refl _

/-- The sender of the PDU has the mutex. -/
theorem awaitComplete {c : Call}
    (h : Framed s s.sendWait.threads (c :: s.sendComplete.threads) log done part) :
    ∃ done' part', Framed (s.awaitComplete c).1 (s.awaitComplete c).1.sendWait.threads
      (s.awaitComplete c).1.sendComplete.threads (log ++ (s.awaitComplete c).2) done' part' := by
  rw [Sender.awaitComplete]
  split_ifs with hwait
  · refine ⟨done, part, ?_⟩
    rw [List.append_nil]
    exact (h.perm (.refl _) (s.sendComplete.threads_wait_perm c)).congr _ rfl rfl rfl
  · have hturn := finish_sendWait_perm s c
    cases h.progress with
    | idle _ _ hnobody => cases hnobody
    | writing other k halive hat hlt =>
        refine absurd ⟨halive, ?_, ?_⟩ hwait
        · simp [hat, Call.at]
        · simpa [hat, Call.at] using hlt
    | complete other halive hat hone hpart hmem =>
        obtain ⟨rfl, hnobody⟩ := List.cons.inj hone
        subst hpart
        rw [hnobody] at h
        have hdone := h.finish_complete halive hat hmem
        exact ⟨done, [], hdone.perm hturn (by rw [Sender.finish, hnobody])⟩
    | dead hdead =>
        have hsub := (List.sublist_cons_self c s.sendComplete.threads).append_left
          s.sendWait.threads
        have hleft : Framed s s.sendWait.threads s.sendComplete.threads log done part :=
          h.kill hdead rfl hsub (List.Subset.refl _)
        exact ⟨done, part, (hleft.finish_dead hdead c).perm hturn (.refl _)⟩

/-- A call with the free `wpdu_` writes for the first time. -/
theorem firstWrite {c : Call} {s' : Sender} {events : List Event} {r : WriteResult}
    (h : Framed s (c :: s.sendWait.threads) s.sendComplete.threads log done part)
    (halive : s.dead = false) (hfree : s.wpdu.buf = none)
    (hwrite : s.FirstWrite c r s' events) :
    ∃ done' part', Framed s' s'.sendWait.threads s'.sendComplete.threads (log ++ events)
      done' part' := by
  obtain ⟨hnobody, rfl, hclaimed⟩ := h.claim halive hfree
  -- a write that has succeeded
  have hwrote : ∀ {w bytes}, writepdu { buf := some c, sz := c.pdu.length, solong := 0 } r =
      some (true, w, bytes) → ∃ n done' part', w = c.at n ∧
        Framed { s with wpdu := w } s.sendWait.threads [c] (log ++ [.wrote c.id bytes])
          done' part' ∧ (n = c.pdu.length → c ∈ done' ∧ part' = []) := by
    intro w bytes hpdu
    obtain ⟨n, hn, rfl, rfl⟩ := writepdu_first hpdu
    obtain ⟨done', part', hframed, hdone⟩ := hclaimed.wrote (k := 0) (n := n) halive
      (h.turn_fresh c List.mem_cons_self) (by omega)
    simp only [Nat.zero_add, List.drop_zero] at hframed hdone
    exact ⟨n, done', part', rfl, hframed, hdone⟩
  cases hwrite with
  | whole hpdu hfull =>
      obtain ⟨n, done', part', rfl, hframed, hdone⟩ := hwrote hpdu
      obtain rfl : n = c.pdu.length := by simpa [Call.at] using hfull
      obtain ⟨hmem, rfl⟩ := hdone rfl
      have hfinished := hframed.finish_complete halive rfl hmem
      rw [List.append_assoc] at hfinished
      refine ⟨done', [], hfinished.perm (finish_sendWait_perm _ c) ?_⟩
      rw [Sender.finish, hnobody]
  | part hpdu =>
      obtain ⟨n, done', part', -, hframed, -⟩ := hwrote hpdu
      have hnoted := hframed.note (.addCallback .wronly) (by simp) rfl (by simp)
      rw [← hnobody] at hnoted
      obtain ⟨done'', part'', hafter⟩ := hnoted.awaitComplete
      rw [List.append_assoc, List.append_assoc] at hafter
      exact ⟨done'', part'', hafter⟩
  | failed hpdu =>
      obtain ⟨-, rfl⟩ := (writepdu_keeps hpdu).2.2.2 rfl
      have hnoted := (hclaimed.note (.wrote c.id []) (by simp) rfl (by simp)).note
        (.blockRemoveFd c.id) (by simp) rfl (by simp)
      rw [List.append_assoc] at hnoted
      refine ⟨done, [], hnoted.kill ?_ ?_ ?_ (List.Subset.refl _)⟩
      · rfl
      · rfl
      · simp only [hnobody]
        exact (List.nil_sublist [c]).append_left s.sendWait.threads

/-- A sender in front of its turn has the mutex. -/
theorem inTurn {c : Call} {s' : Sender} {events : List Event} {r : WriteResult}
    (h : Framed s (c :: s.sendWait.threads) s.sendComplete.threads log done part)
    (hturn : s.Turn c r s' events) :
    ∃ done' part', Framed s' s'.sendWait.threads s'.sendComplete.threads (log ++ events)
      done' part' := by
  cases hturn with
  | waits =>
      rw [List.append_nil]
      exact ⟨done, part, (h.perm (s.sendWait.threads_wait_perm c) (.refl _)).congr _ rfl rfl rfl⟩
  | refused hdead =>
      have hsub := (List.sublist_cons_self c s.sendWait.threads).append_right
        s.sendComplete.threads
      refine ⟨done, part, (h.returnFalse hdead c.id).kill ?_ ?_ hsub (List.subset_cons_self ..)⟩
      · exact hdead
      · rfl
  | writes halive hfree hwrite =>
      have hcounted := h.congr { s with waiters := s.waiters - 1 } rfl rfl rfl
      exact hcounted.firstWrite halive hfree hwrite

/-! ### The callbacks -/

/-- `write_cb` continues with the PDU that has been begun. -/
theorem nextWrite {s' : Sender} {events : List Event} {r : WriteResult} {choice : ℕ}
    (h : Framed s s.sendWait.threads s.sendComplete.threads log done part)
    (hwrite : s.NextWrite r choice s' events) :
    ∃ done' part', Framed s' s'.sendWait.threads s'.sendComplete.threads (log ++ events)
      done' part' := by
  have hsignal := s.sendComplete.threads_signal_perm choice
  -- a write that has succeeded
  have hwrote : ∀ {b w bytes}, s.dead = false → s.wpdu.buf = some b →
      writepdu s.wpdu r = some (true, w, bytes) → ∃ done' part',
        Framed { s with wpdu := w } s.sendWait.threads s.sendComplete.threads
          (log ++ [.wrote b.id bytes]) done' part' := by
    intro b w bytes halive hbuf hpdu
    cases h.progress with
    | idle _ hidle => rw [hidle] at hbuf; cases hbuf
    | dead hdead => rw [halive] at hdead; cases hdead
    | complete c _ hat =>
        rw [hat] at hpdu hbuf
        obtain rfl := Option.some.inj hbuf
        rw [writepdu_full] at hpdu
        obtain ⟨rfl, rfl⟩ : w = c.at c.pdu.length ∧ bytes = [] := by simpa [eq_comm] using hpdu
        have hnoted := h.note (.wrote c.stamp.id []) (by simp) rfl (by simp)
        exact ⟨done, part, hnoted.congr _ rfl hat.symm rfl⟩
    | writing c k _ hat hlt hone hpart hfresh =>
        rw [hat] at hpdu hbuf
        obtain rfl := Option.some.inj hbuf
        obtain ⟨n, hn, rfl, rfl⟩ := writepdu_at hlt hpdu
        rw [hone, hpart] at h
        obtain ⟨done', part', hframed, -⟩ := h.wrote halive hfresh hn
        exact ⟨done', part', hone ▸ hframed⟩
  cases hwrite with
  | nothing => exact ⟨done, part, h.note (.delCallback .wronly) (by simp) rfl (by simp)⟩
  | part halive hbuf hpdu =>
      obtain ⟨done', part', hframed⟩ := hwrote halive hbuf hpdu
      exact ⟨done', part', hframed⟩
  | whole halive hbuf hpdu =>
      obtain ⟨done', part', hframed⟩ := hwrote halive hbuf hpdu
      exact ⟨done', part', (hframed.perm (.refl _) hsignal).congr _ rfl rfl rfl⟩
  | @failed b _ _ _ _ hpdu =>
      obtain ⟨-, rfl⟩ := (writepdu_keeps hpdu).2.2.2 rfl
      have hnoted := (h.note (.wrote b.id []) (by simp) rfl (by simp)).note
        (.delCallback .rdwr) (by simp) rfl (by simp)
      rw [List.append_assoc] at hnoted
      refine ⟨done, part, (hnoted.perm (.refl _) hsignal).kill ?_ ?_ (.refl _)
        (List.Subset.refl _)⟩
      · rfl
      · rfl

/-- Every section keeps the write side in order. -/
theorem run {s' : Sender} {events : List Event} {label : Sender.Label}
    (h : Framed s s.sendWait.threads s.sendComplete.threads log done part)
    (hremoving : s.removing ≠ [] → s.dead = true)
    (hrun : s.run label = some (s', events)) :
    ∃ done' part', Framed s' s'.sendWait.threads s'.sendComplete.threads (log ++ events)
      done' part' := by
  cases Sender.section_of_run hrun with
  | @began pdu _ _ _ hpdu hturn =>
      have hbegun := h.begin (c := ⟨s.calls, pdu, hpdu⟩) rfl
      have hcounted := hbegun.congr
        { s with calls := s.calls + 1, waiters := s.waiters + 1 } rfl rfl rfl
      obtain ⟨done', part', hafter⟩ := hcounted.inTurn hturn
      rw [List.append_assoc] at hafter
      exact ⟨done', part', hafter⟩
  | wokeWait hwake =>
      rw [List.append_nil]
      exact ⟨done, part, (h.perm (CondVar.threads_wake_perm hwake) (.refl _)).congr _ rfl rfl rfl⟩
  | @resumedWait _ _ _ w _ _ hresume hturn =>
      have hperm := (CondVar.threads_resume_perm hresume).symm
      have hback := (h.perm hperm (.refl _)).congr { s with sendWait := w } rfl rfl rfl
      exact hback.inTurn hturn
  | wokeComplete hwake =>
      rw [List.append_nil]
      exact ⟨done, part, (h.perm (.refl _) (CondVar.threads_wake_perm hwake)).congr _ rfl rfl rfl⟩
  | @resumedComplete _ _ w hresume =>
      have hperm := (CondVar.threads_resume_perm hresume).symm
      have hback := (h.perm (.refl _) hperm).congr { s with sendComplete := w } rfl rfl rfl
      exact hback.awaitComplete
  | @removed i c hc =>
      have hdead := hremoving (List.ne_nil_of_mem (List.mem_of_getElem? hc))
      have hback := h.congr { s with removing := s.removing.eraseIdx i } rfl rfl rfl
      exact ⟨done, part, (hback.finish_dead hdead c).perm (finish_sendWait_perm _ c) (.refl _)⟩
  | wrote hwrite => exact h.nextWrite hwrite
  | read =>
      rw [List.append_nil]
      exact ⟨done, part, h⟩
  | @readFailed choice =>
      have hnoted := h.note (.delCallback .rdwr) (by simp) rfl (by simp)
      refine ⟨done, part, (hnoted.perm (.refl _)
        (s.sendComplete.threads_signal_perm choice)).kill ?_ ?_ (.refl _) (List.Subset.refl _)⟩
      · rfl
      · rfl
  | closed =>
      rw [List.append_nil]
      refine ⟨done, part, h.kill ?_ ?_ (.refl _) (List.Subset.refl _)⟩
      · rfl
      · rfl

end Framed

/-! ## A dead connection -/

/-- A dead connection stays dead and nothing is written to it, and a sender is in
`block_remove_fd` on a dead connection only. -/
structure Decays (s s' : Sender) (events : List Event) : Prop where
  dead : s.dead = true → s'.dead = true
  silent : s.dead = true → written events = []
  removing : s'.removing ⊆ s.removing ∨ s'.dead = true

namespace Decays

/-- Sections that write nothing and start no removal. -/
theorem of_written {s s' : Sender} {events : List Event}
    (hdead : s.dead = true → s'.dead = true) (hwritten : written events = [])
    (hremoving : s'.removing ⊆ s.removing) : Decays s s' events :=
  ⟨hdead, fun _ => hwritten, .inl hremoving⟩

theorem awaitComplete (s : Sender) (c : Call) :
    Decays s (s.awaitComplete c).1 (s.awaitComplete c).2 := by
  rw [Sender.awaitComplete]
  split_ifs
  · exact of_written id rfl (List.Subset.refl _)
  · exact of_written id rfl (List.Subset.refl _)

theorem firstWrite {s s' : Sender} {c : Call} {r : WriteResult} {events : List Event}
    (halive : s.dead = false) (hwrite : s.FirstWrite c r s' events) : Decays s s' events := by
  have hnever : ∀ {p : Prop}, s.dead = true → p := fun hdead => by
    rw [halive] at hdead
    cases hdead
  refine ⟨hnever, hnever, ?_⟩
  cases hwrite with
  | failed => exact .inr rfl
  | whole => exact .inl (List.Subset.refl _)
  | part => exact (awaitComplete _ c).removing

theorem inTurn {s s' : Sender} {c : Call} {r : WriteResult} {events : List Event}
    (hturn : s.Turn c r s' events) : Decays s s' events := by
  cases hturn with
  | waits | refused => exact of_written id rfl (List.Subset.refl _)
  | writes halive _ hwrite =>
      obtain ⟨hdecays, hsilent, hremoving⟩ :=
        firstWrite (s := { s with waiters := s.waiters - 1 }) halive hwrite
      exact ⟨hdecays, hsilent, hremoving⟩

theorem nextWrite {s s' : Sender} {r : WriteResult} {choice : ℕ} {events : List Event}
    (hwrite : s.NextWrite r choice s' events) : Decays s s' events := by
  have hnever : ∀ {p : Prop}, s.dead = false → s.dead = true → p := fun halive hdead => by
    rw [halive] at hdead
    cases hdead
  cases hwrite with
  | nothing => exact of_written id rfl (List.Subset.refl _)
  | failed halive | part halive | whole halive =>
      exact ⟨hnever halive, hnever halive, .inl (List.Subset.refl _)⟩

theorem run {s s' : Sender} {label : Sender.Label} {events : List Event}
    (hrun : s.run label = some (s', events)) : Decays s s' events := by
  cases Sender.section_of_run hrun with
  | began _ hturn | resumedWait _ hturn =>
      obtain ⟨hdead, hsilent, hremoving⟩ := inTurn hturn
      exact ⟨hdead, hsilent, hremoving⟩
  | @resumedComplete _ c w =>
      obtain ⟨hdead, hsilent, hremoving⟩ := awaitComplete { s with sendComplete := w } c
      exact ⟨hdead, hsilent, hremoving⟩
  | removed => exact of_written id rfl (List.eraseIdx_subset)
  | wrote hwrite => exact nextWrite hwrite
  | wokeWait | wokeComplete | read => exact of_written id rfl (List.Subset.refl _)
  | readFailed | closed => exact of_written (fun _ => rfl) rfl (List.Subset.refl _)

end Decays

/-! ## Runs -/

theorem framed_init : Framed {} [] [] [] [] [] where
  written_eq := rfl
  done_nodup := List.nodup_nil
  began := by simp
  inside_nodup := List.nodup_nil
  turn_fresh := by simp
  began_lt := by simp
  returned_true := by simp
  returned_false := by simp
  progress := .idle rfl rfl rfl rfl

/-- What holds of a connection and the history of its write side. -/
def Sound (reached : Sender × List Event) : Prop :=
  (reached.1.removing ≠ [] → reached.1.dead = true) ∧
    ∃ done part, Framed reached.1 reached.1.sendWait.threads reached.1.sendComplete.threads
      reached.2 done part

theorem Sound.run {s s' : Sender} {log events : List Event} {label : Sender.Label}
    (h : Sound (s, log)) (hrun : s.run label = some (s', events)) : Sound (s', log ++ events) := by
  obtain ⟨hremoving, done, part, hframed⟩ := h
  obtain ⟨hdead, -, hafter⟩ := Decays.run hrun
  refine ⟨fun hne => ?_, hframed.run hremoving hrun⟩
  rcases hafter with hsubset | hkilled
  · obtain ⟨c, hc⟩ := List.exists_mem_of_ne_nil _ hne
    exact hdead (hremoving (List.ne_nil_of_mem (hsubset hc)))
  · exact hkilled

theorem sound_of_run {labels : List Sender.Label} {reached : Sender × List Event}
    (hrun : Sender.system.Run anyStep labels reached) : Sound reached := by
  refine hrun.invariant Sound ⟨fun hne => absurd rfl hne, [], [], framed_init⟩ ?_
  rintro _ ⟨s, log⟩ label target - h - hstep
  obtain ⟨⟨s', events⟩, hsection, rfl⟩ := Option.map_eq_some_iff.mp hstep
  exact h.run hsection

/-- Whole-PDU writes, for any interleaving of senders, callbacks and closings: the bytes
that the socket has accepted are the PDUs of different calls of `send`, one after the
other, and a proper part of at most one more; on a dead connection nothing more is
written, and a call that returns false has found it dead; and the PDU of a call that
has returned true is among the complete ones. -/
theorem wholePdus {labels : List Sender.Label} {reached : Sender × List Event}
    (hrun : Sender.system.Run anyStep labels reached) :
    ∃ done part, written reached.2 = done.flatMap Call.frame ++ part ∧
      (done.map Call.id).Nodup ∧ (∀ c ∈ done, .began c ∈ reached.2) ∧
      Partial reached.2 done part ∧
      (∀ id, .returned id true ∈ reached.2 → id ∈ done.map Call.id) ∧
      (∀ id, .returned id false ∈ reached.2 → reached.1.dead = true) ∧
      (reached.1.dead = true → ∀ label s' events, reached.1.run label = some (s', events) →
        s'.dead = true ∧ written events = []) := by
  obtain ⟨-, done, part, h⟩ := sound_of_run hrun
  refine ⟨done, part, h.written_eq, h.done_nodup,
    fun c hc => h.began c (List.mem_append_left _ hc), h.toPartial, h.returned_true,
    h.returned_false, fun hdead label s' events hsection => ?_⟩
  have hdecays := Decays.run hsection
  exact ⟨hdecays.dead hdead, hdecays.silent hdead⟩

/-- Two senders. The PDU of the first is written in two pieces, the first of them by
`send` and the second by `write_cb`; the second sender, which has waited, is cut off. -/
def twoSendersRun : List Sender.Label :=
  [.send [0, 0, 0, 0, 7] (.accepted 3), .send [0, 0, 0, 0, 8, 9] .again, .writeCb (.accepted 2) 0,
    .resumeComplete 0, .resumeWait 0 (.accepted 5), .writeCb .error 0, .resumeComplete 0]

theorem wholePdus_twoSenders :
    ∃ reached, Sender.system.Run anyStep twoSendersRun reached ∧
      written reached.2 = [0, 0, 0, 5, 7] ++ [0, 0, 0, 6, 8] ∧
      ∃ done part, written reached.2 = done.flatMap Call.frame ++ part ∧
        Partial reached.2 done part := by
  have hexec : (Sender.system.exec Sender.system.init twoSendersRun).any
      (fun reached => written reached.2 == [0, 0, 0, 5, 7, 0, 0, 0, 6, 8]) = true := by
    decide +kernel
  obtain ⟨reached, hrun, hwritten⟩ := System.exists_run_of_exec hexec
  obtain ⟨done, part, heq, -, -, hpart, -⟩ := wholePdus hrun
  exact ⟨reached, hrun, by simpa using hwritten, done, part, heq, hpart⟩

end YfsLab.Connection
