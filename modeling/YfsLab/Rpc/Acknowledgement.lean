/-
# What a client acknowledges

Every request carries the front of the client's window. While the replies that
arrive carry xids of the client's own calls, and the xid counter has not gone
around, the front is below the xid of the next call, every xid up to it has been
answered or given up, and it never moves back.
-/

import YfsLab.Foundations.History
import YfsLab.Rpc.ClientRouting
import YfsLab.Rpc.ClientSteps
import YfsLab.Rpc.XidWindow

namespace YfsLab.Rpc.Client

open BigEndian Transition Wire

/-- What the acknowledgements of a client are judged by: a header that `call1` packs,
a reply that `got_pdu` accepts for an xid, and a call that leaves its loop without
a reply. -/
inductive Note
  | packed (header : ReqHeader)
  | accepted (xid : UInt32)
  | gaveUp (xid : UInt32)
  deriving DecidableEq, Repr

/-- The notes of a section. -/
def notes (c : Client) : Label → List Note
  | .start _ proc args => if c.refuses proc then [] else [.packed (c.request proc args).header]
  | .gotPdu b =>
      match decodeReply b with
      | none => []
      | some reply =>
          match (c.calls reply.xid).bind c.frames with
          | none => []
          | some call => if call.done then [] else [.accepted reply.xid]
  | .erase k =>
      match c.frames k with
      | none => []
      | some call => if call.done then [] else [.gaveUp call.xid]
  | _ => []

/-- The xids of the calls that have been made. -/
def packedXids (history : List Note) : List UInt32 :=
  history.filterMap fun note =>
    match note with
    | .packed header => some header.xid.toUInt32
    | _ => none

/-- A reply that arrives carries the xid of a call that has been made. -/
def repliesOwn (source : Client × List Note) : Label → Bool
  | .gotPdu b => (decodeReply b).all fun reply => (packedXids source.2).contains reply.xid
  | _ => true

/-- `rpcc` with its notes. -/
def noted (cltNonce : UInt32) (retrans : Bool) : System (Client × List Note) Label :=
  (system cltNonce retrans).recorded notes

/-- A reply for an xid has been accepted, or its call has given up. -/
def Finished (history : List Note) (xid : UInt32) : Prop :=
  .accepted xid ∈ history ∨ .gaveUp xid ∈ history

/-- A header acknowledges less than its own xid, nothing that is not finished, and no
less than the headers before it. -/
structure Sound (before : List Note) (header : ReqHeader) : Prop where
  rep_lt : header.xidRep.toUInt32 < header.xid.toUInt32
  finished : ∀ xid, 0 < xid → xid ≤ header.xidRep.toUInt32 → Finished before xid
  monotone : ∀ earlier, .packed earlier ∈ before →
    earlier.xidRep.toUInt32 ≤ header.xidRep.toUInt32

/-- The invariant: what is in the window is finished, and so is everything up to its
front; a finished call that is still in `calls_` has its reply, and a call that is
not in `calls_` any more is finished. -/
structure Acknowledging (c : Client) (history : List Note) : Prop where
  xid_eq : c.xid = UInt32.ofNat (1 + (packedXids history).length)
  window : IsWindow c.xidRepWindow
  mem_finished : ∀ xid ∈ c.xidRepWindow, xid = 0 ∨ Finished history xid
  finished : ∀ xid, 0 < xid → xid ≤ c.xidRepWindow.headD 0 → Finished history xid
  finished_le : ∀ xid, Finished history xid → xid.toNat ≤ (packedXids history).length
  packed_le : ∀ xid ∈ packedXids history, 0 < xid ∧ xid.toNat ≤ (packedXids history).length
  frame_le : ∀ k call, c.frames k = some call →
    0 < call.xid ∧ call.xid.toNat ≤ (packedXids history).length
  frame_done : ∀ k call, c.frames k = some call → call.done = true → Finished history call.xid
  calls_frame : ∀ xid k, c.calls xid = some k → ∃ call, c.frames k = some call ∧ call.xid = xid
  calls_finished : ∀ xid k call, Finished history xid → c.calls xid = some k →
    c.frames k = some call → call.done = true
  calls_none : ∀ xid, 0 < xid → xid.toNat ≤ (packedXids history).length → c.calls xid = none →
    Finished history xid
  rep_le : ∀ header, .packed header ∈ history → header.xidRep.toUInt32 ≤ c.xidRepWindow.headD 0
  sound : ∀ before header after, history = before ++ .packed header :: after → Sound before header

theorem acknowledging_init (cltNonce : UInt32) (retrans : Bool) :
    Acknowledging { cltNonce, retrans } [] where
  xid_eq := rfl
  window := isWindow_start
  mem_finished := by simp
  finished xid hpos hle := absurd hle (UInt32.not_le.mpr hpos)
  finished_le := by simp [Finished]
  packed_le := by simp [packedXids]
  frame_le := by simp
  frame_done := by simp
  calls_frame := by simp
  calls_finished := by simp
  calls_none xid hpos hle _ := by
    have hpos' := UInt32.lt_iff_toNat_lt.mp hpos
    simp only [packedXids, List.filterMap_nil, List.length_nil] at hle
    simp at hpos'
    omega
  rep_le := by simp
  sound := by simp

theorem Finished.append {history : List Note} {xid : UInt32} (h : Finished history xid)
    (more : List Note) : Finished (history ++ more) xid :=
  h.imp (List.mem_append_left _) (List.mem_append_left _)

/-- A step that leaves the window, `calls_`, and whether a call is done. -/
theorem Acknowledging.move {c target : Client} {history : List Note}
    (h : Acknowledging c history) {k : CallId} {call call' : Call}
    (hcall : c.frames k = some call) (hxid : target.xid = c.xid)
    (hwindow : target.xidRepWindow = c.xidRepWindow) (hcalls : target.calls = c.calls)
    (hframes : target.frames = Function.update c.frames k (some call'))
    (hsame : call'.xid = call.xid) (hdone : call'.done = call.done) :
    Acknowledging target history := by
  -- a frame of the target comes from a frame with the same record
  have hback : ∀ j found, target.frames j = some found → ∃ old, c.frames j = some old ∧
      found.xid = old.xid ∧ found.done = old.done := by
    intro j found hfound
    rw [hframes] at hfound
    by_cases hj : j = k
    · subst hj
      rw [Function.update_self, Option.some.injEq] at hfound
      exact ⟨call, hcall, hfound ▸ hsame, hfound ▸ hdone⟩
    · rw [Function.update_of_ne hj] at hfound
      exact ⟨found, hfound, rfl, rfl⟩
  refine ⟨hxid.trans h.xid_eq, hwindow ▸ h.window, hwindow ▸ h.mem_finished,
    hwindow ▸ h.finished, h.finished_le, h.packed_le, ?_, ?_, ?_, ?_, hcalls ▸ h.calls_none,
    hwindow ▸ h.rep_le, h.sound⟩
  · intro j found hfound
    obtain ⟨old, hold, hx, _⟩ := hback j found hfound
    exact hx ▸ h.frame_le j old hold
  · intro j found hfound hfoundDone
    obtain ⟨old, hold, hx, hd⟩ := hback j found hfound
    exact hx ▸ h.frame_done j old hold (hd ▸ hfoundDone)
  · intro xid j hj
    obtain ⟨old, hold, hx⟩ := h.calls_frame xid j (hcalls ▸ hj)
    by_cases hjk : j = k
    · subst hjk
      obtain rfl := Option.some.inj (hcall.symm.trans hold)
      exact ⟨call', by rw [hframes, Function.update_self], hsame.trans hx⟩
    · exact ⟨old, by rw [hframes, Function.update_of_ne hjk, hold], hx⟩
  · intro xid j found hfinished hj hfound
    obtain ⟨old, hold, _, hd⟩ := hback j found hfound
    rw [hd]
    exact h.calls_finished xid j old hfinished (hcalls ▸ hj) hold

/-- The splits of a history around a header, after a note that is none. -/
theorem Acknowledging.sound_concat {c : Client} {history : List Note}
    (h : Acknowledging c history) {note : Note} (hnote : ∀ header, note ≠ .packed header) :
    ∀ before header after, history ++ [note] = before ++ .packed header :: after →
      Sound before header := by
  intro before header after hsplit
  rcases History.concat_eq_append_cons.mp hsplit with ⟨_, hnew, _⟩ | ⟨rest, _, hold⟩
  · exact absurd hnew.symm (hnote header)
  · exact h.sound before header rest hold

theorem packedXids_concat {history : List Note} {note : Note}
    (hnote : ∀ header, note ≠ .packed header) :
    packedXids (history ++ [note]) = packedXids history := by
  cases note with
  | packed header => exact absurd rfl (hnote header)
  | _ => simp [packedXids]

theorem finished_concat {history : List Note} {note : Note} {xid : UInt32} :
    Finished (history ++ [note]) xid ↔
      Finished history xid ∨ note = .accepted xid ∨ note = .gaveUp xid := by
  simp only [Finished, List.mem_append, List.mem_singleton, eq_comm (b := note)]
  tauto

/-- Taking a finished xid into the window. -/
theorem Acknowledging.acknowledge {c : Client} {history : List Note}
    (h : Acknowledging c history) {xid : UInt32} (hxid : Finished history xid) :
    Acknowledging { c with xidRepWindow := updateXidRep c.xidRepWindow xid } history := by
  obtain ⟨hwindow, hfront, hmem, hreach⟩ := updateXidRep_spec h.window xid
  have hfinished : ∀ y, y ∈ c.xidRepWindow ∨ y = xid → y = 0 ∨ Finished history y := by
    rintro y (hy | rfl)
    · exact h.mem_finished y hy
    · exact .inr hxid
  refine ⟨h.xid_eq, hwindow, fun y hy => hfinished y ((hmem y).mp hy).1, ?_, h.finished_le,
    h.packed_le, h.frame_le, h.frame_done, h.calls_frame, h.calls_finished, h.calls_none, ?_,
    h.sound⟩
  · intro y hpos hle
    by_cases hold : y ≤ c.xidRepWindow.headD 0
    · exact h.finished y hpos hold
    · rcases hfinished y (hreach y (UInt32.not_le.mp hold) hle) with rfl | hy
      · exact absurd hpos (UInt32.lt_irrefl 0)
      · exact hy
  · exact fun header hmem => UInt32.le_trans (h.rep_le header hmem) hfront

/-- Accepting a reply. -/
theorem Acknowledging.accept {c : Client} {history : List Note} (h : Acknowledging c history)
    {k : CallId} {call call' : Call} (hcall : c.frames k = some call)
    (hcalls : c.calls call.xid = some k) (hsame : call'.xid = call.xid)
    (hdone : call'.done = true) :
    Acknowledging (c.put k call') (history ++ [.accepted call.xid]) := by
  have hxids : packedXids (history ++ [.accepted call.xid]) = packedXids history :=
    packedXids_concat nofun
  have hback : ∀ j found, (c.put k call').frames j = some found →
      (j = k ∧ found = call') ∨ (j ≠ k ∧ c.frames j = some found) :=
    fun j found => frames_put_eq_some.mp
  refine ⟨hxids ▸ h.xid_eq, h.window, ?_, ?_, ?_, hxids ▸ h.packed_le, ?_, ?_, ?_, ?_, ?_, ?_,
    h.sound_concat nofun⟩
  · exact fun xid hxid => (h.mem_finished xid hxid).imp_right fun hold => hold.append _
  · exact fun xid hpos hle => (h.finished xid hpos hle).append _
  · rw [hxids]
    intro xid hxid
    rcases finished_concat.mp hxid with hold | hnew | hnew
    · exact h.finished_le xid hold
    · cases hnew
      exact (h.frame_le k call hcall).2
    · cases hnew
  · rw [hxids]
    intro j found hfound
    rcases hback j found hfound with ⟨rfl, rfl⟩ | ⟨_, hold⟩
    · exact hsame ▸ h.frame_le j call hcall
    · exact h.frame_le j found hold
  · intro j found hfound hfoundDone
    rcases hback j found hfound with ⟨rfl, rfl⟩ | ⟨_, hold⟩
    · exact hsame ▸ finished_concat.mpr (.inr (.inl rfl))
    · exact (h.frame_done j found hold hfoundDone).append _
  · intro xid j hj
    obtain ⟨old, hold, rfl⟩ := h.calls_frame xid j hj
    by_cases hjk : j = k
    · subst hjk
      obtain rfl := Option.some.inj (hcall.symm.trans hold)
      exact ⟨call', by simp [Client.put], hsame⟩
    · exact ⟨old, by simpa [Client.put, hjk] using hold, rfl⟩
  · intro xid j found hxid hj hfound
    rcases hback j found hfound with ⟨rfl, rfl⟩ | ⟨hjk, hold⟩
    · exact hdone
    · rcases finished_concat.mp hxid with hfinished | hnew | hnew
      · exact h.calls_finished xid j found hfinished hj hold
      · cases hnew
        exact absurd (Option.some.inj (hj.symm.trans hcalls)) hjk
      · cases hnew
  · rw [hxids]
    exact fun xid hpos hle hnone => (h.calls_none xid hpos hle hnone).append _
  · intro header hmem
    exact h.rep_le header (by simpa using hmem)

/-- Erasing a call that is finished with the note that the step leaves, if any. -/
theorem Acknowledging.erase {c : Client} {history history' : List Note}
    (h : Acknowledging c history) {k : CallId} {call : Call} (hcall : c.frames k = some call)
    (hpacked : ∀ header, .packed header ∈ history' → .packed header ∈ history)
    (hxids : packedXids history' = packedXids history)
    (hfinished : ∀ xid, Finished history' xid ↔ Finished history xid ∨ xid = call.xid)
    (hsound : ∀ before header after, history' = before ++ .packed header :: after →
      Sound before header) :
    Acknowledging (c.erase k call) history' := by
  have hold : ∀ xid, Finished history xid → Finished history' xid :=
    fun xid hxid => (hfinished xid).mpr (.inl hxid)
  have hremoved : Acknowledging { c with calls := Function.update c.calls call.xid none }
      history' := by
    refine ⟨hxids ▸ h.xid_eq, h.window, fun xid hxid => (h.mem_finished xid hxid).imp_right
      (hold xid), fun xid hpos hle => hold xid (h.finished xid hpos hle), ?_, hxids ▸ h.packed_le,
      hxids ▸ h.frame_le, fun j found hfound hdone => hold _ (h.frame_done j found hfound hdone),
      ?_, ?_, ?_, fun header hmem => h.rep_le header (hpacked header hmem), hsound⟩
    · rw [hxids]
      intro xid hxid
      rcases (hfinished xid).mp hxid with hxid | rfl
      · exact h.finished_le xid hxid
      · exact (h.frame_le k call hcall).2
    · intro xid j hj
      by_cases hx : xid = call.xid
      · simp [hx] at hj
      · exact h.calls_frame xid j (by simpa [hx] using hj)
    · intro xid j found hxid hj hfound
      by_cases hx : xid = call.xid
      · simp [hx] at hj
      · exact h.calls_finished xid j found (((hfinished xid).mp hxid).resolve_right hx)
          (by simpa [hx] using hj) hfound
    · rw [hxids]
      intro xid hpos hle hnone
      by_cases hx : xid = call.xid
      · exact (hfinished xid).mpr (.inr hx)
      · exact hold xid (h.calls_none xid hpos hle (by simpa [hx] using hnone))
  exact (hremoved.acknowledge ((hfinished call.xid).mpr (.inr rfl))).move hcall rfl rfl rfl rfl
    rfl rfl

/-- Making a call. -/
theorem Acknowledging.start {c : Client} {history : List Note} (h : Acknowledging c history)
    {k : CallId} (hnew : c.frames k = none) (proc : Int32) (args : Bytes)
    (hbound : (packedXids history).length + 1 < 2 ^ 32) :
    Acknowledging
      ({ c with xid := c.xid + 1, calls := Function.update c.calls c.xid (some k) }.put k
        { request := c.request proc args, xid := c.xid })
      (history ++ [.packed (c.request proc args).header]) := by
  have hxid : c.xid.toNat = 1 + (packedXids history).length := by
    rw [h.xid_eq, UInt32.toNat_ofNat', Nat.mod_eq_of_lt (by omega)]
  have hxids : packedXids (history ++ [.packed (c.request proc args).header]) =
      packedXids history ++ [c.xid] := by
    simp [packedXids, List.filterMap_append, Client.request]
  have hlength : (packedXids history ++ [c.xid]).length = (packedXids history).length + 1 := by
    simp
  have hpos : 0 < c.xid := by
    rw [UInt32.lt_iff_toNat_lt, hxid]
    simp
  have hfront : c.xidRepWindow.headD 0 < c.xid := by
    rw [UInt32.lt_iff_toNat_lt]
    rcases h.mem_finished (c.xidRepWindow.headD 0) (by
      obtain ⟨front, rest, heq⟩ := List.exists_cons_of_ne_nil h.window.ne_nil
      simp [heq]) with hzero | hfinished
    · rw [hzero, hxid]
      simp
    · have hle := h.finished_le _ hfinished
      omega
  have hold : ∀ j call, c.frames j = some call → j ≠ k := by
    rintro j call hcall rfl
    rw [hnew] at hcall
    cases hcall
  have hfresh : ∀ xid, Finished history xid → xid ≠ c.xid := by
    rintro xid hfinished rfl
    have hle := h.finished_le _ hfinished
    omega
  have hfinished : ∀ xid, Finished (history ++ [.packed (c.request proc args).header]) xid ↔
      Finished history xid := by
    intro xid
    rw [finished_concat]
    simp
  have hrep : (c.request proc args).header.xidRep.toUInt32 = c.xidRepWindow.headD 0 := by
    simp [Client.request]
  refine ⟨?_, h.window, ?_, ?_, ?_, ?_, ?_, ?_, ?_, ?_, ?_, ?_, ?_⟩
  · rw [hxids, hlength]
    simp only [Client.put]
    rw [h.xid_eq]
    exact (UInt32.ofNat_add (1 + _) 1).symm
  · exact fun xid hmem => (h.mem_finished xid hmem).imp_right (hfinished xid).mpr
  · exact fun xid hzero hle => (hfinished xid).mpr (h.finished xid hzero hle)
  · rw [hxids, hlength]
    exact fun xid hxid => (h.finished_le xid ((hfinished xid).mp hxid)).trans (Nat.le_succ _)
  · rw [hxids, hlength]
    intro xid hmem
    rcases List.mem_append.mp hmem with hmem | hmem
    · obtain ⟨hzero, hle⟩ := h.packed_le xid hmem
      exact ⟨hzero, hle.trans (Nat.le_succ _)⟩
    · obtain rfl := List.mem_singleton.mp hmem
      exact ⟨hpos, by omega⟩
  · rw [hxids, hlength]
    intro j found hfound
    rcases frames_put_eq_some.mp hfound with ⟨rfl, rfl⟩ | ⟨_, hcall⟩
    · exact ⟨hpos, by simp only; omega⟩
    · obtain ⟨hzero, hle⟩ := h.frame_le j found hcall
      exact ⟨hzero, hle.trans (Nat.le_succ _)⟩
  · intro j found hfound hdone
    rcases frames_put_eq_some.mp hfound with ⟨rfl, rfl⟩ | ⟨_, hcall⟩
    · cases hdone
    · exact (hfinished _).mpr (h.frame_done j found hcall hdone)
  · intro xid j hj
    by_cases hx : xid = c.xid
    · subst hx
      obtain rfl : k = j := by simpa [Client.put] using hj
      exact ⟨{ request := c.request proc args, xid := c.xid }, by simp [Client.put], rfl⟩
    · obtain ⟨call, hcall, heq⟩ := h.calls_frame xid j (by simpa [Client.put, hx] using hj)
      exact ⟨call, by simpa [Client.put, hold j call hcall] using hcall, heq⟩
  · intro xid j found hxidFinished hj hfound
    have hx := hfresh xid ((hfinished xid).mp hxidFinished)
    have hj' : c.calls xid = some j := by simpa [Client.put, hx] using hj
    obtain ⟨call, hcall, _⟩ := h.calls_frame xid j hj'
    have hcall' : c.frames j = some found := by
      simpa [Client.put, hold j call hcall] using hfound
    exact h.calls_finished xid j found ((hfinished xid).mp hxidFinished) hj' hcall'
  · rw [hxids, hlength]
    intro xid hzero hle hnone
    by_cases hx : xid = c.xid
    · simp [Client.put, hx] at hnone
    · have hne : xid.toNat ≠ c.xid.toNat := fun heq => hx (UInt32.toNat_inj.mp heq)
      exact (hfinished xid).mpr (h.calls_none xid hzero (by omega)
        (by simpa [Client.put, hx] using hnone))
  · intro header hmem
    rcases List.mem_append.mp hmem with hmem | hmem
    · exact h.rep_le header hmem
    · cases List.mem_singleton.mp hmem
      exact hrep ▸ UInt32.le_refl _
  · intro before header after hsplit
    rcases History.concat_eq_append_cons.mp hsplit with ⟨rfl, hnewHeader, _⟩ | ⟨rest, _, hsplit⟩
    · cases hnewHeader
      refine ⟨?_, fun xid hzero hle => h.finished xid hzero (hrep ▸ hle), fun earlier hmem => ?_⟩
      · rw [hrep]
        simpa [Client.request] using hfront
      · rw [hrep]
        exact h.rep_le earlier hmem
    · exact h.sound before header rest hsplit

/-- A reply to a call that has been made. -/
theorem Acknowledging.gotPdu {c : Client} {history : List Note} (h : Acknowledging c history)
    {b : Bytes} (hown : repliesOwn (c, history) (.gotPdu b) = true) :
    Acknowledging (c.gotPdu b) (history ++ notes c (.gotPdu b)) := by
  cases hreply : decodeReply b with
  | none => simpa [Client.gotPdu, notes, hreply] using h
  | some reply =>
      have hmade : reply.xid ∈ packedXids history := by simpa [repliesOwn, hreply] using hown
      cases hcalls : c.calls reply.xid with
      | none =>
          obtain ⟨hpos, hle⟩ := h.packed_le _ hmade
          have hfinished := h.calls_none _ hpos hle hcalls
          simpa [Client.gotPdu, notes, hreply, hcalls] using h.acknowledge hfinished
      | some k =>
          obtain ⟨call, hcall, hxid⟩ := h.calls_frame _ k hcalls
          cases hdone : call.done with
          | true =>
              have hfinished := hxid ▸ h.frame_done k call hcall hdone
              have haccept : call.accept reply = call := by simp [Call.accept, hdone]
              have hmoved : Acknowledging
                  ({ c with xidRepWindow := updateXidRep c.xidRepWindow reply.xid }.put k call)
                  history :=
                (h.acknowledge hfinished).move hcall rfl rfl rfl rfl rfl rfl
              simpa [Client.gotPdu, notes, hreply, hcalls, hcall, hdone, haccept] using hmoved
          | false =>
              have haccepted : Acknowledging (c.put k (call.accept reply))
                  (history ++ [.accepted call.xid]) :=
                h.accept hcall (hxid ▸ hcalls) (by simp [Call.accept, hdone])
                  (by simp [Call.accept, hdone])
              have hfinished : Finished (history ++ [.accepted call.xid]) reply.xid :=
                finished_concat.mpr (.inr (.inl (hxid ▸ rfl)))
              have hafter := haccepted.acknowledge hfinished
              simpa [Client.gotPdu, notes, hreply, hcalls, hcall, hdone, hxid, Client.put]
                using hafter

theorem Acknowledging.step {c target : Client} {history : List Note}
    (h : Acknowledging c history) {label : Label}
    (hown : repliesOwn (c, history) label = true) (hstep : c.step label = some target)
    (hbound : (packedXids (history ++ notes c label)).length < 2 ^ 32) :
    Acknowledging target (history ++ notes c label) := by
  cases label with
  | start k proc args =>
      obtain ⟨hnew, htarget⟩ := Option.ite_none_right_eq_some.mp hstep
      obtain rfl := Option.some.inj htarget
      simp only [Client.start, notes] at hbound ⊢
      split_ifs with hrefuses
      · simpa using h
      · rw [if_neg hrefuses] at hbound
        refine h.start (by simpa using hnew) proc args ?_
        simpa [packedXids, List.filterMap_append] using hbound
  | refconn k dead connected =>
      obtain ⟨call, hcall, _, rfl⟩ := onCall_eq_some.mp hstep
      simp only [notes, List.append_nil]
      exact h.move hcall rfl rfl rfl rfl rfl rfl
  | send k last =>
      obtain ⟨call, hcall, _, rfl⟩ := onCall_eq_some.mp hstep
      obtain ⟨hxid, hdone, _⟩ := loop_record call last
      simp only [notes, List.append_nil]
      exact h.move hcall rfl rfl rfl rfl hxid hdone
  | wake k | expire k =>
      obtain ⟨call, hcall, _, rfl⟩ := onCall_eq_some.mp hstep
      simp only [notes, List.append_nil]
      exact h.move hcall rfl rfl rfl rfl rfl rfl
  | retry k dead last =>
      obtain ⟨call, hcall, _, rfl⟩ := onCall_eq_some.mp hstep
      obtain ⟨hxid, hdone, _⟩ := retry_record call c.retrans dead last
      simp only [notes, List.append_nil]
      exact h.move hcall rfl rfl rfl rfl hxid hdone
  | erase k =>
      obtain ⟨call, hcall, _, rfl⟩ := onCall_eq_some.mp hstep
      simp only [notes, hcall]
      split_ifs with hdone
      · rw [List.append_nil]
        refine h.erase hcall (fun _ hmem => hmem) rfl (fun xid => ⟨.inl, ?_⟩) h.sound
        rintro (hxid | rfl)
        · exact hxid
        · exact h.frame_done k call hcall hdone
      · refine h.erase hcall (fun _ hmem => by simpa using hmem) (packedXids_concat (by simp))
          (fun xid => ?_) (h.sound_concat (by simp))
        rw [finished_concat]
        simp [eq_comm]
  | finish k =>
      obtain ⟨call, hcall, _, rfl⟩ := onCall_eq_some.mp hstep
      simp only [notes, List.append_nil]
      exact h.move hcall rfl rfl rfl rfl rfl rfl
  | gotPdu b =>
      obtain rfl := Option.some.inj hstep
      exact h.gotPdu hown
  | bind k =>
      obtain ⟨call, hcall, _, rfl⟩ := onCall_eq_some.mp hstep
      simp only [notes, List.append_nil]
      unfold Client.bind
      split <;> exact h.move hcall rfl rfl rfl rfl rfl rfl

/-- Acknowledgement soundness, for the runs of `rpcc` with less than 2^32 calls in
which the replies carry xids of the client's calls: every header acknowledges less
than its own xid, only xids for which a reply has been accepted or whose call has
given up, and no less than the headers before it; and no call in `calls_` at or
below the front of the window is without a reply. -/
theorem acknowledgementSound {cltNonce : UInt32} {retrans : Bool} {labels : List Label}
    {reached : Client × List Note}
    (hrun : (noted cltNonce retrans).Run (fun source label => repliesOwn source label = true)
      labels reached)
    (hbound : (packedXids reached.2).length < 2 ^ 32) :
    (∀ before header after, reached.2 = before ++ .packed header :: after →
      header.xidRep.toUInt32 < header.xid.toUInt32 ∧
      (∀ xid, 0 < xid → xid ≤ header.xidRep.toUInt32 →
        .accepted xid ∈ before ∨ .gaveUp xid ∈ before) ∧
      ∀ earlier, .packed earlier ∈ before →
        earlier.xidRep.toUInt32 ≤ header.xidRep.toUInt32) ∧
    ∀ xid k call, 0 < xid → xid ≤ reached.1.xidRepWindow.headD 0 →
      reached.1.calls xid = some k → reached.1.frames k = some call → call.done = true := by
  have hack : (packedXids reached.2).length < 2 ^ 32 →
      Acknowledging reached.1 reached.2 := by
    refine hrun.invariant (fun reached : Client × List Note =>
      (packedXids reached.2).length < 2 ^ 32 → Acknowledging reached.1 reached.2) ?_ ?_
    · exact fun _ => acknowledging_init cltNonce retrans
    · intro labels source label target _ h hown hstep hlength
      obtain ⟨hnext, hlog⟩ := System.recorded_step_eq_some.mp hstep
      rw [hlog] at hlength ⊢
      refine (h ?_).step hown hnext hlength
      refine lt_of_le_of_lt ?_ hlength
      rw [packedXids, packedXids, List.filterMap_append, List.length_append]
      exact Nat.le_add_right _ _
  have h := hack hbound
  refine ⟨fun before header after hsplit => ?_, fun xid k call hpos hle =>
    h.calls_finished xid k call (h.finished xid hpos hle)⟩
  obtain ⟨hlt, hfinished, hmonotone⟩ := h.sound before header after hsplit
  exact ⟨hlt, hfinished, hmonotone⟩

/-- Two calls of `bind` at once. The second one is answered, then the first one gives
up, and the third request acknowledges both. -/
def overtakenRun : List Label :=
  [.start 0 1 [], .start 1 1 [], .gotPdu (replyPdu (List.replicate 12 0) ⟨2, 0⟩ [0, 0, 0, 9]),
    .refconn 0 false none, .send 0 true, .expire 0, .retry 0 false false, .refconn 0 true none,
    .send 0 false, .erase 0, .finish 0, .start 2 1 []]

theorem acknowledgementSound_overtaken :
    ∃ reached, (noted 7 true).Run (fun source label => repliesOwn source label = true)
        overtakenRun reached ∧
      ∃ before header after, reached.2 = before ++ .packed header :: after ∧
        header.xidRep = 2 ∧ header.xidRep.toUInt32 < header.xid.toUInt32 := by
  have hexec : ((noted 7 true).execIf repliesOwn (noted 7 true).init overtakenRun).any
      (fun reached => decide ((packedXids reached.2).length < 2 ^ 32) &&
        reached.2.any fun note =>
          match note with
          | .packed header => header.xidRep == 2
          | _ => false) = true := by
    decide +kernel
  obtain ⟨reached, hrun, hreached⟩ := System.exists_run_of_execIf hexec
  rw [Bool.and_eq_true, decide_eq_true_eq, List.any_eq_true] at hreached
  obtain ⟨hbound, note, hmem, hnote⟩ := hreached
  split at hnote
  · next header =>
      obtain ⟨before, after, hsplit⟩ := List.append_of_mem hmem
      exact ⟨reached, hrun, before, header, after, hsplit, by simpa using hnote,
        ((acknowledgementSound hrun hbound).1 before header after hsplit).1⟩
  · cases hnote

end YfsLab.Rpc.Client
