/-
# The reply window

For every client the server keeps a list of entries, one for each request that it
is working on or has answered and that it has not dropped yet. An entry without a
reply stands for a request in progress. The replies themselves are buffers on the
heap: dropping an entry frees its buffer.
-/

import Mathlib.Logic.Function.Basic
import YfsLab.Wire.Marshall

namespace YfsLab.Rpc

open BigEndian

/-- A thread of the dispatch pool working on one request. -/
abbrev DispatchId := ℕ

/-- A reply buffer, named by the dispatch that produced it. -/
abbrev BufId := DispatchId

/-- `reply_t`. -/
structure ReplyEntry where
  xid : UInt32
  cbPresent : Bool := false
  buf : Option BufId := none
  sz : ℕ := 0
  deriving DecidableEq, Repr

/-- A reply buffer on the heap. -/
structure Cell where
  bytes : Bytes
  freed : Bool := false
  deriving DecidableEq, Repr

/-- `rpcstate_t`, with the buffer that a `DONE` hands out. -/
inductive Verdict
  | new
  | inProgress
  | done (buf : Option BufId) (sz : ℕ)
  | forgotten
  deriving DecidableEq, Repr

/-- `reply_window_`, and the heap its buffers are on. -/
structure ReplyStore where
  window : UInt32 → Option (List ReplyEntry) := fun _ => none
  heap : BufId → Option Cell := fun _ => none

namespace ReplyStore

/-- The entries of a client. -/
def entries (s : ReplyStore) (clt : UInt32) : List ReplyEntry := (s.window clt).getD []

/-- The xids of the entries of a client. -/
def xids (s : ReplyStore) (clt : UInt32) : List UInt32 := (s.entries clt).map ReplyEntry.xid

/-- `free`, for the buffers with these names. -/
def free (s : ReplyStore) (bufs : List BufId) : ReplyStore :=
  { s with heap := fun b =>
      if b ∈ bufs then (s.heap b).map fun cell => { cell with freed := true } else s.heap b }

/-- The entries that a request with this acknowledgement drops. -/
def dropped (s : ReplyStore) (clt xidRep : UInt32) : List ReplyEntry :=
  (s.entries clt).filter fun reply => reply.xid < xidRep

/-- The entries that it leaves. -/
def kept (s : ReplyStore) (clt xidRep : UInt32) : List ReplyEntry :=
  (s.entries clt).filter fun reply => !decide (reply.xid < xidRep)

/-- Overwrite the list of a client. -/
def put (s : ReplyStore) (clt : UInt32) (l : List ReplyEntry) : ReplyStore :=
  { s with window := Function.update s.window clt (some l) }

/-- Free the buffers of the dropped entries. -/
def prune (s : ReplyStore) (clt xidRep : UInt32) : ReplyStore :=
  s.free ((s.dropped clt xidRep).filterMap ReplyEntry.buf)

/-- Make sure that the client has a list of entries. -/
def enroll (s : ReplyStore) (clt : UInt32) : ReplyStore := s.put clt (s.entries clt)

/-- `rpcs::checkduplicate_and_update`. -/
def checkduplicateAndUpdate (s : ReplyStore) (clt xid xidRep : UInt32) : ReplyStore × Verdict :=
  if xid ≤ xidRep then (s, .forgotten)
  else
    let l := s.kept clt xidRep
    match l.find? fun reply => reply.xid == xid with
    | some reply =>
        ((s.prune clt xidRep).put clt l,
          if reply.cbPresent then .done reply.buf reply.sz else .inProgress)
    | none => ((s.prune clt xidRep).put clt (l ++ [{ xid := xid }]), .new)

/-- Write a reply into the first entry of its xid. -/
def setReply (xid : UInt32) (b : BufId) (sz : ℕ) : List ReplyEntry → List ReplyEntry
  | [] => []
  | reply :: rest =>
      if reply.xid = xid then { reply with cbPresent := true, buf := some b, sz := sz } :: rest
      else reply :: setReply xid b sz rest

/-- `rpcs::add_reply`. There is no result if the client has no list: `at` throws. -/
def addReply (s : ReplyStore) (clt xid : UInt32) (b : BufId) (sz : ℕ) : Option ReplyStore :=
  (s.window clt).map fun l => s.put clt (setReply xid b sz l)

/-! ## What the operations do to the entries -/

theorem entries_put (s : ReplyStore) (clt other : UInt32) (l : List ReplyEntry) :
    (s.put clt l).entries other = if other = clt then l else s.entries other := by
  by_cases h : other = clt
  · subst h
    simp [entries, put]
  · simp [entries, put, h]

@[simp]
theorem heap_put (s : ReplyStore) (clt : UInt32) (l : List ReplyEntry) :
    (s.put clt l).heap = s.heap := rfl

@[simp]
theorem entries_prune (s : ReplyStore) (clt xidRep other : UInt32) :
    (s.prune clt xidRep).entries other = s.entries other := rfl

@[simp]
theorem entries_enroll (s : ReplyStore) (clt other : UInt32) :
    (s.enroll clt).entries other = s.entries other := by
  rw [enroll, entries_put]
  split_ifs with h
  · rw [h]
  · rfl

@[simp]
theorem heap_enroll (s : ReplyStore) (clt : UInt32) : (s.enroll clt).heap = s.heap := rfl

theorem mem_kept {s : ReplyStore} {clt xidRep : UInt32} {reply : ReplyEntry} :
    reply ∈ s.kept clt xidRep ↔ reply ∈ s.entries clt ∧ ¬ reply.xid < xidRep := by
  simp [kept]

theorem mem_dropped {s : ReplyStore} {clt xidRep : UInt32} {reply : ReplyEntry} :
    reply ∈ s.dropped clt xidRep ↔ reply ∈ s.entries clt ∧ reply.xid < xidRep := by
  simp [dropped]

theorem heap_free_of_notMem (s : ReplyStore) {bufs : List BufId} {b : BufId}
    (hb : b ∉ bufs) : (s.free bufs).heap b = s.heap b := if_neg hb

/-- A check frees the buffers of the entries it drops, and no others. -/
theorem heap_check_of_kept (s : ReplyStore) {clt xid xidRep : UInt32} {b : BufId}
    (hb : xidRep < xid → ∀ reply ∈ s.dropped clt xidRep, reply.buf ≠ some b) :
    (s.checkduplicateAndUpdate clt xid xidRep).1.heap b = s.heap b := by
  unfold checkduplicateAndUpdate
  split_ifs with hle
  · rfl
  · have hfree : b ∉ (s.dropped clt xidRep).filterMap ReplyEntry.buf := by
      intro hmem
      obtain ⟨reply, hreply, hbuf⟩ := List.mem_filterMap.mp hmem
      exact hb (UInt32.not_le.mp hle) reply hreply hbuf
    dsimp only
    split <;> exact heap_free_of_notMem s hfree

/-- What a check decides and does: it forgets a request that has been acknowledged,
and otherwise drops the acknowledged entries and looks for an entry of the xid. -/
theorem check_cases (s : ReplyStore) (clt xid xidRep : UInt32) :
    (xid ≤ xidRep ∧ s.checkduplicateAndUpdate clt xid xidRep = (s, .forgotten)) ∨
    (xidRep < xid ∧ (∀ reply ∈ s.entries clt, reply.xid ≠ xid) ∧
      s.checkduplicateAndUpdate clt xid xidRep =
        ((s.prune clt xidRep).put clt (s.kept clt xidRep ++ [{ xid := xid }]), .new)) ∨
    (xidRep < xid ∧ ∃ reply ∈ s.kept clt xidRep, reply.xid = xid ∧
      s.checkduplicateAndUpdate clt xid xidRep =
        ((s.prune clt xidRep).put clt (s.kept clt xidRep),
          if reply.cbPresent then .done reply.buf reply.sz else .inProgress)) := by
  by_cases hle : xid ≤ xidRep
  · exact .inl ⟨hle, by simp [checkduplicateAndUpdate, hle]⟩
  · have hlt : xidRep < xid := UInt32.not_le.mp hle
    cases hfind : (s.kept clt xidRep).find? fun reply => reply.xid == xid with
    | none =>
        refine .inr (.inl ⟨hlt, fun reply hmem heq => ?_, ?_⟩)
        · have hkept : reply ∈ s.kept clt xidRep :=
            mem_kept.mpr ⟨hmem, heq ▸ UInt32.lt_asymm hlt⟩
          simpa [heq] using List.find?_eq_none.mp hfind reply hkept
        · simp only [checkduplicateAndUpdate, hle, if_false, hfind]
    | some reply =>
        refine .inr (.inr ⟨hlt, reply, List.mem_of_find?_eq_some hfind, ?_, ?_⟩)
        · simpa using List.find?_some hfind
        · simp only [checkduplicateAndUpdate, hle, if_false, hfind]

/-- A check allocates nothing. -/
theorem exists_heap_of_check {s : ReplyStore} {clt xid xidRep : UInt32} {b : BufId}
    {cell : Cell} (hcell : (s.checkduplicateAndUpdate clt xid xidRep).1.heap b = some cell) :
    ∃ cell', s.heap b = some cell' := by
  have hfree : (s.prune clt xidRep).heap b = some cell → ∃ cell', s.heap b = some cell' := by
    intro hpruned
    simp only [prune, free] at hpruned
    split_ifs at hpruned
    · obtain ⟨cell', hcell', _⟩ := Option.map_eq_some_iff.mp hpruned
      exact ⟨cell', hcell'⟩
    · exact ⟨cell, hpruned⟩
  rcases s.check_cases clt xid xidRep with ⟨_, hcheck⟩ | ⟨_, _, hcheck⟩ | ⟨_, _, _, _, hcheck⟩
  · rw [hcheck] at hcell
    exact ⟨cell, hcell⟩
  · rw [hcheck] at hcell
    exact hfree hcell
  · rw [hcheck] at hcell
    exact hfree hcell

/-- The entries after a check were there before, unless it has made a new one. -/
theorem mem_entries_check {s : ReplyStore} {clt xid xidRep other : UInt32}
    {reply : ReplyEntry}
    (hmem : reply ∈ (s.checkduplicateAndUpdate clt xid xidRep).1.entries other) :
    (reply ∈ s.entries other ∧
      (xidRep < xid → other = clt → ¬ reply.xid < xidRep)) ∨ reply = { xid := xid } := by
  rcases s.check_cases clt xid xidRep with ⟨hle, hcheck⟩ | ⟨hlt, _, hcheck⟩ |
    ⟨hlt, _, _, _, hcheck⟩
  · rw [hcheck] at hmem
    exact .inl ⟨hmem, fun hlt => absurd hle (UInt32.not_le.mpr hlt)⟩
  · rw [hcheck, entries_put] at hmem
    split_ifs at hmem with heq
    · subst heq
      rcases List.mem_append.mp hmem with hkept | hnew
      · exact .inl ⟨(mem_kept.mp hkept).1, fun _ _ => (mem_kept.mp hkept).2⟩
      · exact .inr (List.mem_singleton.mp hnew)
    · exact .inl ⟨hmem, fun _ hother => absurd hother heq⟩
  · rw [hcheck, entries_put] at hmem
    split_ifs at hmem with heq
    · subst heq
      exact .inl ⟨(mem_kept.mp hmem).1, fun _ _ => (mem_kept.mp hmem).2⟩
    · exact .inl ⟨hmem, fun _ hother => absurd hother heq⟩

/-- A check that hands out a buffer has found it in an entry of the xid, which has
not been dropped. -/
theorem mem_of_check_done {s : ReplyStore} {clt xid xidRep : UInt32} {buf : Option BufId}
    {sz : ℕ} (hdone : (s.checkduplicateAndUpdate clt xid xidRep).2 = .done buf sz) :
    ∃ reply ∈ s.entries clt, reply.xid = xid ∧ reply.cbPresent = true ∧ reply.buf = buf ∧
      reply.sz = sz ∧ ¬ reply.xid < xidRep := by
  rcases s.check_cases clt xid xidRep with ⟨_, hcheck⟩ | ⟨_, _, hcheck⟩ |
    ⟨_, reply, hmem, hxid, hcheck⟩
  · rw [hcheck] at hdone
    cases hdone
  · rw [hcheck] at hdone
    cases hdone
  · rw [hcheck] at hdone
    obtain ⟨hentry, hkept⟩ := mem_kept.mp hmem
    cases hpresent : reply.cbPresent with
    | false => simp [hpresent] at hdone
    | true =>
        simp only [hpresent, if_true, Verdict.done.injEq] at hdone
        exact ⟨reply, hentry, hxid, hpresent, hdone.1, hdone.2, hkept⟩

/-- The entries after a reply has been written. -/
theorem mem_setReply {xid : UInt32} {b : BufId} {sz : ℕ} {l : List ReplyEntry}
    {reply : ReplyEntry} (hmem : reply ∈ setReply xid b sz l) :
    reply ∈ l ∨ ∃ old ∈ l, old.xid = xid ∧
      reply = { old with cbPresent := true, buf := some b, sz := sz } := by
  induction l with
  | nil => simp [setReply] at hmem
  | cons head rest ih =>
      simp only [setReply] at hmem
      split_ifs at hmem with hxid
      · rcases List.mem_cons.mp hmem with rfl | hrest
        · exact .inr ⟨head, List.mem_cons_self, hxid, rfl⟩
        · exact .inl (List.mem_cons_of_mem _ hrest)
      · rcases List.mem_cons.mp hmem with rfl | hrest
        · exact .inl List.mem_cons_self
        · rcases ih hrest with hold | ⟨old, hold, hrest⟩
          · exact .inl (List.mem_cons_of_mem _ hold)
          · exact .inr ⟨old, List.mem_cons_of_mem _ hold, hrest⟩

/-- Writing a reply keeps the xids of the entries. -/
@[simp]
theorem map_xid_setReply (xid : UInt32) (b : BufId) (sz : ℕ) (l : List ReplyEntry) :
    (setReply xid b sz l).map ReplyEntry.xid = l.map ReplyEntry.xid := by
  induction l with
  | nil => rfl
  | cons head rest ih =>
      simp only [setReply]
      split_ifs
      · rfl
      · simp [ih]

/-- What a check says about the xids in the window: an admitted request finds or
leaves its xid there, only acknowledged xids disappear, and a new xid has not been
there. -/
theorem check_xids (s : ReplyStore) (clt xid xidRep : UInt32) :
    (xid ≤ xidRep ∧ s.checkduplicateAndUpdate clt xid xidRep = (s, .forgotten)) ∨
    (xidRep < xid ∧ (s.checkduplicateAndUpdate clt xid xidRep).2 ≠ .forgotten ∧
      xid ∈ (s.checkduplicateAndUpdate clt xid xidRep).1.xids clt ∧
      (∀ other y, y ∈ s.xids other → (other = clt → ¬ y < xidRep) →
        y ∈ (s.checkduplicateAndUpdate clt xid xidRep).1.xids other) ∧
      ((s.checkduplicateAndUpdate clt xid xidRep).2 = .new → xid ∉ s.xids clt)) := by
  -- what is left of the entries is left of the xids
  have hkept : ∀ (l : List ReplyEntry) other y, s.kept clt xidRep ⊆ l → y ∈ s.xids other →
      (other = clt → ¬ y < xidRep) → y ∈ ((s.prune clt xidRep).put clt l).xids other := by
    intro l other y hl hy hother
    obtain ⟨reply, hreply, rfl⟩ := List.mem_map.mp hy
    rw [xids, entries_put]
    split_ifs with heq
    · subst heq
      exact List.mem_map_of_mem (hl (mem_kept.mpr ⟨hreply, hother rfl⟩))
    · exact List.mem_map_of_mem hreply
  rcases s.check_cases clt xid xidRep with ⟨hle, hcheck⟩ | ⟨hlt, hnone, hcheck⟩ |
    ⟨hlt, reply, hreply, hxid, hcheck⟩
  · exact .inl ⟨hle, hcheck⟩
  · refine .inr ⟨hlt, ?_⟩
    rw [hcheck]
    refine ⟨nofun, ?_, fun other y => hkept _ other y (List.subset_append_left _ _), ?_⟩
    · simp [xids, entries_put]
    · intro _ hmem
      obtain ⟨reply, hreply, heq⟩ := List.mem_map.mp hmem
      exact hnone reply hreply heq
  · refine .inr ⟨hlt, ?_⟩
    rw [hcheck]
    refine ⟨?_, ?_, fun other y => hkept _ other y (List.Subset.refl _), ?_⟩
    · split_ifs <;> nofun
    · rw [xids, entries_put, if_pos rfl]
      exact List.mem_map.mpr ⟨reply, hreply, hxid⟩
    · split_ifs <;> nofun

theorem mem_xids_kept {s : ReplyStore} {clt xidRep y : UInt32} :
    y ∈ (s.kept clt xidRep).map ReplyEntry.xid ↔ y ∈ s.xids clt ∧ ¬ y < xidRep := by
  constructor
  · intro hmem
    obtain ⟨reply, hreply, rfl⟩ := List.mem_map.mp hmem
    obtain ⟨hentry, hkept⟩ := mem_kept.mp hreply
    exact ⟨List.mem_map_of_mem hentry, hkept⟩
  · rintro ⟨hmem, hkept⟩
    obtain ⟨reply, hreply, rfl⟩ := List.mem_map.mp hmem
    exact List.mem_map_of_mem (mem_kept.mpr ⟨hreply, hkept⟩)

/-- The xids in the windows after a check. -/
theorem mem_xids_check {s : ReplyStore} {clt xid xidRep other y : UInt32} :
    y ∈ (s.checkduplicateAndUpdate clt xid xidRep).1.xids other ↔
      (y ∈ s.xids other ∧ (other = clt → xidRep < xid → ¬ y < xidRep)) ∨
        other = clt ∧ y = xid ∧ xidRep < xid := by
  rcases s.check_cases clt xid xidRep with ⟨hle, hcheck⟩ | ⟨hlt, _, hcheck⟩ |
    ⟨hlt, reply, hreply, rfl, hcheck⟩
  · have hnot := UInt32.not_lt.mpr hle
    rw [hcheck]
    tauto
  · rw [hcheck, xids, entries_put]
    split_ifs with heq
    · rw [List.map_append, List.mem_append, mem_xids_kept, heq]
      simp [hlt]
    · simp [heq, xids]
  · rw [hcheck, xids, entries_put]
    split_ifs with heq
    · have hmem := mem_xids_kept.mp (List.mem_map_of_mem (f := ReplyEntry.xid) hreply)
      rw [mem_xids_kept, heq]
      constructor
      · exact fun ⟨hold, hkept⟩ => .inl ⟨hold, fun _ _ => hkept⟩
      · rintro (⟨hold, hkept⟩ | ⟨_, rfl, _⟩)
        · exact ⟨hold, hkept rfl hlt⟩
        · exact hmem
    · simp [heq, xids]

end ReplyStore

end YfsLab.Rpc
