/-
# What the reply window remembers

The calls of `checkduplicate_and_update` and `add_reply`, in any order and for any
clients, and `free_reply_window` at the end. Entries are made, completed, dropped
and made again; at every point the entry of an xid holds the reply that was added
last since the entry was made, and every buffer is freed once at most.
-/

import Mathlib.Data.List.Nodup
import YfsLab.Foundations.Transition
import YfsLab.Rpc.ReplyWindow

namespace YfsLab.Rpc.ReplyStore

open BigEndian Transition

/-- `rpcs::free_reply_window`, which walks the map in the order of these clients. -/
def freeReplyWindow (s : ReplyStore) (clts : List UInt32) : ReplyStore :=
  { s.free (clts.flatMap fun clt => (s.entries clt).filterMap ReplyEntry.buf) with
    window := fun _ => none }

/-- The calls. The buffer that `add_reply` is given has just been taken from the
`marshall` of its dispatch, so it is not any other buffer. -/
inductive Label
  | check (clt xid xidRep : UInt32)
  | addReply (clt xid : UInt32) (b : BufId) (bytes : Bytes) (sz : ℕ)
  | freeReplyWindow (clts : List UInt32)

/-- One call. -/
def step (s : ReplyStore) : Label → Option ReplyStore
  | .check clt xid xidRep => some (s.checkduplicateAndUpdate clt xid xidRep).1
  | .addReply clt xid b bytes sz =>
      if (s.heap b).isNone then
        { s with heap := Function.update s.heap b (some { bytes }) }.addReply clt xid b sz
      else none
  | .freeReplyWindow clts =>
      if clts.Pairwise (· < ·) then some (s.freeReplyWindow clts) else none

/-- What a sequence of calls is judged by: a check and its verdict, a reply that is
added, and a buffer that is freed. -/
inductive Event
  | checked (clt xid xidRep : UInt32) (verdict : Verdict)
  | added (clt xid : UInt32) (b : BufId) (sz : ℕ)
  | freed (b : BufId)
  deriving DecidableEq, Repr

/-- The buffers that a call frees. -/
def frees (s : ReplyStore) : Label → List BufId
  | .check clt xid xidRep =>
      if xid ≤ xidRep then [] else (s.dropped clt xidRep).filterMap ReplyEntry.buf
  | .addReply .. => []
  | .freeReplyWindow clts =>
      clts.flatMap fun clt => (s.entries clt).filterMap ReplyEntry.buf

/-- The events of a call. -/
def events (s : ReplyStore) (label : Label) : List Event :=
  (s.frees label).map .freed ++
    match label with
    | .check clt xid xidRep =>
        [.checked clt xid xidRep (s.checkduplicateAndUpdate clt xid xidRep).2]
    | .addReply clt xid b _ sz => [.added clt xid b sz]
    | .freeReplyWindow _ => []

/-- An empty window. -/
def system : System ReplyStore Label where
  init := {}
  step := step

/-- A window with its history. -/
def logged : System (ReplyStore × List Event) Label := system.recorded events

/-- The reply that has been added last for this client and xid since its entry was
made: a check that finds a new request makes one. -/
def lastReply (history : List Event) (clt xid : UInt32) : Option (BufId × ℕ) :=
  history.foldl (fun last event =>
    match event with
    | .added c x b sz => if c = clt ∧ x = xid then some (b, sz) else last
    | .checked c x _ .new => if c = clt ∧ x = xid then none else last
    | _ => last) none

/-- The buffers that have been freed. -/
def freed (history : List Event) : List BufId :=
  history.filterMap fun event =>
    match event with
    | .freed b => some b
    | _ => none

/-! ## The history after a call -/

/-- An event that neither makes an entry of this client and xid nor adds a reply. -/
theorem lastReply_concat_of_other (history : List Event) {event : Event} {clt xid : UInt32}
    (hadded : ∀ b sz, event ≠ .added clt xid b sz)
    (hmade : ∀ xidRep, event ≠ .checked clt xid xidRep .new) :
    lastReply (history ++ [event]) clt xid = lastReply history clt xid := by
  rw [lastReply, List.foldl_append, List.foldl_cons, List.foldl_nil]
  cases event with
  | added c x b sz =>
      have hne : ¬ (c = clt ∧ x = xid) := by
        rintro ⟨rfl, rfl⟩
        exact hadded b sz rfl
      exact if_neg hne
  | checked c x xidRep verdict =>
      cases verdict with
      | new =>
          have hne : ¬ (c = clt ∧ x = xid) := by
            rintro ⟨rfl, rfl⟩
            exact hmade xidRep rfl
          exact if_neg hne
      | _ => rfl
  | freed b => rfl

theorem lastReply_concat_new (history : List Event) (clt xid xidRep : UInt32) :
    lastReply (history ++ [.checked clt xid xidRep .new]) clt xid = none := by
  simp [lastReply]

theorem lastReply_concat_added (history : List Event) (clt xid : UInt32) (b : BufId) (sz : ℕ) :
    lastReply (history ++ [.added clt xid b sz]) clt xid = some (b, sz) := by
  simp [lastReply]

theorem lastReply_append_freed (history : List Event) (bufs : List BufId) (clt xid : UInt32) :
    lastReply (history ++ bufs.map .freed) clt xid = lastReply history clt xid := by
  induction bufs generalizing history with
  | nil => simp
  | cons b bufs ih =>
      have hone : lastReply (history ++ [.freed b]) clt xid = lastReply history clt xid :=
        lastReply_concat_of_other history nofun nofun
      rw [List.map_cons, List.append_cons, ih, hone]

theorem freed_append_freed (history : List Event) (bufs : List BufId) :
    freed (history ++ bufs.map .freed) = freed history ++ bufs := by
  simp [freed, List.filterMap_append, List.filterMap_map]

/-- The invariant: a window has one entry for each xid, an entry holds the reply that
was added last, a held buffer has not been freed and is held once, and a freed one
stays freed. -/
structure Faithful (s : ReplyStore) (history : List Event) : Prop where
  nodup_xids : ∀ clt, (s.xids clt).Nodup
  isSome_buf : ∀ clt, ∀ reply ∈ s.entries clt, reply.buf.isSome = reply.cbPresent
  lastReply_eq : ∀ clt, ∀ reply ∈ s.entries clt,
    lastReply history clt reply.xid = reply.buf.map fun b => (b, reply.sz)
  live : ∀ clt, ∀ reply ∈ s.entries clt, ∀ b, reply.buf = some b →
    ∃ cell, s.heap b = some cell ∧ cell.freed = false
  held_once : ∀ clt clt', ∀ reply ∈ s.entries clt, ∀ reply' ∈ s.entries clt', ∀ b,
    reply.buf = some b → reply'.buf = some b → clt = clt' ∧ reply = reply'
  freed_cell : ∀ b ∈ freed history, ∃ cell, s.heap b = some cell ∧ cell.freed = true
  nodup_freed : (freed history).Nodup

theorem faithful_init : Faithful {} [] where
  nodup_xids clt := by simp [xids, entries]
  isSome_buf := by simp [entries]
  lastReply_eq := by simp [entries]
  live := by simp [entries]
  held_once := by simp [entries]
  freed_cell := by simp [freed]
  nodup_freed := by simp [freed]

theorem Faithful.nodup_entries {s : ReplyStore} {history : List Event} (h : Faithful s history)
    (clt : UInt32) : (s.entries clt).Nodup :=
  List.Nodup.of_map _ (h.nodup_xids clt)

/-- No two entries of a client hold the same buffer. -/
theorem Faithful.nodup_bufs {s : ReplyStore} {history : List Event} (h : Faithful s history)
    (clt : UInt32) : ((s.entries clt).filterMap ReplyEntry.buf).Nodup := by
  refine List.pairwise_filterMap.mpr ((h.nodup_entries clt).imp_of_mem ?_)
  rintro reply reply' hmem hmem' hne b hb b' hb' rfl
  exact hne (h.held_once clt clt reply hmem reply' hmem' b hb hb').2

/-- An event that is about no entry. -/
theorem Faithful.concat {s : ReplyStore} {history : List Event} (h : Faithful s history)
    {event : Event} (hfreed : ∀ b, event ≠ .freed b)
    (hlast : ∀ clt, ∀ reply ∈ s.entries clt, lastReply (history ++ [event]) clt reply.xid =
      lastReply history clt reply.xid) : Faithful s (history ++ [event]) := by
  have hsame : freed (history ++ [event]) = freed history := by
    cases event with
    | freed b => exact absurd rfl (hfreed b)
    | _ => simp [freed]
  refine ⟨h.nodup_xids, h.isSome_buf, fun clt reply hmem => ?_, h.live, h.held_once, ?_, ?_⟩
  · rw [hlast clt reply hmem]
    exact h.lastReply_eq clt reply hmem
  · rw [hsame]
    exact h.freed_cell
  · rw [hsame]
    exact h.nodup_freed

/-- Dropping entries and freeing their buffers. -/
theorem Faithful.drop {s target : ReplyStore} {history : List Event} (h : Faithful s history)
    {bufs : List BufId} (hentries : ∀ clt, (target.entries clt).Sublist (s.entries clt))
    (hheap : target.heap = (s.free bufs).heap) (hnodup : bufs.Nodup)
    (hheld : ∀ b ∈ bufs, ∃ clt, ∃ reply ∈ s.entries clt,
      reply.buf = some b ∧ reply ∉ target.entries clt) :
    Faithful target (history ++ bufs.map .freed) := by
  -- a buffer that is still held is not among the freed ones
  have hkept : ∀ clt, ∀ reply ∈ target.entries clt, ∀ b, reply.buf = some b → b ∉ bufs := by
    intro clt reply hmem b hb hfreed
    obtain ⟨clt', reply', hmem', hb', hdropped⟩ := hheld b hfreed
    obtain ⟨rfl, rfl⟩ :=
      h.held_once clt clt' reply ((hentries clt).subset hmem) reply' hmem' b hb hb'
    exact hdropped hmem
  -- a buffer that is freed now has not been freed before
  have hfresh : ∀ b ∈ bufs, b ∉ freed history := by
    intro b hb hfreed
    obtain ⟨clt, reply, hmem, hbuf, _⟩ := hheld b hb
    obtain ⟨cell, hcell, hlive⟩ := h.live clt reply hmem b hbuf
    obtain ⟨cell', hcell', hdead⟩ := h.freed_cell b hfreed
    obtain rfl := Option.some.inj (hcell.symm.trans hcell')
    rw [hlive] at hdead
    cases hdead
  refine ⟨?_, ?_, ?_, ?_, ?_, ?_, ?_⟩
  · exact fun clt => (h.nodup_xids clt).sublist ((hentries clt).map _)
  · exact fun clt reply hmem => h.isSome_buf clt reply ((hentries clt).subset hmem)
  · intro clt reply hmem
    rw [lastReply_append_freed]
    exact h.lastReply_eq clt reply ((hentries clt).subset hmem)
  · intro clt reply hmem b hb
    rw [hheap, heap_free_of_notMem s (hkept clt reply hmem b hb)]
    exact h.live clt reply ((hentries clt).subset hmem) b hb
  · exact fun clt clt' reply hmem reply' hmem' =>
      h.held_once clt clt' reply ((hentries clt).subset hmem) reply' ((hentries clt').subset hmem')
  · intro b hb
    rw [freed_append_freed, List.mem_append] at hb
    rw [hheap]
    by_cases hnew : b ∈ bufs
    · obtain ⟨clt, reply, hmem, hbuf, _⟩ := hheld b hnew
      obtain ⟨cell, hcell, _⟩ := h.live clt reply hmem b hbuf
      exact ⟨{ cell with freed := true }, by simp [free, hnew, hcell], rfl⟩
    · rw [heap_free_of_notMem s hnew]
      exact h.freed_cell b (hb.resolve_right hnew)
  · rw [freed_append_freed]
    refine List.nodup_append.mpr ⟨h.nodup_freed, hnodup, ?_⟩
    rintro b hold b' hnew rfl
    exact hfresh b hnew hold

/-! ## The calls -/

theorem kept_sublist (s : ReplyStore) (clt xidRep : UInt32) :
    (s.kept clt xidRep).Sublist (s.entries clt) := List.filter_sublist

/-- Dropping what has been acknowledged. -/
theorem Faithful.prune {s : ReplyStore} {history : List Event} (h : Faithful s history)
    (clt xidRep : UInt32) :
    Faithful ((s.prune clt xidRep).put clt (s.kept clt xidRep))
      (history ++ ((s.dropped clt xidRep).filterMap ReplyEntry.buf).map .freed) := by
  refine h.drop ?_ rfl ?_ ?_
  · intro other
    rw [entries_put]
    split_ifs with heq
    · exact heq ▸ s.kept_sublist clt xidRep
    · exact List.Sublist.refl _
  · exact (h.nodup_bufs clt).sublist (List.filter_sublist.filterMap _)
  · intro b hb
    obtain ⟨reply, hreply, hbuf⟩ := List.mem_filterMap.mp hb
    obtain ⟨hmem, hlt⟩ := mem_dropped.mp hreply
    refine ⟨clt, reply, hmem, hbuf, fun hkept => ?_⟩
    rw [entries_put, if_pos rfl] at hkept
    exact (mem_kept.mp hkept).2 hlt

/-- Making an entry for an xid that has none. -/
theorem Faithful.make {s : ReplyStore} {history : List Event} (h : Faithful s history)
    {clt xid xidRep : UInt32} (hnew : xid ∉ s.xids clt) :
    Faithful (s.put clt (s.entries clt ++ [{ xid := xid }]))
      (history ++ [.checked clt xid xidRep .new]) := by
  -- the entries afterwards
  have hcases : ∀ other, ∀ reply ∈ (s.put clt (s.entries clt ++ [{ xid := xid }])).entries other,
      reply ∈ s.entries other ∨ other = clt ∧ reply = { xid := xid } := by
    intro other reply hmem
    rw [entries_put] at hmem
    split_ifs at hmem with heq
    · rcases List.mem_append.mp hmem with hold | hmade
      · exact .inl (heq ▸ hold)
      · exact .inr ⟨heq, List.mem_singleton.mp hmade⟩
    · exact .inl hmem
  refine ⟨fun other => ?_, fun other reply hmem => ?_, fun other reply hmem => ?_,
    fun other reply hmem b hb => ?_,
    fun other other' reply hmem reply' hmem' b hb hb' => ?_, ?_, ?_⟩
  · rw [xids, entries_put]
    split_ifs with heq
    · rw [List.map_append, List.nodup_append]
      refine ⟨h.nodup_xids clt, by simp, ?_⟩
      rintro x hold y hy rfl
      obtain rfl : x = xid := by simpa using hy
      exact hnew hold
    · exact h.nodup_xids other
  · rcases hcases other reply hmem with hold | ⟨_, rfl⟩
    · exact h.isSome_buf other reply hold
    · rfl
  · rcases hcases other reply hmem with hold | ⟨rfl, rfl⟩
    · rw [← h.lastReply_eq other reply hold]
      refine lastReply_concat_of_other history (by simp) fun rep heq => ?_
      cases heq
      exact hnew (List.mem_map_of_mem hold)
    · exact lastReply_concat_new history _ xid xidRep
  · rcases hcases other reply hmem with hold | ⟨_, rfl⟩
    · exact h.live other reply hold b hb
    · cases hb
  · rcases hcases other reply hmem with hold | ⟨_, rfl⟩
    · rcases hcases other' reply' hmem' with hold' | ⟨_, rfl⟩
      · exact h.held_once other other' reply hold reply' hold' b hb hb'
      · cases hb'
    · cases hb
  · simpa [freed] using h.freed_cell
  · simpa [freed] using h.nodup_freed

/-- A check. -/
theorem Faithful.check {s : ReplyStore} {history : List Event} (h : Faithful s history)
    (clt xid xidRep : UInt32) :
    Faithful (s.checkduplicateAndUpdate clt xid xidRep).1
      (history ++ s.events (.check clt xid xidRep)) := by
  rcases s.check_cases clt xid xidRep with ⟨hle, hcheck⟩ | ⟨hlt, hnone, hcheck⟩ |
    ⟨hlt, reply, _, _, hcheck⟩
  · simp only [events, frees, hle, if_true, hcheck, List.map_nil, List.nil_append]
    exact h.concat (by simp) fun _ _ _ => lastReply_concat_of_other history (by simp) (by simp)
  · have hpruned := h.prune clt xidRep
    have hnew : xid ∉ ((s.prune clt xidRep).put clt (s.kept clt xidRep)).xids clt := by
      rw [xids, entries_put, if_pos rfl]
      intro hmem
      obtain ⟨reply, hreply, heq⟩ := List.mem_map.mp hmem
      exact hnone reply (mem_kept.mp hreply).1 heq
    have hmade : Faithful _ (_ ++ [.checked clt xid xidRep .new]) := hpruned.make hnew
    rw [entries_put, if_pos rfl] at hmade
    simp only [events, frees, UInt32.not_le.mpr hlt, if_false, hcheck, ← List.append_assoc]
    simpa [ReplyStore.put] using hmade
  · have hpruned := h.prune clt xidRep
    simp only [events, frees, UInt32.not_le.mpr hlt, if_false, hcheck, ← List.append_assoc]
    refine hpruned.concat (by simp) fun _ _ _ =>
      lastReply_concat_of_other _ (by simp) fun rep heq => ?_
    cases hpresent : reply.cbPresent <;> simp [hpresent] at heq

/-- The entry that a reply is written into. -/
theorem mem_setReply_of_nodup {xid : UInt32} {b : BufId} {sz : ℕ} {l : List ReplyEntry}
    (hnodup : (l.map ReplyEntry.xid).Nodup) {reply : ReplyEntry}
    (hmem : reply ∈ setReply xid b sz l) :
    (reply ∈ l ∧ reply.xid ≠ xid) ∨
      reply = { xid := xid, cbPresent := true, buf := some b, sz := sz } := by
  induction l with
  | nil => simp [setReply] at hmem
  | cons head rest ih =>
      rw [List.map_cons, List.nodup_cons] at hnodup
      simp only [setReply] at hmem
      split_ifs at hmem with hxid
      · rcases List.mem_cons.mp hmem with rfl | hrest
        · exact .inr (by simp [hxid])
        · refine .inl ⟨List.mem_cons_of_mem _ hrest, fun heq => hnodup.1 ?_⟩
          rw [hxid, ← heq]
          exact List.mem_map_of_mem hrest
      · rcases List.mem_cons.mp hmem with rfl | hrest
        · exact .inl ⟨List.mem_cons_self, hxid⟩
        · rcases ih hnodup.2 hrest with ⟨hold, hne⟩ | hnew
          · exact .inl ⟨List.mem_cons_of_mem _ hold, hne⟩
          · exact .inr hnew

/-- Adding a reply. -/
theorem Faithful.addReply {s target : ReplyStore} {history : List Event}
    (h : Faithful s history) {clt xid : UInt32} {b : BufId} {bytes : Bytes} {sz : ℕ}
    (hstep : s.step (.addReply clt xid b bytes sz) = some target) :
    Faithful target (history ++ s.events (.addReply clt xid b bytes sz)) := by
  obtain ⟨hfresh, hadd⟩ := Option.ite_none_right_eq_some.mp hstep
  obtain ⟨l, hl, rfl⟩ := Option.map_eq_some_iff.mp hadd
  have hfresh' : s.heap b = none := by simpa using hfresh
  have hentries : s.entries clt = l := by
    rw [entries, hl]
    rfl
  have hnodup : (l.map ReplyEntry.xid).Nodup := hentries ▸ h.nodup_xids clt
  -- no entry holds the buffer yet
  have hnotHeld : ∀ other, ∀ reply ∈ s.entries other, reply.buf ≠ some b := by
    intro other reply hmem hb
    obtain ⟨cell, hcell, _⟩ := h.live other reply hmem b hb
    rw [hfresh'] at hcell
    cases hcell
  have hheap : ∀ b' ≠ b, Function.update s.heap b (some { bytes }) b' = s.heap b' :=
    fun b' hne => Function.update_of_ne hne ..
  simp only [events, frees, List.map_nil, List.nil_append]
  -- the entries afterwards
  have hcases : ∀ other, ∀ reply ∈ (ReplyStore.put
      { s with heap := Function.update s.heap b (some { bytes }) } clt
      (setReply xid b sz l)).entries other,
      (reply ∈ s.entries other ∧ (other = clt → reply.xid ≠ xid)) ∨
        other = clt ∧ reply = { xid := xid, cbPresent := true, buf := some b, sz := sz } := by
    intro other reply hmem
    rw [entries_put] at hmem
    split_ifs at hmem with heq
    · rcases mem_setReply_of_nodup hnodup hmem with ⟨hold, hne⟩ | hnew
      · exact .inl ⟨heq ▸ hentries ▸ hold, fun _ => hne⟩
      · exact .inr ⟨heq, hnew⟩
    · exact .inl ⟨hmem, fun hother => absurd hother heq⟩
  refine ⟨fun other => ?_, fun other reply hmem => ?_, fun other reply hmem => ?_,
    fun other reply hmem b' hb => ?_,
    fun other other' reply hmem reply' hmem' b' hb hb' => ?_, ?_, ?_⟩
  · rw [xids, entries_put]
    split_ifs with heq
    · rwa [map_xid_setReply]
    · exact h.nodup_xids other
  · rcases hcases other reply hmem with ⟨hold, _⟩ | ⟨_, rfl⟩
    · exact h.isSome_buf other reply hold
    · rfl
  · rcases hcases other reply hmem with ⟨hold, hne⟩ | ⟨rfl, rfl⟩
    · rw [← h.lastReply_eq other reply hold]
      refine lastReply_concat_of_other history (fun b' sz' heq => ?_) (by simp)
      cases heq
      exact hne rfl rfl
    · exact lastReply_concat_added history _ xid b sz
  · rcases hcases other reply hmem with ⟨hold, _⟩ | ⟨_, rfl⟩
    · obtain ⟨cell, hcell, hlive⟩ := h.live other reply hold b' hb
      refine ⟨cell, ?_, hlive⟩
      rw [← hcell]
      exact hheap b' fun heq => hnotHeld other reply hold (heq ▸ hb)
    · obtain rfl : b = b' := Option.some.inj hb
      exact ⟨{ bytes }, Function.update_self .., rfl⟩
  · rcases hcases other reply hmem with ⟨hold, _⟩ | ⟨rfl, rfl⟩
    · rcases hcases other' reply' hmem' with ⟨hold', _⟩ | ⟨rfl, rfl⟩
      · exact h.held_once other other' reply hold reply' hold' b' hb hb'
      · exact absurd (hb.trans hb'.symm) (hnotHeld other reply hold)
    · rcases hcases other' reply' hmem' with ⟨hold', _⟩ | ⟨rfl, rfl⟩
      · exact absurd (hb'.trans hb.symm) (hnotHeld other' reply' hold')
      · exact ⟨rfl, rfl⟩
  · intro b' hb'
    obtain ⟨cell, hcell, hdead⟩ := h.freed_cell b' (by simpa [freed] using hb')
    refine ⟨cell, ?_, hdead⟩
    rw [← hcell]
    refine hheap b' fun heq => ?_
    rw [heq, hfresh'] at hcell
    cases hcell
  · simpa [freed] using h.nodup_freed

/-- Freeing the whole window. -/
theorem Faithful.freeReplyWindow {s : ReplyStore} {history : List Event}
    (h : Faithful s history) {clts : List UInt32} (hsorted : clts.Pairwise (· < ·)) :
    Faithful (s.freeReplyWindow clts) (history ++ s.events (.freeReplyWindow clts)) := by
  simp only [events, frees, List.append_nil]
  refine h.drop (fun clt => List.nil_sublist _) rfl ?_ ?_
  · refine List.nodup_flatMap.mpr ⟨fun clt _ => h.nodup_bufs clt, hsorted.imp ?_⟩
    intro clt clt' hlt b hb hb'
    obtain ⟨reply, hmem, hbuf⟩ := List.mem_filterMap.mp hb
    obtain ⟨reply', hmem', hbuf'⟩ := List.mem_filterMap.mp hb'
    obtain ⟨rfl, _⟩ := h.held_once clt clt' reply hmem reply' hmem' b hbuf hbuf'
    exact UInt32.lt_irrefl _ hlt
  · intro b hb
    obtain ⟨clt, _, hb⟩ := List.mem_flatMap.mp hb
    obtain ⟨reply, hmem, hbuf⟩ := List.mem_filterMap.mp hb
    exact ⟨clt, reply, hmem, hbuf, List.not_mem_nil⟩

theorem Faithful.step {s target : ReplyStore} {history : List Event} (h : Faithful s history)
    {label : Label} (hstep : s.step label = some target) :
    Faithful target (history ++ s.events label) := by
  cases label with
  | check clt xid xidRep =>
      obtain rfl := Option.some.inj hstep
      exact h.check clt xid xidRep
  | addReply clt xid b bytes sz => exact h.addReply hstep
  | freeReplyWindow clts =>
      obtain ⟨hsorted, htarget⟩ := Option.ite_none_right_eq_some.mp hstep
      obtain rfl := Option.some.inj htarget
      exact h.freeReplyWindow hsorted

theorem faithful_of_run {labels : List Label} {reached : ReplyStore × List Event}
    (hrun : logged.Run anyStep labels reached) : Faithful reached.1 reached.2 := by
  refine hrun.invariant (fun reached : ReplyStore × List Event => Faithful reached.1 reached.2)
    faithful_init fun _ h _ hstep => ?_
  obtain ⟨hnext, hlog⟩ := System.recorded_step_eq_some.mp hstep
  rw [hlog]
  exact h.step hnext

/-! ## What a check answers -/

/-- A buffer that is handed out is the last one that was added, and it has not been
freed, not by this check either. -/
theorem Faithful.done {s : ReplyStore} {history : List Event} (h : Faithful s history)
    {clt xid xidRep : UInt32} {buf : Option BufId} {sz : ℕ}
    (hdone : (s.checkduplicateAndUpdate clt xid xidRep).2 = .done buf sz) :
    ∃ b cell, buf = some b ∧ lastReply history clt xid = some (b, sz) ∧
      (s.checkduplicateAndUpdate clt xid xidRep).1.heap b = some cell ∧ cell.freed = false := by
  obtain ⟨reply, hmem, hxid, hpresent, hbuf, hsz, hkept⟩ := mem_of_check_done hdone
  obtain ⟨b, hb⟩ := Option.isSome_iff_exists.mp ((h.isSome_buf clt reply hmem).trans hpresent)
  obtain ⟨cell, hcell, hlive⟩ := h.live clt reply hmem b hb
  refine ⟨b, cell, hbuf ▸ hb, ?_, ?_, hlive⟩
  · rw [← hxid, h.lastReply_eq clt reply hmem, hb, hsz]
    rfl
  · rw [heap_check_of_kept, hcell]
    rintro _ reply' hdropped hb'
    obtain ⟨hmem', hlt⟩ := mem_dropped.mp hdropped
    obtain ⟨_, rfl⟩ := h.held_once clt clt reply hmem reply' hmem' b hb hb'
    exact hkept hlt

/-- A request that is not forgotten is in progress if it has an entry without a
reply. -/
theorem Faithful.inProgress_iff {s : ReplyStore} {history : List Event}
    (h : Faithful s history) {clt xid xidRep : UInt32} (hlt : xidRep < xid) :
    (s.checkduplicateAndUpdate clt xid xidRep).2 = .inProgress ↔
      xid ∈ s.xids clt ∧ lastReply history clt xid = none := by
  rcases s.check_cases clt xid xidRep with ⟨hle, _⟩ | ⟨_, hnone, hcheck⟩ |
    ⟨_, reply, hkept, rfl, hcheck⟩
  · exact absurd hle (UInt32.not_le.mpr hlt)
  · rw [hcheck]
    refine ⟨nofun, fun ⟨hmem, _⟩ => ?_⟩
    obtain ⟨reply, hreply, heq⟩ := List.mem_map.mp hmem
    exact absurd heq (hnone reply hreply)
  · obtain ⟨hmem, _⟩ := mem_kept.mp hkept
    have hsome := h.isSome_buf clt reply hmem
    rw [hcheck, h.lastReply_eq clt reply hmem, Option.map_eq_none_iff]
    cases hpresent : reply.cbPresent with
    | false =>
        rw [hpresent, Option.isSome_eq_false_iff, Option.isNone_iff_eq_none] at hsome
        simp [hsome, List.mem_map_of_mem hmem, xids]
    | true =>
        obtain ⟨b, hb⟩ := Option.isSome_iff_exists.mp (hsome.trans hpresent)
        simp [hb]

/-- A check of one client leaves the window of every other client. -/
theorem window_check_of_ne (s : ReplyStore) (clt xid xidRep : UInt32) {other : UInt32}
    (hne : other ≠ clt) :
    (s.checkduplicateAndUpdate clt xid xidRep).1.window other = s.window other := by
  rcases s.check_cases clt xid xidRep with ⟨_, hcheck⟩ | ⟨_, _, hcheck⟩ | ⟨_, _, _, _, hcheck⟩
  · rw [hcheck]
  all_goals
    rw [hcheck]
    exact Function.update_of_ne hne ..

/-- Fidelity of the reply window, for every sequence of checks, replies and a final
`free_reply_window`: a window has at most one entry for an xid; a check hands out
the buffer and the size that were added last for its client and xid since the entry
was made, and the buffer has not been freed; a request that has not been
acknowledged is in progress exactly when it has an entry and no reply has been
added since; no buffer is freed twice; and a call leaves the windows of other
clients. -/
theorem storeFidelity {labels : List Label} {reached : ReplyStore × List Event}
    (hrun : logged.Run anyStep labels reached) :
    (∀ clt, (reached.1.xids clt).Nodup) ∧
    (∀ clt xid xidRep buf sz,
      (reached.1.checkduplicateAndUpdate clt xid xidRep).2 = .done buf sz →
      ∃ b cell, buf = some b ∧ lastReply reached.2 clt xid = some (b, sz) ∧
        (reached.1.checkduplicateAndUpdate clt xid xidRep).1.heap b = some cell ∧
        cell.freed = false) ∧
    (∀ clt xid xidRep, xidRep < xid →
      ((reached.1.checkduplicateAndUpdate clt xid xidRep).2 = .inProgress ↔
        xid ∈ reached.1.xids clt ∧ lastReply reached.2 clt xid = none)) ∧
    (freed reached.2).Nodup ∧
    (∀ clt xid xidRep other, other ≠ clt →
      (reached.1.checkduplicateAndUpdate clt xid xidRep).1.window other =
        reached.1.window other) ∧
    (∀ clt xid b sz target other, reached.1.addReply clt xid b sz = some target →
      other ≠ clt → target.window other = reached.1.window other) := by
  have h := faithful_of_run hrun
  refine ⟨h.nodup_xids, fun _ _ _ _ _ hdone => h.done hdone,
    fun _ _ _ hlt => h.inProgress_iff hlt, h.nodup_freed,
    fun clt xid xidRep _ hne => reached.1.window_check_of_ne clt xid xidRep hne, ?_⟩
  intro clt xid b sz target other hadd hne
  obtain ⟨l, _, rfl⟩ := Option.map_eq_some_iff.mp hadd
  exact Function.update_of_ne hne ..

/-- An entry that is made, dropped and made again, and completed twice: by the
dispatch that was slow and by the other one. Then it is dropped for good. -/
def remadeRun : List Label :=
  [.check 1 1 0, .check 1 3 2, .check 1 1 0, .addReply 1 1 0 [5] 1, .addReply 1 1 1 [6] 1,
    .check 1 4 3, .addReply 1 3 2 [7] 1, .freeReplyWindow [1]]

theorem storeFidelity_remade :
    ∃ reached, logged.Run anyStep remadeRun reached ∧ (freed reached.2).Nodup ∧
      freed reached.2 = [1, 2] := by
  have hexec : (logged.exec logged.init remadeRun).any (fun reached =>
      freed reached.2 == [1, 2]) = true := by
    decide +kernel
  obtain ⟨reached, hrun, hfreed⟩ := System.exists_run_of_exec hexec
  exact ⟨reached, hrun, (storeFidelity hrun).2.2.2.1, by simpa using hfreed⟩

/-- A request that has been acknowledged is forgotten, also while it is in progress. -/
theorem acknowledged_notInProgress :
    ∃ reached, logged.Run anyStep [.check 1 1 0] reached ∧ 1 ∈ reached.1.xids 1 ∧
      lastReply reached.2 1 1 = none ∧
      (reached.1.checkduplicateAndUpdate 1 1 1).2 = .forgotten := by
  have hexec : (logged.exec logged.init [.check 1 1 0]).any (fun reached =>
      (reached.1.xids 1).contains 1 && lastReply reached.2 1 1 == none &&
        (reached.1.checkduplicateAndUpdate 1 1 1).2 == .forgotten) = true := by
    decide +kernel
  obtain ⟨reached, hrun, hreached⟩ := System.exists_run_of_exec hexec
  simp only [Bool.and_eq_true, List.contains_iff_mem, beq_iff_eq] at hreached
  exact ⟨reached, hrun, hreached.1.1, hreached.1.2, hreached.2⟩

end YfsLab.Rpc.ReplyStore
