/-
# Who owns a reply buffer

The reply of a handler is in a buffer that somebody has to free. The dispatch owns it
first. `add_reply` passes it on to the entry of its request, and the check that
drops the entry frees it; a client without at-most-once has no entries, and there
the dispatch frees the buffer itself. But `add_reply` does nothing if it finds no
entry, and then nobody owns the buffer any more.
-/

import YfsLab.Rpc.ReplyBuffers
import YfsLab.Rpc.StoreHistory

namespace YfsLab.Rpc

open BigEndian Transition Wire

namespace ReplyStore

/-- The buffers that the entries of a client hold. -/
def bufs (s : ReplyStore) (clt : UInt32) : List BufId :=
  (s.entries clt).filterMap ReplyEntry.buf

/-- One entry of the reply window holds the buffer, and no other one does. -/
def HeldOnce (s : ReplyStore) (b : BufId) : Prop :=
  ∃ clt, (s.bufs clt).count b = 1 ∧ ∀ other, b ∈ s.bufs other → other = clt

/-- A buffer is held by one entry and has not been freed, or it has been freed once
and no entry holds it. -/
def Settled (s : ReplyStore) (freed : List BufId) (b : BufId) : Prop :=
  (s.HeldOnce b ∧ b ∉ freed) ∨ ((∀ clt, b ∉ s.bufs clt) ∧ freed.count b = 1)

theorem mem_bufs {s : ReplyStore} {clt : UInt32} {b : BufId} :
    b ∈ s.bufs clt ↔ ∃ entry ∈ s.entries clt, entry.buf = some b := List.mem_filterMap

theorem bufs_congr {s target : ReplyStore} (hentries : ∀ clt, target.entries clt = s.entries clt)
    (clt : UInt32) : target.bufs clt = s.bufs clt := by
  rw [bufs, hentries, bufs]

/-- Freeing makes no cell and loses none. -/
@[simp]
theorem isSome_heap_free (s : ReplyStore) (l : List BufId) (b : BufId) :
    ((s.free l).heap b).isSome = (s.heap b).isSome := by
  simp only [free]
  split_ifs
  · exact Option.isSome_map
  · rfl

/-- The entry that a reply is written into is in the list afterwards. -/
theorem exists_mem_setReply {xid : UInt32} (b : BufId) (sz : ℕ) {l : List ReplyEntry}
    (hxid : ∃ entry ∈ l, entry.xid = xid) :
    ∃ entry ∈ setReply xid b sz l, entry.buf = some b := by
  induction l with
  | nil => simp at hxid
  | cons head rest ih =>
      simp only [setReply]
      split_ifs with hhead
      · exact ⟨_, List.mem_cons_self, rfl⟩
      · obtain ⟨entry, hmem, heq⟩ := hxid
        rcases List.mem_cons.mp hmem with rfl | hrest
        · exact absurd heq hhead
        · obtain ⟨entry, hmem, hbuf⟩ := ih ⟨entry, hrest, heq⟩
          exact ⟨entry, List.mem_cons_of_mem _ hmem, hbuf⟩

/-- Entries of other xids stay as they are. -/
theorem mem_setReply_of_ne {xid : UInt32} {b : BufId} {sz : ℕ} {l : List ReplyEntry}
    {entry : ReplyEntry} (hmem : entry ∈ l) (hne : entry.xid ≠ xid) :
    entry ∈ setReply xid b sz l := by
  induction l with
  | nil => simp at hmem
  | cons head rest ih =>
      simp only [setReply]
      rcases List.mem_cons.mp hmem with rfl | hrest
      · rw [if_neg hne]
        exact List.mem_cons_self
      · split_ifs
        · exact List.mem_cons_of_mem _ hrest
        · exact List.mem_cons_of_mem _ (ih hrest)

end ReplyStore

namespace Server

variable {σ : Type} {app : Service σ}

/-! ## Frees, and what goes wrong -/

/-- The buffers that a section frees. -/
def frees (s : Server σ) : Label → List BufId
  | .check d =>
      (s.frames d).toList.flatMap fun f =>
        s.store.frees (.check f.request.clt f.request.xid f.request.xidRep)
  | .send d =>
      (s.frames d).toList.flatMap fun f => if f.request.clt = 0 then f.b1.toList else []
  | _ => []

/-- The step does not check a request whose acknowledgement drops an entry without a
reply. -/
def noAbandon (s : Server σ) : Label → Bool
  | .check d => (s.frames d).all fun f =>
      decide (f.request.xid ≤ f.request.xidRep) ||
        (s.store.dropped f.request.clt f.request.xidRep).all fun entry => entry.buf.isSome
  | _ => true

/-- No dispatch is executing: all of them are in the queue of the pool, or done. -/
def AtRest (s : Server σ) : Prop :=
  ∀ d f, s.frames d = some f → f.stage = .queued ∨ f.stage = .ended

/-! ## Owners -/

/-- The dispatch owns the buffer of its reply. -/
def keeps (f : Dispatch) : Bool :=
  match f.stage with
  | .record => true
  | .select | .send => f.request.clt == 0
  | _ => false

/-- The dispatch is going to pass a reply on to an entry. -/
def awaited (f : Dispatch) : Bool :=
  match f.stage with
  | .run | .running | .record => f.request.clt != 0
  | _ => false

/-- The stages that only the requests of a client with a reply window get to. -/
def tracks : Stage → Bool
  | .enroll | .connect | .check | .record => true
  | _ => false

/-- Every buffer on the heap has one owner, or has been freed: a dispatch that is to
record it or to free it, or the entry of its request. And every dispatch that is
going to record a reply finds an entry that waits for it. -/
structure Owned (s : Server σ) (freed : List BufId) : Prop where
  tracked : ∀ d f, s.frames d = some f → tracks f.stage = true → f.request.clt ≠ 0
  nodup_xids : ∀ clt, (s.store.xids clt).Nodup
  awaits : ∀ d f, s.frames d = some f → awaited f = true →
    ∃ entry ∈ s.store.entries f.request.clt, entry.xid = f.request.xid ∧ entry.buf = none
  alone : ∀ d f j g, s.frames d = some f → s.frames j = some g → awaited f = true →
    awaited g = true → f.request.clt = g.request.clt → f.request.xid = g.request.xid → d = j
  home : ∀ clt, ∀ entry ∈ s.store.entries clt, ∀ b, entry.buf = some b → b ∉ freed ∧
    ∃ f, s.frames b = some f ∧ f.request.clt = clt ∧ f.request.xid = entry.xid ∧
      replied f.stage = true ∧ keeps f = false
  keeper : ∀ d f, s.frames d = some f → keeps f = true → f.b1 = some d
  gone : ∀ b ∈ freed, ∃ f, s.frames b = some f ∧ replied f.stage = true ∧ keeps f = false
  owner : ∀ b, (s.store.heap b).isSome = true → b ∈ freed ∨ (∃ clt, b ∈ s.store.bufs clt) ∨
    ∃ f, s.frames b = some f ∧ keeps f = true
  nodup_freed : freed.Nodup

theorem owned_start (nonce : UInt32) : Owned (start app nonce) [] := by
  constructor <;> simp [start, ReplyStore.xids, ReplyStore.entries]

/-- A dispatch goes on, and owns and awaits what it did before. -/
structure Alike (f f' : Dispatch) : Prop where
  request : f'.request = f.request
  keeps : keeps f' = keeps f
  b1 : Server.keeps f' = true → f'.b1 = f.b1
  awaited : awaited f' = true → awaited f = true
  replied : replied f.stage = true → replied f'.stage = true
  tracked : tracks f'.stage = true → tracks f.stage = true ∨ f.request.clt ≠ 0

theorem Alike.refl (f : Dispatch) : Alike f f := ⟨rfl, rfl, fun _ => rfl, id, id, .inl⟩

/-- A section that leaves entries and cells alone, and lets the dispatches go on or
receives one. -/
theorem Owned.quiet {s target : Server σ} {freed : List BufId} (h : Owned s freed)
    (hentries : ∀ clt, target.store.entries clt = s.store.entries clt)
    (hheap : ∀ b, (target.store.heap b).isSome = (s.store.heap b).isSome)
    (hforth : ∀ d f, s.frames d = some f → ∃ f', target.frames d = some f' ∧ Alike f f')
    (hback : ∀ d f', target.frames d = some f' →
      (∃ f, s.frames d = some f ∧ Alike f f') ∨ f'.stage = .queued) :
    Owned target freed := by
  -- a dispatch that is awaited has been so before
  have hawaits : ∀ {d : DispatchId} {f' : Dispatch}, target.frames d = some f' →
      awaited f' = true → ∃ f, s.frames d = some f ∧ f'.request = f.request ∧
        awaited f = true := by
    intro d f' hf' hawaited
    rcases hback d f' hf' with ⟨f, hf, halike⟩ | hqueued
    · exact ⟨f, hf, halike.request, halike.awaited hawaited⟩
    · simp [awaited, hqueued] at hawaited
  refine ⟨?_, ?_, ?_, ?_, ?_, ?_, ?_, ?_, h.nodup_freed⟩
  · intro d f' hf' htracks
    rcases hback d f' hf' with ⟨f, hf, halike⟩ | hqueued
    · rw [halike.request]
      exact (halike.tracked htracks).elim (h.tracked d f hf) id
    · rw [hqueued] at htracks
      cases htracks
  · intro clt
    rw [ReplyStore.xids, hentries]
    exact h.nodup_xids clt
  · intro d f' hf' hawaited
    obtain ⟨f, hf, hrequest, hbefore⟩ := hawaits hf' hawaited
    rw [hentries, hrequest]
    exact h.awaits d f hf hbefore
  · intro d f' j g' hf' hg' hawaited hawaited' hclt hxid
    obtain ⟨f, hf, hrequest, hbefore⟩ := hawaits hf' hawaited
    obtain ⟨g, hg, hrequest', hbefore'⟩ := hawaits hg' hawaited'
    rw [hrequest, hrequest'] at hclt hxid
    exact h.alone d f j g hf hg hbefore hbefore' hclt hxid
  · intro clt entry hmem b hb
    obtain ⟨hfreed, f, hf, hclt, hxid, hreplied, hkeeps⟩ :=
      h.home clt entry (hentries clt ▸ hmem) b hb
    obtain ⟨f', hf', halike⟩ := hforth b f hf
    exact ⟨hfreed, f', hf', halike.request ▸ hclt, halike.request ▸ hxid,
      halike.replied hreplied, halike.keeps ▸ hkeeps⟩
  · intro d f' hf' hkeeps
    rcases hback d f' hf' with ⟨f, hf, halike⟩ | hqueued
    · rw [halike.b1 hkeeps]
      exact h.keeper d f hf (halike.keeps ▸ hkeeps)
    · simp [keeps, hqueued] at hkeeps
  · intro b hb
    obtain ⟨f, hf, hreplied, hkeeps⟩ := h.gone b hb
    obtain ⟨f', hf', halike⟩ := hforth b f hf
    exact ⟨f', hf', halike.replied hreplied, halike.keeps ▸ hkeeps⟩
  · intro b hb
    simp only [ReplyStore.bufs_congr hentries]
    refine (h.owner b (hheap b ▸ hb)).imp_right (Or.imp_right ?_)
    rintro ⟨f, hf, hkeeps⟩
    obtain ⟨f', hf', halike⟩ := hforth b f hf
    exact ⟨f', hf', halike.keeps ▸ hkeeps⟩

/-- One dispatch goes on. -/
theorem Owned.move {s base : Server σ} {freed : List BufId} {d : DispatchId} {f f' : Dispatch}
    (h : Owned s freed) (hframes : base.frames = s.frames)
    (hentries : ∀ clt, base.store.entries clt = s.store.entries clt)
    (hheap : base.store.heap = s.store.heap) (hf : s.frames d = some f)
    (halike : Alike f f') : Owned (base.put d f') freed := by
  refine h.quiet hentries (fun b => by rw [store_put, hheap]) ?_ ?_
  · intro j g hg
    by_cases hj : j = d
    · subst hj
      obtain rfl := Option.some.inj (hf.symm.trans hg)
      exact ⟨f', frames_put_self .., halike⟩
    · exact ⟨g, by rw [frames_put_of_ne base hj, hframes, hg], .refl g⟩
  · intro j g hg
    rcases frames_put_eq_some.mp hg with ⟨rfl, rfl⟩ | ⟨_, hsame⟩
    · exact .inl ⟨f, hf, halike⟩
    · exact .inl ⟨g, hframes ▸ hsame, .refl g⟩

/-- A request is received. -/
theorem Owned.receive {s : Server σ} {freed : List BufId} {d : DispatchId} {f' : Dispatch}
    (h : Owned s freed) (hfresh : s.frames d = none) (hqueued : f'.stage = .queued) :
    Owned (s.put d f') freed := by
  refine h.quiet (fun _ => rfl) (fun _ => rfl) ?_ ?_
  · intro j g hg
    have hj : j ≠ d := by
      rintro rfl
      rw [hfresh] at hg
      cases hg
    exact ⟨g, by rwa [frames_put_of_ne s hj], .refl g⟩
  · intro j g hg
    rcases frames_put_eq_some.mp hg with ⟨rfl, rfl⟩ | ⟨_, hsame⟩
    · exact .inr hqueued
    · exact .inl ⟨g, hsame, .refl g⟩

/-! ## The check -/

/-- No buffer is held by two entries. -/
theorem Owned.nodup_bufs {s : Server σ} {freed : List BufId} (h : Owned s freed)
    (clt : UInt32) : (s.store.bufs clt).Nodup := by
  have hxids : (s.store.entries clt).Pairwise fun entry entry' => entry.xid ≠ entry'.xid :=
    List.pairwise_map.mp (h.nodup_xids clt)
  refine List.pairwise_filterMap.mpr (hxids.imp_of_mem ?_)
  rintro entry entry' hmem hmem' hne b hb b' hb' rfl
  obtain ⟨_, f, hf, _, hxid, _⟩ := h.home clt entry hmem b hb
  obtain ⟨_, f', hf', _, hxid', _⟩ := h.home clt entry' hmem' b hb'
  obtain rfl := Option.some.inj (hf.symm.trans hf')
  exact hne (hxid.symm.trans hxid')

/-- The acknowledged entries are dropped, and all of them have a reply. -/
theorem Owned.prune {s : Server σ} {freed : List BufId} (h : Owned s freed)
    {clt xidRep : UInt32}
    (hreplies : ∀ entry ∈ s.store.dropped clt xidRep, entry.buf.isSome = true) :
    Owned { s with store := (s.store.prune clt xidRep).put clt (s.store.kept clt xidRep) }
      (freed ++ (s.store.dropped clt xidRep).filterMap ReplyEntry.buf) := by
  -- the entries that are left, and those that are not
  have hentries : ∀ other, ((s.store.prune clt xidRep).put clt
      (s.store.kept clt xidRep)).entries other =
      if other = clt then s.store.kept clt xidRep else s.store.entries other := by
    intro other
    rw [ReplyStore.entries_put, ReplyStore.entries_prune]
  have hsub : ∀ other, (((s.store.prune clt xidRep).put clt
      (s.store.kept clt xidRep)).entries other).Sublist (s.store.entries other) := by
    intro other
    rw [hentries]
    split_ifs with heq
    · exact heq ▸ s.store.kept_sublist clt xidRep
    · exact List.Sublist.refl _
  have hstays : ∀ other, ∀ entry ∈ s.store.entries other,
      entry ∈ ((s.store.prune clt xidRep).put clt (s.store.kept clt xidRep)).entries other ∨
        other = clt ∧ entry ∈ s.store.dropped clt xidRep := by
    intro other entry hmem
    rw [hentries]
    split_ifs with heq
    · subst heq
      by_cases hlt : entry.xid < xidRep
      · exact .inr ⟨rfl, ReplyStore.mem_dropped.mpr ⟨hmem, hlt⟩⟩
      · exact .inl (ReplyStore.mem_kept.mpr ⟨hmem, hlt⟩)
    · exact .inl hmem
  have hdropped : ∀ b ∈ (s.store.dropped clt xidRep).filterMap ReplyEntry.buf,
      ∃ entry ∈ s.store.entries clt, entry.buf = some b ∧ entry.xid < xidRep := by
    intro b hb
    obtain ⟨entry, hmem, hbuf⟩ := List.mem_filterMap.mp hb
    obtain ⟨hentry, hlt⟩ := ReplyStore.mem_dropped.mp hmem
    exact ⟨entry, hentry, hbuf, hlt⟩
  refine ⟨h.tracked, ?_, ?_, h.alone, ?_, h.keeper, ?_, ?_, ?_⟩
  · exact fun other => (h.nodup_xids other).sublist ((hsub other).map _)
  · intro d f hf hawaited
    obtain ⟨entry, hmem, hxid, hbuf⟩ := h.awaits d f hf hawaited
    rcases hstays _ entry hmem with hstay | ⟨_, hdrop⟩
    · exact ⟨entry, hstay, hxid, hbuf⟩
    · exact absurd (hreplies entry hdrop) (by simp [hbuf])
  · intro other entry hmem b hb
    obtain ⟨hfreed, f, hf, hclt, hxid, hrest⟩ := h.home other entry ((hsub other).subset hmem) b hb
    refine ⟨fun hnew => ?_, f, hf, hclt, hxid, hrest⟩
    rcases List.mem_append.mp hnew with hold | hnew
    · exact hfreed hold
    · obtain ⟨entry', hmem', hb', hlt⟩ := hdropped b hnew
      obtain ⟨_, f', hf', hclt', hxid', _⟩ := h.home clt entry' hmem' b hb'
      obtain rfl := Option.some.inj (hf.symm.trans hf')
      obtain rfl : other = clt := hclt.symm.trans hclt'
      simp only [hentries, if_true] at hmem
      exact (ReplyStore.mem_kept.mp hmem).2 ((hxid.symm.trans hxid') ▸ hlt)
  · intro b hb
    rcases List.mem_append.mp hb with hold | hnew
    · exact h.gone b hold
    · obtain ⟨entry, hmem, hbuf, _⟩ := hdropped b hnew
      obtain ⟨_, f, hf, _, _, hrest⟩ := h.home clt entry hmem b hbuf
      exact ⟨f, hf, hrest⟩
  · intro b hb
    have hcell : (s.store.heap b).isSome = true := by
      simpa [ReplyStore.prune] using hb
    rcases h.owner b hcell with hfreed | ⟨other, hheld⟩ | hkeeps
    · exact .inl (List.mem_append_left _ hfreed)
    · obtain ⟨entry, hmem, hbuf⟩ := ReplyStore.mem_bufs.mp hheld
      rcases hstays other entry hmem with hstay | ⟨_, hdrop⟩
      · exact .inr (.inl ⟨other, ReplyStore.mem_bufs.mpr ⟨entry, hstay, hbuf⟩⟩)
      · exact .inl (List.mem_append_right _ (List.mem_filterMap.mpr ⟨entry, hdrop, hbuf⟩))
    · exact .inr (.inr hkeeps)
  · refine List.nodup_append.mpr ⟨h.nodup_freed, ?_, ?_⟩
    · exact (h.nodup_bufs clt).sublist (List.filter_sublist.filterMap _)
    · rintro b hold b' hnew rfl
      obtain ⟨entry, hmem, hbuf, _⟩ := hdropped b hnew
      exact (h.home clt entry hmem b hbuf).1 hold

/-- A dispatch whose frame is written stands behind no buffer that has left it. -/
theorem replied_put {s base : Server σ} {d b : DispatchId} {f f' g : Dispatch}
    (hframes : base.frames = s.frames) (hf : s.frames d = some f)
    (hstage : replied f.stage = false) (hg : s.frames b = some g)
    (hreplied : replied g.stage = true) : (base.put d f').frames b = some g := by
  have hb : b ≠ d := by
    rintro rfl
    obtain rfl := Option.some.inj (hf.symm.trans hg)
    rw [hstage] at hreplied
    cases hreplied
  rw [frames_put_of_ne base hb, hframes, hg]

/-- A dispatch that owns a reply has produced it. -/
theorem replied_of_keeps {f : Dispatch} (hkeeps : keeps f = true) : replied f.stage = true := by
  unfold keeps at hkeeps
  split at hkeeps
  · simp [replied, *]
  · simp [replied, *]
  · simp [replied, *]
  · cases hkeeps

/-- A new request gets an entry. -/
theorem Owned.make {s : Server σ} {freed : List BufId} {d : DispatchId} {f : Dispatch}
    (h : Owned s freed) (hf : s.frames d = some f) (hstage : f.stage = .check)
    (hnew : f.request.xid ∉ s.store.xids f.request.clt) :
    Owned ({ s with
        store := s.store.put f.request.clt
          (s.store.entries f.request.clt ++ [({ xid := f.request.xid } : ReplyEntry)]) }.put d
      { f with stage := .run }) freed := by
  have hentries : ∀ clt, (s.store.put f.request.clt
      (s.store.entries f.request.clt ++ [{ xid := f.request.xid }])).entries clt =
      s.store.entries clt ++
        if clt = f.request.clt then [({ xid := f.request.xid } : ReplyEntry)] else [] := by
    intro clt
    rw [ReplyStore.entries_put]
    split_ifs with heq
    · rw [heq]
    · rw [List.append_nil]
  have hbefore : replied f.stage = false := by rw [hstage]; rfl
  -- another dispatch that is awaited has its entry already, so it is of another request
  have hother : ∀ {j : DispatchId} {g : Dispatch}, s.frames j = some g → awaited g = true →
      f.request.clt = g.request.clt → f.request.xid ≠ g.request.xid := by
    intro j g hg hawaited hclt hxid
    obtain ⟨entry, hmem, heq, _⟩ := h.awaits j g hg hawaited
    refine hnew ?_
    rw [hclt, hxid, ← heq]
    exact List.mem_map_of_mem hmem
  refine ⟨?_, ?_, ?_, ?_, ?_, ?_, ?_, ?_, h.nodup_freed⟩
  · exact fun j g hg => holds_put h.tracked hg rfl nofun
  · intro clt
    rw [ReplyStore.xids, store_put, hentries, List.map_append, List.nodup_append]
    refine ⟨h.nodup_xids clt, by split_ifs <;> simp, ?_⟩
    rintro xid hold _ hmem rfl
    split_ifs at hmem with heq
    · obtain rfl : xid = f.request.xid := by simpa using hmem
      exact hnew (heq ▸ hold)
    · simp at hmem
  · intro j g hg hawaited
    rw [store_put, hentries]
    rcases frames_put_eq_some.mp hg with ⟨rfl, rfl⟩ | ⟨_, hsame⟩
    · exact ⟨({ xid := f.request.xid } : ReplyEntry), by simp, rfl, rfl⟩
    · obtain ⟨entry, hmem, hentry⟩ := h.awaits j g hsame hawaited
      exact ⟨entry, List.mem_append_left _ hmem, hentry⟩
  · intro j g i k hg hk hawaited hawaited' hclt hxid
    rcases frames_put_eq_some.mp hg with ⟨rfl, rfl⟩ | ⟨_, hsame⟩
    · rcases frames_put_eq_some.mp hk with ⟨rfl, rfl⟩ | ⟨_, hsame'⟩
      · rfl
      · exact absurd hxid (hother hsame' hawaited' hclt)
    · rcases frames_put_eq_some.mp hk with ⟨rfl, rfl⟩ | ⟨_, hsame'⟩
      · exact absurd hxid.symm (hother hsame hawaited hclt.symm)
      · exact h.alone j g i k hsame hsame' hawaited hawaited' hclt hxid
  · intro clt entry hmem b hb
    rw [store_put, hentries] at hmem
    rcases List.mem_append.mp hmem with hold | hmade
    · obtain ⟨hfreed, g, hg, hclt, hxid, hreplied, hkeeps⟩ := h.home clt entry hold b hb
      exact ⟨hfreed, g, replied_put rfl hf hbefore hg hreplied, hclt, hxid, hreplied, hkeeps⟩
    · split_ifs at hmade
      · obtain rfl := List.mem_singleton.mp hmade
        cases hb
      · simp at hmade
  · exact fun j g hg => holds_put h.keeper hg rfl fun hkeeps => by simp [keeps] at hkeeps
  · intro b hb
    obtain ⟨g, hg, hreplied, hkeeps⟩ := h.gone b hb
    exact ⟨g, replied_put rfl hf hbefore hg hreplied, hreplied, hkeeps⟩
  · intro b hb
    rcases h.owner b hb with hfreed | ⟨clt, hheld⟩ | ⟨g, hg, hkeeps⟩
    · exact .inl hfreed
    · obtain ⟨entry, hmem, hbuf⟩ := ReplyStore.mem_bufs.mp hheld
      refine .inr (.inl ⟨clt, ReplyStore.mem_bufs.mpr ⟨entry, ?_, hbuf⟩⟩)
      rw [store_put, hentries]
      exact List.mem_append_left _ hmem
    · exact .inr (.inr ⟨g, replied_put rfl hf hbefore hg (replied_of_keeps hkeeps), hkeeps⟩)

/-- A check that drops no entry without a reply. -/
theorem Owned.check {s : Server σ} {freed : List BufId} {d : DispatchId} {f : Dispatch}
    (h : Owned s freed) (hf : s.frames d = some f) (hstage : f.stage = .check)
    (hguard : noAbandon s (.check d) = true) :
    Owned (s.check d f) (freed ++ s.frees (.check d)) := by
  have hclt : f.request.clt ≠ 0 := h.tracked d f hf (by rw [hstage]; rfl)
  have hfrees : s.frees (.check d) =
      s.store.frees (.check f.request.clt f.request.xid f.request.xidRep) := by
    simp [frees, hf]
  -- where the dispatch goes on if it has not been found new
  have halike : ∀ verdict, verdict ≠ .new → Alike f (follow f verdict) := by
    intro verdict hverdict
    cases verdict with
    | new => exact absurd rfl hverdict
    | inProgress | done | forgotten =>
        refine ⟨rfl, ?_, ?_, ?_, ?_, ?_⟩ <;>
          simp [keeps, follow, hstage, hclt, awaited, replied, tracks]
  have hreplies : f.request.xidRep < f.request.xid →
      ∀ entry ∈ s.store.dropped f.request.clt f.request.xidRep, entry.buf.isSome = true := by
    intro hlt
    simpa only [noAbandon, hf, Option.all_some, UInt32.not_le.mpr hlt, decide_false,
      Bool.false_or, List.all_eq_true] using hguard
  rw [hfrees, Server.check]
  rcases s.store.check_cases f.request.clt f.request.xid f.request.xidRep with
    ⟨hle, hcheck⟩ | ⟨hlt, hnone, hcheck⟩ | ⟨hlt, entry, _, _, hcheck⟩
  · simp only [hcheck, ReplyStore.frees, if_pos hle, List.append_nil]
    exact h.move rfl (fun _ => rfl) rfl hf (halike _ (by simp))
  · simp only [hcheck, ReplyStore.frees, if_neg (UInt32.not_le.mpr hlt)]
    have hentries : ((s.store.prune f.request.clt f.request.xidRep).put f.request.clt
        (s.store.kept f.request.clt f.request.xidRep)).entries f.request.clt =
        s.store.kept f.request.clt f.request.xidRep := by
      rw [ReplyStore.entries_put, if_pos rfl]
    have hmade := (h.prune (hreplies hlt)).make hf hstage ?_
    · rw [hentries] at hmade
      simpa [ReplyStore.put, follow] using hmade
    · rw [ReplyStore.xids, hentries]
      intro hmem
      obtain ⟨entry, hkept, heq⟩ := List.mem_map.mp hmem
      exact hnone entry (ReplyStore.mem_kept.mp hkept).1 heq
  · simp only [hcheck, ReplyStore.frees, if_neg (UInt32.not_le.mpr hlt)]
    refine (h.prune (hreplies hlt)).move rfl (fun _ => rfl) rfl hf (halike _ ?_)
    split_ifs <;> simp

/-! ## The reply -/

/-- A dispatch before its reply owns nothing. -/
theorem not_replied_of_handler {f : Dispatch} (hstage : f.stage = .run ∨ f.stage = .running) :
    replied f.stage = false := by
  rcases hstage with hat | hat <;> rw [hat] <;> rfl

/-- A handler returns, and the dispatch owns the buffer of the reply. -/
theorem Owned.returned {s base : Server σ} {freed : List BufId} {d : DispatchId}
    {f f' : Dispatch} {cell : Cell} (h : Owned s freed) (hframes : base.frames = s.frames)
    (hentries : ∀ clt, base.store.entries clt = s.store.entries clt)
    (hheap : base.store.heap = Function.update s.store.heap d (some cell))
    (hf : s.frames d = some f) (hstage : f.stage = .run ∨ f.stage = .running)
    (hrequest : f'.request = f.request) (hb1 : f'.b1 = some d)
    (hnext : f'.stage = if f.request.clt = 0 then .select else .record) :
    Owned (base.put d f') freed := by
  have hbefore := not_replied_of_handler hstage
  have hkeeps : keeps f' = true := by
    unfold keeps
    rw [hnext, hrequest]
    split_ifs with hclt
    · simp [hclt]
    · rfl
  -- a dispatch that is awaited has been so before
  have hback : ∀ {j : DispatchId} {g : Dispatch}, (base.put d f').frames j = some g →
      awaited g = true → ∃ g', s.frames j = some g' ∧ g.request = g'.request ∧
        awaited g' = true := by
    intro j g hg hawaited
    rcases frames_put_eq_some.mp hg with ⟨rfl, rfl⟩ | ⟨_, hsame⟩
    · refine ⟨f, hf, hrequest, ?_⟩
      have hclt : f.request.clt ≠ 0 := by
        intro hzero
        simp [awaited, hnext, hzero] at hawaited
      rcases hstage with hat | hat <;> simp [awaited, hat, hclt]
    · exact ⟨g, hframes ▸ hsame, rfl, hawaited⟩
  refine ⟨?_, ?_, ?_, ?_, ?_, ?_, ?_, ?_, h.nodup_freed⟩
  · refine fun j g hg => holds_put h.tracked hg hframes fun htracks hzero => ?_
    rw [hnext, if_pos (hrequest ▸ hzero)] at htracks
    cases htracks
  · intro clt
    rw [ReplyStore.xids, store_put, hentries]
    exact h.nodup_xids clt
  · intro j g hg hawaited
    obtain ⟨g', hg', hsame, hawaited'⟩ := hback hg hawaited
    rw [store_put, hentries, hsame]
    exact h.awaits j g' hg' hawaited'
  · intro j g i k hg hk hawaited hawaited' hclt hxid
    obtain ⟨g', hg', hsame, hold⟩ := hback hg hawaited
    obtain ⟨k', hk', hsame', hold'⟩ := hback hk hawaited'
    rw [hsame, hsame'] at hclt hxid
    exact h.alone j g' i k' hg' hk' hold hold' hclt hxid
  · intro clt entry hmem b hb
    rw [store_put, hentries] at hmem
    obtain ⟨hfreed, g, hg, hclt, hxid, hreplied, hrest⟩ := h.home clt entry hmem b hb
    exact ⟨hfreed, g, replied_put hframes hf hbefore hg hreplied, hclt, hxid, hreplied, hrest⟩
  · exact fun j g hg => holds_put h.keeper hg hframes fun _ => hb1
  · intro b hb
    obtain ⟨g, hg, hreplied, hrest⟩ := h.gone b hb
    exact ⟨g, replied_put hframes hf hbefore hg hreplied, hreplied, hrest⟩
  · intro b hb
    by_cases hbd : b = d
    · subst hbd
      exact .inr (.inr ⟨f', frames_put_self .., hkeeps⟩)
    · rw [store_put, hheap, Function.update_of_ne hbd] at hb
      rcases h.owner b hb with hfreed | ⟨clt, hheld⟩ | ⟨g, hg, hgkeeps⟩
      · exact .inl hfreed
      · refine .inr (.inl ⟨clt, ?_⟩)
        rwa [store_put, ReplyStore.bufs_congr hentries]
      · exact .inr (.inr ⟨g, by rw [frames_put_of_ne base hbd, hframes, hg], hgkeeps⟩)

/-- A reply is recorded: its entry owns the buffer from then on. -/
theorem Owned.recorded {s : Server σ} {freed : List BufId} {d : DispatchId} {f : Dispatch}
    {buf : BufId} {l : List ReplyEntry} (h : Owned s freed) (hf : s.frames d = some f)
    (hstage : f.stage = .record) (hbuf : f.b1 = some buf)
    (hl : s.store.window f.request.clt = some l) :
    Owned ({ s with
        store := s.store.put f.request.clt
          (ReplyStore.setReply f.request.xid buf f.sz1 l) }.put d
      { f with stage := .select }) freed := by
  have hclt : f.request.clt ≠ 0 := h.tracked d f hf (by rw [hstage]; rfl)
  have hkeeps : keeps f = true := by simp [keeps, hstage]
  obtain rfl : d = buf := Option.some.inj ((h.keeper d f hf hkeeps).symm.trans hbuf)
  obtain rfl : s.store.entries f.request.clt = l := by rw [ReplyStore.entries, hl]; rfl
  have hfalse : keeps { f with stage := .select } = false := by simp [keeps, hclt]
  have hnodup := h.nodup_xids f.request.clt
  -- the entry that waits for the reply, which is the only one with its xid
  obtain ⟨waiting, hwaiting, hxid, hnone⟩ :=
    h.awaits d f hf (by simp [awaited, hstage, hclt])
  have hentries : ∀ clt, (s.store.put f.request.clt (ReplyStore.setReply f.request.xid d f.sz1
      (s.store.entries f.request.clt))).entries clt = if clt = f.request.clt then
        ReplyStore.setReply f.request.xid d f.sz1 (s.store.entries f.request.clt)
      else s.store.entries clt := fun clt => ReplyStore.entries_put ..
  have hstays : ∀ clt, ∀ entry ∈ s.store.entries clt,
      (clt = f.request.clt → entry.xid ≠ f.request.xid) →
      entry ∈ (s.store.put f.request.clt (ReplyStore.setReply f.request.xid d f.sz1
        (s.store.entries f.request.clt))).entries clt := by
    intro clt entry hmem hne
    rw [hentries]
    split_ifs with heq
    · subst heq
      exact ReplyStore.mem_setReply_of_ne hmem (hne rfl)
    · exact hmem
  -- the other dispatches with a buffer that is not theirs any more
  have hother : ∀ {b : BufId} {g : Dispatch} {base : Server σ}, base.frames = s.frames →
      s.frames b = some g → keeps g = false →
      (base.put d { f with stage := .select }).frames b = some g := by
    intro b g base hbase hg hgkeeps
    have hb : b ≠ d := by
      rintro rfl
      obtain rfl := Option.some.inj (hf.symm.trans hg)
      rw [hkeeps] at hgkeeps
      cases hgkeeps
    rw [frames_put_of_ne base hb, hbase, hg]
  -- a dispatch that is awaited has been so before, and it is another one
  have hback : ∀ {j : DispatchId} {g : Dispatch} {base : Server σ}, base.frames = s.frames →
      (base.put d { f with stage := .select }).frames j = some g → awaited g = true →
      j ≠ d ∧ s.frames j = some g := by
    intro j g base hbase hg hawaited
    rcases frames_put_eq_some.mp hg with ⟨rfl, rfl⟩ | ⟨hj, hsame⟩
    · simp [awaited] at hawaited
    · exact ⟨hj, hbase ▸ hsame⟩
  refine ⟨?_, ?_, ?_, ?_, ?_, ?_, ?_, ?_, h.nodup_freed⟩
  · exact fun j g hg => holds_put h.tracked hg rfl (by rintro ⟨⟩)
  · intro clt
    rw [ReplyStore.xids, store_put, hentries]
    split_ifs
    · rwa [ReplyStore.map_xid_setReply]
    · exact h.nodup_xids clt
  · intro j g hg hawaited
    obtain ⟨hj, hsame⟩ := hback rfl hg hawaited
    obtain ⟨entry, hmem, hentry, hempty⟩ := h.awaits j g hsame hawaited
    refine ⟨entry, hstays _ entry hmem fun hsameClt hsameXid => hj ?_, hentry, hempty⟩
    exact h.alone j g d f hsame hf hawaited (by simp [awaited, hstage, hclt]) hsameClt
      (hentry.symm.trans hsameXid)
  · intro j g i k hg hk hawaited hawaited'
    exact h.alone j g i k (hback rfl hg hawaited).2 (hback rfl hk hawaited').2 hawaited hawaited'
  · intro clt entry hmem b hb
    rw [store_put, hentries] at hmem
    have hold : entry ∈ s.store.entries clt → b ∉ freed ∧ ∃ g,
        (Server.put { s with
          store := s.store.put f.request.clt (ReplyStore.setReply f.request.xid d f.sz1
            (s.store.entries f.request.clt)) } d { f with stage := .select }).frames b = some g ∧
        g.request.clt = clt ∧ g.request.xid = entry.xid ∧ replied g.stage = true ∧
          keeps g = false := by
      intro hmem
      obtain ⟨hfreed, g, hg, hgclt, hgxid, hreplied, hgkeeps⟩ := h.home clt entry hmem b hb
      exact ⟨hfreed, g, hother rfl hg hgkeeps, hgclt, hgxid, hreplied, hgkeeps⟩
    split_ifs at hmem with heq
    · subst heq
      rcases ReplyStore.mem_setReply_of_nodup hnodup hmem with ⟨hmem, _⟩ | rfl
      · exact hold hmem
      · obtain rfl : d = b := Option.some.inj hb
        refine ⟨fun hfreed => ?_, _, frames_put_self .., rfl, rfl, rfl, hfalse⟩
        obtain ⟨g, hg, _, hgkeeps⟩ := h.gone d hfreed
        obtain rfl := Option.some.inj (hf.symm.trans hg)
        rw [hkeeps] at hgkeeps
        cases hgkeeps
    · exact hold hmem
  · refine fun j g hg => holds_put h.keeper hg rfl fun hkept => ?_
    rw [hfalse] at hkept
    cases hkept
  · intro b hb
    obtain ⟨g, hg, hreplied, hgkeeps⟩ := h.gone b hb
    exact ⟨g, hother rfl hg hgkeeps, hreplied, hgkeeps⟩
  · intro b hb
    rcases h.owner b hb with hfreed | ⟨clt, hheld⟩ | ⟨g, hg, hgkeeps⟩
    · exact .inl hfreed
    · obtain ⟨entry, hmem, hbuf⟩ := ReplyStore.mem_bufs.mp hheld
      refine .inr (.inl ⟨clt, ReplyStore.mem_bufs.mpr ⟨entry, ?_, hbuf⟩⟩)
      refine hstays clt entry hmem fun heq hsame => ?_
      -- the entry of this xid has no buffer yet
      subst heq
      obtain rfl := List.inj_on_of_nodup_map hnodup hmem hwaiting (hsame.trans hxid.symm)
      rw [hnone] at hbuf
      cases hbuf
    · by_cases hbd : b = d
      · subst hbd
        obtain ⟨entry, hmem, hset⟩ :=
          ReplyStore.exists_mem_setReply b f.sz1 ⟨waiting, hwaiting, hxid⟩
        refine .inr (.inl ⟨f.request.clt, ReplyStore.mem_bufs.mpr ⟨entry, ?_, hset⟩⟩)
        rwa [store_put, hentries, if_pos rfl]
      · exact .inr (.inr ⟨g, by rwa [frames_put_of_ne _ hbd], hgkeeps⟩)

/-- A reply is sent, and freed if no entry owns it. -/
theorem Owned.sent {s : Server σ} {freed : List BufId} {d : DispatchId} {f : Dispatch}
    (h : Owned s freed) (hf : s.frames d = some f) (hstage : f.stage = .send) :
    Owned (s.send d f) (freed ++ s.frees (.send d)) := by
  have hfrees : s.frees (.send d) = if f.request.clt = 0 then f.b1.toList else [] := by
    simp [frees, hf]
  rw [hfrees, send]
  by_cases hclt : f.request.clt = 0
  · have hkeeps : keeps f = true := by simp [keeps, hstage, hclt]
    have hother : ∀ {b : BufId} {g : Dispatch}, s.frames b = some g → keeps g = false → b ≠ d := by
      rintro b g hg hgkeeps rfl
      obtain rfl := Option.some.inj (hf.symm.trans hg)
      rw [hkeeps] at hgkeeps
      cases hgkeeps
    have hold : ∀ {b : BufId} {g : Dispatch} {base : Server σ}, base.frames = s.frames →
        s.frames b = some g → keeps g = false →
        (base.put d { f with stage := .ended }).frames b = some g := by
      intro b g base hbase hg hgkeeps
      rw [frames_put_of_ne base (hother hg hgkeeps), hbase, hg]
    have hback : ∀ {j : DispatchId} {g : Dispatch} {base : Server σ}, base.frames = s.frames →
        (base.put d { f with stage := .ended }).frames j = some g → awaited g = true →
        s.frames j = some g := by
      intro j g base hbase hg hawaited
      rcases frames_put_eq_some.mp hg with ⟨_, rfl⟩ | ⟨_, hsame⟩
      · cases hawaited
      · exact hbase ▸ hsame
    have hb1 : f.b1.toList = [d] := by rw [h.keeper d f hf hkeeps, Option.toList_some]
    rw [if_pos hclt, if_pos hclt, hb1]
    refine ⟨?_, h.nodup_xids, ?_, ?_, ?_, ?_, ?_, ?_, ?_⟩
    · exact fun j g hg => holds_put h.tracked hg rfl (by rintro ⟨⟩)
    · exact fun j g hg hawaited => h.awaits j g (hback rfl hg hawaited) hawaited
    · exact fun j g i k hg hk hawaited hawaited' =>
        h.alone j g i k (hback rfl hg hawaited) (hback rfl hk hawaited') hawaited hawaited'
    · intro clt entry hmem b hb
      obtain ⟨hfreed, g, hg, hgclt, hgxid, hreplied, hgkeeps⟩ := h.home clt entry hmem b hb
      refine ⟨fun hnew => ?_, g, hold rfl hg hgkeeps, hgclt, hgxid, hreplied, hgkeeps⟩
      rcases List.mem_append.mp hnew with hfree | hself
      · exact hfreed hfree
      · exact hother hg hgkeeps (List.mem_singleton.mp hself)
    · exact fun j g hg => holds_put h.keeper hg rfl (by rintro ⟨⟩)
    · intro b hb
      rcases List.mem_append.mp hb with hfree | hself
      · obtain ⟨g, hg, hreplied, hgkeeps⟩ := h.gone b hfree
        exact ⟨g, hold rfl hg hgkeeps, hreplied, hgkeeps⟩
      · obtain rfl := List.mem_singleton.mp hself
        exact ⟨_, frames_put_self .., rfl, rfl⟩
    · intro b hb
      rw [store_put, ReplyStore.isSome_heap_free] at hb
      rcases h.owner b hb with hfree | hheld | ⟨g, hg, hgkeeps⟩
      · exact .inl (List.mem_append_left _ hfree)
      · exact .inr (.inl hheld)
      · by_cases hbd : b = d
        · exact .inl (List.mem_append_right _ (List.mem_singleton.mpr hbd))
        · exact .inr (.inr ⟨g, by rwa [frames_put_of_ne _ hbd], hgkeeps⟩)
    · refine List.nodup_append.mpr ⟨h.nodup_freed, List.nodup_singleton d, ?_⟩
      rintro b hfree b' hself rfl
      obtain ⟨g, hg, _, hgkeeps⟩ := h.gone b hfree
      exact hother hg hgkeeps (List.mem_singleton.mp hself)
  · rw [if_neg hclt, if_neg hclt, List.append_nil]
    refine h.move rfl (fun _ => rfl) rfl hf
      ⟨rfl, ?_, fun _ => rfl, by rintro ⟨⟩, fun _ => rfl, by rintro ⟨⟩⟩
    simp [keeps, hstage, hclt]

/-! ## Sections -/

/-- Every section keeps the owners, if its check drops no entry without a reply. -/
theorem Owned.step {s target : Server σ} {freed : List BufId} {label : Label}
    (h : Owned s freed) (hguard : noAbandon s label = true)
    (hsection : Section app s label target) : Owned target (freed ++ s.frees label) := by
  -- the sections other than the check and the send free nothing
  have hquiet : s.frees label = [] → Owned target freed →
      Owned target (freed ++ s.frees label) := by
    intro hnone howned
    rwa [hnone, List.append_nil]
  cases hsection with
  | dropped => exact hquiet rfl h
  | stirred =>
      refine hquiet rfl (h.quiet (fun _ => rfl) (fun _ => rfl) ?_ ?_)
      · exact fun _ f hf => ⟨f, hf, .refl f⟩
      · exact fun _ f hf => .inl ⟨f, hf, .refl f⟩
  | received hfresh => exact hquiet rfl (h.receive hfresh rfl)
  | old hf hstage | unregistered hf hstage =>
      refine hquiet rfl (h.move rfl (fun _ => rfl) rfl hf
        ⟨rfl, ?_, by rintro ⟨⟩, by rintro ⟨⟩, ?_, by rintro ⟨⟩⟩) <;>
        simp [keeps, replied, hstage]
  | @vetted d f hf hstage =>
      refine hquiet rfl (h.move rfl (fun _ => rfl) rfl hf ?_)
      by_cases hclt : f.request.clt = 0
      · rw [if_pos hclt]
        refine ⟨rfl, ?_, by rintro ⟨⟩, ?_, ?_, by rintro ⟨⟩⟩ <;>
          simp [keeps, awaited, replied, hstage, hclt]
      · rw [if_neg hclt]
        refine ⟨rfl, ?_, by rintro ⟨⟩, by rintro ⟨⟩, ?_, fun _ => .inr hclt⟩ <;>
          simp [keeps, replied, hstage]
  | enrolled hf hstage =>
      refine hquiet rfl (h.move rfl (fun _ => ReplyStore.entries_enroll ..) rfl hf
        ⟨rfl, ?_, by rintro ⟨⟩, by rintro ⟨⟩, ?_, fun _ => .inl ?_⟩) <;>
        simp [keeps, replied, tracks, hstage]
  | connected hf hstage =>
      refine hquiet rfl (h.move rfl (fun _ => rfl) rfl hf
        ⟨rfl, ?_, by rintro ⟨⟩, by rintro ⟨⟩, ?_, fun _ => .inl ?_⟩) <;>
        simp [keeps, replied, tracks, hstage]
  | checked hf hstage => exact h.check hf hstage hguard
  | waits hf hhandles =>
      have hnone : frees s label = [] := by cases hhandles <;> rfl
      refine hquiet hnone (h.move rfl (fun _ => rfl) rfl hf ?_)
      rcases hhandles.stage with hstage | hstage <;>
        refine ⟨rfl, ?_, by rintro ⟨⟩, ?_, ?_, by rintro ⟨⟩⟩ <;>
          simp [keeps, awaited, replied, hstage]
  | returned hf hhandles hrep =>
      have hnone : frees s label = [] := by cases hhandles <;> rfl
      exact hquiet hnone (h.returned rfl (fun _ => rfl) rfl hf hhandles.stage rfl rfl rfl)
  | recorded hf hstage hbuf hl => exact hquiet rfl (h.recorded hf hstage hbuf hl)
  | switched hf hstage | stays hf hstage =>
      refine hquiet rfl (h.move rfl (fun _ => rfl) rfl hf
        ⟨rfl, ?_, fun _ => rfl, by rintro ⟨⟩, ?_, by rintro ⟨⟩⟩) <;> simp [keeps, replied, hstage]
  | sent hf hstage => exact h.sent hf hstage
  | refused hf hstage =>
      refine hquiet rfl (h.move rfl (fun _ => rfl) rfl hf
        ⟨rfl, ?_, by rintro ⟨⟩, by rintro ⟨⟩, ?_, by rintro ⟨⟩⟩) <;>
        simp [keeps, replied, hstage]

/-! ## When no dispatch is executing -/

/-- An entry is the only one that holds its buffer. -/
theorem Owned.heldOnce {s : Server σ} {freed : List BufId} (h : Owned s freed)
    {clt : UInt32} {b : BufId} (hheld : b ∈ s.store.bufs clt) : s.store.HeldOnce b := by
  refine ⟨clt, List.count_eq_one_of_mem (h.nodup_bufs clt) hheld, fun other hother => ?_⟩
  obtain ⟨entry, hmem, hb⟩ := ReplyStore.mem_bufs.mp hheld
  obtain ⟨entry', hmem', hb'⟩ := ReplyStore.mem_bufs.mp hother
  obtain ⟨_, f, hf, hclt, _⟩ := h.home clt entry hmem b hb
  obtain ⟨_, f', hf', hclt', _⟩ := h.home other entry' hmem' b hb'
  obtain rfl := Option.some.inj (hf.symm.trans hf')
  exact hclt'.symm.trans hclt

/-- A buffer that is held has not been freed. -/
theorem Owned.not_freed {s : Server σ} {freed : List BufId} (h : Owned s freed)
    {clt : UInt32} {b : BufId} (hheld : b ∈ s.store.bufs clt) : b ∉ freed := by
  obtain ⟨entry, hmem, hb⟩ := ReplyStore.mem_bufs.mp hheld
  exact (h.home clt entry hmem b hb).1

/-- A buffer that no dispatch owns is held by one entry or has been freed once. -/
theorem Owned.settled {s : Server σ} {freed : List BufId} (h : Owned s freed)
    (hrest : s.AtRest) {b : BufId} (hb : (s.store.heap b).isSome = true) :
    s.store.Settled freed b := by
  rcases h.owner b hb with hfreed | ⟨clt, hheld⟩ | ⟨f, hf, hkeeps⟩
  · exact .inr ⟨fun clt hheld => h.not_freed hheld hfreed,
      List.count_eq_one_of_mem h.nodup_freed hfreed⟩
  · exact .inl ⟨h.heldOnce hheld, h.not_freed hheld⟩
  · rcases hrest b f hf with hat | hat <;> simp [keeps, hat] at hkeeps

/-- `free_reply_window` frees what is left, each buffer once. -/
theorem Owned.released {s : Server σ} {freed : List BufId} (h : Owned s freed)
    (hrest : s.AtRest) {clts : List UInt32} (hsorted : clts.Pairwise (· < ·))
    (hall : ∀ clt, s.store.entries clt ≠ [] → clt ∈ clts) {b : BufId}
    (hb : (s.store.heap b).isSome = true) :
    (freed ++ s.store.frees (.freeReplyWindow clts)).count b = 1 := by
  have hfrees : s.store.frees (.freeReplyWindow clts) = clts.flatMap s.store.bufs := rfl
  have hnodup : (freed ++ clts.flatMap s.store.bufs).Nodup := by
    refine List.nodup_append.mpr ⟨h.nodup_freed, ?_, ?_⟩
    · refine List.nodup_flatMap.mpr ⟨fun clt _ => h.nodup_bufs clt, hsorted.imp ?_⟩
      intro clt clt' hlt b hheld hheld'
      obtain ⟨_, _, honly⟩ := h.heldOnce hheld
      rw [honly clt hheld, honly clt' hheld'] at hlt
      exact UInt32.lt_irrefl _ hlt
    · rintro b hfreed b' hmem rfl
      obtain ⟨clt, _, hheld⟩ := List.mem_flatMap.mp hmem
      exact h.not_freed hheld hfreed
  rw [hfrees]
  refine List.count_eq_one_of_mem hnodup ?_
  rcases h.owner b hb with hfreed | ⟨clt, hheld⟩ | ⟨f, hf, hkeeps⟩
  · exact List.mem_append_left _ hfreed
  · refine List.mem_append_right _ (List.mem_flatMap.mpr ⟨clt, hall clt fun hnil => ?_, hheld⟩)
    rw [ReplyStore.bufs, hnil] at hheld
    cases hheld
  · rcases hrest b f hf with hat | hat <;> simp [keeps, hat] at hkeeps

/-- An entry that holds a buffer is one of a client that has sent a request. -/
def Met (s : Server σ) : Prop :=
  ∀ clt b, b ∈ s.store.bufs clt → ∃ d f, s.frames d = some f ∧ f.request.clt = clt

theorem met_of_section {s target : Server σ} {label : Label} (h : s.Met)
    (hsection : Section app s label target) : target.Met := by
  have hkeep : ∀ {clt : UInt32}, (∃ d f, s.frames d = some f ∧ f.request.clt = clt) →
      ∃ d f, target.frames d = some f ∧ f.request.clt = clt := by
    rintro clt ⟨d, f, hf, hclt⟩
    obtain ⟨f', hf', hrequest, _⟩ := follows_of_section hsection hf
    exact ⟨d, f', hf', hrequest ▸ hclt⟩
  intro clt b hheld
  obtain ⟨entry, hmem, hb⟩ := ReplyStore.mem_bufs.mp hheld
  have hold : entry ∈ s.store.entries clt →
      ∃ d f, target.frames d = some f ∧ f.request.clt = clt :=
    fun hmem => hkeep (h clt b (ReplyStore.mem_bufs.mpr ⟨entry, hmem, hb⟩))
  cases hsection with
  | checked hf =>
      rcases ReplyStore.mem_entries_check hmem with ⟨hmem, _⟩ | rfl
      · exact hold hmem
      · cases hb
  | @recorded d f _ l hf _ _ hl =>
      rw [store_put, ReplyStore.entries_put] at hmem
      split_ifs at hmem with heq
      · exact ⟨d, _, frames_put_self .., heq.symm⟩
      · exact hold hmem
  | enrolled => exact hold (by simpa using hmem)
  | sent => exact hold (entries_send s _ _ clt ▸ hmem)
  | _ => exact hold hmem

end Server

namespace Net

variable {σ : Type}

/-- The system with the list of the buffers that its present server has freed. -/
def freeing (setup : Setup σ) : System (Net σ × List BufId) Label where
  init := (start setup, [])
  step source label := (source.1.step setup.app label).map fun target =>
    (target, if restarts label then [] else
      source.2 ++ (source.1.serverLabel label).toList.flatMap source.1.server.frees)

/-- The step does not check a request whose acknowledgement drops an entry without a
reply. -/
def keepsEntries (source : Net σ × List BufId) (label : Label) : Bool :=
  (source.1.serverLabel label).all source.1.server.noAbandon

/-- Every run keeps the owners in which no entry is dropped before it has a reply. -/
theorem owned_of_run {setup : Setup σ} {labels : List Label} {reached : Net σ × List BufId}
    (hrun : (freeing setup).Run (fun source label => keepsEntries source label = true) labels
      reached) : reached.1.server.Owned reached.2 := by
  refine hrun.invariant (fun source => source.1.server.Owned source.2)
    (Server.owned_start setup.srvNonce) ?_
  rintro _ source label _ _ howned hguard hstep
  obtain ⟨target, hnext, rfl⟩ := Option.map_eq_some_iff.mp hstep
  cases hrestart : restarts label with
  | true =>
      cases label with
      | restart nonce =>
          obtain rfl := Option.some.inj hnext
          exact Server.owned_start nonce
      | _ => cases hrestart
  | false =>
      simp only [Bool.false_eq_true, if_false]
      rcases server_of_step hnext hrestart with ⟨hnone, hsame⟩ | ⟨part, hpart, hmoved⟩
      · rw [hnone, hsame]
        simpa using howned
      · have hallowed : source.1.server.noAbandon part = true := by
          simpa [keepsEntries, hpart] using hguard
        rw [hpart]
        simpa using howned.step hallowed (Server.section_of_step hmoved)

/-- Reply buffers, for all runs of any clients with servers in which no check drops an
entry before its reply has been recorded: when no dispatch is executing, every reply
that a handler has produced, which is every cell of the heap, is in a buffer that one
entry holds and that has not been freed, or that no entry holds and that has been freed
once. And after `free_reply_window` every one of them has been freed once. -/
theorem buffersSettled {setup : Setup σ} {labels : List Label} {reached : Net σ × List BufId}
    (hrun : (freeing setup).Run (fun source label => keepsEntries source label = true) labels
      reached)
    (hrest : reached.1.server.AtRest) {b : BufId}
    (hb : (reached.1.server.store.heap b).isSome = true) :
    reached.1.server.store.Settled reached.2 b ∧
    ∀ clts : List UInt32, clts.Pairwise (· < ·) →
      (∀ clt, reached.1.server.store.entries clt ≠ [] → clt ∈ clts) →
      (reached.2 ++ reached.1.server.store.frees (.freeReplyWindow clts)).count b = 1 := by
  have howned := owned_of_run hrun
  exact ⟨howned.settled hrest hb, fun _ hsorted hall => howned.released hrest hsorted hall hb⟩

/-! ## Runs of `rpctest` -/

/-- The dispatch of a request that is received. -/
def receives : Label → Option DispatchId
  | .receive d _ => some d
  | _ => none

theorem receives_of_serverLabel {net : Net σ} {label : Label} {d : DispatchId} {n : ConnId}
    {pdu : Bytes} (hpart : net.serverLabel label = some (.receive d n pdu)) :
    receives label = some d := by
  cases label with
  | receive j m =>
      obtain ⟨conn, _, hpdu⟩ := Option.bind_eq_some_iff.mp hpart
      obtain ⟨_, _, hsame⟩ := Option.map_eq_some_iff.mp hpdu
      cases hsame
      rfl
  | _ => cases hpart

/-- The dispatches have been received, and the entries are those of their clients. -/
theorem known_of_run {setup : Setup σ} {labels : List Label} {reached : Net σ × List BufId}
    (hrun : (freeing setup).Run anyStep labels reached) :
    (∀ d f, reached.1.server.frames d = some f → d ∈ labels.filterMap receives) ∧
      reached.1.server.Met := by
  have hmetStart : ∀ nonce, (Server.start setup.app nonce).Met := by
    intro nonce clt b hheld
    cases hheld
  refine hrun.invariantOn (fun labels source =>
    (∀ d f, source.1.server.frames d = some f → d ∈ labels.filterMap receives) ∧
      source.1.server.Met) ⟨nofun, hmetStart setup.srvNonce⟩ ?_
  rintro labels source label _ _ ⟨hframes, hmet⟩ _ hstep
  obtain ⟨target, hnext, rfl⟩ := Option.map_eq_some_iff.mp hstep
  have hold : ∀ d f, source.1.server.frames d = some f →
      d ∈ (labels ++ [label]).filterMap receives := by
    intro d f hf
    rw [List.filterMap_append]
    exact List.mem_append_left _ (hframes d f hf)
  cases hrestart : restarts label with
  | true =>
      cases label with
      | restart nonce =>
          obtain rfl := Option.some.inj hnext
          exact ⟨nofun, hmetStart nonce⟩
      | _ => cases hrestart
  | false =>
      rcases server_of_step hnext hrestart with ⟨_, hsame⟩ | ⟨part, hpart, hmoved⟩
      · dsimp only
        rw [hsame]
        exact ⟨hold, hmet⟩
      · have hsection := Server.section_of_step hmoved
        refine ⟨fun d f hf => ?_, Server.met_of_section hmet hsection⟩
        rcases Server.frame_of_section hsection hf with ⟨pdu, rfl, _⟩ | ⟨g, hg, _⟩
        · simp [receives_of_serverLabel hpart]
        · exact hold d g hg

/-- A call of `bind` and two more calls. The check of the last one drops the entry of
the first one. -/
def settledRun : List Label :=
  [.start 0 0 1 (be32 0), .refconn 0 0 (some 0), .send 0 0 true true, .receive 0 0, .vet 0,
    .enroll 0, .connect 0, .check 0, .enter 0 0 fun _ => 0, .record 0, .select 0,
    .reply 0 true [], .deliver 0, .wake 0 0, .erase 0 0, .finish 0 0, .bind 0 0,
    .start 0 1 23 (be32 5), .refconn 0 1 none, .send 0 1 true false, .receive 1 0, .vet 1,
    .enroll 1, .connect 1, .check 1, .enter 1 0 fun _ => 0, .record 1, .select 1,
    .reply 1 true [], .deliver 0, .wake 0 1, .erase 0 1, .finish 0 1,
    .start 0 2 23 (be32 6), .refconn 0 2 none, .send 0 2 true false, .receive 2 0, .vet 2,
    .enroll 2, .connect 2, .check 2, .enter 2 0 fun _ => 0, .record 2, .select 2,
    .reply 2 true []]

/-- A call of `bind` times out while its handler is running. The client binds again and
makes another call, whose check drops the entry of the first one; then the first
handler returns. -/
def abandonedRun : List Label :=
  [.start 0 0 1 (be32 0), .refconn 0 0 (some 0), .send 0 0 true true, .receive 0 0, .vet 0,
    .enroll 0, .connect 0, .check 0, .expire 0 0, .retry 0 0 false, .erase 0 0, .finish 0 0,
    .start 0 1 1 (be32 0), .refconn 0 1 none, .send 0 1 true false, .receive 1 0, .vet 1,
    .enroll 1, .connect 1, .check 1, .enter 1 0 fun _ => 0, .record 1, .select 1,
    .reply 1 true [], .deliver 0, .wake 0 1, .erase 0 1, .finish 0 1, .bind 0 1,
    .start 0 2 23 (be32 5), .refconn 0 2 none, .send 0 2 true false, .receive 2 0, .vet 2,
    .enroll 2, .connect 2, .check 2, .enter 2 0 fun _ => 0, .record 2, .select 2,
    .reply 2 true [], .enter 0 0 fun _ => 0, .record 0, .select 0, .reply 0 true []]

/-- The first three dispatches have ended, and they are those of client 1. -/
def threeEnded (s : Server σ) : Bool :=
  [0, 1, 2].all fun d => (s.frames d).all fun f => f.stage == .ended && f.request.clt == 1

/-- In a run that receives three requests nothing else is at work, and no other client
has entries. -/
theorem atRest_of_threeEnded {setup : Setup σ} {labels : List Label}
    {reached : Net σ × List BufId} (hrun : (freeing setup).Run anyStep labels reached)
    (hthree : labels.filterMap receives = [0, 1, 2])
    (hended : threeEnded reached.1.server = true) :
    reached.1.server.AtRest ∧ ∀ clt b, b ∈ reached.1.server.store.bufs clt → clt = 1 := by
  obtain ⟨hframes, hmet⟩ := known_of_run hrun
  rw [hthree] at hframes
  have hall : ∀ d f, reached.1.server.frames d = some f →
      f.stage = .ended ∧ f.request.clt = 1 := by
    intro d f hf
    have hd := List.all_eq_true.mp hended d (hframes d f hf)
    simpa [hf] using hd
  refine ⟨fun d f hf => .inr (hall d f hf).1, fun clt b hheld => ?_⟩
  obtain ⟨d, f, hf, rfl⟩ := hmet clt b hheld
  exact (hall d f hf).2

/-- The buffer of the first reply is freed by the check of the last request. -/
theorem buffersSettled_dropped :
    ∃ reached, (freeing rpctest).Run (fun source label => keepsEntries source label = true)
        settledRun reached ∧ reached.1.server.AtRest ∧
      reached.1.server.store.Settled reached.2 0 ∧ reached.2 = [0] := by
  have hexec : ((freeing rpctest).execIf keepsEntries (freeing rpctest).init settledRun).any
      (fun reached => threeEnded reached.1.server && (reached.1.server.store.heap 0).isSome &&
        reached.2 == [0]) = true := by
    decide +kernel
  obtain ⟨reached, hrun, hreached⟩ := System.exists_run_of_execIf hexec
  simp only [Bool.and_eq_true, beq_iff_eq] at hreached
  obtain ⟨⟨hended, hcell⟩, hfreed⟩ := hreached
  have hrest := (atRest_of_threeEnded (hrun.mono fun _ _ _ => trivial) rfl hended).1
  exact ⟨reached, hrun, hrest, (buffersSettled hrun hrest hcell).1, hfreed⟩

/-- In the end no entry holds the buffer of the first reply, and it has not been freed. -/
theorem abandoned_notSettled :
    ∃ reached, (freeing rpctest).Run anyStep abandonedRun reached ∧
      reached.1.server.AtRest ∧ (reached.1.server.store.heap 0).isSome = true ∧
      ¬ reached.1.server.store.Settled reached.2 0 := by
  have hexec : ((freeing rpctest).exec (freeing rpctest).init abandonedRun).any
      (fun reached => threeEnded reached.1.server && (reached.1.server.store.heap 0).isSome &&
        reached.2.isEmpty && !(reached.1.server.store.bufs 1).contains 0) = true := by
    decide +kernel
  obtain ⟨reached, hrun, hreached⟩ := System.exists_run_of_exec hexec
  simp only [Bool.and_eq_true, List.isEmpty_iff, Bool.not_eq_true', List.contains_eq_mem,
    decide_eq_false_iff_not] at hreached
  obtain ⟨⟨⟨hended, hcell⟩, hfreed⟩, hfree⟩ := hreached
  obtain ⟨hrest, hclient⟩ := atRest_of_threeEnded hrun rfl hended
  refine ⟨reached, hrun, hrest, hcell, ?_⟩
  rintro (⟨⟨clt, hcount, _⟩, _⟩ | ⟨_, hcount⟩)
  · have hheld : (0 : BufId) ∈ reached.1.server.store.bufs clt :=
      List.count_pos_iff.mp (by omega)
    exact hfree (hclient clt 0 hheld ▸ hheld)
  · rw [hfreed] at hcount
    cases hcount

end Net

end YfsLab.Rpc
