/-
# Who holds the references

The count of a connection, together with the references that have been given back ahead
of time in the middle of a section, is the number of those who hold one: its place in
`conns_` of `tcpsconn`, the entries of the clients, the jobs and the thread in `got_pdu`,
and the jobs that have ended without giving theirs back. Every step keeps this balance.
-/

import YfsLab.Foundations.Holders
import YfsLab.Rpc.References
import YfsLab.Rpc.ServerSteps

namespace YfsLab.Rpc

open BigEndian Holders Poll Transition Wire

/-- The connection of a dispatch that has not come to its end. -/
def Dispatch.working (f : Dispatch) : Option ConnId :=
  if f.stage = .ended then none else some f.conn

/-- The connections of the dispatches at work. -/
def atWork (frames : DispatchId → Option Dispatch) (d : DispatchId) : Option ConnId :=
  (frames d).bind Dispatch.working

theorem atWork_update (frames : DispatchId → Option Dispatch) (d : DispatchId) (f : Dispatch) :
    atWork (Function.update frames d (some f)) =
      Function.update (atWork frames) d f.working := by
  funext e
  by_cases he : e = d
  · subst he
    simp [atWork]
  · simp [atWork, he]

theorem atWork_of_frame {frames : DispatchId → Option Dispatch} {d : DispatchId} {f : Dispatch}
    (hf : frames d = some f) : atWork frames d = f.working := by
  simp [atWork, hf]

theorem Dispatch.working_of_ne {f : Dispatch} (h : f.stage ≠ .ended) :
    f.working = some f.conn := if_neg h

theorem atWork_of_stage {frames : DispatchId → Option Dispatch} {d : DispatchId} {f : Dispatch}
    (hf : frames d = some f) (hstage : f.stage ≠ .ended) : atWork frames d = some f.conn := by
  rw [atWork_of_frame hf, Dispatch.working_of_ne hstage]

namespace Registry

variable {σ : Type} {app : Service σ}

/-! ## What a section does to the dispatches -/

/-- The sections in which the connections of jobs and clients stay what they are. -/
def keepsConns : Server.Label → Bool
  | .receive .. | .connect _ | .select .. => false
  | _ => true

/-- Such a section writes the frame of its dispatch, if it has one. -/
theorem frames_of_step {server target : Server σ} {label : Server.Label}
    (hkeeps : keepsConns label = true) (hstep : server.step app label = some target) :
    target.conns = server.conns ∧
      ((dispatchOf label = none ∧ target.frames = server.frames) ∨
        ∃ d g g', dispatchOf label = some d ∧ server.frames d = some g ∧ g.stage ≠ .ended ∧
          g.stage ≠ .connect ∧ g.stage ≠ .select ∧
          target.frames = Function.update server.frames d (some g') ∧ g'.conn = g.conn) := by
  cases Server.section_of_step hstep with
  | dropped | received | connected | switched | stays => cases hkeeps
  | stirred => exact ⟨rfl, .inl ⟨rfl, rfl⟩⟩
  | @checked d f hf hstage =>
      refine ⟨rfl, .inr ⟨d, f, _, rfl, hf, ?_, ?_, ?_, rfl, ?_⟩⟩
      · simp [hstage]
      · simp [hstage]
      · simp [hstage]
      · cases (server.store.checkduplicateAndUpdate f.request.clt f.request.xid
          f.request.xidRep).2 <;> rfl
  | @waits d f _ _ _ hf hhandles =>
      have hstage := hhandles.stage
      refine ⟨rfl, .inr ⟨d, f, _, ?_, hf, ?_, ?_, ?_, rfl, rfl⟩⟩
      · cases hhandles <;> rfl
      all_goals rcases hstage with hstage | hstage <;> simp [hstage]
  | @returned d f _ _ _ _ _ hf hhandles =>
      have hstage := hhandles.stage
      refine ⟨rfl, .inr ⟨d, f, _, ?_, hf, ?_, ?_, ?_, rfl, rfl⟩⟩
      · cases hhandles <;> rfl
      all_goals rcases hstage with hstage | hstage <;> simp [hstage]
  | @old d f hf hstage | @unregistered d f hf hstage | @vetted d f hf hstage
  | @enrolled d f hf hstage | @recorded d f _ _ hf hstage | @sent d f hf hstage
  | @refused d f _ hf hstage =>
      exact ⟨rfl, .inr ⟨d, f, _, rfl, hf, by simp [hstage], by simp [hstage], by simp [hstage],
        rfl, rfl⟩⟩

/-- A dispatch that comes to its end hands its reference on to the list of those that are
leaving. -/
theorem count_of_step {server target : Server σ} {label : Server.Label}
    (hbounded : Bounded (atWork server.frames)) (hkeeps : keepsConns label = true)
    (hstep : server.step app label = some target) :
    Bounded (atWork target.frames) ∧ ∀ c,
      count (atWork target.frames) c + (exits target label).count c =
        count (atWork server.frames) c := by
  obtain ⟨-, ⟨hnone, hsame⟩ | ⟨d, g, g', hd, hg, hstage, -, -, hframes, hconn⟩⟩ :=
    frames_of_step hkeeps hstep
  · rw [hsame]
    exact ⟨hbounded, fun c => by simp [exits, hnone]⟩
  · have hexits : exits target label =
        (if g'.stage = .ended then some g.conn else none).toList := by
      rw [exits, hd, Option.bind_some, hframes, Function.update_self, Option.bind_some, hconn]
    rw [hframes, atWork_update]
    refine ⟨hbounded.update _ _, fun c => ?_⟩
    have hcount := count_update hbounded d g'.working c
    rw [atWork_of_stage hg hstage, Dispatch.working, hconn] at hcount
    rw [hexits, count_toList, Dispatch.working, hconn]
    split_ifs at hcount ⊢ <;> simp only [one_none] at hcount ⊢ <;> omega

/-! ## The balance -/

/-- The number of those who hold a reference of a connection. -/
noncomputable def held (s : Registry σ) (c : ConnId) : ℕ :=
  s.conns.values.count c + one s.acceptor.ch c + count s.server.conns c +
    count (atWork s.server.frames) c + s.leaving.count c + one s.reader.conn c +
    s.unreturned.count c

/-- The references that have been given back by somebody who still counts. -/
def released (s : Registry σ) (c : ConnId) : ℕ :=
  one s.acceptor.erased c + one (s.swapping.map Prod.snd) c

/-- A dispatch in the middle of a section under `conss_m_`: its client's entry is still the
old connection, or it still has the dead one. -/
def Swapping (s : Registry σ) (d : DispatchId) (c : ConnId) : Prop :=
  ∃ f, s.server.frames d = some f ∧
    ((f.stage = .connect ∧ s.server.conns f.request.clt = some c ∧ c ≠ f.conn) ∨
      (f.stage = .select ∧ f.conn = c ∧
        ∃ latest, s.server.conns f.request.clt = some latest ∧ latest ≠ c))

/-- The counts are balanced. -/
structure Accounted (s : Registry σ) : Prop where
  entries : Bounded s.server.conns
  jobs : Bounded (atWork s.server.frames)
  refno_eq : ∀ c, (s.objs c).refno + released s c = held s c
  swap : ∀ d c, s.swapping = some (d, c) → s.Swapping d c

/-- What is given back in the middle of a section belongs to an entry or to a job. -/
theorem Accounted.one_swapping_le {s : Registry σ} (h : s.Accounted) (c : ConnId) :
    one (s.swapping.map Prod.snd) c ≤
      count s.server.conns c + count (atWork s.server.frames) c := by
  by_cases hc : s.swapping.map Prod.snd = some c
  · obtain ⟨⟨d, c'⟩, hswap, hsame⟩ := Option.map_eq_some_iff.mp hc
    obtain rfl : c' = c := hsame
    refine (one_le _ _).trans ?_
    obtain ⟨f, hf, ⟨-, hentry, -⟩ | ⟨hstage, hconn, -⟩⟩ := h.swap d c' hswap
    · have hpos := count_pos h.entries hentry
      omega
    · have hwork : atWork s.server.frames d = some c' := by
        rw [atWork_of_stage hf (by simp [hstage]), hconn]
      have hpos := count_pos h.jobs hwork
      omega
  · rw [one_of_ne hc]
    omega

theorem objs_incref_of_ne (s : Registry σ) {c₀ c : ConnId} (hc : c ≠ c₀) :
    (s.incref c₀).objs c = s.objs c := Function.update_of_ne hc ..

@[simp]
theorem refno_incref (s : Registry σ) (c₀ c : ConnId) :
    ((s.incref c₀).objs c).refno = (s.objs c).refno + one (some c₀) c := by
  by_cases hc : c = c₀
  · subst hc
    simp [incref, ConnObj.incref]
  · simp [incref, hc, one, Ne.symm hc]

/-- The objects after `decref` of one of them. -/
structure Dropped (before after : ConnId → ConnObj) (c₀ : ConnId) : Prop where
  refno : ∀ c, (after c).refno + one (some c₀) c = (before c).refno
  refno_nonneg : 0 ≤ (after c₀).refno
  fd : ∀ c, (after c).fd = (before c).fd
  dead : ∀ c, (after c).dead = (before c).dead
  others : ∀ c, c ≠ c₀ → after c = before c
  deleted : (after c₀).deleted = true ↔
    (before c₀).deleted = true ∨ ((after c₀).refno = 0 ∧ (before c₀).dead = true)

theorem dropped_of_decref {objs : ConnId → ConnObj} {c₀ : ConnId} {o : ConnObj}
    (hdecref : (objs c₀).decref = some o) : Dropped objs (Function.update objs c₀ o) c₀ := by
  rw [ConnObj.decref] at hdecref
  split_ifs at hdecref with hneg
  obtain rfl := Option.some.inj hdecref
  have hothers : ∀ c, c ≠ c₀ → ∀ o, Function.update objs c₀ o c = objs c :=
    fun c hc o => Function.update_of_ne hc ..
  refine ⟨fun c => ?_, ?_, fun c => ?_, fun c => ?_, fun c hc => hothers c hc _, ?_⟩
  · by_cases hc : c = c₀
    · subst hc
      simp
    · simp [hc, one, Ne.symm hc]
  · simpa using hneg
  · by_cases hc : c = c₀
    · subst hc
      simp
    · rw [hothers c hc]
  · by_cases hc : c = c₀
    · subst hc
      simp
    · rw [hothers c hc]
  · simp

theorem decref_eq_some {s s' : Registry σ} {c₀ : ConnId} (hdecref : s.decref c₀ = some s') :
    ∃ objs, s' = { s with objs := objs } ∧ Dropped s.objs objs c₀ := by
  obtain ⟨o, ho, rfl⟩ := Option.map_eq_some_iff.mp hdecref
  exact ⟨_, rfl, dropped_of_decref ho⟩

/-! ## Where the connections are -/

/-- The entries of `conns_` that `process_accept` has not dealt with. -/
def pending : Acceptor → List (Fd × ConnId)
  | .idle => []
  | .scanning _ todo => todo
  | .found _ entry todo | .collecting _ entry todo | .erasing _ entry todo => entry :: todo

/-- `tcpsconn` has a reference of this connection. -/
def Keeps (s : Registry σ) (c : ConnId) : Prop :=
  s.acceptor.erased ≠ some c ∧ (c ∈ s.conns.values ∨ s.acceptor.ch = some c)

/-- Every connection that `tcpsconn` has a reference of has been made and not been
deleted, and is found under its own descriptor. -/
structure Placed (s : Registry σ) : Prop where
  intact : ∀ c, s.Keeps c → (s.objs c).deleted = false
  entry : ∀ entry ∈ s.conns.1, entry.2 < s.made ∧ (s.objs entry.2).fd = entry.1
  ch_lt : ∀ ch, s.acceptor.ch = some ch → ch < s.made
  nodup : (s.acceptor.ch.toList ++ s.conns.values).Nodup
  pending : (pending s.acceptor).Sublist s.conns.1
  fd_inj : ∀ c c', c < s.made → c' < s.made → (s.objs c).deleted = false →
    (s.objs c').deleted = false → (s.objs c).fd = (s.objs c').fd → c = c'
  fresh : ∀ c, s.made ≤ c → s.objs c = {}

/-- A connection that `tcpsconn` has a reference of is counted. -/
theorem Accounted.refno_pos {s : Registry σ} (h : s.Accounted) {c : ConnId}
    (hkeeps : s.Keeps c) : 0 < (s.objs c).refno := by
  have hrefno := h.refno_eq c
  have hswap := h.one_swapping_le c
  have hplace : 0 < s.conns.values.count c + one s.acceptor.ch c := by
    rcases hkeeps.2 with hmem | hch
    · have := List.count_pos_iff.mpr hmem
      omega
    · rw [hch, one_self]
      omega
  simp only [released, held, one_of_ne hkeeps.1] at hrefno
  omega

/-- A reference that `process_accept` has given back ahead of time is one of `conns_`. -/
theorem Placed.one_erased_le {s : Registry σ} (h : s.Placed) (c : ConnId) :
    one s.acceptor.erased c ≤ s.conns.values.count c := by
  by_cases herased : s.acceptor.erased = some c
  · refine (one_le _ _).trans (List.count_pos_iff.mpr ?_)
    cases hacceptor : s.acceptor with
    | erasing ch entry todo =>
        have hmem := h.pending.subset
        rw [hacceptor] at herased hmem
        obtain rfl : entry.2 = c := Option.some.inj herased
        exact List.mem_map_of_mem (hmem List.mem_cons_self)
    | _ =>
        rw [hacceptor] at herased
        cases herased
  · rw [one_of_ne herased]
    exact Nat.zero_le _

/-- The clients' entries and the jobs are covered by the count, except for the reference
that a dispatch has given back in the middle of a section. -/
theorem Accounted.covered {s : Registry σ} (h : s.Accounted) (hplaced : s.Placed) (c : ConnId) :
    ((count s.server.conns c + count (atWork s.server.frames) c + s.leaving.count c : ℕ) : ℤ) ≤
      (s.objs c).refno + one (s.swapping.map Prod.snd) c := by
  have hrefno := h.refno_eq c
  have herased := hplaced.one_erased_le c
  simp only [released, held] at hrefno
  omega

/-- A connection that a job or a client has is one that has been made. -/
theorem lt_made {s : Registry σ} (h : s.Accounted) (hplaced : s.Placed) {c : ConnId}
    (hswap : s.swapping.map Prod.snd ≠ some c)
    (hheld : 0 < count s.server.conns c + count (atWork s.server.frames) c) : c < s.made := by
  by_contra hge
  have hcovered := h.covered hplaced c
  rw [hplaced.fresh c (Nat.le_of_not_lt hge), one_of_ne hswap] at hcovered
  simp only at hcovered
  omega

/-- Objects may be marked dead, and their counts may change. -/
theorem Placed.objs_congr {s s' : Registry σ} (h : s.Placed)
    (hmade : s'.made = s.made) (hconns : s'.conns = s.conns) (hacceptor : s'.acceptor = s.acceptor)
    (hfd : ∀ c, (s'.objs c).fd = (s.objs c).fd)
    (hdeleted : ∀ c, (s.objs c).deleted = true → (s'.objs c).deleted = true)
    (hintact : ∀ c, s.Keeps c → (s'.objs c).deleted = false)
    (hfresh : ∀ c, s.made ≤ c → s'.objs c = {}) : s'.Placed where
  intact c hkeeps := hintact c (by rwa [Keeps, hacceptor, hconns] at hkeeps)
  entry entry hmem := by
    rw [hconns] at hmem
    rw [hmade, hfd]
    exact h.entry entry hmem
  ch_lt ch hch := by
    rw [hmade]
    exact h.ch_lt ch (hacceptor ▸ hch)
  nodup := by
    rw [hacceptor, hconns]
    exact h.nodup
  pending := by
    rw [hacceptor, hconns]
    exact h.pending
  fd_inj c c' hc hc' halive halive' hsame := by
    have hback : ∀ c, (s'.objs c).deleted = false → (s.objs c).deleted = false :=
      fun c hfalse => by
        by_contra htrue
        rw [hdeleted c (by simpa using htrue)] at hfalse
        cases hfalse
    rw [hmade] at hc hc'
    rw [hfd, hfd] at hsame
    exact h.fd_inj c c' hc hc' (hback c halive) (hback c' halive') hsame
  fresh c hc := hfresh c (hmade ▸ hc)

/-- The objects stay the same. -/
theorem Placed.congr {s s' : Registry σ} (h : s.Placed) (hmade : s'.made = s.made)
    (hobjs : s'.objs = s.objs) (hconns : s'.conns = s.conns)
    (hacceptor : s'.acceptor = s.acceptor) : s'.Placed :=
  h.objs_congr hmade hconns hacceptor (fun c => by rw [hobjs]) (fun c => by rw [hobjs]; exact id)
    (fun c hkeeps => by rw [hobjs]; exact h.intact c hkeeps)
    fun c hc => by rw [hobjs]; exact h.fresh c hc

/-- A reference is taken of a connection that has been made. -/
theorem Placed.incref {s s' : Registry σ} (h : s.Placed) {c₀ : ConnId} (hc₀ : c₀ < s.made)
    (hmade : s'.made = s.made) (hobjs : s'.objs = (s.incref c₀).objs)
    (hconns : s'.conns = s.conns) (hacceptor : s'.acceptor = s.acceptor) : s'.Placed := by
  have hsame : ∀ c, (s'.objs c).fd = (s.objs c).fd ∧ (s'.objs c).deleted = (s.objs c).deleted := by
    intro c
    rw [hobjs]
    by_cases hc : c = c₀
    · subst hc
      simp [Registry.incref, ConnObj.incref]
    · simp [Registry.incref, hc]
  refine h.objs_congr hmade hconns hacceptor (fun c => (hsame c).1)
    (fun c hdel => (hsame c).2.trans hdel) (fun c hkeeps => (hsame c).2.trans (h.intact c hkeeps))
    fun c hc => ?_
  rw [hobjs, ← h.fresh c hc]
  exact Function.update_of_ne (Nat.lt_of_lt_of_le hc₀ hc).ne' ..

/-- A reference is given back, and the balance that is left says that it was not the last
one of a connection that `tcpsconn` keeps. -/
theorem Placed.dropped {s s' : Registry σ} (h : s.Placed) {c₀ : ConnId}
    (hdropped : Dropped s.objs s'.objs c₀) (haccounted : s'.Accounted)
    (hmade : s'.made = s.made) (hconns : s'.conns = s.conns)
    (hacceptor : s'.acceptor = s.acceptor) : s'.Placed := by
  refine h.objs_congr hmade hconns hacceptor hdropped.fd (fun c hdel => ?_) (fun c hkeeps => ?_)
    fun c hc => ?_
  · by_cases hc : c = c₀
    · subst hc
      exact hdropped.deleted.mpr (.inl hdel)
    · rw [hdropped.others c hc]
      exact hdel
  · by_cases hc : c = c₀
    · subst hc
      have hpos := haccounted.refno_pos (by rwa [Keeps, hacceptor, hconns])
      by_contra hdel
      rcases hdropped.deleted.mp (by simpa using hdel) with hbefore | ⟨hzero, -⟩
      · rw [h.intact c hkeeps] at hbefore
        cases hbefore
      · omega
    · rw [hdropped.others c hc]
      exact h.intact c hkeeps
  · have hne : c ≠ c₀ := by
      rintro rfl
      have hrefno := hdropped.refno c
      have hnonneg := hdropped.refno_nonneg
      rw [h.fresh c hc, one_self] at hrefno
      simp only [Nat.cast_one] at hrefno
      omega
    rw [hdropped.others c hne]
    exact h.fresh c hc

end Registry

/-! ## Deletions -/

/-- The objects after a reference has been given back, if there is one. -/
structure Given (before after : ConnId → ConnObj) (o : Option ConnId) : Prop where
  refno : ∀ c, (after c).refno + one o c = (before c).refno
  nonneg : ∀ c, o = some c → 0 ≤ (after c).refno
  dead : ∀ c, (after c).dead = (before c).dead
  deleted : ∀ c, (after c).deleted = true ↔ (before c).deleted = true ∨
    (o = some c ∧ (after c).refno = 0 ∧ (before c).dead = true)
  others : ∀ c, o ≠ some c → after c = before c

theorem Given.none (objs : ConnId → ConnObj) : Given objs objs none :=
  ⟨by simp, nofun, fun _ => rfl, by simp, fun _ _ => rfl⟩

theorem given_of_dropped {before after : ConnId → ConnObj} {c₀ : ConnId}
    (h : Registry.Dropped before after c₀) : Given before after (some c₀) := by
  refine ⟨h.refno, ?_, h.dead, fun c => ?_, fun c hc => h.others c ?_⟩
  · intro c hc
    obtain rfl := Option.some.inj hc
    exact h.refno_nonneg
  · by_cases hc : c = c₀
    · subst hc
      simpa using h.deleted
    · rw [h.others c hc]
      simp [Ne.symm hc]
  · rintro rfl
    exact hc rfl

/-- The log has every connection that has been deleted, and it has it once. -/
structure Deletions (objs : ConnId → ConnObj) (log : List ConnId) : Prop where
  mem_iff : ∀ c, c ∈ log ↔ (objs c).deleted = true
  nodup : log.Nodup

theorem deletions_start : Deletions (fun _ => {}) [] := ⟨by simp, List.nodup_nil⟩

/-- The connection that `decref` deletes is added to the log. -/
theorem Deletions.record {objs after : ConnId → ConnObj} {log : List ConnId} {o : Option ConnId}
    (h : Deletions objs log) (hlive : ∀ c, (objs c).deleted = true → (objs c).refno = 0)
    (hgiven : Given objs after o ∨
      (o = none ∧ ∀ c, (after c).deleted = (objs c).deleted)) :
    Deletions after
      (log ++ (o.filter fun c => (objs c).refno - 1 == 0 && (objs c).dead).toList) := by
  have hmem : ∀ c, c ∈ (o.filter fun c => (objs c).refno - 1 == 0 && (objs c).dead).toList ↔
      o = some c ∧ (objs c).refno = 1 ∧ (objs c).dead = true := by
    intro c
    have hone : (objs c).refno - 1 = 0 ↔ (objs c).refno = 1 := by omega
    simp [Option.filter_eq_some_iff, hone]
  refine ⟨fun c => ?_, List.nodup_append.mpr ⟨h.nodup, ?_, ?_⟩⟩
  · rw [List.mem_append, h.mem_iff, hmem]
    rcases hgiven with hgiven | ⟨hnone, hsame⟩
    · rw [hgiven.deleted]
      refine or_congr_right (and_congr_right fun hgives => and_congr_left fun _ => ?_)
      have hcount := hgiven.refno c
      rw [hgives, one_self] at hcount
      omega
    · simp [hnone, hsame]
  · cases o.filter fun c => (objs c).refno - 1 == 0 && (objs c).dead <;> simp
  · rintro c hold _ hnew rfl
    have hzero := hlive c ((h.mem_iff c).mp hold)
    obtain ⟨-, hone, -⟩ := (hmem c).mp hnew
    omega

end YfsLab.Rpc
