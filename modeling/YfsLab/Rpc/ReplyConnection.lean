/-
# The connection that a reply goes out on

The connection of a request may die while its handler runs, and in the meantime another
dispatch may have saved a newer connection of the same client. So `dispatch` looks again
behind its handler, under `conss_m_`: if its connection is dead it goes on with the one
in the table, and takes a reference of that one for its own.

The table has an entry for a client from the first of its requests on, and the entry
holds a reference, unless the client uses the nonce 0. Such a client is not in the table:
when its connection has died, the lookup makes an entry with a null pointer, on which
`incref` is called next.
-/

import YfsLab.Rpc.Answers
import YfsLab.Rpc.Collection

namespace YfsLab.Rpc

open BigEndian Holders Poll Transition Wire

namespace Server

variable {σ : Type} {app : Service σ}

/-! ## The table of the latest connections -/

/-- The stages behind the section that saves the connection. -/
def saved : Stage → Bool
  | .check => true
  | stage => passed stage

/-- There is no entry for the nonce 0, and one for every other client from the section on
that saves its connection. -/
structure Tabled (s : Server σ) : Prop where
  zero : s.conns 0 = none
  known : ∀ d f, s.frames d = some f → knows f.stage = true → f.request.clt ≠ 0
  entry : ∀ d f, s.frames d = some f → saved f.stage = true → f.request.clt ≠ 0 →
    s.conns f.request.clt ≠ none

/-- A section that writes the frame of a dispatch and lets the table grow. -/
theorem Tabled.entry_put {s base : Server σ} (h : s.Tabled) {d e : DispatchId} {f g : Dispatch}
    (hf : (base.put e g).frames d = some f) (hframes : base.frames = s.frames)
    (hgrows : ∀ clt, s.conns clt ≠ none → base.conns clt ≠ none)
    (hg : saved g.stage = true → g.request.clt ≠ 0 → base.conns g.request.clt ≠ none)
    (hsaved : saved f.stage = true) (hclt : f.request.clt ≠ 0) :
    (base.put e g).conns f.request.clt ≠ none := by
  rcases frames_put_eq_some.mp hf with ⟨-, rfl⟩ | ⟨-, hold⟩
  · exact hg hsaved hclt
  · exact hgrows _ (h.entry d f (hframes ▸ hold) hsaved hclt)

/-- Behind the section that saves the connection, the dispatch stays there. -/
theorem Tabled.of_section {s target : Server σ} {label : Label} (h : s.Tabled)
    (hsection : Section app s label target) : target.Tabled := by
  refine ⟨?_, fun d f hf hknows => known_of_section hsection h.known hf hknows,
    fun d f hf hsaved hclt => ?_⟩
  · cases hsection with
    | @connected d f hf hstage =>
        have hclt := h.known d f hf (by rw [hstage]; rfl)
        exact (Function.update_of_ne hclt.symm ..).trans h.zero
    | _ => exact h.zero
  · cases hsection with
    | dropped | stirred => exact h.entry d f hf hsaved hclt
    | @connected e g hg hstage =>
        refine h.entry_put hf rfl (fun clt hentry => ?_) (fun _ _ => ?_) hsaved hclt
        · by_cases hsame : clt = g.request.clt
          · subst hsame
            simp
          · simpa only [Function.update_of_ne hsame] using hentry
        · simp
    | @checked e g hg hstage =>
        refine h.entry_put hf rfl (fun _ => id) (fun _ hne => ?_) hsaved hclt
        rw [follow_request] at hne ⊢
        exact h.entry e g hg (by rw [hstage]; rfl) hne
    | @vetted e g hg hstage =>
        refine h.entry_put hf rfl (fun _ => id) (fun hnext hne => ?_) hsaved hclt
        dsimp only at hnext hne
        rw [if_neg hne] at hnext
        cases hnext
    | @waits e g _ _ _ hg hhandles | @returned e g _ _ _ _ _ hg hhandles =>
        refine h.entry_put hf rfl (fun _ => id) (fun _ hne => h.entry e g hg ?_ hne) hsaved hclt
        rcases hhandles.stage with hstage | hstage <;> rw [hstage] <;> rfl
    | @recorded e g _ _ hg hstage | @switched e g _ hg hstage | @stays e g _ hg hstage =>
        exact h.entry_put hf rfl (fun _ => id)
          (fun _ hne => h.entry e g hg (by rw [hstage]; rfl) hne) hsaved hclt
    | received | old | unregistered | enrolled | sent | refused =>
        exact h.entry_put hf rfl (fun _ => id) (fun hnext => by cases hnext) hsaved hclt

end Server

namespace Registry

variable {σ : Type} {app : Service σ} {s s' : Registry σ}

theorem tabled_of_run {nonce : UInt32} {guard : Registry σ → Label → Prop} {labels : List Label}
    {reached : Registry σ} (hrun : (system app nonce).Run guard labels reached) :
    reached.server.Tabled := by
  refine hrun.invariant (fun s => s.server.Tabled)
    ⟨rfl, (fun d f hf => by cases hf), fun d f hf => by cases hf⟩ ?_
  intro labels source label target hprior h _ hstep
  rcases server_of_step (accounted_of_run hprior).1 hstep with ⟨hsame, -⟩ | ⟨l, hserver, -⟩
  · rwa [hsame]
  · exact h.of_section (Server.section_of_step hserver)

/-! ## Connections that are there -/

/-- Nobody counts for a connection that has been deleted. -/
def Live (s : Registry σ) : Prop := ∀ c, (s.objs c).deleted = true → (s.objs c).refno = 0

/-- A connection that is there, with a reference of somebody. -/
structure Referenced (s : Registry σ) (c : ConnId) : Prop where
  made : c < s.made
  intact : (s.objs c).deleted = false
  refno_pos : 0 < (s.objs c).refno

theorem Live.referenced (h : s.Live) (hplaced : s.Placed) {c : ConnId}
    (hpos : 0 < (s.objs c).refno) : s.Referenced c := by
  refine ⟨?_, ?_, hpos⟩
  · by_contra hge
    rw [hplaced.fresh c (Nat.le_of_not_lt hge)] at hpos
    exact lt_irrefl _ hpos
  · by_contra hdeleted
    have hzero := h c (by simpa using hdeleted)
    omega

/-- A client's entry or a job that has not given its reference back keeps its connection
there. -/
theorem Live.referenced_of_held (h : s.Live) (haccounted : s.Accounted) (hplaced : s.Placed)
    {c : ConnId} (hswap : s.swapping.map Prod.snd ≠ some c)
    (hheld : 0 < count s.server.conns c + count (atWork s.server.frames) c) :
    s.Referenced c := by
  have hcovered := haccounted.covered hplaced c
  rw [one_of_ne hswap] at hcovered
  exact h.referenced hplaced (by omega)

theorem Live.touches (h : s.Live) (haccounted : s.Accounted) (hplaced : s.Placed)
    {objs : ConnId → ConnObj} (htouches : Touches s objs) (c : ConnId)
    (hdeleted : (objs c).deleted = true) : (objs c).refno = 0 := by
  cases htouches with
  | same => exact h c hdeleted
  | @taken c₀ hthere =>
      by_cases hc : c = c₀
      · subst hc
        have hintact : (s.objs c).deleted = false := by
          rcases hthere with hintact | ⟨hswap, hheld⟩
          · exact hintact
          · exact (h.referenced_of_held haccounted hplaced hswap hheld).intact
        simp [incref, ConnObj.incref, hintact] at hdeleted
      · rw [objs_incref_of_ne s hc] at hdeleted ⊢
        exact h c hdeleted
  | @given c₀ _ hdropped =>
      by_cases hc : c = c₀
      · subst hc
        rcases hdropped.deleted.mp hdeleted with hbefore | ⟨hzero, -⟩
        · have hrefno := hdropped.refno c
          have hnonneg := hdropped.refno_nonneg
          rw [h c hbefore, one_self] at hrefno
          simp only [Nat.cast_one] at hrefno
          omega
        · exact hzero
      · rw [hdropped.others c hc] at hdeleted ⊢
        exact h c hdeleted
  | @died c₀ =>
      by_cases hc : c = c₀
      · subst hc
        rw [Function.update_self] at hdeleted ⊢
        exact h c hdeleted
      · rw [Function.update_of_ne hc] at hdeleted ⊢
        exact h c hdeleted
  | made =>
      by_cases hc : c = s.made
      · subst hc
        rw [Function.update_self] at hdeleted
        cases hdeleted
      · rw [Function.update_of_ne hc] at hdeleted ⊢
        exact h c hdeleted

theorem live_of_run {nonce : UInt32} {guard : Registry σ → Label → Prop} {labels : List Label}
    {reached : Registry σ} (hrun : (system app nonce).Run guard labels reached) :
    reached.Live := by
  refine hrun.invariant Live (fun c hdeleted => by cases hdeleted) ?_
  intro labels source label target hprior h _ hstep
  obtain ⟨haccounted, hplaced⟩ := accounted_of_run hprior
  exact h.touches haccounted hplaced (touches_of_step haccounted hstep).1

/-! ## The look for the latest connection -/

/-- The connection that `dispatch` goes on with behind its handler: the one in the table,
if its own one is dead and a different one. It is null if the table has none. -/
def replyConn (s : Registry σ) (d : DispatchId) (f : Dispatch) : Option ConnId :=
  if s.swapping = some (d, f.conn) ∨
      (s.objs f.conn).dead ∧ s.server.conns f.request.clt ≠ some f.conn then
    s.server.conns f.request.clt
  else some f.conn

/-- A dispatch has `conss_m_`, or nobody has it. -/
def CanLock (s : Registry σ) (d : DispatchId) : Prop := ∀ e c, s.swapping = some (e, c) → e = d

/-- The connection that a dispatch has a reference of: none in the middle of the section
in which it changes from one to another. -/
def holding (s : Registry σ) (d : DispatchId) : Option ConnId :=
  (s.server.frames d).bind fun f =>
    if f.stage = .select ∧ s.swapping = some (d, f.conn) then none else f.working

/-- The section goes on with this connection. -/
theorem replyConn_of_select (h : s.Accounted) {d : DispatchId}
    (hstep : s.select app d = some s') :
    ∃ f c, s.server.frames d = some f ∧ s.replyConn d f = some c ∧
      s'.server.frames d = some { f with conn := c, stage := .send } := by
  obtain ⟨f, hf, hstage, ⟨latest, hswap, hlatest, hne, rfl⟩ | ⟨hfree, rfl⟩⟩ :=
    select_cases h hstep
  · refine ⟨f, latest, hf, ?_, Function.update_self ..⟩
    rw [replyConn, if_pos (.inl hswap), hlatest]
  · refine ⟨f, f.conn, hf, if_neg ?_, Function.update_self ..⟩
    rintro (hswap | ⟨hdead, hne⟩)
    · rw [hfree] at hswap
      cases hswap
    · simp [select, hf, hfree, hdead, hne] at hstep

/-- There is no such step if the connection is null: `incref` is called on it. -/
theorem stuck_of_null (app : Service σ) {d : DispatchId} {f : Dispatch}
    (hf : s.server.frames d = some f) (hfree : s.swapping = none) (hnull : s.replyConn d f = none) :
    s.select app d = none ∧ s.release d = none := by
  have hswitch : (s.objs f.conn).dead = true ∧ s.server.conns f.request.clt ≠ some f.conn := by
    by_contra hstays
    rw [replyConn, if_neg (by simpa [hfree] using hstays)] at hnull
    cases hnull
  rw [replyConn, if_pos (.inr hswitch)] at hnull
  simp [select, release, hf, hfree, hswitch.1, hnull]

theorem holding_of_frame {d : DispatchId} {f : Dispatch} (hf : s.server.frames d = some f)
    (hstage : f.stage ≠ .select) : s.holding d = f.working := by
  rw [holding, hf, Option.bind_some, if_neg (fun hselect => hstage hselect.1)]

/-- Every dispatch has what it works on, unless it is the one in the middle of the
section. -/
theorem holding_cases (h : s.Accounted) :
    (s.holding = atWork s.server.frames ∧
        ∀ c, one (s.swapping.map Prod.snd) c ≤ count s.server.conns c) ∨
      ∃ d c, s.swapping = some (d, c) ∧ atWork s.server.frames d = some c ∧
        s.holding = Function.update (atWork s.server.frames) d none := by
  cases hswap : s.swapping with
  | none =>
      refine .inl ⟨?_, by simp⟩
      funext e
      simp only [holding, hswap, reduceCtorEq, and_false, if_false]
      rfl
  | some pair =>
      obtain ⟨d, c₀⟩ := pair
      obtain ⟨f, hf, hcases⟩ := h.swap d c₀ hswap
      have hothers : ∀ e, e ≠ d → s.holding e = atWork s.server.frames e := by
        intro e he
        simp only [holding, atWork, hswap, Option.some.injEq, Prod.mk.injEq, Ne.symm he,
          false_and, and_false, if_false]
      rcases hcases with ⟨hstage, hentry, -⟩ | ⟨hstage, rfl, -⟩
      · refine .inl ⟨?_, fun c => ?_⟩
        · funext e
          by_cases he : e = d
          · subst he
            rw [holding_of_frame hf (by simp [hstage]), atWork_of_frame hf]
          · exact hothers e he
        · by_cases hc : c₀ = c
          · subst hc
            exact (one_le _ _).trans (count_pos h.entries hentry)
          · simp [one_some_of_ne hc]
      · refine .inr ⟨d, f.conn, rfl, ?_, ?_⟩
        · exact atWork_of_stage hf (by simp [hstage])
        · funext e
          by_cases he : e = d
          · subst he
            simp [holding, hf, hstage, hswap]
          · rw [hothers e he, Function.update_of_ne he]

theorem bounded_holding (h : s.Accounted) : Bounded s.holding := by
  rcases holding_cases h with ⟨heq, -⟩ | ⟨d, c, -, -, heq⟩
  · exact heq ▸ h.jobs
  · exact heq ▸ h.jobs.update d none

/-- The count of a connection has a reference for each job that has one. -/
theorem holding_covered (h : s.Accounted) (hplaced : s.Placed) (c : ConnId) :
    ((count s.holding c + s.leaving.count c : ℕ) : ℤ) ≤ (s.objs c).refno := by
  have hcovered := h.covered hplaced c
  rcases holding_cases h with ⟨heq, hentries⟩ | ⟨d, c₀, hswap, hwork, heq⟩
  · have hentry := hentries c
    rw [heq]
    omega
  · have hcount := count_update h.jobs d none c
    rw [← heq, hwork, one_none] at hcount
    simp only [hswap, Option.map_some] at hcovered
    omega

/-- The table has a connection for a client, and it is there, unless the section of
another dispatch is at work on it. -/
theorem referenced_entry (h : s.Accounted) (hplaced : s.Placed) (hlive : s.Live)
    {d : DispatchId} {f : Dispatch} (hf : s.server.frames d = some f) (hstage : f.stage = .select)
    (hlock : s.CanLock d) {latest : ConnId} (hlatest : s.server.conns f.request.clt = some latest)
    (hne : latest ≠ f.conn) : s.Referenced latest := by
  have hpos := count_pos h.entries hlatest
  refine hlive.referenced_of_held h hplaced (fun hgiven => ?_) (by omega)
  obtain ⟨⟨e, c⟩, hswap, rfl⟩ := Option.map_eq_some_iff.mp hgiven
  obtain rfl := hlock e c hswap
  obtain ⟨g, hg, ⟨hconnect, -⟩ | ⟨-, hconn, -⟩⟩ := h.swap e c hswap
  · obtain rfl := Option.some.inj (hf.symm.trans hg)
    rw [hstage] at hconnect
    cases hconnect
  · obtain rfl := Option.some.inj (hf.symm.trans hg)
    exact hne hconn.symm

/-- Behind its handler, a dispatch finds a connection that is there if and only if its own
one is alive or its client does not use the nonce 0, and goes on with it. Wherever it is
between the section and its end, it has a reference of the connection that it has. -/
theorem replyConnection {nonce : UInt32} {labels : List Label} {reached : Registry σ}
    (hrun : (system app nonce).Run anyStep labels reached) :
    (∀ d f, reached.server.frames d = some f → f.stage = .select → reached.CanLock d →
        ((∃ c, reached.replyConn d f = some c ∧ reached.Referenced c) ↔
          ¬ (f.request.clt = 0 ∧ (reached.objs f.conn).dead = true))) ∧
      (∀ d f, reached.server.frames d = some f → f.stage = .send →
        reached.holding d = some f.conn ∧ reached.Referenced f.conn) ∧
      (∀ c ∈ reached.leaving, reached.Referenced c) ∧
      (∀ c, ((count reached.holding c + reached.leaving.count c : ℕ) : ℤ) ≤
        (reached.objs c).refno) ∧
      ∀ d target, reached.select app d = some target →
        ∃ f c, reached.server.frames d = some f ∧ reached.replyConn d f = some c ∧
          target.server.frames d = some { f with conn := c, stage := .send } := by
  obtain ⟨haccounted, hplaced⟩ := accounted_of_run hrun
  have htabled := tabled_of_run hrun
  have hlive := live_of_run hrun
  have hcovered := holding_covered haccounted hplaced
  refine ⟨fun d f hf hstage hlock => ⟨?_, fun hcond => ?_⟩, fun d f hf hstage => ?_,
    fun c hmem => ?_, hcovered, fun d target => replyConn_of_select haccounted⟩
  · rintro ⟨c, hconn, -⟩ ⟨hclt, hdead⟩
    have hnone : reached.server.conns f.request.clt = none := hclt ▸ htabled.zero
    rw [replyConn, if_pos (.inr ⟨hdead, by simp [hnone]⟩), hnone] at hconn
    cases hconn
  · rw [replyConn]
    split_ifs with hswitch
    · obtain ⟨latest, hlatest, hne⟩ : ∃ latest,
          reached.server.conns f.request.clt = some latest ∧ latest ≠ f.conn := by
        rcases hswitch with hswap | ⟨hdead, hother⟩
        · obtain ⟨g, hg, ⟨-, -, hne⟩ | ⟨-, -, hentry⟩⟩ := haccounted.swap d f.conn hswap
          · obtain rfl := Option.some.inj (hf.symm.trans hg)
            exact absurd rfl hne
          · obtain rfl := Option.some.inj (hf.symm.trans hg)
            exact hentry
        · have hentry := htabled.entry d f hf (by rw [hstage]; rfl) fun hclt => hcond ⟨hclt, hdead⟩
          obtain ⟨latest, hlatest⟩ := Option.ne_none_iff_exists'.mp hentry
          exact ⟨latest, hlatest, fun hsame => hother (hsame ▸ hlatest)⟩
      exact ⟨latest, hlatest,
        referenced_entry haccounted hplaced hlive hf hstage hlock hlatest hne⟩
    · have hpos := count_pos haccounted.jobs (atWork_of_stage hf (by simp [hstage]))
      refine ⟨f.conn, rfl,
        hlive.referenced_of_held haccounted hplaced (fun hgiven => ?_) (by omega)⟩
      obtain ⟨⟨e, c⟩, hswap, hsame⟩ := Option.map_eq_some_iff.mp hgiven
      obtain rfl : c = f.conn := hsame
      obtain rfl := hlock e _ hswap
      exact hswitch (.inl hswap)
  · have hholding : reached.holding d = some f.conn := by
      rw [holding_of_frame hf (by simp [hstage]), Dispatch.working_of_ne (by simp [hstage])]
    have hpos := count_pos (bounded_holding haccounted) hholding
    have hcount := hcovered f.conn
    exact ⟨hholding, hlive.referenced hplaced (by omega)⟩
  · have hpos := List.count_pos_iff.mpr hmem
    have hcount := hcovered c
    exact hlive.referenced hplaced (by omega)

/-- A client binds, and its connection dies while the handler runs. It sends the request
again on another one, which the second dispatch saves. -/
def savedRun : List Label :=
  [.accept 5, .insert, .gotPdu 0 (bindCall 0), .addJob 0 true, .dispatch (.vet 0),
    .dispatch (.enroll 0), .dispatch (.connect 0), .dispatch (.check 0), .die 0,
    .accept 6, .isdead, .ref, .insert, .gotPdu 1 (bindCall 0), .addJob 1 true,
    .dispatch (.vet 1), .dispatch (.enroll 1), .release 1, .dispatch (.connect 1),
    .dispatch (.enter 0 0 fun _ => 0), .dispatch (.record 0)]

/-- Where a dispatch stands behind its handler, with a connection that is dead. -/
def standsDead (s : Registry σ) (d : DispatchId) : Bool :=
  (s.server.frames d).any fun f =>
    decide (f.stage = .select) && (s.objs f.conn).dead && s.swapping.isNone

theorem standsDead_iff {d : DispatchId} : s.standsDead d = true ↔
    ∃ f, s.server.frames d = some f ∧ f.stage = .select ∧ (s.objs f.conn).dead = true ∧
      s.swapping = none := by
  simp [standsDead, Option.any_eq_true, and_assoc]

theorem CanLock.of_free (hfree : s.swapping = none) (d : DispatchId) : s.CanLock d := by
  intro e c hswap
  rw [hfree] at hswap
  cases hswap

theorem replyConnection_saved :
    ∃ reached f c, (system handleFast 9).Run anyStep savedRun reached ∧
      reached.server.frames 0 = some f ∧ (reached.objs f.conn).dead = true ∧
      reached.replyConn 0 f = some c ∧ reached.Referenced c := by
  have hexec : ((system handleFast 9).exec (system handleFast 9).init savedRun).any
      (fun s => s.standsDead 0 && (s.server.frames 0).any fun f => f.request.clt != 0) = true := by
    decide +kernel
  obtain ⟨reached, hrun, htest⟩ := System.exists_run_of_exec hexec
  obtain ⟨hstands, hany⟩ := Bool.and_eq_true_iff.mp htest
  obtain ⟨f, hf, hstage, hdead, hfree⟩ := standsDead_iff.mp hstands
  have hclt : f.request.clt ≠ 0 := by simpa [hf] using hany
  obtain ⟨c, hconn, hreferenced⟩ :=
    ((replyConnection hrun).1 0 f hf hstage (.of_free hfree 0)).mpr fun hnot => hclt hnot.1
  exact ⟨reached, f, c, hrun, hf, hdead, hconn, hreferenced⟩

/-- The PDU of a call of `bind` by a client that does not retransmit. -/
def plainBindCall : Bytes :=
  Request.pdu
    { header := { xid := 1, proc := 1, cltNonce := 0, srvNonce := 0, xidRep := 0 }
      args := be32 0 }

/-- Such a client binds, and its connection dies while the handler runs. -/
def plainRun : List Label :=
  [.accept 5, .insert, .gotPdu 0 plainBindCall, .addJob 0 true, .dispatch (.vet 0), .die 0,
    .dispatch (.enter 0 0 fun _ => 0)]

/-- The dispatch goes on with a null pointer: its own reference is given back, and there
is nothing that `incref` could be called on. -/
theorem plainClient_getsNull :
    ∃ reached f, (system handleFast 9).Run anyStep plainRun reached ∧
      reached.server.frames 0 = some f ∧ f.stage = .select ∧ f.request.clt = 0 ∧
      reached.CanLock 0 ∧ reached.replyConn 0 f = none ∧
      reached.select handleFast 0 = none ∧ reached.release 0 = none := by
  have hexec : ((system handleFast 9).exec (system handleFast 9).init plainRun).any
      (fun s => s.standsDead 0 && (s.server.frames 0).any fun f =>
        f.request.clt == 0 && (s.replyConn 0 f).isNone) = true := by
    decide +kernel
  obtain ⟨reached, hrun, htest⟩ := System.exists_run_of_exec hexec
  obtain ⟨hstands, hany⟩ := Bool.and_eq_true_iff.mp htest
  obtain ⟨f, hf, hstage, -, hfree⟩ := standsDead_iff.mp hstands
  obtain ⟨hclt, hnull⟩ : f.request.clt = 0 ∧ reached.replyConn 0 f = none := by
    simpa [hf] using hany
  obtain ⟨hselect, hrelease⟩ := stuck_of_null handleFast hf hfree hnull
  exact ⟨reached, f, hrun, hf, hstage, hclt, .of_free hfree 0, hnull, hselect, hrelease⟩

end Registry

end YfsLab.Rpc
