/-
# What the end of the server leaves behind

When `~rpcs` returns, all connections are dead, `conns_` of `tcpsconn` has been passed
and all jobs have ended. The references that are left are those of the entries of the
clients, which `~rpcs` does not give back, and of the jobs that have ended without giving
theirs back. So all connections have been deleted if and only if no job has left a
reference behind.
-/

import YfsLab.Rpc.LeftReferences
import YfsLab.Rpc.LiveConnections

namespace YfsLab.Rpc

open BigEndian Holders Poll Transition Wire

variable {σ : Type} {app : Service σ}

namespace Registry

variable {s s' : Registry σ}

/-- What holds of the server's connections at any time. -/
structure Sound (app : Service σ) (s : Registry σ) : Prop where
  accounted : s.Accounted
  placed : s.Placed
  live : s.Live
  attended : s.Attended
  gone : s.Gone
  left : s.Left app

theorem sound_start (nonce : UInt32) : Sound app { server := Server.start app nonce } := by
  have hstart : (system app nonce).Run anyStep [] (system app nonce).init := .start
  obtain ⟨haccounted, hplaced⟩ := accounted_of_run hstart
  refine ⟨haccounted, hplaced, nofun, ⟨fun c hwanted => ?_, nofun, nofun⟩,
    fun c hc => absurd hc (Nat.not_lt_zero c), Server.traced_start nonce, nofun,
    fun hsome => absurd rfl hsome⟩
  rcases hwanted with ⟨hc, -⟩ | hreader
  · exact absurd hc (Nat.not_lt_zero c)
  · cases hreader

theorem Sound.step (h : s.Sound app) {label : Label} (hstep : s.step app label = some s') :
    s'.Sound app := by
  obtain ⟨haccounted, hplaced⟩ := accounted_step ⟨h.accounted, h.placed⟩ hstep
  have hattended := h.attended.step h.accounted h.placed hstep
  exact ⟨haccounted, hplaced,
    h.live.touches h.accounted h.placed (touches_of_step h.accounted hstep).1, hattended,
    h.gone.step h.accounted h.placed hstep haccounted hattended, h.left.step h.accounted hstep⟩

/-! ## The loop of `~tcpsconn` -/

/-- The connection at the head of `conns_` is passed, and its reference is given back. -/
def pass (s : Registry σ) (entry : Fd × ConnId) (objs : ConnId → ConnObj) : Registry σ :=
  { s with objs := objs, conns := s.conns.erase entry.1 }

variable {entry : Fd × ConnId} {objs : ConnId → ConnObj}

theorem Accounted.pass (h : s.Accounted) (hmem : entry ∈ s.conns.1)
    (hdropped : Dropped s.objs objs entry.2) : (s.pass entry objs).Accounted := by
  refine ⟨h.entries, h.jobs, fun c => ?_, h.swap⟩
  have hrefno := h.refno_eq c
  have hcount := (SortedMap.values_perm_erase hmem).count_eq c
  have hone := hdropped.refno c
  rw [count_cons] at hcount
  simp only [released, held, Registry.pass] at hrefno ⊢
  omega

/-- The entry is gone, and nothing else has changed. -/
theorem Placed.erased (h : s.Placed) (hidle : s.acceptor = .idle) (key : Fd) :
    Placed { s with conns := s.conns.erase key } := by
  have hsub : ∀ {other}, other ∈ (s.conns.erase key).1 → other ∈ s.conns.1 :=
    fun hother => (SortedMap.mem_erase.mp hother).1
  have hsublist : (s.conns.erase key).values.Sublist s.conns.values :=
    List.Sublist.map _ List.filter_sublist
  refine ⟨fun c hkeeps => h.intact c ⟨hkeeps.1, hkeeps.2.imp_left fun hc => hsublist.subset hc⟩,
    fun other hother => h.entry other (hsub hother), h.ch_lt,
    h.nodup.sublist (List.Sublist.append_left hsublist _), ?_, h.fd_inj, h.fresh⟩
  rw [hidle]
  exact List.nil_sublist _

theorem Attended.pass (h : s.Attended) (hidle : s.acceptor = .idle) (hmem : entry ∈ s.conns.1)
    (hunwanted : ¬ s.Wanted entry.2) (hdropped : Dropped s.objs objs entry.2) :
    (s.pass entry objs).Attended := by
  have hacceptor : (s.pass entry objs).acceptor = .idle := hidle
  refine ⟨fun c hc => ⟨by simp [hacceptor, Acceptor.erased], .inl ?_⟩, ?_, ?_⟩
  · have hwanted : s.Wanted c :=
      hc.imp_left (And.imp_right (hdropped.dead c).symm.trans)
    have hne : c ≠ entry.2 := fun hsame => hunwanted (hsame ▸ hwanted)
    rcases (h.keeps c hwanted).2 with hvalue | hch
    · have hback := (SortedMap.values_perm_erase hmem).mem_iff.mp hvalue
      exact (List.mem_cons.mp hback).resolve_left hne
    · rw [hidle] at hch
      cases hch
  · rw [hacceptor]
    simp [Acceptor.doomed]
  · rw [hacceptor]
    simp

theorem Sound.pass (h : s.Sound app) (hidle : s.acceptor = .idle) (hmem : entry ∈ s.conns.1)
    (hunwanted : ¬ s.Wanted entry.2) (hdropped : Dropped s.objs objs entry.2) :
    (s.pass entry objs).Sound app := by
  have haccounted := h.accounted.pass hmem hdropped
  have hattended := h.attended.pass hidle hmem hunwanted hdropped
  exact ⟨haccounted, (h.placed.erased hidle entry.1).dropped hdropped haccounted rfl rfl rfl,
    h.live.touches h.accounted h.placed (.given hdropped), hattended,
    h.gone.dropped hdropped rfl haccounted hattended, h.left.traced, h.left.kept, h.left.left⟩

/-- The reply window plays no part in any of this. -/
theorem Sound.store (h : s.Sound app) (store : ReplyStore) :
    Sound app { s with server := { s.server with store := store } } := by
  obtain ⟨htabled, hhandled, hold, hrefused, hjoined, hentry⟩ := h.left.traced
  exact ⟨⟨h.accounted.entries, h.accounted.jobs, h.accounted.refno_eq, h.accounted.swap⟩,
    h.placed.congr rfl rfl rfl rfl, h.live, ⟨h.attended.keeps, h.attended.dead, h.attended.unread⟩,
    h.gone, ⟨⟨htabled.zero, htabled.known, htabled.entry⟩, hhandled, hold, hrefused, hjoined,
      hentry⟩, h.left.kept, h.left.left⟩

end Registry

namespace Shutdown

variable {s s' : Shutdown σ}

/-- Where `~rpcs` is, the thread of `accept_conn` has been joined, the connections that it
has passed are gone, and at its end no job is left. -/
structure Ordered (s : Shutdown σ) : Prop where
  idle : s.teardown ≠ .accepting → s.registry.acceptor = .idle
  closed : s.teardown = .dropping → ∀ entry ∈ s.registry.conns.1.head?, ¬ s.registry.Wanted entry.2
  passed : s.teardown = .draining ∨ s.teardown = .returned → s.registry.conns.1 = []
  jobs : ∀ d f, s.registry.server.frames d = some f → d ∈ s.jobs
  rest : s.teardown = .returned → s.registry.leaving = [] ∧
    ∀ d f, s.registry.server.frames d = some f → f.stage = .ended

/-! ## The steps -/

theorem work_cases {label : Registry.Label} (hstep : s.work app label = some s') :
    s.teardown ≠ .returned ∧ (Registry.accepting label = false ∨ s.teardown = .accepting) ∧
      ∃ registry, s.registry.step app label = some registry ∧
        s' = { s with registry := registry, jobs := s.jobs ++ (takenJob label).toList } := by
  obtain ⟨⟨hnot, haccepting⟩, hmap⟩ := Option.ite_none_right_eq_some.mp hstep
  obtain ⟨registry, hregistry, rfl⟩ := Option.map_eq_some_iff.mp hmap
  exact ⟨hnot, haccepting, registry, hregistry, rfl⟩

theorem closeconn_cases (hstep : s.closeconn app = some s') :
    s.teardown = .closing ∧ ∃ entry rest, s.registry.conns.1 = entry :: rest ∧
      s.registry.reader.conn ≠ some entry.2 ∧
      ∃ registry, s.registry.step app (.die entry.2) = some registry ∧
        s' = { s with registry := registry, teardown := .dropping } := by
  obtain ⟨hclosing, hhead⟩ := Option.ite_none_right_eq_some.mp hstep
  obtain ⟨entry, hentry, hclose⟩ := Option.bind_eq_some_iff.mp hhead
  obtain ⟨rest, hconns⟩ := List.head?_eq_some_iff.mp hentry
  obtain ⟨hreader, hmap⟩ := Option.ite_none_right_eq_some.mp hclose
  obtain ⟨registry, hdie, rfl⟩ := Option.map_eq_some_iff.mp hmap
  exact ⟨hclosing, entry, rest, hconns, hreader, registry, hdie, rfl⟩

theorem decref_cases (hstep : s.decref = some s') :
    s.teardown = .dropping ∧ ∃ entry rest objs, s.registry.conns.1 = entry :: rest ∧
      Registry.Dropped s.registry.objs objs entry.2 ∧
      s' = { s with registry := s.registry.pass entry objs, teardown := .closing } := by
  obtain ⟨hdropping, hhead⟩ := Option.ite_none_right_eq_some.mp hstep
  obtain ⟨entry, hentry, hmap⟩ := Option.bind_eq_some_iff.mp hhead
  obtain ⟨rest, hconns⟩ := List.head?_eq_some_iff.mp hentry
  obtain ⟨registry, hdecref, rfl⟩ := Option.map_eq_some_iff.mp hmap
  obtain ⟨objs, rfl, hdropped⟩ := Registry.decref_eq_some hdecref
  exact ⟨hdropping, entry, rest, objs, hconns, hdropped, rfl⟩

theorem finish_cases {clts : List UInt32} (hstep : s.finish clts = some s') :
    s.teardown = .draining ∧ s.registry.leaving = [] ∧
      (∀ d ∈ s.jobs, ∀ f, s.registry.server.frames d = some f → f.stage = .ended) ∧
      ∃ store, s' = { s with
        registry := { s.registry with server := { s.registry.server with store := store } }
        teardown := .returned } := by
  obtain ⟨⟨hdraining, hleaving, hjobs⟩, hmap⟩ := Option.ite_none_right_eq_some.mp hstep
  obtain ⟨store, -, rfl⟩ := Option.map_eq_some_iff.mp hmap
  refine ⟨hdraining, hleaving, fun d hd f hf => ?_, store, rfl⟩
  have hended := List.all_eq_true.mp hjobs d hd
  simpa [hf] using hended

/-- The job of a new dispatch is one that the pool has just taken. -/
theorem Ordered.jobs_of_step (h : s.Ordered) (haccounted : s.registry.Accounted)
    {label : Registry.Label} {registry : Registry σ}
    (hstep : s.registry.step app label = some registry) {d : DispatchId} {f : Dispatch}
    (hf : registry.server.frames d = some f) : d ∈ s.jobs ++ (takenJob label).toList := by
  rcases Registry.server_of_step haccounted hstep with ⟨hsame, -⟩ |
    ⟨l, hserver, -, hreceive, -⟩
  · exact List.mem_append_left _ (h.jobs d f (hsame ▸ hf))
  · rcases Server.frame_of_section (Server.section_of_step hserver) hf with ⟨pdu, hlabel, -⟩ |
      ⟨g, hg, -⟩
    · obtain ⟨rfl, -⟩ := hreceive d f.conn pdu hlabel
      exact List.mem_append_right _ (by simp [takenJob])
    · exact List.mem_append_left _ (h.jobs d g hg)

theorem Ordered.work (h : s.Ordered) (hsound : s.registry.Sound app) {label : Registry.Label}
    (hstep : s.work app label = some s') : s'.Ordered := by
  obtain ⟨hnot, haccepting, registry, hregistry, rfl⟩ := work_cases hstep
  have hstays : s.teardown ≠ .accepting → registry.acceptor = s.registry.acceptor ∧
      registry.conns = s.registry.conns ∧ ∀ c, registry.Wanted c → s.registry.Wanted c :=
    fun hjoined => Registry.wanted_of_step hsound.accounted hregistry
      (haccepting.resolve_right hjoined)
  refine ⟨fun hjoined => ?_, fun hdropping entry hentry hwanted => ?_, fun hpassed => ?_,
    fun d f hf => h.jobs_of_step hsound.accounted hregistry hf,
    fun hreturned => absurd hreturned hnot⟩
  · exact (hstays hjoined).1.trans (h.idle hjoined)
  · obtain ⟨-, hconns, hback⟩ := hstays (by rw [show s.teardown = .dropping from hdropping]; nofun)
    rw [hconns] at hentry
    exact h.closed hdropping entry hentry (hback entry.2 hwanted)
  · have hdraining : s.teardown = .draining := hpassed.resolve_right hnot
    rw [(hstays (by simp [hdraining])).2.1]
    exact h.passed (.inl hdraining)

/-- One step keeps what holds of the connections and where `~rpcs` is. -/
theorem sound_of_step (hsound : s.registry.Sound app) (h : s.Ordered) {label : Label}
    (hstep : s.step app label = some s') : s'.registry.Sound app ∧ s'.Ordered := by
  cases label with
  | registry label =>
      refine ⟨?_, h.work hsound hstep⟩
      obtain ⟨-, -, registry, hregistry, rfl⟩ := work_cases hstep
      exact hsound.step hregistry
  | join =>
      obtain ⟨⟨-, hidle⟩, heq⟩ := Option.ite_none_right_eq_some.mp hstep
      obtain rfl := Option.some.inj heq
      exact ⟨hsound, fun _ => hidle, nofun, nofun, h.jobs, nofun⟩
  | closeconn =>
      obtain ⟨hclosing, entry, rest, hconns, hreader, registry, hdie, rfl⟩ := closeconn_cases hstep
      refine ⟨hsound.step hdie, ?_⟩
      obtain ⟨-, heq⟩ := Option.ite_none_right_eq_some.mp hdie
      obtain rfl := Option.some.inj heq
      refine ⟨fun _ => h.idle (by simp [hclosing]), fun _ other hother => ?_, nofun, h.jobs, nofun⟩
      obtain rfl : entry = other := by simpa [hconns] using hother
      exact Registry.not_wanted_of_dead (by simp) hreader
  | decref =>
      obtain ⟨hdropping, entry, rest, objs, hconns, hdropped, rfl⟩ := decref_cases hstep
      have hidle := h.idle (by simp [hdropping])
      have hunwanted := h.closed hdropping entry (by simp [hconns])
      exact ⟨hsound.pass hidle (by simp [hconns]) hunwanted hdropped, fun _ => hidle, nofun, nofun,
        h.jobs, nofun⟩
  | drain =>
      obtain ⟨⟨hclosing, hnil⟩, heq⟩ := Option.ite_none_right_eq_some.mp hstep
      obtain rfl := Option.some.inj heq
      exact ⟨hsound, fun _ => h.idle (by simp [hclosing]), nofun, fun _ => hnil, h.jobs, nofun⟩
  | finish clts =>
      obtain ⟨hdraining, hleaving, hjobs, store, rfl⟩ := finish_cases hstep
      exact ⟨hsound.store store, fun _ => h.idle (by simp [hdraining]), nofun,
        fun _ => h.passed (.inl hdraining), h.jobs,
        fun _ => ⟨hleaving, fun d f hf => hjobs d (h.jobs d f hf) f hf⟩⟩

/-- A step gives the reference back that it calls `decref` for, or deletes nothing. -/
theorem given_of_step (hsound : s.registry.Sound app) {label : Label}
    (hstep : s.step app label = some s') :
    Given s.registry.objs s'.registry.objs (s.gives label) ∨
      (s.gives label = none ∧
        ∀ c, (s'.registry.objs c).deleted = (s.registry.objs c).deleted) := by
  cases label with
  | registry label =>
      obtain ⟨-, -, registry, hregistry, rfl⟩ := work_cases hstep
      exact Registry.given_of_step hsound.accounted hsound.placed hregistry
  | closeconn =>
      obtain ⟨-, entry, rest, -, -, registry, hdie, rfl⟩ := closeconn_cases hstep
      have hgiven := Registry.given_of_step hsound.accounted hsound.placed hdie
      exact hgiven
  | decref =>
      obtain ⟨-, entry, rest, objs, hconns, hdropped, rfl⟩ := decref_cases hstep
      refine .inl ?_
      rw [show s.gives .decref = some entry.2 by simp [gives, hconns]]
      exact given_of_dropped hdropped
  | join | drain =>
      obtain ⟨-, heq⟩ := Option.ite_none_right_eq_some.mp hstep
      obtain rfl := Option.some.inj heq
      exact .inr ⟨rfl, fun _ => rfl⟩
  | finish clts =>
      obtain ⟨-, -, -, store, rfl⟩ := finish_cases hstep
      exact .inr ⟨rfl, fun _ => rfl⟩

theorem sound_of_run {nonce : UInt32} {guard : Shutdown σ × List ConnId → Label → Prop}
    {labels : List Label} {reached : Shutdown σ × List ConnId}
    (hrun : (logged app nonce).Run guard labels reached) :
    reached.1.registry.Sound app ∧ reached.1.Ordered ∧
      Deletions reached.1.registry.objs reached.2 := by
  refine hrun.invariant (fun source => source.1.registry.Sound app ∧ source.1.Ordered ∧
    Deletions source.1.registry.objs source.2) ⟨Registry.sound_start nonce,
      ⟨fun hjoined => absurd rfl hjoined, nofun, nofun, nofun, nofun⟩, deletions_start⟩ ?_
  rintro _ source label target _ ⟨hsound, hordered, hlog⟩ _ hstep
  obtain ⟨hnext, heq⟩ := System.recorded_step_eq_some.mp hstep
  obtain ⟨hafter, hmoved⟩ := sound_of_step hsound hordered hnext
  rw [heq]
  exact ⟨hafter, hmoved, hlog.record hsound.live (given_of_step hsound hnext)⟩

/-! ## What is left -/

/-- At the end, a connection is referred to by the entries of clients, and by what has not
been given back. -/
theorem refno_of_returned (hsound : s.registry.Sound app) (h : s.Ordered)
    (hreturned : s.teardown = .returned) (c : ConnId) :
    ¬ s.registry.Wanted c ∧ (s.registry.objs c).refno =
      (count s.registry.server.conns c + s.registry.unreturned.count c : ℕ) := by
  have hidle := h.idle (by simp [hreturned])
  have hconns := h.passed (.inr hreturned)
  obtain ⟨hleaving, hended⟩ := h.rest hreturned
  have hvalues : s.registry.conns.values = [] := by rw [SortedMap.values, hconns, List.map_nil]
  have hunwanted : ∀ c, ¬ s.registry.Wanted c := by
    intro c hwanted
    have hkeeps := (hsound.attended.keeps c hwanted).2
    rw [hvalues, hidle] at hkeeps
    rcases hkeeps with hmem | hch
    · cases hmem
    · cases hch
  have hreader : s.registry.reader.conn ≠ some c := fun hconn => hunwanted c (.inr hconn)
  have hwork : ∀ d, atWork s.registry.server.frames d ≠ some c := by
    intro d
    cases hf : s.registry.server.frames d with
    | none => simp [atWork, hf]
    | some f => simp [atWork, hf, Dispatch.working, hended d f hf]
  have hswap : s.registry.swapping = none := by
    by_contra hsome
    obtain ⟨⟨d, c₀⟩, hpair⟩ := Option.ne_none_iff_exists'.mp hsome
    obtain ⟨f, hf, ⟨hstage, -⟩ | ⟨hstage, -⟩⟩ := hsound.accounted.swap d c₀ hpair <;>
      rw [hended d f hf] at hstage <;> cases hstage
  have hrefno := hsound.accounted.refno_eq c
  simp only [Registry.released, Registry.held, hidle, hvalues, hleaving, hswap, Acceptor.ch,
    Acceptor.erased, Option.map_none, one_none, one_of_ne hreader, count_eq_zero hwork,
    List.count_nil] at hrefno
  exact ⟨hunwanted c, by omega⟩

/-- All connections have been released if and only if no client has an entry and all
references have been given back. -/
theorem released_iff {reached : Shutdown σ × List ConnId}
    (hsound : reached.1.registry.Sound app) (h : reached.1.Ordered)
    (hlog : Deletions reached.1.registry.objs reached.2)
    (hreturned : reached.1.teardown = .returned) :
    (∀ c, c < reached.1.registry.made → Released reached c) ↔
      (∀ clt, reached.1.registry.server.conns clt = none) ∧
        reached.1.registry.unreturned = [] := by
  have hrefno := fun c => refno_of_returned hsound h hreturned c
  constructor
  · intro hall
    -- a connection that somebody refers to has been made
    have hzero : ∀ c, count reached.1.registry.server.conns c +
        reached.1.registry.unreturned.count c = 0 := by
      intro c
      by_contra hpos
      have hcount := (hrefno c).2
      have hmade := (hsound.live.referenced hsound.placed (c := c) (by omega)).made
      have hnone := (hall c hmade).refno_eq
      omega
    refine ⟨fun clt => ?_, List.eq_nil_iff_forall_not_mem.mpr fun c hmem => ?_⟩
    · by_contra hentry
      obtain ⟨c, hc⟩ := Option.ne_none_iff_exists'.mp hentry
      have hpos := count_pos hsound.accounted.entries hc
      have hcount := hzero c
      omega
    · have hpos := List.count_pos_iff.mpr hmem
      have hcount := hzero c
      omega
  · rintro ⟨hconns, hlist⟩ c hc
    have hzero : (reached.1.registry.objs c).refno = 0 := by
      rw [(hrefno c).2, hlist, count_eq_zero fun clt => by simp [hconns]]
      rfl
    have hdeleted := hsound.gone c hc hzero
    exact ⟨hzero, hdeleted, List.count_eq_one_of_mem hlog.nodup ((hlog.mem_iff c).mpr hdeleted)⟩

/-! ## Jobs that leave no reference behind -/

/-- The pool takes no job that leaves a reference behind. -/
def spares (app : Service σ) (source : Shutdown σ × List ConnId) : Label → Bool
  | .registry (.addJob _ true) =>
      match source.1.registry.reader with
      | .counted _ pdu =>
          (decodeRequest pdu).all fun request =>
            !source.1.registry.server.leavesReference app request
      | _ => true
  | _ => true

/-- The section of the server in a step, if there is one. -/
theorem server_of_step (hsound : s.registry.Sound app) {label : Label}
    (hstep : s.step app label = some s') :
    (s'.registry.server.frames = s.registry.server.frames ∧
        s'.registry.server.nonce = s.registry.server.nonce) ∨
      ∃ l, s.registry.server.step app l = some s'.registry.server ∧
        ∀ d c pdu, l = .receive d c pdu →
          label = .registry (.addJob d true) ∧ s.registry.reader = .counted c pdu := by
  cases label with
  | registry label =>
      obtain ⟨-, -, registry, hregistry, rfl⟩ := work_cases hstep
      rcases Registry.server_of_step hsound.accounted hregistry with ⟨hsame, -⟩ |
        ⟨l, hserver, -, hreceive, -⟩
      · exact .inl ⟨by rw [hsame], by rw [hsame]⟩
      · refine .inr ⟨l, hserver, fun d c pdu heq => ?_⟩
        obtain ⟨rfl, hreader⟩ := hreceive d c pdu heq
        exact ⟨rfl, hreader⟩
  | closeconn =>
      obtain ⟨-, entry, rest, -, -, registry, hdie, rfl⟩ := closeconn_cases hstep
      obtain ⟨-, heq⟩ := Option.ite_none_right_eq_some.mp hdie
      obtain rfl := Option.some.inj heq
      exact .inl ⟨rfl, rfl⟩
  | decref =>
      obtain ⟨-, entry, rest, objs, -, -, rfl⟩ := decref_cases hstep
      exact .inl ⟨rfl, rfl⟩
  | join | drain =>
      obtain ⟨-, heq⟩ := Option.ite_none_right_eq_some.mp hstep
      obtain rfl := Option.some.inj heq
      exact .inl ⟨rfl, rfl⟩
  | finish clts =>
      obtain ⟨-, -, -, store, rfl⟩ := finish_cases hstep
      exact .inl ⟨rfl, rfl⟩

/-- There is a job that leaves a reference behind. -/
def Leaves (app : Service σ) (s : Shutdown σ) : Prop :=
  ∃ d f, s.registry.server.frames d = some f ∧
    s.registry.server.leavesReference app f.request = true

theorem Leaves.step (h : s.Leaves app) (hsound : s.registry.Sound app) {label : Label}
    (hstep : s.step app label = some s') : s'.Leaves app := by
  rcases server_of_step hsound hstep with ⟨hframes, hnonce⟩ | ⟨l, hserver, -⟩
  · obtain ⟨d, f, hf, hleaves⟩ := h
    exact ⟨d, f, hframes ▸ hf, by rwa [Server.leavesReference_of_nonce hnonce]⟩
  · exact Server.leaves_of_section (Server.section_of_step hserver) h

/-- A job that leaves a reference behind has just been taken, or was there before. -/
theorem leaves_of_step (hsound : s.registry.Sound app) {log : List ConnId} {label : Label}
    (hspares : spares app (s, log) label = true) (hstep : s.step app label = some s')
    (h : s'.Leaves app) : s.Leaves app := by
  obtain ⟨d, f, hf, hleaves⟩ := h
  rcases server_of_step hsound hstep with ⟨hframes, hnonce⟩ | ⟨l, hserver, hreceive⟩
  · exact ⟨d, f, hframes ▸ hf, by rwa [← Server.leavesReference_of_nonce hnonce]⟩
  · have hsection := Server.section_of_step hserver
    rw [Server.leavesReference_of_nonce (Server.nonce_of_section hsection)] at hleaves
    rcases Server.frame_of_section hsection hf with ⟨pdu, hlabel, hpdu, -⟩ | ⟨g, hg, hrequest, -⟩
    · obtain ⟨rfl, hreader⟩ := hreceive d f.conn pdu hlabel
      simp [spares, hreader, hpdu, hleaves] at hspares
    · exact ⟨d, g, hg, hrequest ▸ hleaves⟩

/-- A job that the pool takes and that leaves a reference behind is one of its jobs. -/
theorem leaves_of_taken {log : List ConnId} {label : Label}
    (hnot : spares app (s, log) label = false) (hstep : s.step app label = some s') :
    s'.Leaves app := by
  cases label with
  | registry label =>
      obtain ⟨-, -, registry, hregistry, rfl⟩ := work_cases hstep
      cases label with
      | addJob d ok =>
          cases ok with
          | false => cases hnot
          | true =>
              obtain ⟨c, pdu, hreader, hcases⟩ := Registry.addJob_cases hregistry
              simp only [spares, hreader, Option.all_eq_false] at hnot
              obtain ⟨request, hpdu, hleaves⟩ := hnot
              rcases hcases with ⟨hshort, -⟩ | ⟨taken, htaken, -, rfl⟩
              · rw [hpdu] at hshort
                cases hshort
              · obtain rfl := Option.some.inj (hpdu.symm.trans htaken)
                have hkept : s.registry.server.leavesReference app request = true := by
                  simpa using hleaves
                exact ⟨d, _, Server.frames_put_self .., hkept⟩
      | _ => cases hnot
  | _ => cases hnot

/-- There is a job that leaves a reference behind if and only if the pool has taken one. -/
theorem leaves_iff {nonce : UInt32} {labels : List Label} {reached : Shutdown σ × List ConnId}
    (hrun : (logged app nonce).Run anyStep labels reached) :
    ¬ reached.1.Leaves app ↔
      (logged app nonce).Run (fun source label => spares app source label = true) labels
        reached := by
  constructor
  · have hdone : (logged app nonce).Run (fun source label => spares app source label = true) labels
        reached ∨ reached.1.Leaves app := by
      refine hrun.invariantOn (fun labels source => (logged app nonce).Run
        (fun source label => spares app source label = true) labels source ∨ source.1.Leaves app)
        (.inl .start) ?_
      rintro labels source label target hprior hdone _ hstep
      obtain ⟨hnext, -⟩ := System.recorded_step_eq_some.mp hstep
      rcases hdone with hspared | hleaves
      · cases hspares : spares app source label with
        | true => exact .inl (hspared.snoc hspares hstep)
        | false => exact .inr (leaves_of_taken hspares hnext)
      · exact .inr (hleaves.step (sound_of_run hprior).1 hnext)
    exact hdone.resolve_right
  · intro hspared
    refine hspared.invariant (fun source => ¬ source.1.Leaves app) ?_ ?_
    · rintro ⟨d, f, hf, -⟩
      cases hf
    · intro _ source label target hprior hnone hspares hstep hleaves
      obtain ⟨hnext, -⟩ := System.recorded_step_eq_some.mp hstep
      exact hnone (leaves_of_step (sound_of_run hprior).1 hspares hnext hleaves)

/-- When `~rpcs` returns, every connection has been released, and deleted once, if and only
if the pool has taken no job that leaves a reference behind. -/
theorem teardownReleases {nonce : UInt32} {labels : List Label}
    {reached : Shutdown σ × List ConnId}
    (hrun : (logged app nonce).Run anyStep labels reached)
    (hreturned : reached.1.teardown = .returned) :
    (∀ c, c < reached.1.registry.made → Released reached c) ↔
      (logged app nonce).Run (fun source label => spares app source label = true) labels
        reached := by
  obtain ⟨hsound, hordered, hlog⟩ := sound_of_run hrun
  rw [released_iff hsound hordered hlog hreturned,
    hsound.left.spared_iff (hordered.rest hreturned).2, ← leaves_iff hrun]
  simp [Leaves]

/-- The PDU of a call that no handler is registered for. -/
def unknownCall : Bytes :=
  Request.pdu
    { header := { xid := 1, proc := 2, cltNonce := 1, srvNonce := 0, xidRep := 0 }
      args := [] }

/-- Two connections are accepted, and the first one dies and is collected. On the second
one a client that does not retransmit binds, and another one makes a call that no handler
is registered for; its job is still in the queue when the connection is closed. -/
def plainEnd : List Label :=
  [.registry (.accept 5), .registry .insert, .registry (.die 0), .registry (.accept 6),
    .registry .isdead, .registry .ref, .registry .collect, .registry .erase, .registry .insert,
    .registry (.gotPdu 1 Registry.plainBindCall), .registry (.addJob 0 true),
    .registry (.dispatch (.vet 0)), .registry (.dispatch (.enter 0 0 fun _ => 0)),
    .registry (.dispatch (.select 0 false)), .registry (.dispatch (.send 0)),
    .registry (.leave 0), .registry (.gotPdu 1 unknownCall), .registry (.addJob 1 true), .join,
    .closeconn, .decref, .drain, .registry (.dispatch (.vet 1)), .registry (.leave 0), .finish []]

theorem teardownReleases_plain :
    ∃ reached, (logged handleFast 9).Run anyStep plainEnd reached ∧
      reached.1.teardown = .returned ∧ reached.1.registry.made = 2 ∧ Released reached 0 ∧
      Released reached 1 := by
  have hexec : ((logged handleFast 9).execIf (spares handleFast) (logged handleFast 9).init
      plainEnd).any (fun reached => reached.1.teardown == .returned &&
        reached.1.registry.made == 2) = true := by
    decide +kernel
  obtain ⟨reached, hrun, hreached⟩ := System.exists_run_of_execIf hexec
  simp only [Bool.and_eq_true, beq_iff_eq] at hreached
  obtain ⟨hreturned, hmade⟩ := hreached
  have hany : (logged handleFast 9).Run anyStep plainEnd reached := hrun.mono fun _ _ _ => trivial
  have hreleased := (teardownReleases hany hreturned).mpr hrun
  exact ⟨reached, hany, hreturned, hmade, hreleased 0 (by omega), hreleased 1 (by omega)⟩

/-- A client that retransmits binds, and the server is deleted. -/
def boundEnd : List Label :=
  [.registry (.accept 5), .registry .insert, .registry (.gotPdu 0 (Registry.bindCall 0)),
    .registry (.addJob 0 true), .registry (.dispatch (.vet 0)),
    .registry (.dispatch (.enroll 0)), .registry (.dispatch (.connect 0)),
    .registry (.dispatch (.check 0)), .registry (.dispatch (.enter 0 0 fun _ => 0)),
    .registry (.dispatch (.record 0)), .registry (.dispatch (.select 0 false)),
    .registry (.dispatch (.send 0)), .registry (.leave 0), .join, .closeconn, .decref, .drain,
    .finish [1]]

/-- The entry of the client still refers to its connection, which is dead and is never
deleted. -/
theorem boundEnd_keepsConnection :
    ∃ reached, (logged handleFast 9).Run anyStep boundEnd reached ∧
      reached.1.teardown = .returned ∧ 0 < reached.1.registry.made ∧ ¬ Released reached 0 ∧
      (reached.1.registry.objs 0).refno = 1 ∧ (reached.1.registry.objs 0).dead = true ∧
      (reached.1.registry.objs 0).deleted = false ∧ reached.2 = [] := by
  have hexec : ((logged handleFast 9).exec (logged handleFast 9).init boundEnd).any
      (fun reached => reached.1.teardown == .returned && decide (0 < reached.1.registry.made) &&
        (reached.1.registry.objs 0).refno == 1 && (reached.1.registry.objs 0).dead &&
        !(reached.1.registry.objs 0).deleted && reached.2.isEmpty) = true := by
    decide +kernel
  obtain ⟨reached, hrun, hreached⟩ := System.exists_run_of_exec hexec
  simp only [Bool.and_eq_true, beq_iff_eq, decide_eq_true_eq, Bool.not_eq_true',
    List.isEmpty_iff] at hreached
  obtain ⟨⟨⟨⟨⟨hreturned, hmade⟩, hrefno⟩, hdead⟩, hthere⟩, hlog⟩ := hreached
  refine ⟨reached, hrun, hreturned, hmade, fun hreleased => ?_, hrefno, hdead, hthere, hlog⟩
  rw [hreleased.deleted] at hthere
  cases hthere

end Shutdown

end YfsLab.Rpc
