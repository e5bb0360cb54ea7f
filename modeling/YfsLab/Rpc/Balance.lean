/-
# The counts are balanced

Every step of `process_accept`, of `got_pdu` and of `dispatch` keeps the balance between
the count of a connection and the number of those who hold a reference of it, when the
jobs that have ended without giving theirs back are counted among them. These are the
jobs whose request was made for an old instance of the server; where there are none, the
counts are what they should be, and `process_accept` collects a dead connection that
nobody else uses.
-/

import YfsLab.Rpc.Accounting

namespace YfsLab.Rpc.Registry

open BigEndian Holders Poll Transition Wire

variable {σ : Type} {app : Service σ} {s s' : Registry σ}

/-! ## `process_accept` -/

theorem Accounted.accept (h : s.Accounted) (hplaced : s.Placed) {fd : Fd}
    (hstep : s.accept fd = some s') : s'.Accounted := by
  obtain ⟨⟨hidle, -⟩, heq⟩ := Option.ite_none_right_eq_some.mp hstep
  obtain rfl := Option.some.inj heq
  refine ⟨h.entries, h.jobs, fun c => ?_, h.swap⟩
  have hrefno := h.refno_eq c
  simp only [released, held, hidle, Acceptor.ch, Acceptor.erased, one_none] at hrefno ⊢
  by_cases hc : c = s.made
  · subst hc
    have hzero : (s.objs s.made).refno = 0 := by rw [hplaced.fresh _ le_rfl]
    rw [Function.update_self, one_self]
    simp only
    omega
  · rw [Function.update_of_ne hc, one_some_of_ne (Ne.symm hc)]
    exact hrefno

theorem Placed.accept (h : s.Placed) {fd : Fd} (hstep : s.accept fd = some s') :
    s'.Placed := by
  obtain ⟨⟨hidle, hfree⟩, heq⟩ := Option.ite_none_right_eq_some.mp hstep
  obtain rfl := Option.some.inj heq
  have hvalues : ∀ c ∈ s.conns.values, c < s.made := by
    intro c hmem
    obtain ⟨entry, hentry, rfl⟩ := List.mem_map.mp hmem
    exact (h.entry entry hentry).1
  have hnodup := h.nodup
  simp only [hidle, Acceptor.ch, Option.toList_none, List.nil_append] at hnodup
  have hne : ∀ c, c < s.made →
      Function.update s.objs s.made { fd := fd, refno := 1 } c = s.objs c :=
    fun c hc => Function.update_of_ne (Nat.ne_of_lt hc) ..
  have hfresh : ∀ c, c < s.made → (s.objs c).deleted = false → (s.objs c).fd ≠ fd := by
    intro c hc halive
    have := List.all_eq_true.mp hfree c (List.mem_range.mpr hc)
    simpa [halive] using this
  refine ⟨?_, ?_, ?_, ?_, List.Sublist.refl _, ?_, ?_⟩
  · rintro c ⟨-, hmem | hch⟩
    · simp only [hne c (hvalues c hmem)]
      exact h.intact c ⟨by simp [hidle, Acceptor.erased], .inl hmem⟩
    · obtain rfl : s.made = c := Option.some.inj hch
      simp
  · intro entry hmem
    have hentry := h.entry entry hmem
    simp only [hne _ hentry.1]
    exact ⟨hentry.1.trans (Nat.lt_succ_self _), hentry.2⟩
  · intro ch hch
    obtain rfl : s.made = ch := Option.some.inj hch
    exact Nat.lt_succ_self _
  · simp only [Acceptor.ch, Option.toList_some, List.cons_append, List.nil_append]
    exact List.nodup_cons.mpr ⟨fun hmem => lt_irrefl _ (hvalues _ hmem), hnodup⟩
  · intro c c' hc hc' halive halive' hsame
    simp only at hc hc' halive halive' hsame
    rcases Nat.lt_succ_iff_lt_or_eq.mp hc with hlt | rfl <;>
      rcases Nat.lt_succ_iff_lt_or_eq.mp hc' with hlt' | rfl
    · rw [hne c hlt] at halive hsame
      rw [hne c' hlt'] at halive' hsame
      exact h.fd_inj c c' hlt hlt' halive halive' hsame
    · rw [hne c hlt, Function.update_self] at hsame
      rw [hne c hlt] at halive
      exact absurd hsame (hfresh c hlt halive)
    · rw [hne c' hlt', Function.update_self] at hsame
      rw [hne c' hlt'] at halive'
      exact absurd hsame.symm (hfresh c' hlt' halive')
    · rfl
  · intro c hc
    simp only at hc ⊢
    rw [Function.update_of_ne (Nat.ne_of_gt hc)]
    exact h.fresh c (Nat.le_of_lt hc)

/-- `process_accept` moves on and changes nothing. -/
theorem Accounted.acceptor (h : s.Accounted) {acceptor : Acceptor}
    (hch : acceptor.ch = s.acceptor.ch) (herased : acceptor.erased = s.acceptor.erased) :
    Accounted { s with acceptor := acceptor } := by
  refine ⟨h.entries, h.jobs, fun c => ?_, h.swap⟩
  have hrefno := h.refno_eq c
  simp only [released, held] at hrefno ⊢
  rw [hch, herased]
  exact hrefno

theorem Placed.acceptor (h : s.Placed) {acceptor : Acceptor}
    (hch : acceptor.ch = s.acceptor.ch)
    (herased : ∀ c, acceptor.erased ≠ some c → s.acceptor.erased ≠ some c)
    (hpending : (Registry.pending acceptor).Sublist (Registry.pending s.acceptor)) :
    Placed { s with acceptor := acceptor } := by
  refine ⟨fun c hkeeps => ?_, h.entry, fun ch hsome => ?_, ?_, hpending.trans h.pending, h.fd_inj,
    h.fresh⟩
  · refine h.intact c ⟨herased c hkeeps.1, hkeeps.2.imp_right fun hsome => ?_⟩
    rw [← hch]
    exact hsome
  · exact h.ch_lt ch (hch ▸ hsome)
  · simp only
    rw [hch]
    exact h.nodup

theorem Accounted.isdead (h : s.Accounted) (hstep : s.isdead = some s') : s'.Accounted := by
  rw [Registry.isdead] at hstep
  split at hstep
  · next ch entry todo hacceptor =>
      obtain rfl := Option.some.inj hstep
      apply h.acceptor <;> rw [hacceptor] <;> split_ifs <;> rfl
  · cases hstep

theorem Placed.isdead (h : s.Placed) (hstep : s.isdead = some s') : s'.Placed := by
  rw [Registry.isdead] at hstep
  split at hstep
  · next ch entry todo hacceptor =>
      obtain rfl := Option.some.inj hstep
      refine h.acceptor ?_ (fun c => ?_) ?_ <;> rw [hacceptor] <;> split_ifs
      · rfl
      · rfl
      · exact id
      · exact id
      · exact .refl _
      · exact List.sublist_cons_self ..
  · cases hstep

theorem Accounted.ref (h : s.Accounted) (hstep : s.ref = some s') : s'.Accounted := by
  rw [Registry.ref] at hstep
  split at hstep
  · next ch entry todo hacceptor =>
      obtain rfl := Option.some.inj hstep
      apply h.acceptor <;> rw [hacceptor] <;> split_ifs <;> rfl
  · cases hstep

theorem Placed.ref (h : s.Placed) (hstep : s.ref = some s') : s'.Placed := by
  rw [Registry.ref] at hstep
  split at hstep
  · next ch entry todo hacceptor =>
      obtain rfl := Option.some.inj hstep
      refine h.acceptor ?_ (fun c => ?_) ?_ <;> rw [hacceptor] <;> split_ifs
      · rfl
      · rfl
      · exact id
      · exact id
      · exact .refl _
      · exact List.sublist_cons_self ..
  · cases hstep

theorem Accounted.collect (h : s.Accounted) (hstep : s.collect = some s') : s'.Accounted := by
  rw [Registry.collect] at hstep
  split at hstep
  · next ch entry todo hacceptor =>
      obtain ⟨s₁, hdecref, rfl⟩ := Option.map_eq_some_iff.mp hstep
      obtain ⟨objs, rfl, hdropped⟩ := decref_eq_some hdecref
      refine ⟨h.entries, h.jobs, fun c => ?_, h.swap⟩
      have hrefno := h.refno_eq c
      have hcount := hdropped.refno c
      simp only [released, held, hacceptor, Acceptor.ch, Acceptor.erased, one_none] at hrefno ⊢
      omega
  · cases hstep

theorem Placed.collect (h : s.Placed) (hstep : s.collect = some s') (haccounted : s'.Accounted) :
    s'.Placed := by
  rw [Registry.collect] at hstep
  split at hstep
  · next ch entry todo hacceptor =>
      obtain ⟨s₁, hdecref, rfl⟩ := Option.map_eq_some_iff.mp hstep
      obtain ⟨objs, rfl, hdropped⟩ := decref_eq_some hdecref
      have hmoved : Placed { s with acceptor := .erasing ch entry todo } := by
        refine h.acceptor ?_ (fun c _ => ?_) ?_ <;> rw [hacceptor]
        · rfl
        · simp [Acceptor.erased]
        · exact .refl _
      exact hmoved.dropped hdropped haccounted rfl rfl rfl
  · cases hstep

theorem Accounted.erase (h : s.Accounted) (hplaced : s.Placed) (hstep : s.erase = some s') :
    s'.Accounted := by
  rw [Registry.erase] at hstep
  split at hstep
  · next ch entry todo hacceptor =>
      obtain rfl := Option.some.inj hstep
      refine ⟨h.entries, h.jobs, fun c => ?_, h.swap⟩
      have hrefno := h.refno_eq c
      have hmem : (entry.1, entry.2) ∈ s.conns.1 :=
        hplaced.pending.subset (by rw [hacceptor]; exact List.mem_cons_self)
      have hcount := (SortedMap.values_perm_erase hmem).count_eq c
      rw [count_cons] at hcount
      simp only [released, held, hacceptor, Acceptor.ch, Acceptor.erased, one_none] at hrefno ⊢
      omega
  · cases hstep

theorem Placed.erase (h : s.Placed) (hstep : s.erase = some s') : s'.Placed := by
  rw [Registry.erase] at hstep
  split at hstep
  · next ch entry todo hacceptor =>
      obtain rfl := Option.some.inj hstep
      have hpending := h.pending
      rw [hacceptor] at hpending
      have hmem : (entry.1, entry.2) ∈ s.conns.1 := hpending.subset List.mem_cons_self
      have hperm := SortedMap.values_perm_erase hmem
      have hnodup := h.nodup
      rw [hacceptor] at hnodup
      have hvalues := (hperm.nodup_iff.mp (List.nodup_append.mp hnodup).2.1)
      have hsub : ∀ {other}, other ∈ (s.conns.erase entry.1).1 → other ∈ s.conns.1 :=
        fun hother => (SortedMap.mem_erase.mp hother).1
      have hch : entry.2 ≠ ch := fun heq =>
        (List.nodup_append.mp hnodup).2.2 ch (by simp [Acceptor.ch]) entry.2
          (List.mem_map_of_mem hmem) heq.symm
      refine ⟨fun c hkeeps => ?_, fun other hother => h.entry other (hsub hother),
        fun c hc => h.ch_lt c (by rw [hacceptor]; exact hc), ?_, ?_, h.fd_inj, h.fresh⟩
      · refine h.intact c ⟨?_, ?_⟩
        · rw [hacceptor]
          intro heq
          obtain rfl : entry.2 = c := Option.some.inj heq
          rcases hkeeps.2 with hback | hback
          · exact (List.nodup_cons.mp hvalues).1 hback
          · exact hch (Option.some.inj hback).symm
        · rw [hacceptor]
          refine hkeeps.2.imp_left fun hback => hperm.mem_iff.mpr (List.mem_cons_of_mem _ hback)
      · refine List.nodup_append.mpr ⟨by simp [Acceptor.ch], (List.nodup_cons.mp hvalues).2,
          fun a ha b hb => (List.nodup_append.mp hnodup).2.2 a ha b
            (hperm.mem_iff.mpr (List.mem_cons_of_mem _ hb))⟩
      · have hsorted := s.conns.2.sublist h.pending
        rw [hacceptor] at hsorted
        have hkeep : todo.filter (fun other => other.1 ≠ entry.1) = todo :=
          List.filter_eq_self.mpr fun other hother => by
            simpa using ((List.pairwise_cons.mp hsorted).1 other hother).ne'
        have hfilter := hpending.filter (fun other => other.1 ≠ entry.1)
        simp only [Registry.pending] at hfilter ⊢
        rw [List.filter_cons_of_neg (by simp), hkeep] at hfilter
        exact hfilter
  · cases hstep

/-- The descriptor of the connection that is inserted is not in `conns_`. -/
theorem Placed.fresh_fd (h : s.Placed) {ch : ConnId} {todo : List (Fd × ConnId)}
    (hacceptor : s.acceptor = .scanning ch todo) (entry : Fd × ConnId)
    (hmem : entry ∈ s.conns.1) : entry.1 ≠ (s.objs ch).fd := by
  intro heq
  have hnodup := h.nodup
  rw [hacceptor] at hnodup
  have hnone : ∀ c, s.acceptor.erased ≠ some c := by simp [hacceptor, Acceptor.erased]
  have hvalue : entry.2 ∈ s.conns.values := List.mem_map_of_mem hmem
  have hch : s.acceptor.ch = some ch := by simp [hacceptor, Acceptor.ch]
  have hsame := h.fd_inj entry.2 ch (h.entry entry hmem).1 (h.ch_lt ch hch)
    (h.intact _ ⟨hnone _, .inl hvalue⟩) (h.intact _ ⟨hnone _, .inr hch⟩)
    ((h.entry entry hmem).2.trans heq)
  exact (List.nodup_append.mp hnodup).2.2 ch (by simp [Acceptor.ch]) entry.2 hvalue hsame.symm

theorem Accounted.insert (h : s.Accounted) (hplaced : s.Placed) (hstep : s.insert = some s') :
    s'.Accounted := by
  rw [Registry.insert] at hstep
  split at hstep
  · next ch hacceptor =>
      obtain rfl := Option.some.inj hstep
      refine ⟨h.entries, h.jobs, fun c => ?_, h.swap⟩
      have hrefno := h.refno_eq c
      have hcount := (SortedMap.values_assign_perm ch (hplaced.fresh_fd hacceptor)).count_eq c
      rw [count_cons] at hcount
      simp only [released, held, hacceptor, Acceptor.ch, Acceptor.erased, one_none] at hrefno ⊢
      omega
  · cases hstep

theorem Placed.insert (h : s.Placed) (hstep : s.insert = some s') : s'.Placed := by
  rw [Registry.insert] at hstep
  split at hstep
  · next ch hacceptor =>
      obtain rfl := Option.some.inj hstep
      have hperm := SortedMap.values_assign_perm ch (h.fresh_fd hacceptor)
      have hch : s.acceptor.ch = some ch := by simp [hacceptor, Acceptor.ch]
      refine ⟨fun c hkeeps => ?_, fun entry hmem => ?_, (fun c hc => by cases hc), ?_,
        List.nil_sublist _, h.fd_inj, h.fresh⟩
      · refine h.intact c ⟨by simp [hacceptor, Acceptor.erased], ?_⟩
        rcases hkeeps.2 with hmem | hnone
        · rcases List.mem_cons.mp (hperm.mem_iff.mp hmem) with rfl | hold
          · exact .inr hch
          · exact .inl hold
        · cases hnone
      · rcases SortedMap.mem_assignEntry hmem with rfl | hold
        · exact ⟨h.ch_lt ch hch, rfl⟩
        · exact h.entry entry hold
      · have hnodup := h.nodup
        rw [hch] at hnodup
        exact hperm.nodup_iff.mpr hnodup
  · cases hstep

/-! ## `got_pdu` -/

theorem Accounted.gotPdu (h : s.Accounted) {c₀ : ConnId} {pdu : Bytes}
    (hstep : s.gotPdu c₀ pdu = some s') : s'.Accounted := by
  obtain ⟨⟨hidle, -⟩, heq⟩ := Option.ite_none_right_eq_some.mp hstep
  obtain rfl := Option.some.inj heq
  refine ⟨h.entries, h.jobs, fun c => ?_, h.swap⟩
  have hrefno := h.refno_eq c
  have hcount := refno_incref s c₀ c
  simp only [released, held, hidle, Reader.conn, one_none] at hrefno ⊢
  rw [hcount]
  simp only [incref]
  omega

theorem Placed.gotPdu (h : s.Placed) {c₀ : ConnId} {pdu : Bytes}
    (hstep : s.gotPdu c₀ pdu = some s') : s'.Placed := by
  obtain ⟨⟨-, hlt, -⟩, heq⟩ := Option.ite_none_right_eq_some.mp hstep
  obtain rfl := Option.some.inj heq
  exact h.incref hlt rfl rfl rfl rfl

/-- A job has been added. -/
theorem addJob_cases {d : DispatchId} (hstep : s.addJob app d true = some s') :
    ∃ c₀ pdu, s.reader = .counted c₀ pdu ∧
      ((decodeRequest pdu = none ∧
          s' = { s with reader := .idle, leaving := s.leaving ++ [c₀] }) ∨
        ∃ request, decodeRequest pdu = some request ∧ s.server.frames d = none ∧
          s' = { s with
            server := s.server.put d { conn := c₀, request }
            reader := .idle }) := by
  rw [Registry.addJob] at hstep
  split at hstep
  · next c₀ pdu hreader =>
      obtain ⟨server, hserver, rfl⟩ := Option.map_eq_some_iff.mp hstep
      obtain ⟨hfresh, hreceive⟩ := Option.ite_none_right_eq_some.mp hserver
      obtain rfl := Option.some.inj hreceive
      refine ⟨c₀, pdu, hreader, ?_⟩
      cases hpdu : decodeRequest pdu with
      | none => exact .inl ⟨rfl, by simp [Server.receive, hpdu]⟩
      | some request =>
          exact .inr ⟨request, rfl, by simpa using hfresh, by simp [Server.receive, hpdu]⟩
  · cases hstep

theorem Accounted.addJob (h : s.Accounted) {d : DispatchId} {ok : Bool}
    (hstep : s.addJob app d ok = some s') : s'.Accounted := by
  cases ok with
  | false =>
      rw [Registry.addJob] at hstep
      split at hstep
      · next c₀ pdu hreader =>
          obtain rfl := Option.some.inj hstep
          refine ⟨h.entries, h.jobs, fun c => ?_, h.swap⟩
          have hrefno := h.refno_eq c
          simp only [released, held, hreader, Reader.conn] at hrefno ⊢
          exact hrefno
      · cases hstep
  | true =>
      obtain ⟨c₀, pdu, hreader, ⟨-, rfl⟩ | ⟨request, -, hfresh, rfl⟩⟩ := addJob_cases hstep
      · refine ⟨h.entries, h.jobs, fun c => ?_, h.swap⟩
        have hrefno := h.refno_eq c
        simp only [released, held, hreader, Reader.conn, one_none, List.count_append,
          count_cons, List.count_nil] at hrefno ⊢
        omega
      · have hframes : (s.server.put d { conn := c₀, request }).frames =
            Function.update s.server.frames d (some { conn := c₀, request }) := rfl
        refine ⟨h.entries, ?_, fun c => ?_, fun e c hswap => ?_⟩
        · rw [hframes, atWork_update]
          exact h.jobs.update _ _
        · have hrefno := h.refno_eq c
          have hcount := count_update h.jobs d (some c₀) c
          have hnone : atWork s.server.frames d = none := by simp [atWork, hfresh]
          have hworking : Dispatch.working { conn := c₀, request } = some c₀ :=
            Dispatch.working_of_ne (by simp)
          rw [hnone, one_none] at hcount
          simp only [released, held, hreader, Reader.conn, one_none] at hrefno ⊢
          rw [hframes, atWork_update, hworking]
          simp only [Server.put]
          omega
        · obtain ⟨f, hf, hrest⟩ := h.swap e c hswap
          have hne : e ≠ d := by
            rintro rfl
            rw [hfresh] at hf
            cases hf
          exact ⟨f, (Server.frames_put_of_ne _ hne _).trans hf, hrest⟩

theorem Placed.addJob (h : s.Placed) {d : DispatchId} {ok : Bool}
    (hstep : s.addJob app d ok = some s') : s'.Placed := by
  cases ok with
  | false =>
      rw [Registry.addJob] at hstep
      split at hstep
      · obtain rfl := Option.some.inj hstep
        exact h.congr rfl rfl rfl rfl
      · cases hstep
  | true =>
      obtain ⟨c₀, pdu, hreader, ⟨-, rfl⟩ | ⟨request, -, hfresh, rfl⟩⟩ := addJob_cases hstep <;>
        exact h.congr rfl rfl rfl rfl

theorem Accounted.giveBack (h : s.Accounted) (hstep : s.giveBack = some s') :
    s'.Accounted := by
  rw [Registry.giveBack] at hstep
  split at hstep
  · next c₀ hreader =>
      obtain ⟨s₁, hdecref, rfl⟩ := Option.map_eq_some_iff.mp hstep
      obtain ⟨objs, rfl, hdropped⟩ := decref_eq_some hdecref
      refine ⟨h.entries, h.jobs, fun c => ?_, h.swap⟩
      have hrefno := h.refno_eq c
      have hcount := hdropped.refno c
      simp only [released, held, hreader, Reader.conn, one_none] at hrefno ⊢
      omega
  · cases hstep

theorem Placed.giveBack (h : s.Placed) (hstep : s.giveBack = some s')
    (haccounted : s'.Accounted) : s'.Placed := by
  rw [Registry.giveBack] at hstep
  split at hstep
  · next c₀ hreader =>
      obtain ⟨s₁, hdecref, rfl⟩ := Option.map_eq_some_iff.mp hstep
      obtain ⟨objs, rfl, hdropped⟩ := decref_eq_some hdecref
      exact h.dropped hdropped haccounted rfl rfl rfl
  · cases hstep

/-! ## `dispatch` -/

theorem Accounted.leave (h : s.Accounted) {i : ℕ} (hstep : s.leave i = some s') :
    s'.Accounted := by
  obtain ⟨c₀, hi, hdrop⟩ := Option.bind_eq_some_iff.mp hstep
  obtain ⟨s₁, hdecref, rfl⟩ := Option.map_eq_some_iff.mp hdrop
  obtain ⟨objs, rfl, hdropped⟩ := decref_eq_some hdecref
  obtain ⟨hlt, rfl⟩ := List.getElem?_eq_some_iff.mp hi
  refine ⟨h.entries, h.jobs, fun c => ?_, h.swap⟩
  have hrefno := h.refno_eq c
  have hcount := hdropped.refno c
  have hleaving := (List.getElem_cons_eraseIdx_perm hlt).count_eq c
  rw [count_cons] at hleaving
  simp only [released, held] at hrefno ⊢
  omega

theorem Placed.leave (h : s.Placed) {i : ℕ} (hstep : s.leave i = some s')
    (haccounted : s'.Accounted) : s'.Placed := by
  obtain ⟨c₀, -, hdrop⟩ := Option.bind_eq_some_iff.mp hstep
  obtain ⟨s₁, hdecref, rfl⟩ := Option.map_eq_some_iff.mp hdrop
  obtain ⟨objs, rfl, hdropped⟩ := decref_eq_some hdecref
  exact h.dropped hdropped haccounted rfl rfl rfl

/-- The server goes on, and a dispatch that has come to its end is recorded. -/
theorem serve_eq_some {label : Server.Label} (hstep : s.serve app label = some s') :
    ∃ server, s.server.step app label = some server ∧
      ((returnsEarly label = true ∧
          s' = { s with server := server, unreturned := s.unreturned ++ exits server label }) ∨
        (returnsEarly label = false ∧
          s' = { s with server := server, leaving := s.leaving ++ exits server label })) := by
  obtain ⟨server, hserver, heq⟩ := Option.map_eq_some_iff.mp hstep
  refine ⟨server, hserver, ?_⟩
  cases hearly : returnsEarly label with
  | true =>
      rw [hearly, if_pos rfl] at heq
      exact .inl ⟨rfl, heq.symm⟩
  | false =>
      rw [hearly, if_neg (by simp)] at heq
      exact .inr ⟨rfl, heq.symm⟩

theorem Placed.serve (h : s.Placed) {label : Server.Label}
    (hstep : s.serve app label = some s') : s'.Placed := by
  obtain ⟨server, -, ⟨-, rfl⟩ | ⟨-, rfl⟩⟩ := serve_eq_some hstep <;>
    exact h.congr rfl rfl rfl rfl

/-- A section that keeps the connections of jobs and clients. -/
theorem Accounted.serve (h : s.Accounted) {label : Server.Label}
    (hkeeps : keepsConns label = true) (hstep : s.serve app label = some s') :
    s'.Accounted := by
  obtain ⟨server, hserver, hcases⟩ := serve_eq_some hstep
  obtain ⟨hbounded, hcounts⟩ := count_of_step h.jobs hkeeps hserver
  obtain ⟨hconns, hframes⟩ := frames_of_step hkeeps hserver
  have hswap : ∀ d c, s.swapping = some (d, c) →
      ∃ f, server.frames d = some f ∧
        ((f.stage = .connect ∧ server.conns f.request.clt = some c ∧ c ≠ f.conn) ∨
          (f.stage = .select ∧ f.conn = c ∧
            ∃ latest, server.conns f.request.clt = some latest ∧ latest ≠ c)) := by
    intro d c hswap
    obtain ⟨f, hf, hrest⟩ := h.swap d c hswap
    rw [hconns]
    refine ⟨f, ?_, hrest⟩
    rcases hframes with ⟨-, hsame⟩ | ⟨e, g, g', -, hg, -, hconnect, hselect, hupdate, -⟩
    · rw [hsame, hf]
    · have hne : d ≠ e := by
        rintro rfl
        obtain rfl := Option.some.inj (hf.symm.trans hg)
        rcases hrest with ⟨hstage, -⟩ | ⟨hstage, -⟩
        · exact hconnect hstage
        · exact hselect hstage
      rw [hupdate, Function.update_of_ne hne, hf]
  rcases hcases with ⟨-, rfl⟩ | ⟨-, rfl⟩ <;>
  · refine ⟨by simpa only [hconns] using h.entries, hbounded, fun c => ?_, hswap⟩
    have hrefno := h.refno_eq c
    have hcount := hcounts c
    simp only [released, held, hconns, List.count_append] at hrefno ⊢
    omega

/-! ## The sections under `conss_m_` -/

theorem release_cases {d : DispatchId} (hstep : s.release d = some s') :
    ∃ c₀ objs, s.swapping = none ∧ s.Swapping d c₀ ∧ Dropped s.objs objs c₀ ∧
      s' = { s with objs := objs, swapping := some (d, c₀) } := by
  obtain ⟨f, hf, hentry⟩ := Option.bind_eq_some_iff.mp hstep
  obtain ⟨latest, hlatest, hrelease⟩ := Option.bind_eq_some_iff.mp hentry
  split_ifs at hrelease with hfree hconnect hselect
  · obtain ⟨s₁, hdecref, rfl⟩ := Option.map_eq_some_iff.mp hrelease
    obtain ⟨objs, rfl, hdropped⟩ := decref_eq_some hdecref
    exact ⟨latest, objs, hfree.1, ⟨f, hf, .inl ⟨hconnect, hlatest, hfree.2⟩⟩, hdropped, rfl⟩
  · obtain ⟨s₁, hdecref, rfl⟩ := Option.map_eq_some_iff.mp hrelease
    obtain ⟨objs, rfl, hdropped⟩ := decref_eq_some hdecref
    exact ⟨f.conn, objs, hfree.1, ⟨f, hf, .inr ⟨hselect.1, rfl, latest, hlatest, hfree.2⟩⟩,
      hdropped, rfl⟩

theorem Accounted.release (h : s.Accounted) {d : DispatchId} (hstep : s.release d = some s') :
    s'.Accounted := by
  obtain ⟨c₀, objs, hfree, hswap, hdropped, rfl⟩ := release_cases hstep
  refine ⟨h.entries, h.jobs, fun c => ?_, fun e c heq => ?_⟩
  · have hrefno := h.refno_eq c
    have hcount := hdropped.refno c
    simp only [released, held, hfree, Option.map_none, Option.map_some, one_none] at hrefno ⊢
    omega
  · obtain ⟨rfl, rfl⟩ := Prod.mk.inj (Option.some.inj heq)
    exact hswap

theorem Placed.release (h : s.Placed) {d : DispatchId} (hstep : s.release d = some s')
    (haccounted : s'.Accounted) : s'.Placed := by
  obtain ⟨c₀, objs, -, -, hdropped, rfl⟩ := release_cases hstep
  exact h.dropped hdropped haccounted rfl rfl rfl

/-- The section that saves the connection, without the references. -/
theorem serve_connect {d : DispatchId} {f : Dispatch} (hf : s.server.frames d = some f)
    (hstep : s.serve app (.connect d) = some s') :
    f.stage = .connect ∧ s' = { s with server := s.server.connect d f } := by
  obtain ⟨server, hserver, ⟨hearly, -⟩ | ⟨-, rfl⟩⟩ := serve_eq_some hstep
  · cases hearly
  · obtain ⟨g, hg, hstage, heq⟩ := Server.onFrame_eq_some.mp hserver
    obtain rfl := Option.some.inj (hf.symm.trans hg)
    obtain rfl := Option.some.inj heq
    exact ⟨hstage, by simp [exits, dispatchOf, Server.connect]⟩

/-- The section that looks for the latest connection, without the references. -/
theorem serve_select {d : DispatchId} {f : Dispatch} {dead : Bool}
    (hf : s.server.frames d = some f) (hstep : s.serve app (.select d dead) = some s') :
    f.stage = .select ∧
      ((∃ latest, dead = true ∧ s.server.conns f.request.clt = some latest ∧ latest ≠ f.conn ∧
          s' = { s with server := s.server.put d { f with conn := latest, stage := .send } }) ∨
        (¬ (dead = true ∧ s.server.conns f.request.clt ≠ some f.conn) ∧
          s' = { s with server := s.server.put d { f with stage := .send } })) := by
  obtain ⟨server, hserver, ⟨hearly, -⟩ | ⟨-, rfl⟩⟩ := serve_eq_some hstep
  · cases hearly
  · obtain ⟨g, hg, hstage, hselect⟩ := Server.onFrame_eq_some.mp hserver
    obtain rfl := Option.some.inj (hf.symm.trans hg)
    refine ⟨hstage, ?_⟩
    rw [Server.select] at hselect
    split_ifs at hselect with hswitch
    · obtain ⟨latest, hlatest, rfl⟩ := Option.map_eq_some_iff.mp hselect
      refine .inl ⟨latest, hswitch.1, hlatest, fun heq => ?_, by simp [exits, dispatchOf]⟩
      exact hswitch.2 (heq ▸ hlatest)
    · obtain rfl := Option.some.inj hselect
      exact .inr ⟨hswitch, by simp [exits, dispatchOf]⟩

/-- How the table of the latest connections changes, and where the reference goes. -/
theorem connect_cases {d : DispatchId} (hstep : s.connect app d = some s') :
    ∃ f, s.server.frames d = some f ∧ f.stage = .connect ∧
      ((∃ c₀, s.swapping = some (d, c₀) ∧
          s' = { s with swapping := none, server := s.server.connect d f }.incref f.conn) ∨
        (s.swapping = none ∧ s.server.conns f.request.clt = none ∧
          s' = { s with server := s.server.connect d f }.incref f.conn) ∨
        (s.swapping = none ∧ s.server.conns f.request.clt = some f.conn ∧
          s' = { s with server := s.server.connect d f })) := by
  obtain ⟨f, hf, hconnect⟩ := Option.bind_eq_some_iff.mp hstep
  split at hconnect
  · next e c₀ hswap =>
      split_ifs at hconnect with he
      subst he
      obtain ⟨s₁, hserve, rfl⟩ := Option.map_eq_some_iff.mp hconnect
      obtain ⟨hstage, rfl⟩ := serve_connect (s := { s with swapping := none }) hf hserve
      exact ⟨f, hf, hstage, .inl ⟨c₀, hswap, rfl⟩⟩
  · next hfree =>
      split_ifs at hconnect with hnew hsame
      · obtain ⟨s₁, hserve, rfl⟩ := Option.map_eq_some_iff.mp hconnect
        obtain ⟨hstage, rfl⟩ := serve_connect hf hserve
        exact ⟨f, hf, hstage, .inr (.inl ⟨hfree, hnew, rfl⟩)⟩
      · obtain ⟨hstage, rfl⟩ := serve_connect hf hconnect
        exact ⟨f, hf, hstage, .inr (.inr ⟨hfree, hsame, rfl⟩)⟩

/-- How a job changes from a dead connection to another one, and where the reference
goes. -/
theorem select_cases (h : s.Accounted) {d : DispatchId} (hstep : s.select app d = some s') :
    ∃ f, s.server.frames d = some f ∧ f.stage = .select ∧
      ((∃ latest, s.swapping = some (d, f.conn) ∧
          s.server.conns f.request.clt = some latest ∧ latest ≠ f.conn ∧
          s' = { s with
            swapping := none
            server := s.server.put d { f with conn := latest, stage := .send } }.incref
              latest) ∨
        (s.swapping = none ∧
          s' = { s with server := s.server.put d { f with stage := .send } })) := by
  obtain ⟨f, hf, hselect⟩ := Option.bind_eq_some_iff.mp hstep
  split at hselect
  · next e c₀ hswap =>
      split_ifs at hselect with he
      subst he
      obtain ⟨latest, hlatest, hnext⟩ := Option.bind_eq_some_iff.mp hselect
      obtain ⟨s₁, hserve, rfl⟩ := Option.map_eq_some_iff.mp hnext
      obtain ⟨hstage, hcases⟩ := serve_select (s := { s with swapping := none }) hf hserve
      obtain ⟨g, hg, ⟨hconnect, -⟩ | ⟨-, rfl, other, hother, hne⟩⟩ := h.swap e c₀ hswap
      · obtain rfl := Option.some.inj (hf.symm.trans hg)
        rw [hstage] at hconnect
        cases hconnect
      obtain rfl := Option.some.inj (hf.symm.trans hg)
      obtain rfl := Option.some.inj (hlatest.symm.trans hother)
      refine ⟨f, hf, hstage, .inl ⟨latest, hswap, hlatest, hne, ?_⟩⟩
      rcases hcases with ⟨other, -, hsame, -, rfl⟩ | ⟨hstays, -⟩
      · obtain rfl := Option.some.inj (hlatest.symm.trans hsame)
        rfl
      · refine absurd ⟨rfl, fun heq => hne ?_⟩ hstays
        exact Option.some.inj (hlatest.symm.trans heq)
  · next hfree =>
      split_ifs at hselect with hswitch
      obtain ⟨hstage, ⟨latest, hdead, hlatest, hne, -⟩ | ⟨-, rfl⟩⟩ := serve_select hf hselect
      · exact absurd ⟨hdead, fun heq => hne (Option.some.inj (hlatest.symm.trans heq))⟩ hswitch
      · exact ⟨f, hf, hstage, .inr ⟨hfree, rfl⟩⟩

/-- The numbers after a client's entry has been written. -/
theorem count_connect (h : s.Accounted) {d : DispatchId} {f : Dispatch}
    (hf : s.server.frames d = some f) (hstage : f.stage = .connect) :
    Bounded (s.server.connect d f).conns ∧ Bounded (atWork (s.server.connect d f).frames) ∧
      ∀ c, count (s.server.connect d f).conns c + one (s.server.conns f.request.clt) c =
          count s.server.conns c + one (some f.conn) c ∧
        count (atWork (s.server.connect d f).frames) c = count (atWork s.server.frames) c := by
  have hframes : (s.server.connect d f).frames =
      Function.update s.server.frames d (some { f with stage := .check }) := rfl
  have hwork := atWork_of_stage hf (show f.stage ≠ .ended by simp [hstage])
  have hsame : atWork (s.server.connect d f).frames = atWork s.server.frames := by
    rw [hframes, atWork_update, Dispatch.working_of_ne (by simp), ← hwork,
      Function.update_eq_self]
  refine ⟨h.entries.update _ _, hsame ▸ h.jobs, fun c => ⟨?_, by rw [hsame]⟩⟩
  exact count_update h.entries f.request.clt (some f.conn) c

/-- What the section that saves a connection has given back is the entry before it, which
is another connection. -/
theorem Accounted.swapped_connect (h : s.Accounted) {d : DispatchId} {f : Dispatch}
    (hf : s.server.frames d = some f) (hstage : f.stage = .connect) {c₀ : ConnId}
    (hswap : s.swapping = some (d, c₀)) :
    s.server.conns f.request.clt = some c₀ ∧ c₀ ≠ f.conn := by
  obtain ⟨g, hg, ⟨-, hentry, hne⟩ | ⟨hselect, -⟩⟩ := h.swap d c₀ hswap
  · obtain rfl := Option.some.inj (hf.symm.trans hg)
    exact ⟨hentry, hne⟩
  · obtain rfl := Option.some.inj (hf.symm.trans hg)
    rw [hstage] at hselect
    cases hselect

theorem Accounted.connect (h : s.Accounted) {d : DispatchId}
    (hstep : s.connect app d = some s') : s'.Accounted := by
  obtain ⟨f, hf, hstage, hcases⟩ := connect_cases hstep
  obtain ⟨hentries, hjobs, hcount⟩ := count_connect h hf hstage
  rcases hcases with ⟨c₀, hswap, rfl⟩ | ⟨hfree, hnew, rfl⟩ | ⟨hfree, hsame, rfl⟩
  · refine ⟨hentries, hjobs, fun c => ?_, fun e c heq => by cases heq⟩
    have hrefno := h.refno_eq c
    obtain ⟨hconns, hwork⟩ := hcount c
    rw [(h.swapped_connect hf hstage hswap).1] at hconns
    rw [refno_incref]
    simp only [released, held, hswap, Option.map_some, Option.map_none, one_none, incref]
      at hrefno ⊢
    omega
  · refine ⟨hentries, hjobs, fun c => ?_, fun e c heq => by rw [incref, hfree] at heq; cases heq⟩
    have hrefno := h.refno_eq c
    obtain ⟨hconns, hwork⟩ := hcount c
    rw [hnew] at hconns
    rw [refno_incref]
    simp only [released, held, hfree, Option.map_none, one_none, incref] at hrefno hconns ⊢
    omega
  · refine ⟨hentries, hjobs, fun c => ?_, fun e c heq => by rw [hfree] at heq; cases heq⟩
    have hrefno := h.refno_eq c
    obtain ⟨hconns, hwork⟩ := hcount c
    rw [hsame] at hconns
    simp only [released, held, hfree, Option.map_none, one_none] at hrefno ⊢
    omega

theorem Placed.connect (h : s.Placed) (haccounted : s.Accounted) {d : DispatchId}
    (hstep : s.connect app d = some s') : s'.Placed := by
  obtain ⟨f, hf, hstage, hcases⟩ := connect_cases hstep
  have hwork := atWork_of_stage hf (show f.stage ≠ .ended by simp [hstage])
  have hpos := count_pos haccounted.jobs hwork
  rcases hcases with ⟨c₀, hswap, rfl⟩ | ⟨hfree, -, rfl⟩ | ⟨-, -, rfl⟩
  · have hne : s.swapping.map Prod.snd ≠ some f.conn := by
      simpa [hswap] using (haccounted.swapped_connect hf hstage hswap).2
    exact h.incref (lt_made haccounted h hne (by omega)) rfl rfl rfl rfl
  · exact h.incref (lt_made haccounted h (by simp [hfree]) (by omega)) rfl rfl rfl rfl
  · exact h.congr rfl rfl rfl rfl

theorem Accounted.select (h : s.Accounted) {d : DispatchId}
    (hstep : s.select app d = some s') : s'.Accounted := by
  obtain ⟨f, hf, hstage, hcases⟩ := select_cases h hstep
  have hwork := atWork_of_stage hf (show f.stage ≠ .ended by simp [hstage])
  rcases hcases with ⟨latest, hswap, hlatest, hne, rfl⟩ | ⟨hfree, rfl⟩
  · have hatwork : atWork (s.server.put d { f with conn := latest, stage := .send }).frames =
        Function.update (atWork s.server.frames) d (some latest) := by
      simp only [Server.put, atWork_update, Dispatch.working]
      rfl
    refine ⟨h.entries, hatwork ▸ h.jobs.update _ _, fun c => ?_, fun e c heq => by cases heq⟩
    have hrefno := h.refno_eq c
    have hcount := count_update h.jobs d (some latest) c
    rw [hwork, ← hatwork] at hcount
    rw [refno_incref]
    simp only [released, held, hswap, Option.map_some, Option.map_none, one_none, incref]
      at hrefno ⊢
    simp only [Server.put] at hcount ⊢
    omega
  · have hatwork : atWork (s.server.put d { f with stage := .send }).frames =
        atWork s.server.frames := by
      simp only [Server.put, atWork_update, Dispatch.working_of_ne (f := { f with stage := .send })
        (by simp), ← hwork, Function.update_eq_self]
    refine ⟨h.entries, hatwork ▸ h.jobs, fun c => ?_, fun e c heq => by
      rw [hfree] at heq; cases heq⟩
    have hrefno := h.refno_eq c
    simp only [released, held, hfree, hatwork] at hrefno ⊢
    exact hrefno

theorem Placed.select (h : s.Placed) (haccounted : s.Accounted) {d : DispatchId}
    (hstep : s.select app d = some s') : s'.Placed := by
  obtain ⟨f, hf, hstage, ⟨latest, hswap, hlatest, hne, rfl⟩ | ⟨-, rfl⟩⟩ :=
    select_cases haccounted hstep
  · have hpos := count_pos haccounted.entries hlatest
    refine h.incref (lt_made haccounted h ?_ (by omega)) rfl rfl rfl rfl
    simpa [hswap] using hne.symm
  · exact h.congr rfl rfl rfl rfl

/-! ## Every step -/

/-- A connection is found dead. -/
theorem Placed.die (h : s.Placed) {c₀ : ConnId} (hc₀ : c₀ < s.made) :
    Placed { s with objs := Function.update s.objs c₀ { s.objs c₀ with dead := true } } := by
  have hsame : ∀ c,
      (Function.update s.objs c₀ { s.objs c₀ with dead := true } c).fd = (s.objs c).fd ∧
        (Function.update s.objs c₀ { s.objs c₀ with dead := true } c).deleted =
          (s.objs c).deleted := by
    intro c
    by_cases hc : c = c₀
    · subst hc
      simp
    · simp [hc]
  refine h.objs_congr rfl rfl rfl (fun c => (hsame c).1) (fun c hdel => (hsame c).2.trans hdel)
    (fun c hkeeps => (hsame c).2.trans (h.intact c hkeeps)) fun c hc => ?_
  rw [← h.fresh c hc]
  exact Function.update_of_ne (Nat.lt_of_lt_of_le hc₀ hc).ne' ..

theorem Accounted.die (h : s.Accounted) (c₀ : ConnId) :
    Accounted { s with objs := Function.update s.objs c₀ { s.objs c₀ with dead := true } } := by
  refine ⟨h.entries, h.jobs, fun c => (congrArg (· + (released s c : ℤ)) ?_).trans (h.refno_eq c),
    h.swap⟩
  by_cases hc : c = c₀
  · subst hc
    simp
  · simp [hc]

theorem accounted_step {label : Label} (h : s.Accounted ∧ s.Placed)
    (hstep : s.step app label = some s') : s'.Accounted ∧ s'.Placed := by
  obtain ⟨haccounted, hplaced⟩ := h
  have hserve : ∀ {l : Server.Label}, keepsConns l = true → s.serve app l = some s' →
      s'.Accounted ∧ s'.Placed :=
    fun hkeeps hs => ⟨haccounted.serve hkeeps hs, hplaced.serve hs⟩
  cases label with
  | accept fd => exact ⟨haccounted.accept hplaced hstep, hplaced.accept hstep⟩
  | isdead => exact ⟨haccounted.isdead hstep, hplaced.isdead hstep⟩
  | ref => exact ⟨haccounted.ref hstep, hplaced.ref hstep⟩
  | collect =>
      have hafter := haccounted.collect hstep
      exact ⟨hafter, hplaced.collect hstep hafter⟩
  | erase => exact ⟨haccounted.erase hplaced hstep, hplaced.erase hstep⟩
  | insert => exact ⟨haccounted.insert hplaced hstep, hplaced.insert hstep⟩
  | die c₀ =>
      obtain ⟨⟨hlt, -⟩, heq⟩ := Option.ite_none_right_eq_some.mp hstep
      obtain rfl := Option.some.inj heq
      exact ⟨haccounted.die c₀, hplaced.die hlt⟩
  | gotPdu c pdu => exact ⟨haccounted.gotPdu hstep, hplaced.gotPdu hstep⟩
  | addJob d ok => exact ⟨haccounted.addJob hstep, hplaced.addJob hstep⟩
  | giveBack =>
      have hafter := haccounted.giveBack hstep
      exact ⟨hafter, hplaced.giveBack hstep hafter⟩
  | dispatch l =>
      cases l with
      | receive => cases hstep
      | connect d => exact ⟨haccounted.connect hstep, hplaced.connect haccounted hstep⟩
      | select d dead => exact ⟨haccounted.select hstep, hplaced.select haccounted hstep⟩
      | _ => exact hserve rfl hstep
  | release d =>
      have hafter := haccounted.release hstep
      exact ⟨hafter, hplaced.release hstep hafter⟩
  | leave i =>
      have hafter := haccounted.leave hstep
      exact ⟨hafter, hplaced.leave hstep hafter⟩

/-- The balance, in every run. -/
theorem accounted_of_run {nonce : UInt32} {guard : Registry σ → Label → Prop}
    {labels : List Label} {reached : Registry σ}
    (hrun : (system app nonce).Run guard labels reached) : reached.Accounted ∧ reached.Placed := by
  refine hrun.invariant (fun s => s.Accounted ∧ s.Placed) ?_
    fun _ h _ hstep => accounted_step h hstep
  have hwork : atWork (fun _ => none) = fun _ => none := rfl
  refine ⟨⟨bounded_none, bounded_none, fun c => ?_, fun d c hswap => by cases hswap⟩,
    ⟨fun c hkeeps => rfl, (fun entry hmem => by cases hmem), (fun ch hch => by cases hch), .nil,
      .refl _, fun c c' hc => absurd hc (Nat.not_lt_zero _), fun c _ => rfl⟩⟩
  simp [released, held, system, Server.start, Acceptor.ch, Acceptor.erased, Reader.conn,
    SortedMap.values, SortedMap.empty, hwork]

end YfsLab.Rpc.Registry
