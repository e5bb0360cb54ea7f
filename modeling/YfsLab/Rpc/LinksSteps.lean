/-
# What a step of a client with its connections does

The steps of `get_refconn`, of the rest of `call1` and of `~rpcc`, by cases. Each case
says where `get_refconn` stands and what was found, which reference is given back, and
what is left.
-/

import YfsLab.Rpc.ClientReferences

namespace YfsLab.Rpc

open BigEndian Holders Transition

/-- The sections that move no reference. -/
def Client.keepsRefs : Client.Label → Bool
  | .refconn .. | .finish _ => false
  | _ => true

namespace Links

variable {s s' : Links}

theorem decrefAny_eq_some {o : Option ConnId} (hdecref : s.decrefAny o = some s') :
    ∃ objs, s' = { s with objs := objs } ∧ Given s.objs objs o := by
  cases o with
  | none =>
      obtain rfl := Option.some.inj hdecref
      exact ⟨s.objs, rfl, .none s.objs⟩
  | some c =>
      obtain ⟨o, ho, rfl⟩ := Option.map_eq_some_iff.mp hdecref
      exact ⟨_, rfl, given_of_dropped (Registry.dropped_of_decref ho)⟩

/-- What a step finds and what it leaves. -/
inductive Section (s : Links) : Label → Links → Prop
  | locked {k : CallId} {call : Call} (hfree : s.refconn = .free) (halive : s.ending = .alive)
      (hcall : s.client.frames k = some call) (hphase : call.phase = .transmit) :
      Section s (.lock k) { s with refconn := .testing k }
  | absent {k : CallId} (hrefconn : s.refconn = .testing k) (hchan : s.client.chan = none) :
      Section s .test { s with refconn := .connecting k }
  | stale {k : CallId} {c : ConnId} (hrefconn : s.refconn = .testing k)
      (hchan : s.client.chan = some c) (hdead : (s.objs c).dead = true) :
      Section s .test { s with refconn := .dropping k }
  | good {k : CallId} {c : ConnId} (hrefconn : s.refconn = .testing k)
      (hchan : s.client.chan = some c) :
      Section s .test { s with refconn := .passing k false (some c) }
  | dropped {k : CallId} {objs : ConnId → ConnObj} (hrefconn : s.refconn = .dropping k)
      (hgiven : Given s.objs objs s.client.chan) :
      Section s .drop { s with objs := objs, refconn := .connecting k }
  | connected {k : CallId} (hrefconn : s.refconn = .connecting k) :
      Section s (.connect true)
        { s with
          made := s.made + 1
          objs := Function.update s.objs s.made { refno := 1 }
          refconn := .passing k true (some s.made) }
  | unreachable {k : CallId} (hrefconn : s.refconn = .connecting k) :
      Section s (.connect false) { s with refconn := .passing k true none }
  | gone {k : CallId} {replaced : Bool} {chan : ConnId} {objs : ConnId → ConnObj}
      (hrefconn : s.refconn = .passing k replaced (some chan))
      (hgiven : Given s.objs objs (s.ch k)) :
      Section s .letGo { s with objs := objs, refconn := .taking k replaced chan }
  | taken {k : CallId} {replaced : Bool} {chan : ConnId} {client : Client}
      (hrefconn : s.refconn = .taking k replaced chan)
      (hclient : s.client.step (.refconn k replaced (some chan)) = some client) :
      Section s .take
        { s with
          client := client
          objs := Function.update s.objs chan (s.objs chan).incref
          refconn := .free }
  | skipped {k : CallId} {replaced : Bool} {client : Client}
      (hrefconn : s.refconn = .passing k replaced none)
      (hclient : s.client.step (.refconn k replaced none) = some client) :
      Section s .skip { s with client := client, refconn := .free }
  | started {k : CallId} {proc : Int32} {args : Bytes} {client : Client}
      (halive : s.ending = .alive)
      (hclient : s.client.step (.start k proc args) = some client) :
      Section s (.client (.start k proc args))
        { s with client := client, calls := s.calls ++ [k] }
  | worked {label part : Client.Label} {client : Client} (halive : s.ending = .alive)
      (hlabel : Client.keepsRefs label = true) (hkeeps : Client.keepsRefs part = true)
      (hstart : ∀ k proc args, part ≠ .start k proc args)
      (hclient : s.client.step part = some client) :
      Section s (.client label) { s with client := client }
  | finished {k : CallId} {call : Call} {objs : ConnId → ConnObj} (halive : s.ending = .alive)
      (hcall : s.client.frames k = some call) (hphase : call.phase = .returning)
      (hclient : s.client.step (.finish k) = some (s.client.put k call.finish))
      (hgiven : Given s.objs objs (s.ch k)) :
      Section s (.client (.finish k))
        { s with client := s.client.put k call.finish, objs := objs }
  | died {c : ConnId} (hc : c < s.made) :
      Section s (.die c)
        { s with objs := Function.update s.objs c { s.objs c with dead := true } }
  | closedEmpty (halive : s.ending = .alive) (hfree : s.refconn = .free)
      (hover : ∀ k ∈ s.calls, ∀ call, s.client.frames k = some call → call.result.isSome = true)
      (hchan : s.client.chan = none) : Section s .close { s with ending := .gone }
  | closed {c : ConnId} (halive : s.ending = .alive) (hfree : s.refconn = .free)
      (hover : ∀ k ∈ s.calls, ∀ call, s.client.frames k = some call → call.result.isSome = true)
      (hchan : s.client.chan = some c) :
      Section s .close
        { s with
          objs := Function.update s.objs c { s.objs c with dead := true }
          ending := .closed }
  | discarded {objs : ConnId → ConnObj} (hclosed : s.ending = .closed)
      (hgiven : Given s.objs objs s.client.chan) :
      Section s .discard { s with objs := objs, ending := .gone }

/-- A section of the client that moves no reference. -/
theorem work_cases {label : Client.Label} (hstep : s.work label = some s') :
    s.ending = .alive ∧ ∃ client, s.client.step label = some client ∧
      s' = { s with client := client } := by
  obtain ⟨halive, hmoved⟩ := Option.ite_none_right_eq_some.mp hstep
  obtain ⟨client, hclient, rfl⟩ := Option.map_eq_some_iff.mp hmoved
  exact ⟨halive, client, hclient, rfl⟩

theorem section_of_test (hstep : s.test = some s') : Section s .test s' := by
  rw [Links.test] at hstep
  split at hstep
  · next k hrefconn =>
      obtain rfl := Option.some.inj hstep
      cases hchan : s.client.chan with
      | none => exact .absent hrefconn hchan
      | some c =>
          simp only
          split_ifs with hdead
          · exact .stale hrefconn hchan hdead
          · exact .good hrefconn hchan
  · cases hstep

theorem section_of_close (hstep : s.close = some s') : Section s .close s' := by
  obtain ⟨⟨halive, hfree, hover⟩, heq⟩ := Option.ite_none_right_eq_some.mp hstep
  have hresult : ∀ k ∈ s.calls, ∀ call, s.client.frames k = some call →
      call.result.isSome = true := by
    intro k hk call hcall
    have hall := List.all_eq_true.mp hover k hk
    simpa [hcall] using hall
  split at heq
  · next hchan =>
      obtain rfl := Option.some.inj heq
      exact .closedEmpty halive hfree hresult hchan
  · next c hchan =>
      obtain rfl := Option.some.inj heq
      exact .closed halive hfree hresult hchan

/-- The sections of `call1` outside `get_refconn`. -/
theorem section_of_client {label : Client.Label} (hstep : s.step (.client label) = some s') :
    Section s (.client label) s' := by
  have hwork : ∀ {part : Client.Label}, Client.keepsRefs label = true →
      Client.keepsRefs part = true → (∀ k proc args, part ≠ .start k proc args) →
      s.work part = some s' → Section s (.client label) s' := by
    intro part hlabel hkeeps hstart hpart
    obtain ⟨halive, client, hclient, rfl⟩ := work_cases hpart
    exact .worked halive hlabel hkeeps hstart hclient
  cases label with
  | start k proc args =>
      obtain ⟨target, hstarted, rfl⟩ := Option.map_eq_some_iff.mp hstep
      obtain ⟨halive, client, hclient, rfl⟩ := work_cases hstarted
      exact .started halive hclient
  | refconn => cases hstep
  | finish k =>
      obtain ⟨target, hworked, hdecref⟩ := Option.bind_eq_some_iff.mp hstep
      obtain ⟨halive, client, hclient, rfl⟩ := work_cases hworked
      obtain ⟨objs, rfl, hgiven⟩ := decrefAny_eq_some hdecref
      have hreturns := hclient
      obtain ⟨call, hcall, hphase, rfl⟩ := Client.onCall_eq_some.mp hreturns
      exact .finished halive hcall (by simpa using hphase) hclient hgiven
  | retry k dead last => exact hwork rfl rfl (by simp) hstep
  | send | wake | expire | erase | gotPdu | bind => exact hwork rfl rfl (by simp) hstep

/-- Every step is one of these. -/
theorem section_of_step {label : Label} (hstep : s.step label = some s') :
    Section s label s' := by
  cases label with
  | lock k =>
      obtain ⟨⟨hfree, halive, hany⟩, heq⟩ := Option.ite_none_right_eq_some.mp hstep
      obtain rfl := Option.some.inj heq
      obtain ⟨call, hcall, hphase⟩ := (Option.any_eq_true _ _).mp hany
      exact .locked hfree halive hcall (by simpa using hphase)
  | test => exact section_of_test hstep
  | drop =>
      simp only [Links.step, Links.drop] at hstep
      split at hstep
      · next k hrefconn =>
          obtain ⟨s₁, hdecref, rfl⟩ := Option.map_eq_some_iff.mp hstep
          obtain ⟨objs, rfl, hgiven⟩ := decrefAny_eq_some hdecref
          exact .dropped hrefconn hgiven
      · cases hstep
  | connect ok =>
      simp only [Links.step, Links.connect] at hstep
      split at hstep
      · next k hrefconn =>
          cases ok with
          | true =>
              obtain rfl := Option.some.inj hstep
              exact .connected hrefconn
          | false =>
              obtain rfl := Option.some.inj hstep
              exact .unreachable hrefconn
      · cases hstep
  | letGo =>
      simp only [Links.step, Links.letGo] at hstep
      split at hstep
      · next k replaced chan hrefconn =>
          obtain ⟨s₁, hdecref, rfl⟩ := Option.map_eq_some_iff.mp hstep
          obtain ⟨objs, rfl, hgiven⟩ := decrefAny_eq_some hdecref
          exact .gone hrefconn hgiven
      · cases hstep
  | take =>
      simp only [Links.step, Links.take] at hstep
      split at hstep
      · next k replaced chan hrefconn =>
          obtain ⟨client, hclient, rfl⟩ := Option.map_eq_some_iff.mp hstep
          exact .taken hrefconn hclient
      · cases hstep
  | skip =>
      simp only [Links.step, Links.skip] at hstep
      split at hstep
      · next k replaced hrefconn =>
          obtain ⟨client, hclient, rfl⟩ := Option.map_eq_some_iff.mp hstep
          exact .skipped hrefconn hclient
      · cases hstep
  | die c =>
      obtain ⟨⟨hc, -⟩, heq⟩ := Option.ite_none_right_eq_some.mp hstep
      obtain rfl := Option.some.inj heq
      exact .died hc
  | close => exact section_of_close hstep
  | discard =>
      obtain ⟨hclosed, hdiscard⟩ := Option.ite_none_right_eq_some.mp hstep
      obtain ⟨s₁, hdecref, rfl⟩ := Option.map_eq_some_iff.mp hdiscard
      obtain ⟨objs, rfl, hgiven⟩ := decrefAny_eq_some hdecref
      exact .discarded hclosed hgiven
  | client label => exact section_of_client hstep

/-- A step is a section of the client, or leaves the client as it is. -/
theorem client_of_step {label : Label} (hstep : s.step label = some s') :
    s'.client = s.client ∨ ∃ part, s.client.step part = some s'.client := by
  cases section_of_step hstep with
  | taken _ hclient | skipped _ hclient | started _ hclient | worked _ _ _ _ hclient
  | finished _ _ _ hclient => exact .inr ⟨_, hclient⟩
  | _ => exact .inl rfl

/-- A client with its connections is a client: its runs are runs of the client, where
`get_refconn` is one section, when it gives `chan_m_` back. -/
theorem exists_client_run {cltNonce : UInt32} {retrans : Bool} {labels : List Label}
    {reached : Links} (hrun : (system cltNonce retrans).Run anyStep labels reached) :
    ∃ parts, (Client.system cltNonce retrans).Run anyStep parts reached.client := by
  refine hrun.project Links.client rfl fun _ _ hstep => ?_
  exact (client_of_step hstep).imp_right fun ⟨part, hpart⟩ => ⟨part, trivial, hpart⟩

end Links

end YfsLab.Rpc
