/-
# Duplicates that are dropped

A dispatch that finds its request in progress ends without a reply. Its connection gets
one from the dispatch that works on the request, if that one chooses the connection when
its time comes. As long as every choice does so for all the duplicates that have been
dropped on live connections, each of these has been answered, or is going to be.
-/

import YfsLab.Rpc.Answers

namespace YfsLab.Rpc.Server

open BigEndian Transition Wire

variable {σ : Type} {app : Service σ}

/-- A request of this client with this xid has come over a connection and has been
dropped because it was in progress. -/
def Event.drops (clt xid : UInt32) (n : ConnId) : Event → Bool
  | .checked _ conn request .inProgress => conn == n && isOf clt xid request
  | _ => false

/-- A dispatch is going to answer on a connection, or has yet to choose one. -/
def owes (n : ConnId) (f : Dispatch) : Bool :=
  match f.stage with
  | .run | .running | .record | .select => true
  | .send => f.conn == n
  | _ => false

/-- A request has been answered on a connection, or is going to be, unless another
connection is chosen. -/
def Pending (source : Server σ × List Event) (clt xid : UInt32) (n : ConnId) : Prop :=
  (∃ event ∈ source.2, event.answers clt xid n = true) ∨
    ∃ d f, source.1.frames d = some f ∧ isOf clt xid f.request = true ∧ owes n f = true

/-- No duplicate that has been dropped on a live connection is forgotten. -/
def NoneLost (live : ConnId → Bool) (source : Server σ × List Event) : Prop :=
  ∀ clt xid n, (∃ event ∈ source.2, event.drops clt xid n = true) → live n = true →
    Pending source clt xid n

/-- The choice of a connection for the reply of a dispatch reaches every live connection
on which a duplicate has been dropped: it is the connection of the dispatch itself, or
that one is dead and it is the latest connection of the client. -/
def reaches (live : ConnId → Bool) (source : Server σ × List Event) (f : Dispatch)
    (dead : Bool) : Bool :=
  source.2.all fun event =>
    match event with
    | .checked _ n request .inProgress =>
        !isOf f.request.clt f.request.xid request || !live n || n == f.conn ||
          (dead && source.1.conns f.request.clt == some n)
    | _ => true

theorem reaches_of_drops {live : ConnId → Bool} {source : Server σ × List Event} {f : Dispatch}
    {dead : Bool} (hreaches : reaches live source f dead = true) {n : ConnId} {event : Event}
    (hmem : event ∈ source.2)
    (hdrops : event.drops f.request.clt f.request.xid n = true) (hlive : live n = true) :
    n = f.conn ∨ dead = true ∧ source.1.conns f.request.clt = some n := by
  have hevent := List.all_eq_true.mp hreaches event hmem
  unfold Event.drops at hdrops
  split at hdrops
  · obtain ⟨rfl, hkey⟩ : _ = n ∧ _ := by simpa using hdrops
    simpa [hkey, hlive] using hevent
  · cases hdrops

/-- A dispatch that owes a reply on a connection goes on to send it, if the connection
is the one that it chooses. -/
theorem owes_of_section {s target : Server σ} {label : Label}
    (hsection : Section app s label target) {n : ConnId} {d : DispatchId} {f : Dispatch}
    (hf : s.frames d = some f) (howes : owes n f = true)
    (hselect : ∀ dead, label = .select d dead →
      n = f.conn ∧ dead = false ∨ dead = true ∧ s.conns f.request.clt = some n) :
    (∃ event ∈ events app s label, event.answers f.request.clt f.request.xid n = true) ∨
      ∃ f', target.frames d = some f' ∧ f'.request = f.request ∧ owes n f' = true := by
  -- a section that moves another dispatch, or this one without a reply
  have hput : ∀ {base : Server σ} {e : DispatchId} {g g' : Dispatch}, base.frames = s.frames →
      s.frames e = some g → g'.request = g.request →
      (d = e → owes n g = true → owes n g' = true) →
      ∃ f', (base.put e g').frames d = some f' ∧ f'.request = f.request ∧
        owes n f' = true :=
    fun hbase hg hrequest hkeep => kept_put hbase hg hrequest hkeep hf howes
  cases hsection with
  | dropped | stirred => exact .inr ⟨f, hf, rfl, howes⟩
  | @received e _ _ _ hfresh =>
      have hd : d ≠ e := by
        rintro rfl
        rw [hfresh] at hf
        cases hf
      exact .inr ⟨f, by rwa [frames_put_of_ne s hd], rfl, howes⟩
  | checked hg hstage =>
      refine .inr (hput rfl hg (follow_request _ _) fun _ howes => ?_)
      simp [owes, hstage] at howes
  | waits hg => exact .inr (hput rfl hg rfl fun _ _ => rfl)
  | returned hg =>
      refine .inr (hput rfl hg rfl fun _ _ => ?_)
      simp only [owes]
      split_ifs <;> rfl
  | recorded hg => exact .inr (hput rfl hg rfl fun _ _ => rfl)
  | @switched e g conn hg _ hconn =>
      refine .inr (hput rfl hg rfl fun hd _ => ?_)
      subst hd
      obtain rfl := Option.some.inj (hf.symm.trans hg)
      rcases hselect true rfl with ⟨-, hdead⟩ | ⟨-, hlatest⟩
      · cases hdead
      · obtain rfl := Option.some.inj (hconn.symm.trans hlatest)
        simp [owes]
  | @stays e g dead hg _ halive =>
      refine .inr (hput rfl hg rfl fun hd _ => ?_)
      subst hd
      obtain rfl := Option.some.inj (hf.symm.trans hg)
      rcases hselect dead rfl with ⟨rfl, -⟩ | ⟨hdead, hlatest⟩
      · simp [owes]
      · obtain rfl := Option.some.inj ((halive hdead).symm.trans hlatest)
        simp [owes]
  | @sent e g hg hstage =>
      by_cases hd : d = e
      · subst hd
        obtain rfl := Option.some.inj (hf.symm.trans hg)
        obtain rfl : f.conn = n := by simpa [owes, hstage] using howes
        exact .inl ⟨.sent d f.conn f.request (s.intact f), by simp [events, hf],
          by simp [Event.answers, isOf]⟩
      · exact .inr (hput rfl hg rfl fun heq => absurd heq hd)
  | old hg hstage | unregistered hg hstage | vetted hg hstage | enrolled hg hstage
  | connected hg hstage | refused hg hstage =>
      refine .inr (hput rfl hg rfl fun _ howes => ?_)
      simp [owes, hstage] at howes

/-- A request stays pending if its connection is chosen. -/
theorem Pending.of_section {s target : Server σ} {history : List Event} {label : Label}
    (hsection : Section app s label target) {clt xid : UInt32} {n : ConnId}
    (h : Pending (s, history) clt xid n)
    (hselect : ∀ d dead f, label = .select d dead → s.frames d = some f →
      isOf clt xid f.request = true →
        n = f.conn ∧ dead = false ∨ dead = true ∧ s.conns f.request.clt = some n) :
    Pending (target, history ++ events app s label) clt xid n := by
  rcases h with ⟨event, hmem, hanswers⟩ | ⟨d, f, hf, hkey, howes⟩
  · exact .inl ⟨event, List.mem_append_left _ hmem, hanswers⟩
  · obtain ⟨hclt, hxid⟩ := isOf_iff.mp hkey
    rcases owes_of_section hsection hf howes (fun dead hlabel => hselect d dead f hlabel hf hkey)
      with ⟨event, hmem, hanswers⟩ | ⟨f', hf', hrequest, howes'⟩
    · exact .inl ⟨event, List.mem_append_right _ hmem, hclt ▸ hxid ▸ hanswers⟩
    · exact .inr ⟨d, f', hf', by rw [hrequest, hkey], howes'⟩

theorem owes_of_producing {f : Dispatch} (hproducing : producing f.stage = true) (n : ConnId) :
    owes n f = true := by
  cases hstage : f.stage <;> simp_all [owes, producing]

/-- An entry in progress has no reply yet. -/
theorem exists_open_of_inProgress {s : ReplyStore} {clt xid xidRep : UInt32}
    (hverdict : (s.checkduplicateAndUpdate clt xid xidRep).2 = .inProgress) :
    ∃ reply ∈ s.entries clt, reply.xid = xid ∧ reply.cbPresent = false := by
  rcases s.check_cases clt xid xidRep with ⟨-, hcheck⟩ | ⟨-, -, hcheck⟩ |
    ⟨-, reply, hmem, hxid, hcheck⟩
  · rw [hcheck] at hverdict
    cases hverdict
  · rw [hcheck] at hverdict
    cases hverdict
  · refine ⟨reply, (ReplyStore.mem_kept.mp hmem).1, hxid, ?_⟩
    by_contra hpresent
    rw [hcheck] at hverdict
    simp [hpresent] at hverdict

/-- A dispatch drops a request only if another one is going to record its reply. -/
theorem pending_of_drops {s target : Server σ} {history : List Event} {label : Label}
    (hp : Progress app (s, history)) (hstep : s.step app label = some target)
    {clt xid : UInt32} {n : ConnId} {event : Event} (hmem : event ∈ events app s label)
    (hdrops : event.drops clt xid n = true) :
    Pending (target, history ++ events app s label) clt xid n := by
  cases emits_of_mem hmem with
  | @checked d f hf =>
      obtain ⟨_, hframe, hstage, hnext⟩ := onFrame_eq_some.mp hstep
      obtain rfl := Option.some.inj (hf.symm.trans hframe)
      obtain rfl := Option.some.inj hnext
      unfold Event.drops at hdrops
      split at hdrops
      case h_2 => cases hdrops
      next heq =>
      obtain ⟨rfl, rfl, rfl, hverdict⟩ := Event.checked.inj heq
      obtain ⟨hclt, hxid⟩ := isOf_iff.mp (Bool.and_eq_true_iff.mp hdrops).2
      obtain ⟨reply, hreply, hrxid, hopen⟩ := exists_open_of_inProgress hverdict
      have hknown := hp.known d f hf (by rw [hstage]; rfl)
      obtain ⟨e, g, hg, hkey, hproducing⟩ := hp.maker _ hknown reply hreply hopen
      have hne : e ≠ d := by
        rintro rfl
        obtain rfl := Option.some.inj (hf.symm.trans hg)
        rw [hstage] at hproducing
        cases hproducing
      refine .inr ⟨e, g, (frames_put_of_ne _ hne _).trans hg, ?_, owes_of_producing hproducing n⟩
      rw [← hclt, ← hxid, ← hrxid, hkey]
  | entered | produced | sent | refused => cases hdrops

/-- Each section keeps every dropped duplicate in mind, if the choices reach them all. -/
theorem NoneLost.step {nonce : UInt32} {source target : Server σ × List Event} {label : Label}
    {live live' : ConnId → Bool} (h : NoneLost live source) (hp : Progress app source)
    (hstep : (logged app nonce).step source label = some target)
    (hlive : ∀ n, live' n = true → live n = true)
    (hselect : ∀ d dead f, label = .select d dead → source.1.frames d = some f →
      reaches live source f dead = true ∧ (dead = true → live f.conn = false)) :
    NoneLost live' target := by
  obtain ⟨hnext, hlog⟩ := System.recorded_step_eq_some.mp hstep
  have hnext' : source.1.step app label = some target.1 := hnext
  rintro clt xid n ⟨event, hmem, hdrops⟩ hn
  obtain ⟨s', history'⟩ := target
  obtain rfl : history' = _ := hlog
  rcases List.mem_append.mp hmem with hold | hnew
  · refine Pending.of_section (section_of_step hnext') (h clt xid n ⟨event, hold, hdrops⟩
      (hlive n hn)) fun d dead f hlabel hf hkey => ?_
    obtain ⟨hreaches, hdead⟩ := hselect d dead f hlabel hf
    obtain ⟨rfl, rfl⟩ := isOf_iff.mp hkey
    rcases reaches_of_drops hreaches hold hdrops (hlive n hn) with rfl | hlatest
    · refine .inl ⟨rfl, ?_⟩
      by_contra halive
      have hlost := hdead (by simpa using halive)
      rw [hlive _ hn] at hlost
      cases hlost
    · exact .inr hlatest
  · exact pending_of_drops hp hnext' hnew hdrops

end YfsLab.Rpc.Server
