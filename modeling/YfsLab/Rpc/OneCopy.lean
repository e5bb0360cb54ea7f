/-
# One copy of a request on each connection

`call1` sends its request again only when it has found the connection dead that it has
last been sent on. `dead_` is never reset, and `send` writes nothing on a dead
connection. So all the connections that a request has been handed to are dead when it is
handed to `send` again: on each of them at most one send has written anything, even where
`get_refconn` could not connect and `ch` still is the dead connection.

A client that does not retransmit leaves the loop with its first send.
-/

import YfsLab.Rpc.SystemSteps

namespace YfsLab.Rpc.Net

open BigEndian Transition Wire

variable {σ : Type}

/-! ## The sends of a call -/

/-- A call has handed its request to `send`; `written` says whether the connection was
alive, so that bytes of it have been written. -/
structure Sent where
  i : ClientId
  k : CallId
  conn : ConnId
  written : Bool
  deriving DecidableEq, Repr

/-- What a step hands to `send`. -/
def sends (net : Net σ) : Label → List Sent
  | .send i k _ _ =>
      (((net.clients i).frames k).bind Call.ch).toList.map fun n =>
        { i, k, conn := n, written := !net.cdead n }
  | _ => []

/-- The system with the sends of its calls. -/
def transmitting (setup : Setup σ) : System (Net σ × List Sent) Label :=
  (system setup).recorded sends

/-- The sends of one call. -/
def copies (history : List Sent) (i : ClientId) (k : CallId) : List Sent :=
  history.filter fun sent => sent.i == i && sent.k == k

/-- The sends of one call that have written bytes on a connection. -/
def copiesOn (history : List Sent) (i : ClientId) (k : CallId) (n : ConnId) : List Sent :=
  (copies history i k).filter fun sent => sent.written && sent.conn == n

/-- The phases of `call1` with `transmit` set: it is about to hand its request to
`send`. -/
def transmits : Phase → Bool
  | .transmit | .sending => true
  | _ => false

theorem copies_append (history more : List Sent) (i : ClientId) (k : CallId) :
    copies (history ++ more) i k = copies history i k ++ copies more i k :=
  List.filter_append ..

theorem copiesOn_append (history more : List Sent) (i : ClientId) (k : CallId) (n : ConnId) :
    copiesOn (history ++ more) i k n = copiesOn history i k n ++ copiesOn more i k n := by
  rw [copiesOn, copies_append, List.filter_append]
  rfl

/-- A step that is not the send of a call hands nothing to `send` for it. -/
theorem copies_sends_of_ne {net : Net σ} {label : Label} {i : ClientId} {k : CallId}
    (hlabel : ∀ ok last, label ≠ .send i k ok last) : copies (sends net label) i k = [] := by
  refine List.filter_eq_nil_iff.mpr fun sent hmem => ?_
  cases label with
  | send j l ok last =>
      obtain ⟨n, -, rfl⟩ := List.mem_map.mp hmem
      simp only [Bool.and_eq_true, beq_iff_eq, not_and]
      rintro rfl rfl
      exact hlabel ok last rfl
  | _ => cases hmem

/-- A step hands one request to `send` at most. -/
theorem sends_eq_singleton {net : Net σ} {label : Label} {sent : Sent}
    (hsent : sent ∈ sends net label) : sends net label = [sent] := by
  cases label with
  | send i k ok last =>
      unfold sends at hsent ⊢
      cases hch : ((net.clients i).frames k).bind Call.ch with
      | none => simp [hch] at hsent
      | some n =>
          obtain rfl : sent = { i, k, conn := n, written := !net.cdead n } := by
            simpa [hch] using hsent
          simp [hch]
  | _ => cases hsent

/-- Bytes get onto the way to the server only where a send has been recorded that has
written. -/
theorem sends_of_grown {app : Service σ} {net target : Net σ} {label : Label}
    (hstep : net.step app label = some target) {n : ConnId} {conn conn' : Conn}
    (hconn : net.conns n = some conn) (hconn' : target.conns n = some conn')
    (hgrown : conn.up.length < conn'.up.length) :
    ∃ i k, (⟨i, k, n, true⟩ : Sent) ∈ sends net label := by
  rcases conns_of_step hstep hconn' with ⟨_, _, _, hnone, _⟩ | ⟨before, hbefore, hcarries⟩
  · rw [hconn] at hnone
    cases hnone
  · obtain rfl := Option.some.inj (hconn.symm.trans hbefore)
    cases hcarries with
    | @sentUp i k ok last call hframe hch =>
        have halive : net.cdead n = false := by
          by_contra hdead
          simp only [cdead, hconn, Option.any_some, Bool.not_eq_false] at hdead
          simp [Conn.sendUp, hdead] at hgrown
        exact ⟨i, k, by simp [sends, hframe, hch, halive]⟩
    | received hdead hup =>
        rw [hup] at hgrown
        simp only [List.length_cons] at hgrown
        omega
    | replied | refused =>
        unfold Conn.sendDown at hgrown
        split_ifs at hgrown <;> exact absurd hgrown (lt_irrefl _)
    | died =>
        unfold Conn.die at hgrown
        split_ifs at hgrown <;> exact absurd hgrown (lt_irrefl _)
    | lost =>
        simp only [Conn.lose, List.length_take] at hgrown
        omega
    | same | delivered | restarted => exact absurd hgrown (lt_irrefl _)

/-! ## What a step does to a call -/

/-- A connection stays dead. -/
theorem cdead_of_step {app : Service σ} {net target : Net σ} {label : Label}
    (hstep : net.step app label = some target) {n : ConnId} (hdead : net.cdead n = true) :
    target.cdead n = true := by
  obtain ⟨conn, hconn, hcdead⟩ := (Option.any_eq_true _ _).mp hdead
  obtain ⟨conn', hconn', hcarries⟩ := exists_conn_of_step hstep hconn
  exact (Option.any_eq_true _ _).mpr ⟨conn', hconn', hcarries.keeps.2.1 hcdead⟩

theorem transmits_loop (call : Call) (last : Bool) : transmits (call.loop last).phase = false := by
  unfold Call.loop
  split_ifs <;> rfl

theorem ch_loop (call : Call) (last : Bool) : (call.loop last).ch = call.ch := by
  unfold Call.loop
  split_ifs <;> rfl

/-- A call gets to `transmit` only when it retries and has no connection that is alive,
and changes its connection only there. -/
theorem transmits_of_moves {c : Client} {k : CallId} {call found : Call} {part : Client.Label}
    (hmoves : Client.Moves c k call part found) :
    (transmits found.phase = true → transmits call.phase = true ∨
        c.retrans = true ∧ ∃ dead last, part = .retry k dead last ∧
          (call.ch = none ∨ dead = true)) ∧
      (found.ch = call.ch ∨ transmits found.phase = true ∧ transmits call.phase = true) := by
  cases hmoves with
  | same => exact ⟨.inl, .inl rfl⟩
  | refconn hphase =>
      have hcall : transmits call.phase = true := by rw [hphase]; rfl
      exact ⟨fun _ => .inl hcall, .inr ⟨rfl, hcall⟩⟩
  | sent =>
      refine ⟨fun hphase => ?_, .inl (ch_loop ..)⟩
      rw [transmits_loop] at hphase
      cases hphase
  | @retried dead last hphase =>
      unfold Call.retry
      split_ifs with hretry
      · simp only [Bool.and_eq_true, Bool.or_eq_true, Option.isNone_iff_eq_none] at hretry
        exact ⟨fun _ => .inr ⟨hretry.1, dead, last, rfl, hretry.2⟩, .inl rfl⟩
      · refine ⟨fun hnext => ?_, .inl (ch_loop ..)⟩
        rw [transmits_loop] at hnext
        cases hnext
  | accepted =>
      unfold Call.accept
      split_ifs
      · exact ⟨.inl, .inl rfl⟩
      · exact ⟨.inl, .inl rfl⟩
  | woken | expired | erased | finished | bound =>
      exact ⟨(fun hphase => by cases hphase), .inl rfl⟩

/-- A call after a step has just begun, or is what a section of its client has made of
it. -/
theorem callMoves_of_step {app : Service σ} {net target : Net σ} {label : Label}
    (hstep : net.step app label = some target) {i : ClientId} {k : CallId} {found : Call}
    (hfound : (target.clients i).frames k = some found) :
    (net.clients i).frames k = none ∨
      ∃ call part, (net.clients i).frames k = some call ∧
        Client.Moves (net.clients i) k call part found ∧
        (∀ dead last, part = .retry k dead last → dead = net.callDead i k) := by
  rcases client_of_step hstep i with hsame | ⟨part, hlabel, hpart⟩
  · rw [hsame] at hfound
    exact .inr ⟨found, .wake k, hfound, .same, fun _ _ heq => by cases heq⟩
  · rcases Client.frame_of_step hpart hfound with ⟨_, _, -, -, hnone, -⟩ | ⟨call, hcall, hmoves⟩
    · exact .inl hnone
    · refine .inr ⟨call, part, hcall, hmoves, fun dead last heq => ?_⟩
      have hretry := isPart_of_clientLabel hlabel
      rw [heq] at hretry
      exact hretry.2

theorem retrans_of_step {app : Service σ} {net target : Net σ} {label : Label}
    (hstep : net.step app label = some target) (i : ClientId) :
    (target.clients i).retrans = (net.clients i).retrans := by
  rcases client_of_step hstep i with hsame | ⟨part, -, hpart⟩
  · rw [hsame]
  · exact (Client.fixed_of_step hpart).2

/-! ## The copies of a request -/

/-- The connections that a request has been handed to are dead, except for the one that
its call waits on, and a client that does not retransmit has handed it on once at most. -/
structure Copied (setup : Setup σ) (i : ClientId) (k : CallId) (source : Net σ × List Sent) :
    Prop where
  retrans : (source.1.clients i).retrans = setup.retrans i
  fresh : (source.1.clients i).frames k = none → copies source.2 i k = []
  gone : ∀ call, (source.1.clients i).frames k = some call → ∀ sent ∈ copies source.2 i k,
    source.1.cdead sent.conn = true ∨
      call.ch = some sent.conn ∧ transmits call.phase = false
  written : ∀ n, (copiesOn source.2 i k n).length ≤ 1
  unsent : setup.retrans i = false → ∀ call, (source.1.clients i).frames k = some call →
    transmits call.phase = true → copies source.2 i k = []
  once : setup.retrans i = false → (copies source.2 i k).length ≤ 1

/-- All the connections are dead when the request is about to be handed on again. -/
theorem Copied.all_dead {setup : Setup σ} {i : ClientId} {k : CallId}
    {source : Net σ × List Sent} (h : Copied setup i k source) {call : Call}
    (hcall : (source.1.clients i).frames k = some call) (hphase : transmits call.phase = true) :
    ∀ sent ∈ copies source.2 i k, source.1.cdead sent.conn = true := by
  intro sent hmem
  rcases h.gone call hcall sent hmem with hdead | ⟨-, hwaits⟩
  · exact hdead
  · rw [hphase] at hwaits
    cases hwaits

/-- Nothing has been written on a connection that is alive then. -/
theorem Copied.none_written {setup : Setup σ} {i : ClientId} {k : CallId}
    {source : Net σ × List Sent} (h : Copied setup i k source) {call : Call}
    (hcall : (source.1.clients i).frames k = some call) (hphase : transmits call.phase = true)
    {n : ConnId} (halive : source.1.cdead n = false) : copiesOn source.2 i k n = [] := by
  refine List.filter_eq_nil_iff.mpr fun sent hmem hwritten => ?_
  obtain ⟨-, rfl⟩ : sent.written = true ∧ sent.conn = n := by simpa using hwritten
  have hdead := h.all_dead hcall hphase sent hmem
  rw [halive] at hdead
  cases hdead

/-- The send of the call itself. -/
theorem Copied.send {setup : Setup σ} {i : ClientId} {k : CallId}
    {source : Net σ × List Sent} {target : Net σ} {ok last : Bool}
    (h : Copied setup i k source)
    (hstep : source.1.step setup.app (.send i k ok last) = some target) :
    Copied setup i k (target, source.2 ++ sends source.1 (.send i k ok last)) := by
  obtain ⟨c, hc, hclients, -, -⟩ := send_eq_some hstep
  obtain ⟨call, hcall, hsending, rfl⟩ := Client.onCall_eq_some.mp hc
  have hphase : transmits call.phase = true := by
    rw [show call.phase = .sending by simpa using hsending]
    rfl
  have hframe : (target.clients i).frames k = some (call.loop last) := by
    rw [hclients, Function.update_self]
    exact Client.frames_put_eq_some.mpr (.inl ⟨rfl, rfl⟩)
  have hsends : sends source.1 (.send i k ok last) = call.ch.toList.map fun n =>
      { i, k, conn := n, written := !source.1.cdead n } := by
    rw [sends, hcall, Option.bind_some]
  have hnew : ∀ sent ∈ copies (sends source.1 (.send i k ok last)) i k,
      call.ch = some sent.conn := by
    intro sent hmem
    have hmem := List.mem_of_mem_filter hmem
    rw [hsends] at hmem
    obtain ⟨n, hn, rfl⟩ := List.mem_map.mp hmem
    simpa using hn
  have hlength : (copies (sends source.1 (.send i k ok last)) i k).length ≤ 1 := by
    refine (List.length_filter_le _ _).trans ?_
    rw [hsends, List.length_map]
    cases call.ch <;> simp
  refine ⟨(retrans_of_step hstep i).trans h.retrans, fun hnone => ?_,
    fun call' hcall' sent hmem => ?_, fun n => ?_, fun _ call' hcall' hphase' => ?_,
    fun hretrans => ?_⟩
  · rw [hframe] at hnone
    cases hnone
  · obtain rfl := Option.some.inj (hframe.symm.trans hcall')
    simp only [copies_append, List.mem_append] at hmem
    rcases hmem with hold | hmem
    · exact .inl (cdead_of_step hstep (h.all_dead hcall hphase sent hold))
    · refine .inr ⟨?_, transmits_loop ..⟩
      rw [ch_loop]
      exact hnew sent hmem
  · rw [copiesOn_append, List.length_append]
    cases hfirst : copiesOn (sends source.1 (.send i k ok last)) i k n with
    | nil => simpa using h.written n
    | cons sent rest =>
        -- the send has written, so the connection was alive, and is a new one
        have hmem : sent ∈ copiesOn (sends source.1 (.send i k ok last)) i k n := by
          rw [hfirst]
          exact List.mem_cons_self
        obtain ⟨hmem, hwritten⟩ := List.mem_filter.mp hmem
        have halive : source.1.cdead n = false := by
          have hmem := List.mem_of_mem_filter hmem
          rw [hsends] at hmem
          obtain ⟨m, -, rfl⟩ := List.mem_map.mp hmem
          obtain ⟨halive, rfl⟩ : source.1.cdead m = false ∧ m = n := by simpa using hwritten
          exact halive
        rw [h.none_written hcall hphase halive, ← hfirst, List.length_nil, Nat.zero_add]
        exact (List.length_filter_le _ _).trans hlength
  · obtain rfl := Option.some.inj (hframe.symm.trans hcall')
    rw [transmits_loop] at hphase'
    cases hphase'
  · rw [copies_append, h.unsent hretrans call hcall hphase, List.nil_append]
    exact hlength

/-- Every other step. -/
theorem Copied.other {setup : Setup σ} {i : ClientId} {k : CallId}
    {source : Net σ × List Sent} {target : Net σ} {label : Label}
    (h : Copied setup i k source) (hlabel : ∀ ok last, label ≠ .send i k ok last)
    (hstep : source.1.step setup.app label = some target) :
    Copied setup i k (target, source.2 ++ sends source.1 label) := by
  have hcopies : copies (source.2 ++ sends source.1 label) i k = copies source.2 i k := by
    rw [copies_append, copies_sends_of_ne hlabel, List.append_nil]
  have hon : ∀ n, copiesOn (source.2 ++ sends source.1 label) i k n = copiesOn source.2 i k n :=
    fun n => by rw [copiesOn, hcopies, copiesOn]
  refine ⟨(retrans_of_step hstep i).trans h.retrans, fun hnone => ?_,
    fun found hfound sent hmem => ?_, fun n => hon n ▸ h.written n,
    fun hretrans found hfound hphase => ?_, fun hretrans => hcopies ▸ h.once hretrans⟩
  · refine hcopies.trans (h.fresh ?_)
    by_contra hsome
    obtain ⟨call, hcall⟩ := Option.ne_none_iff_exists'.mp hsome
    obtain ⟨found, hfound, -⟩ := exists_call_of_step hstep hcall
    exact absurd (hfound.symm.trans hnone) nofun
  · replace hmem : sent ∈ copies source.2 i k := hcopies ▸ hmem
    rcases callMoves_of_step hstep hfound with hnone | ⟨call, part, hcall, hmoves, hpart⟩
    · rw [h.fresh hnone] at hmem
      cases hmem
    · obtain ⟨hnext, hch⟩ := transmits_of_moves hmoves
      rcases h.gone call hcall sent hmem with hdead | ⟨hsame, hwaits⟩
      · exact .inl (cdead_of_step hstep hdead)
      · by_cases hphase : transmits found.phase = true
        · rcases hnext hphase with hbefore | ⟨-, dead, last, hretry, hgone⟩
          · rw [hwaits] at hbefore
            cases hbefore
          · refine .inl (cdead_of_step hstep ?_)
            rw [hsame] at hgone
            have hdead : dead = true := hgone.resolve_left nofun
            have hcallDead := hpart dead last hretry
            simpa [hdead, callDead, hcall, hsame] using hcallDead.symm
        · refine .inr ⟨?_, by simpa using hphase⟩
          rcases hch with hkept | ⟨hafter, -⟩
          · rw [hkept, hsame]
          · exact absurd hafter hphase
  · refine hcopies.trans ?_
    rcases callMoves_of_step hstep hfound with hnone | ⟨call, part, hcall, hmoves, -⟩
    · exact h.fresh hnone
    · rcases (transmits_of_moves hmoves).1 hphase with hbefore | ⟨htrue, -⟩
      · exact h.unsent hretrans call hcall hbefore
      · rw [h.retrans, hretrans] at htrue
        cases htrue

/-- In every run, a call has written its request on each connection with one send at
most, all the connections that it has been handed to are dead whenever it is about to be
handed on again, and a client that does not retransmit hands it on once at most. -/
theorem oneCopyPerChannel {setup : Setup σ} {labels : List Label}
    {reached : Net σ × List Sent} (hrun : (transmitting setup).Run anyStep labels reached)
    (i : ClientId) (k : CallId) :
    (∀ n, (copiesOn reached.2 i k n).length ≤ 1) ∧
      (∀ call, (reached.1.clients i).frames k = some call → transmits call.phase = true →
        ∀ sent ∈ copies reached.2 i k, reached.1.cdead sent.conn = true) ∧
      (setup.retrans i = false → (copies reached.2 i k).length ≤ 1) ∧
      ∀ label target n conn conn', (transmitting setup).step reached label = some target →
        reached.1.conns n = some conn → target.1.conns n = some conn' →
        conn.up.length < conn'.up.length →
        ∃ sent ∈ sends reached.1 label, sent.conn = n ∧ sent.written = true ∧
          target.2 = reached.2 ++ [sent] := by
  have h : Copied setup i k reached := by
    refine hrun.invariant (Copied setup i k)
      ⟨rfl, fun _ => rfl, (fun call hcall => by cases hcall), fun n => Nat.zero_le _,
        (fun _ call hcall => by cases hcall), fun _ => Nat.zero_le _⟩ ?_
    intro labels source label target _ h _ hstep
    obtain ⟨hnet, hhistory⟩ := System.recorded_step_eq_some.mp hstep
    obtain ⟨net, history⟩ := target
    obtain rfl := hhistory
    by_cases hsend : ∃ ok last, label = .send i k ok last
    · obtain ⟨ok, last, rfl⟩ := hsend
      exact h.send hnet
    · exact h.other (fun ok last heq => hsend ⟨ok, last, heq⟩) hnet
  refine ⟨h.written, fun call hcall hphase => h.all_dead hcall hphase, h.once, ?_⟩
  intro label target n conn conn' hstep hconn hconn' hgrown
  obtain ⟨hnet, hhistory⟩ := System.recorded_step_eq_some.mp hstep
  obtain ⟨j, l, hsent⟩ := sends_of_grown hnet hconn hconn' hgrown
  exact ⟨_, hsent, rfl, rfl, by rw [hhistory, sends_eq_singleton hsent]⟩

/-- A client binds; its connection dies, and no new one comes about, so that the request is
handed to `send` on the dead one again, and then on a new one. -/
def reconnectingRun : List Label :=
  [.start 0 0 1 (be32 0), .refconn 0 0 (some 0), .send 0 0 true false, .die 0 true,
    .expire 0 0, .retry 0 0 false, .refconn 0 0 none, .send 0 0 true false,
    .expire 0 0, .retry 0 0 false, .refconn 0 0 (some 1), .send 0 0 true false]

theorem oneCopyPerChannel_reconnecting :
    ∃ reached, (transmitting rpctest).Run anyStep reconnectingRun reached ∧
      (copies reached.2 0 0).map Sent.conn = [0, 0, 1] ∧
      ∀ n, (copiesOn reached.2 0 0 n).length ≤ 1 := by
  have hexec : ((transmitting rpctest).exec (transmitting rpctest).init reconnectingRun).any
      (fun s => (copies s.2 0 0).map Sent.conn == [0, 0, 1]) = true := by
    decide +kernel
  obtain ⟨reached, hrun, htest⟩ := System.exists_run_of_exec hexec
  exact ⟨reached, hrun, by simpa using htest, (oneCopyPerChannel hrun 0 0).1⟩

end YfsLab.Rpc.Net
