/-
# What a section of the client does

The sections of `rpcc`, seen from one of its calls and from each of its other
fields. A call is started with the request that `call1` puts together, and after
that a section moves it on, lets it accept a reply, or leaves it alone; its request
and its xid never change.
-/

import YfsLab.Rpc.Client

namespace YfsLab.Rpc.Client

open BigEndian Transition Wire

/-- The connection that a client uses after `get_refconn`. -/
def refChan (c : Client) (dead : Bool) (connected : Option ConnId) : Option ConnId :=
  if c.chan.isNone || dead then connected else c.chan

/-- What a section does to a call that is there. -/
inductive Moves (c : Client) (k : CallId) (call : Call) : Label → Call → Prop
  | same {label : Label} : Moves c k call label call
  | refconn {dead : Bool} {connected : Option ConnId} (hphase : call.phase = .transmit) :
      Moves c k call (.refconn k dead connected)
        { call with ch := (c.refChan dead connected).or call.ch, phase := .sending }
  | sent {last : Bool} (hphase : call.phase = .sending) :
      Moves c k call (.send k last) (call.loop last)
  | woken (hphase : call.phase = .waiting) (hdone : call.done = true) :
      Moves c k call (.wake k) { call with phase := .erasing }
  | expired (hphase : call.phase = .waiting) (hdone : call.done = false) :
      Moves c k call (.expire k) { call with phase := .expired }
  | retried {dead last : Bool} (hphase : call.phase = .expired) :
      Moves c k call (.retry k dead last) (call.retry c.retrans dead last)
  | erased (hphase : call.phase = .erasing) :
      Moves c k call (.erase k) { call with phase := .returning }
  | finished (hphase : call.phase = .returning) : Moves c k call (.finish k) call.finish
  | accepted {b : Bytes} {reply : Reply} (hreply : decodeReply b = some reply)
      (hcalls : c.calls reply.xid = some k) : Moves c k call (.gotPdu b) (call.accept reply)
  | bound (hbinds : call.binds = true) :
      Moves c k call (.bind k) { call with phase := .bound (call.result.getD 0) }

/-- What a section of `rpcc` finds and leaves. Most of them only move a call on. -/
inductive Section (c : Client) : Label → Client → Prop
  | refused {k : CallId} {proc : Int32} {args : Bytes} (hrefuses : c.refuses proc = true) :
      Section c (.start k proc args) c
  | started {k : CallId} {proc : Int32} {args : Bytes} (hnew : c.frames k = none)
      (hrefuses : c.refuses proc = false) :
      Section c (.start k proc args)
        ({ c with xid := c.xid + 1, calls := Function.update c.calls c.xid (some k) }.put k
          { request := c.request proc args, xid := c.xid })
  | connected {k : CallId} {dead : Bool} {connected : Option ConnId} {call : Call}
      (hcall : c.frames k = some call) (hphase : call.phase = .transmit) :
      Section c (.refconn k dead connected) (c.getRefconn k call dead connected)
  | moved {k : CallId} {label : Label} {call call' : Call} (hcall : c.frames k = some call)
      (hmoves : Moves c k call label call') : Section c label (c.put k call')
  | erased {k : CallId} {call : Call} (hcall : c.frames k = some call)
      (hphase : call.phase = .erasing) : Section c (.erase k) (c.erase k call)
  | dropped {b : Bytes} (hreply : decodeReply b = none) : Section c (.gotPdu b) c
  | noted {b : Bytes} {reply : Reply} (hreply : decodeReply b = some reply)
      (hnobody : (c.calls reply.xid).bind c.frames = none) :
      Section c (.gotPdu b)
        { c with xidRepWindow := updateXidRep c.xidRepWindow reply.xid }
  | accepted {b : Bytes} {reply : Reply} {k : CallId} {call : Call}
      (hreply : decodeReply b = some reply) (hcalls : c.calls reply.xid = some k)
      (hcall : c.frames k = some call) :
      Section c (.gotPdu b)
        ({ c with xidRepWindow := updateXidRep c.xidRepWindow reply.xid }.put k
          (call.accept reply))
  | bound {k : CallId} {call : Call} {nonce : UInt32} (hcall : c.frames k = some call)
      (hbinds : call.binds = true) (hnonce : call.boundTo = some nonce) :
      Section c (.bind k)
        { c.put k { call with phase := .bound (call.result.getD 0) } with
            bindDone := true
            srvNonce := nonce }

theorem section_of_step {c target : Client} {label : Label}
    (hstep : c.step label = some target) : c.Section label target := by
  cases label with
  | start k proc args =>
      obtain ⟨hnew, htarget⟩ := Option.ite_none_right_eq_some.mp hstep
      obtain rfl := Option.some.inj htarget
      rw [Client.start]
      split_ifs with hrefuses
      · exact .refused hrefuses
      · exact .started (by simpa using hnew) (by simpa using hrefuses)
  | refconn k dead connected =>
      obtain ⟨call, hcall, hphase, rfl⟩ := onCall_eq_some.mp hstep
      exact .connected hcall (by simpa using hphase)
  | send k last =>
      obtain ⟨call, hcall, hphase, rfl⟩ := onCall_eq_some.mp hstep
      exact .moved hcall (.sent (by simpa using hphase))
  | wake k =>
      obtain ⟨call, hcall, hphase, rfl⟩ := onCall_eq_some.mp hstep
      obtain ⟨hwaiting, hdone⟩ : call.phase = .waiting ∧ call.done = true := by simpa using hphase
      exact .moved hcall (.woken hwaiting hdone)
  | expire k =>
      obtain ⟨call, hcall, hphase, rfl⟩ := onCall_eq_some.mp hstep
      obtain ⟨hwaiting, hdone⟩ : call.phase = .waiting ∧ call.done = false := by
        simpa using hphase
      exact .moved hcall (.expired hwaiting hdone)
  | retry k dead last =>
      obtain ⟨call, hcall, hphase, rfl⟩ := onCall_eq_some.mp hstep
      exact .moved hcall (.retried (by simpa using hphase))
  | erase k =>
      obtain ⟨call, hcall, hphase, rfl⟩ := onCall_eq_some.mp hstep
      exact .erased hcall (by simpa using hphase)
  | finish k =>
      obtain ⟨call, hcall, hphase, rfl⟩ := onCall_eq_some.mp hstep
      exact .moved hcall (.finished (by simpa using hphase))
  | gotPdu b =>
      obtain rfl := Option.some.inj hstep
      rw [Client.gotPdu]
      cases hreply : decodeReply b with
      | none => exact .dropped hreply
      | some reply =>
          cases hcalls : c.calls reply.xid with
          | none =>
              simp only [hcalls]
              exact .noted hreply (by simp [hcalls])
          | some k =>
              cases hcall : c.frames k with
              | none =>
                  simp only [hcalls, hcall]
                  exact .noted hreply (by simp [hcalls, hcall])
              | some call =>
                  simp only [hcalls, hcall]
                  exact .accepted hreply hcalls hcall
  | bind k =>
      obtain ⟨call, hcall, hbinds, rfl⟩ := onCall_eq_some.mp hstep
      rw [Client.bind]
      cases hnonce : call.boundTo with
      | none => exact .moved hcall (.bound hbinds)
      | some nonce => exact .bound hcall hbinds hnonce

/-- A call whose frame has been written has moved. -/
theorem moves_put {c base : Client} {k j : CallId} {label : Label} {call call' found : Call}
    (hbase : base.frames = c.frames) (hcall : c.frames k = some call)
    (hmoves : Moves c k call label call') (hfound : (base.put k call').frames j = some found) :
    ∃ old, c.frames j = some old ∧ Moves c j old label found := by
  rcases frames_put_eq_some.mp hfound with ⟨rfl, rfl⟩ | ⟨_, hsame⟩
  · exact ⟨call, hcall, hmoves⟩
  · exact ⟨found, hbase ▸ hsame, .same⟩

/-- A call after a section is new, or what the section has made of it. -/
theorem frame_of_step {c target : Client} {label : Label} (hstep : c.step label = some target)
    {j : CallId} {found : Call} (hfound : target.frames j = some found) :
    (∃ proc args, label = .start j proc args ∧ c.refuses proc = false ∧ c.frames j = none ∧
      found = { request := c.request proc args, xid := c.xid }) ∨
      ∃ call, c.frames j = some call ∧ Moves c j call label found := by
  cases section_of_step hstep with
  | refused | dropped | noted => exact .inr ⟨found, hfound, .same⟩
  | @started k proc args hnew hrefuses =>
      rcases frames_put_eq_some.mp hfound with ⟨rfl, rfl⟩ | ⟨_, hsame⟩
      · exact .inl ⟨proc, args, rfl, hrefuses, hnew, rfl⟩
      · exact .inr ⟨found, hsame, .same⟩
  | connected hcall hphase => exact .inr (moves_put rfl hcall (.refconn hphase) hfound)
  | moved hcall hmoves => exact .inr (moves_put rfl hcall hmoves hfound)
  | erased hcall hphase => exact .inr (moves_put rfl hcall (.erased hphase) hfound)
  | accepted hreply hcalls hcall =>
      exact .inr (moves_put rfl hcall (.accepted hreply hcalls) hfound)
  | bound hcall hbinds => exact .inr (moves_put rfl hcall (.bound hbinds) hfound)

/-- A section keeps the request and the xid of a call. -/
theorem Moves.keeps {c : Client} {k : CallId} {call found : Call} {label : Label}
    (h : Moves c k call label found) : found.request = call.request ∧ found.xid = call.xid := by
  cases h with
  | sent =>
      unfold Call.loop
      split <;> exact ⟨rfl, rfl⟩
  | retried =>
      unfold Call.retry Call.loop
      split_ifs <;> exact ⟨rfl, rfl⟩
  | accepted =>
      unfold Call.accept
      split <;> exact ⟨rfl, rfl⟩
  | same | refconn | woken | expired | erased | finished | bound => exact ⟨rfl, rfl⟩

theorem exists_frame_put {c base : Client} (hbase : base.frames = c.frames) (j : CallId)
    (call' : Call) {k : CallId} {call : Call} (hcall : c.frames k = some call) :
    ∃ found, (base.put j call').frames k = some found := by
  by_cases hk : k = j
  · exact ⟨call', frames_put_eq_some.mpr (.inl ⟨hk, rfl⟩)⟩
  · exact ⟨call, frames_put_eq_some.mpr (.inr ⟨hk, hbase ▸ hcall⟩)⟩

/-- A call stays, with its request and its xid. -/
theorem exists_frame_of_step {c target : Client} {label : Label}
    (hstep : c.step label = some target) {k : CallId} {call : Call}
    (hcall : c.frames k = some call) :
    ∃ found, target.frames k = some found ∧ found.request = call.request ∧
      found.xid = call.xid := by
  obtain ⟨found, hfound⟩ : ∃ found, target.frames k = some found := by
    cases section_of_step hstep with
    | refused | dropped | noted => exact ⟨call, hcall⟩
    | started | connected | moved | erased | accepted | bound =>
        exact exists_frame_put rfl _ _ hcall
  rcases frame_of_step hstep hfound with ⟨_, _, _, _, hnew, _⟩ | ⟨old, hold, hmoves⟩
  · rw [hcall] at hnew
    cases hnew
  · obtain rfl := Option.some.inj (hcall.symm.trans hold)
    exact ⟨found, hfound, hmoves.keeps⟩

/-- What `calls_` says after a section it has said before, or it is about a call that
has just begun. -/
theorem calls_of_step {c target : Client} {label : Label} (hstep : c.step label = some target)
    {x : UInt32} {k : CallId} (hcalls : target.calls x = some k) :
    c.calls x = some k ∨ x = c.xid ∧ ∃ call, target.frames k = some call ∧ call.xid = c.xid := by
  cases section_of_step hstep with
  | @started j =>
      by_cases hx : x = c.xid
      · subst hx
        obtain rfl : j = k := by simpa [put] using hcalls
        exact .inr ⟨rfl, _, frames_put_eq_some.mpr (.inl ⟨rfl, rfl⟩), rfl⟩
      · exact .inl (by simpa [put, Function.update_of_ne hx] using hcalls)
  | @erased j call =>
      by_cases hx : x = call.xid
      · subst hx
        simp [erase, put] at hcalls
      · exact .inl (by simpa [erase, put, Function.update_of_ne hx] using hcalls)
  | refused | connected | moved | dropped | noted | accepted | bound => exact .inl hcalls

/-- A section uses up an xid only when it starts a call. -/
theorem xid_of_step {c target : Client} {label : Label} (hstep : c.step label = some target) :
    target.xid = c.xid ∨ ∃ k proc args, label = .start k proc args ∧ c.refuses proc = false ∧
      target.xid = c.xid + 1 := by
  cases section_of_step hstep with
  | started _ hrefuses => exact .inr ⟨_, _, _, rfl, hrefuses, rfl⟩
  | refused | connected | moved | erased | dropped | noted | accepted | bound => exact .inl rfl

/-- A section changes the connection of a client only in `get_refconn`. -/
theorem chan_of_step {c target : Client} {label : Label} (hstep : c.step label = some target) :
    target.chan = c.chan ∨ ∃ k dead connected, label = .refconn k dead connected ∧
      target.chan = c.refChan dead connected := by
  cases section_of_step hstep with
  | connected => exact .inr ⟨_, _, _, rfl, rfl⟩
  | refused | started | moved | erased | dropped | noted | accepted | bound => exact .inl rfl

/-- A section binds a client only at the end of `bind`. -/
theorem bound_of_step {c target : Client} {label : Label} (hstep : c.step label = some target) :
    (target.bindDone = c.bindDone ∧ target.srvNonce = c.srvNonce) ∨
      ∃ k call nonce, label = .bind k ∧ c.frames k = some call ∧ call.boundTo = some nonce ∧
        target.srvNonce = nonce := by
  cases section_of_step hstep with
  | bound hcall _ hnonce => exact .inr ⟨_, _, _, rfl, hcall, hnonce, rfl⟩
  | refused | started | connected | moved | erased | dropped | noted | accepted =>
      exact .inl ⟨rfl, rfl⟩

/-- A client keeps what it has been made with. -/
theorem fixed_of_step {c target : Client} {label : Label} (hstep : c.step label = some target) :
    target.cltNonce = c.cltNonce ∧ target.retrans = c.retrans := by
  cases section_of_step hstep with
  | _ => exact ⟨rfl, rfl⟩

/-- A client keeps its nonce. -/
theorem cltNonce_of_step {c target : Client} {label : Label}
    (hstep : c.step label = some target) : target.cltNonce = c.cltNonce :=
  (fixed_of_step hstep).1

end YfsLab.Rpc.Client
