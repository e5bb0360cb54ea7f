/-
# Reply routing

Each call gets the first reply to its xid that arrives while the call is in
`calls_`, and nothing else: replies to other xids, later replies to the same xid,
and replies that come when the call has been erased have no effect on it. This
rests on distinct xids, and xids are distinct as long as the counter has not gone
around.
-/

import YfsLab.Rpc.Client

namespace YfsLab.Rpc.Client

open BigEndian Transition Wire

/-- What a run of `rpcc` is judged by: the calls that got past the bind check, and
the replies that arrived, with whether their xid was in `calls_`. -/
inductive Event
  | began (k : CallId) (xid : UInt32)
  | arrived (reply : Reply) (inCalls : Bool)
  deriving DecidableEq, Repr

/-- The event of a step. -/
def events (c : Client) : Label → List Event
  | .start k proc _ => if c.refuses proc then [] else [.began k c.xid]
  | .gotPdu b =>
      match decodeReply b with
      | none => []
      | some reply => [.arrived reply (c.calls reply.xid).isSome]
  | _ => []

/-- The xid that a call took. -/
def Event.issued : Event → Option UInt32
  | .began _ xid => some xid
  | .arrived _ _ => none

/-- The reply to an xid that arrived while the xid was in `calls_`. -/
def Event.accepted (xid : UInt32) : Event → Option Reply
  | .began _ _ => none
  | .arrived reply inCalls => if inCalls ∧ reply.xid = xid then some reply else none

/-- The xids taken so far. -/
def issued (history : List Event) : List UInt32 := history.filterMap Event.issued

/-- The first reply to an xid that arrived while the xid was in `calls_`. -/
def accepted (history : List Event) (xid : UInt32) : Option Reply :=
  history.findSome? (Event.accepted xid)

theorem accepted_concat (history : List Event) (event : Event) (xid : UInt32) :
    accepted (history ++ [event]) xid = (accepted history xid).or (event.accepted xid) := by
  simp only [accepted, List.findSome?_append, List.findSome?_cons, List.findSome?_nil]
  cases event.accepted xid <;> rfl

theorem issued_concat (history : List Event) (event : Event) :
    issued (history ++ [event]) = issued history ++ event.issued.toList := by
  simp only [issued, List.filterMap_append]
  cases event <;> rfl

/-- The points of `call1` at which the call is in `calls_`. -/
def isOpen : Phase → Bool
  | .transmit | .sending | .waiting | .expired | .erasing => true
  | .returning | .returned _ | .bound _ => false

/-- A caller record holds the reply that has been accepted for its xid, or none
has been accepted and the record is as it was made. -/
def Holds (call : Call) : Option Reply → Prop
  | none => call.done = false
  | some reply => call.done = true ∧ call.intret = reply.header.ret ∧ call.un = reply.un

/-- The invariant of a client whose xid counter has not gone around. -/
structure Routed (c : Client) (history : List Event) : Prop where
  xid_eq : c.xid = UInt32.ofNat (1 + (issued history).length)
  issued_eq : issued history =
    (List.range (issued history).length).map fun n => UInt32.ofNat (1 + n)
  accepted_issued : ∀ xid reply, accepted history xid = some reply → xid ∈ issued history
  calls_frame : ∀ xid k, c.calls xid = some k →
    ∃ call, c.frames k = some call ∧ call.xid = xid ∧ isOpen call.phase = true
  frame_issued : ∀ k call, c.frames k = some call → call.xid ∈ issued history
  frame_calls : ∀ k call, c.frames k = some call →
    c.calls call.xid = if isOpen call.phase then some k else none
  frame_holds : ∀ k call, c.frames k = some call → Holds call (accepted history call.xid)
  frame_result : ∀ k call ret, c.frames k = some call → call.result = some ret →
    ret = if call.done then call.intret else RpcConst.timeoutFailure
  frame_distinct : ∀ k k' call call', c.frames k = some call → c.frames k' = some call' →
    call.xid = call'.xid → k = k'

theorem routed_init (cltNonce : UInt32) (retrans : Bool) :
    Routed { cltNonce, retrans } [] where
  xid_eq := rfl
  issued_eq := rfl
  accepted_issued := by simp [accepted]
  calls_frame := by simp
  frame_issued := by simp
  frame_calls := by simp
  frame_holds := by simp
  frame_result := by simp
  frame_distinct := by simp

/-- Steps that change neither the caller record of a call nor whether the call is
in `calls_`. -/
theorem Routed.put {c target : Client} {history : List Event} (h : Routed c history)
    {k : CallId} {call call' : Call} (hframe : c.frames k = some call)
    (hxid : target.xid = c.xid) (hcalls : target.calls = c.calls)
    (hframes : target.frames = Function.update c.frames k (some call'))
    (hsame : call'.xid = call.xid ∧ call'.done = call.done ∧ call'.intret = call.intret ∧
      call'.un = call.un)
    (hopen : isOpen call'.phase = isOpen call.phase)
    (hresult : ∀ ret, call'.result = some ret →
      ret = if call.done then call.intret else RpcConst.timeoutFailure) :
    Routed target history := by
  obtain ⟨hsameXid, hdone, hintret, hun⟩ := hsame
  -- a frame of the target comes from a frame with the same record
  have hback : ∀ j found, target.frames j = some found → ∃ old, c.frames j = some old ∧
      found.xid = old.xid ∧ found.done = old.done ∧ found.intret = old.intret ∧
      found.un = old.un ∧ isOpen found.phase = isOpen old.phase ∧
      (found = old ∨ found = call' ∧ old = call) := by
    intro j found hfound
    rw [hframes] at hfound
    by_cases hj : j = k
    · subst hj
      rw [Function.update_self, Option.some.injEq] at hfound
      subst hfound
      exact ⟨call, hframe, hsameXid, hdone, hintret, hun, hopen, .inr ⟨rfl, rfl⟩⟩
    · rw [Function.update_of_ne hj] at hfound
      exact ⟨found, hfound, rfl, rfl, rfl, rfl, rfl, .inl rfl⟩
  refine ⟨hxid.trans h.xid_eq, h.issued_eq, h.accepted_issued, ?_, ?_, ?_, ?_, ?_, ?_⟩
  · intro xid j hj
    rw [hcalls] at hj
    obtain ⟨old, hold, hx, hphase⟩ := h.calls_frame xid j hj
    rw [hframes]
    by_cases hjk : j = k
    · subst hjk
      obtain rfl : call = old := Option.some.inj (hframe.symm.trans hold)
      exact ⟨call', Function.update_self .., hsameXid.trans hx, hopen.trans hphase⟩
    · exact ⟨old, by rwa [Function.update_of_ne hjk], hx, hphase⟩
  · intro j found hfound
    obtain ⟨old, hold, hx, _⟩ := hback j found hfound
    rw [hx]
    exact h.frame_issued j old hold
  · intro j found hfound
    obtain ⟨old, hold, hx, _, _, _, hphase, _⟩ := hback j found hfound
    rw [hcalls, hx, hphase]
    exact h.frame_calls j old hold
  · intro j found hfound
    obtain ⟨old, hold, hx, hd, hi, hu, _⟩ := hback j found hfound
    have hholds := h.frame_holds j old hold
    rw [← hx] at hholds
    cases haccepted : accepted history found.xid with
    | none =>
        rw [haccepted] at hholds
        exact hd.trans hholds
    | some reply =>
        rw [haccepted] at hholds
        exact ⟨hd.trans hholds.1, hi.trans hholds.2.1, hu.trans hholds.2.2⟩
  · intro j found ret hfound hret
    obtain ⟨old, hold, _, hd, hi, _, _, rfl | ⟨rfl, rfl⟩⟩ := hback j found hfound
    · exact h.frame_result j found ret hold hret
    · rw [hd, hi]
      exact hresult ret hret
  · intro j j' found found' hfound hfound' heq
    obtain ⟨old, hold, hx, _⟩ := hback j found hfound
    obtain ⟨old', hold', hx', _⟩ := hback j' found' hfound'
    exact h.frame_distinct j j' old old' hold hold' (by rw [← hx, ← hx', heq])

/-- A new call takes an xid that has not been taken before. -/
theorem Routed.fresh {c : Client} {history : List Event} (h : Routed c history)
    (hbound : (issued history).length < 2 ^ 32) : c.xid ∉ issued history := by
  intro hmem
  rw [h.issued_eq, List.mem_map] at hmem
  obtain ⟨n, hn, heq⟩ := hmem
  rw [List.mem_range] at hn
  have hnat := congrArg UInt32.toNat (heq.trans h.xid_eq)
  simp only [UInt32.toNat_ofNat'] at hnat
  omega

theorem Routed.start {c : Client} {history : List Event} (h : Routed c history) {k : CallId}
    (hnew : c.frames k = none) (proc : Int32) (args : Bytes)
    (hbound : (issued history).length < 2 ^ 32) :
    Routed ({ c with xid := c.xid + 1, calls := Function.update c.calls c.xid (some k) }.put k
      { request := c.request proc args, xid := c.xid }) (history ++ [.began k c.xid]) := by
  have hfresh := h.fresh hbound
  have hissued : issued (history ++ [.began k c.xid]) = issued history ++ [c.xid] :=
    issued_concat history _
  have haccepted : ∀ xid, accepted (history ++ [.began k c.xid]) xid = accepted history xid :=
    fun xid => by rw [accepted_concat]; exact Option.or_none
  have hold : ∀ j call, c.frames j = some call → j ≠ k ∧ call.xid ≠ c.xid := by
    intro j call hcall
    refine ⟨fun hj => ?_, fun hx => hfresh (hx ▸ h.frame_issued j call hcall)⟩
    rw [hj, hnew] at hcall
    cases hcall
  refine ⟨?_, ?_, ?_, ?_, ?_, ?_, ?_, ?_, ?_⟩
  · simp only [Client.put, hissued, List.length_append, List.length_singleton]
    rw [h.xid_eq]
    exact (UInt32.ofNat_add (1 + _) 1).symm
  · rw [hissued, List.length_append, List.length_singleton, List.range_succ, List.map_append,
      ← h.issued_eq, List.map_singleton, ← h.xid_eq]
  · intro xid reply hreply
    rw [haccepted] at hreply
    rw [hissued]
    exact List.mem_append_left _ (h.accepted_issued xid reply hreply)
  · intro xid j hj
    simp only [Client.put] at hj ⊢
    by_cases hx : xid = c.xid
    · subst hx
      rw [Function.update_self, Option.some.injEq] at hj
      subst hj
      exact ⟨_, Function.update_self .., rfl, rfl⟩
    · rw [Function.update_of_ne hx] at hj
      obtain ⟨call, hcall, hcallXid, hphase⟩ := h.calls_frame xid j hj
      exact ⟨call, by rwa [Function.update_of_ne (hold j call hcall).1], hcallXid, hphase⟩
  · intro j found hfound
    rw [hissued]
    rcases frames_put_eq_some.mp hfound with ⟨rfl, rfl⟩ | ⟨_, hcall⟩
    · exact List.mem_append_right _ (List.mem_singleton.mpr rfl)
    · exact List.mem_append_left _ (h.frame_issued j found hcall)
  · intro j found hfound
    simp only [Client.put]
    rcases frames_put_eq_some.mp hfound with ⟨rfl, rfl⟩ | ⟨_, hcall⟩
    · simp [isOpen]
    · rw [Function.update_of_ne (hold j found hcall).2]
      exact h.frame_calls j found hcall
  · intro j found hfound
    rw [haccepted]
    rcases frames_put_eq_some.mp hfound with ⟨rfl, rfl⟩ | ⟨_, hcall⟩
    · cases hreply : accepted history c.xid with
      | none => rfl
      | some reply => exact absurd (h.accepted_issued _ reply hreply) hfresh
    · exact h.frame_holds j found hcall
  · intro j found ret hfound hret
    rcases frames_put_eq_some.mp hfound with ⟨rfl, rfl⟩ | ⟨_, hcall⟩
    · cases hret
    · exact h.frame_result j found ret hcall hret
  · intro j j' found found' hfound hfound' heq
    rcases frames_put_eq_some.mp hfound with ⟨rfl, rfl⟩ | ⟨_, hcall⟩
    · rcases frames_put_eq_some.mp hfound' with ⟨rfl, rfl⟩ | ⟨_, hcall'⟩
      · rfl
      · exact absurd heq.symm (hold j' found' hcall').2
    · rcases frames_put_eq_some.mp hfound' with ⟨rfl, rfl⟩ | ⟨_, hcall'⟩
      · exact absurd heq (hold j found hcall).2
      · exact h.frame_distinct j j' found found' hcall hcall' heq

theorem Routed.erase {c : Client} {history : List Event} (h : Routed c history) {k : CallId}
    {call : Call} (hframe : c.frames k = some call) : Routed (c.erase k call) history := by
  have hold : ∀ j found, j ≠ k → c.frames j = some found → found.xid ≠ call.xid :=
    fun j found hj hfound heq => hj (h.frame_distinct j k found call hfound hframe heq)
  refine ⟨h.xid_eq, h.issued_eq, h.accepted_issued, ?_, ?_, ?_, ?_, ?_, ?_⟩
  · intro xid j hj
    simp only [Client.erase, Client.put] at hj ⊢
    by_cases hx : xid = call.xid
    · subst hx
      rw [Function.update_self] at hj
      cases hj
    · rw [Function.update_of_ne hx] at hj
      obtain ⟨old, hfound, hxid, hopen⟩ := h.calls_frame xid j hj
      have hjk : j ≠ k := by
        rintro rfl
        rw [hframe, Option.some.injEq] at hfound
        exact hx (hxid.symm.trans (congrArg Call.xid hfound.symm))
      exact ⟨old, by rwa [Function.update_of_ne hjk], hxid, hopen⟩
  · intro j found hfound
    rcases frames_put_eq_some.mp hfound with ⟨rfl, rfl⟩ | ⟨_, hcall⟩
    · exact h.frame_issued j call hframe
    · exact h.frame_issued j found hcall
  · intro j found hfound
    simp only [Client.erase, Client.put]
    rcases frames_put_eq_some.mp hfound with ⟨rfl, rfl⟩ | ⟨hj, hcall⟩
    · simp [isOpen]
    · rw [Function.update_of_ne (hold j found hj hcall)]
      exact h.frame_calls j found hcall
  · intro j found hfound
    rcases frames_put_eq_some.mp hfound with ⟨rfl, rfl⟩ | ⟨_, hcall⟩
    · exact h.frame_holds j call hframe
    · exact h.frame_holds j found hcall
  · intro j found ret hfound hret
    rcases frames_put_eq_some.mp hfound with ⟨rfl, rfl⟩ | ⟨_, hcall⟩
    · cases hret
    · exact h.frame_result j found ret hcall hret
  · intro j j' found found' hfound hfound' heq
    rcases frames_put_eq_some.mp hfound with ⟨rfl, rfl⟩ | ⟨hj, hcall⟩
    · rcases frames_put_eq_some.mp hfound' with ⟨rfl, rfl⟩ | ⟨hj', hcall'⟩
      · rfl
      · exact absurd heq.symm (hold j' found' hj' hcall')
    · rcases frames_put_eq_some.mp hfound' with ⟨rfl, rfl⟩ | ⟨_, hcall'⟩
      · exact absurd heq (hold j found hj hcall)
      · exact h.frame_distinct j j' found found' hcall hcall' heq

/-- A reply that finds no call changes the window and nothing else. -/
theorem Routed.arrived_unmatched {c : Client} {history : List Event} (h : Routed c history)
    (window : List UInt32) (reply : Reply) :
    Routed { c with xidRepWindow := window } (history ++ [.arrived reply false]) := by
  have hissued : issued (history ++ [.arrived reply false]) = issued history := by
    rw [issued_concat]
    exact List.append_nil _
  have haccepted : ∀ xid, accepted (history ++ [.arrived reply false]) xid =
      accepted history xid := fun xid => by
    rw [accepted_concat]
    simp [Event.accepted]
  refine ⟨?_, ?_, ?_, h.calls_frame, ?_, h.frame_calls, ?_, h.frame_result, h.frame_distinct⟩
  · rw [hissued]
    exact h.xid_eq
  · rw [hissued]
    exact h.issued_eq
  · intro xid found hfound
    rw [haccepted] at hfound
    rw [hissued]
    exact h.accepted_issued xid found hfound
  · rw [hissued]
    exact h.frame_issued
  · intro k call hcall
    rw [haccepted]
    exact h.frame_holds k call hcall

/-- A reply that finds its call is accepted if it is the first one. -/
theorem Routed.arrived_matched {c : Client} {history : List Event} (h : Routed c history)
    (window : List UInt32) {reply : Reply} {k : CallId} {call : Call}
    (hcalls : c.calls reply.xid = some k) (hframe : c.frames k = some call) :
    Routed ({ c with xidRepWindow := window }.put k (call.accept reply))
      (history ++ [.arrived reply true]) := by
  have hissued : issued (history ++ [.arrived reply true]) = issued history := by
    rw [issued_concat]
    exact List.append_nil _
  obtain ⟨found, hfound, hxid, hopen⟩ := h.calls_frame reply.xid k hcalls
  obtain rfl : call = found := Option.some.inj (hframe.symm.trans hfound)
  have hother : ∀ xid, xid ≠ reply.xid →
      accepted (history ++ [.arrived reply true]) xid = accepted history xid := fun xid hne => by
    rw [accepted_concat]
    simp [Event.accepted, hne.symm]
  have hthis : accepted (history ++ [.arrived reply true]) reply.xid =
      (accepted history reply.xid).or (some reply) := by
    rw [accepted_concat]
    simp [Event.accepted]
  have haccept : (call.accept reply).xid = call.xid ∧
      (call.accept reply).phase = call.phase := by
    unfold Call.accept
    split <;> exact ⟨rfl, rfl⟩
  refine ⟨?_, ?_, ?_, ?_, ?_, ?_, ?_, ?_, ?_⟩
  · rw [hissued]
    exact h.xid_eq
  · rw [hissued]
    exact h.issued_eq
  · intro xid got hgot
    rw [hissued]
    by_cases hx : xid = reply.xid
    · rw [hx, ← hxid]
      exact h.frame_issued k call hframe
    · rw [hother xid hx] at hgot
      exact h.accepted_issued xid got hgot
  · intro xid j hj
    obtain ⟨old, hold, hx, hphase⟩ := h.calls_frame xid j hj
    simp only [Client.put]
    by_cases hjk : j = k
    · subst hjk
      obtain rfl : call = old := Option.some.inj (hframe.symm.trans hold)
      exact ⟨_, Function.update_self .., haccept.1.trans hx, by rw [haccept.2]; exact hphase⟩
    · exact ⟨old, by rwa [Function.update_of_ne hjk], hx, hphase⟩
  · intro j found hfound
    rw [hissued]
    rcases frames_put_eq_some.mp hfound with ⟨rfl, rfl⟩ | ⟨_, hold⟩
    · rw [haccept.1]
      exact h.frame_issued j call hframe
    · exact h.frame_issued j found hold
  · intro j found hfound
    rcases frames_put_eq_some.mp hfound with ⟨rfl, rfl⟩ | ⟨_, hold⟩
    · rw [haccept.1, haccept.2]
      exact h.frame_calls j call hframe
    · exact h.frame_calls j found hold
  · intro j found hfound
    rcases frames_put_eq_some.mp hfound with ⟨rfl, rfl⟩ | ⟨hj, hold⟩
    · have hholds := h.frame_holds j call hframe
      rw [hxid] at hholds
      rw [haccept.1, hxid, hthis]
      cases haccepted : accepted history reply.xid with
      | none =>
          rw [haccepted] at hholds
          have hdone : call.done = false := hholds
          simp [Call.accept, hdone, Holds]
      | some first =>
          rw [haccepted] at hholds
          simpa [Call.accept, hholds.1, Holds] using hholds
    · have hne : found.xid ≠ reply.xid := fun heq =>
        hj (h.frame_distinct j k found call hold hframe (heq.trans hxid.symm))
      rw [hother _ hne]
      exact h.frame_holds j found hold
  · intro j found ret hfound hret
    rcases frames_put_eq_some.mp hfound with ⟨rfl, rfl⟩ | ⟨_, hold⟩
    · -- a call in `calls_` has not returned
      rw [Call.result, haccept.2] at hret
      cases hphase : call.phase <;> simp [hphase, isOpen] at hopen hret
    · exact h.frame_result j found ret hold hret
  · intro j j' found found' hfound hfound' heq
    rcases frames_put_eq_some.mp hfound with ⟨rfl, rfl⟩ | ⟨_, hold⟩
    · rcases frames_put_eq_some.mp hfound' with ⟨rfl, rfl⟩ | ⟨_, hold'⟩
      · rfl
      · exact h.frame_distinct _ _ call found' hframe hold' (haccept.1.symm.trans heq)
    · rcases frames_put_eq_some.mp hfound' with ⟨rfl, rfl⟩ | ⟨_, hold'⟩
      · exact h.frame_distinct _ _ found call hold hframe (heq.trans haccept.1)
      · exact h.frame_distinct j j' found found' hold hold' heq

theorem Routed.gotPdu {c : Client} {history : List Event} (h : Routed c history) (b : Bytes) :
    Routed (c.gotPdu b) (history ++ events c (.gotPdu b)) := by
  simp only [Client.gotPdu, events]
  cases hreply : decodeReply b with
  | none => simpa using h
  | some reply =>
      cases hcalls : c.calls reply.xid with
      | none =>
          simp only [hcalls, Option.isSome_none]
          exact h.arrived_unmatched _ reply
      | some k =>
          obtain ⟨call, hframe, _⟩ := h.calls_frame reply.xid k hcalls
          simp only [hcalls, hframe, Option.isSome_some]
          exact h.arrived_matched _ hcalls hframe

/-! ## Steps and runs -/

theorem bind_fields (c : Client) (k : CallId) (call : Call) :
    (c.bind k call).xid = c.xid ∧ (c.bind k call).calls = c.calls ∧
      (c.bind k call).frames = Function.update c.frames k
        (some { call with phase := .bound (call.result.getD 0) }) := by
  unfold Client.bind
  split <;> exact ⟨rfl, rfl, rfl⟩

theorem isOpen_loop (call : Call) (last : Bool) : isOpen (call.loop last).phase = true := by
  unfold Call.loop
  split <;> rfl

theorem isOpen_retry (call : Call) (retrans dead last : Bool) :
    isOpen (call.retry retrans dead last).phase = true := by
  unfold Call.retry
  split
  · rfl
  · exact isOpen_loop call last

/-- A call that is in `calls_` has not returned. -/
theorem result_of_isOpen {call : Call} (hopen : isOpen call.phase = true) :
    call.result = none := by
  unfold Call.result
  cases hphase : call.phase <;> simp [hphase, isOpen] at hopen ⊢

/-- The steps inside the loop of `call1` leave the record alone. -/
theorem loop_record (call : Call) (last : Bool) :
    (call.loop last).xid = call.xid ∧ (call.loop last).done = call.done ∧
      (call.loop last).intret = call.intret ∧ (call.loop last).un = call.un := by
  unfold Call.loop
  split <;> exact ⟨rfl, rfl, rfl, rfl⟩

theorem retry_record (call : Call) (retrans dead last : Bool) :
    (call.retry retrans dead last).xid = call.xid ∧
      (call.retry retrans dead last).done = call.done ∧
      (call.retry retrans dead last).intret = call.intret ∧
      (call.retry retrans dead last).un = call.un := by
  unfold Call.retry
  split
  · exact ⟨rfl, rfl, rfl, rfl⟩
  · exact loop_record call last

/-- Every section of `rpcc` keeps the invariant while less than 2^32 xids have
been taken. -/
theorem Routed.step {c target : Client} {history : List Event} (h : Routed c history)
    {label : Label} (hstep : c.step label = some target)
    (hbound : (issued (history ++ events c label)).length ≤ 2 ^ 32) :
    Routed target (history ++ events c label) := by
  -- a section that only moves a call inside the loop
  have hmove : ∀ {k : CallId} {call : Call} (call' : Call), c.frames k = some call →
      isOpen call.phase = true → isOpen call'.phase = true →
      (call'.xid = call.xid ∧ call'.done = call.done ∧ call'.intret = call.intret ∧
        call'.un = call.un) → ∀ chan, Routed ({ c with chan := chan }.put k call') history :=
    fun _ hframe hopen hopen' hsame chan =>
      h.put hframe rfl rfl rfl hsame (hopen'.trans hopen.symm) fun ret hret => by
        rw [result_of_isOpen hopen'] at hret
        cases hret
  cases label with
  | start k proc args =>
      simp only [Client.step, Option.isNone_iff_eq_none] at hstep
      split_ifs at hstep with hnew
      obtain rfl := Option.some.inj hstep
      simp only [Client.start, events] at hbound ⊢
      split_ifs with hrefuses
      · simpa using h
      · rw [if_neg hrefuses, issued_concat, List.length_append] at hbound
        have hroom : (issued history).length + 1 ≤ 2 ^ 32 := hbound
        exact h.start hnew proc args (Nat.lt_of_succ_le hroom)
  | refconn k dead connected =>
      obtain ⟨call, hframe, hphase, rfl⟩ := onCall_eq_some.mp hstep
      have hphase' : call.phase = .transmit := by simpa using hphase
      simp only [events, List.append_nil]
      exact hmove { call with ch := _, phase := .sending } hframe (by rw [hphase']; rfl) rfl
        ⟨rfl, rfl, rfl, rfl⟩ _
  | send k last =>
      obtain ⟨call, hframe, hphase, rfl⟩ := onCall_eq_some.mp hstep
      have hphase' : call.phase = .sending := by simpa using hphase
      simp only [events, List.append_nil]
      exact hmove _ hframe (by rw [hphase']; rfl) (isOpen_loop call last)
        (loop_record call last) _
  | wake k =>
      obtain ⟨call, hframe, hphase, rfl⟩ := onCall_eq_some.mp hstep
      have hphase' : call.phase = .waiting ∧ call.done = true := by simpa using hphase
      simp only [events, List.append_nil]
      exact hmove { call with phase := .erasing } hframe (by rw [hphase'.1]; rfl) rfl
        ⟨rfl, rfl, rfl, rfl⟩ _
  | expire k =>
      obtain ⟨call, hframe, hphase, rfl⟩ := onCall_eq_some.mp hstep
      have hphase' : call.phase = .waiting ∧ call.done = false := by simpa using hphase
      simp only [events, List.append_nil]
      exact hmove { call with phase := .expired } hframe (by rw [hphase'.1]; rfl) rfl
        ⟨rfl, rfl, rfl, rfl⟩ _
  | retry k dead last =>
      obtain ⟨call, hframe, hphase, rfl⟩ := onCall_eq_some.mp hstep
      have hphase' : call.phase = .expired := by simpa using hphase
      simp only [events, List.append_nil]
      exact hmove _ hframe (by rw [hphase']; rfl) (isOpen_retry call c.retrans dead last)
        (retry_record call c.retrans dead last) _
  | erase k =>
      obtain ⟨call, hframe, hphase, rfl⟩ := onCall_eq_some.mp hstep
      simp only [events, List.append_nil]
      exact h.erase hframe
  | finish k =>
      obtain ⟨call, hframe, hphase, rfl⟩ := onCall_eq_some.mp hstep
      have hphase' : call.phase = .returning := by simpa using hphase
      simp only [events, List.append_nil]
      refine h.put hframe rfl rfl rfl ⟨rfl, rfl, rfl, rfl⟩ (by rw [hphase']; rfl) fun ret hret => ?_
      simpa [Call.result, Call.finish] using hret.symm
  | gotPdu b =>
      obtain rfl := Option.some.inj hstep
      exact h.gotPdu b
  | bind k =>
      obtain ⟨call, hframe, hbinds, rfl⟩ := onCall_eq_some.mp hstep
      obtain ⟨hxid, hcalls, hframes⟩ := bind_fields c k call
      simp only [events, List.append_nil]
      obtain ⟨ret, hphase⟩ : ∃ ret, call.phase = .returned ret := by
        unfold Call.binds at hbinds
        cases hphase : call.phase <;> simp [hphase] at hbinds ⊢
      have hresult : call.result = some ret := by simp [Call.result, hphase]
      refine h.put hframe hxid hcalls hframes ⟨rfl, rfl, rfl, rfl⟩ (by rw [hphase]; rfl)
        fun ret' hret => ?_
      have heq : ret' = ret := by simpa [Call.result, hphase] using hret.symm
      rw [heq]
      exact h.frame_result k call ret hframe hresult

theorem length_issued_le (history more : List Event) :
    (issued history).length ≤ (issued (history ++ more)).length := by
  rw [issued, issued, List.filterMap_append, List.length_append]
  exact Nat.le_add_right _ _

/-- Every run that takes at most 2^32 xids is routed. -/
theorem routed_of_run {cltNonce : UInt32} {retrans : Bool} {labels : List Label}
    {reached : Client × List Event}
    (hrun : ((system cltNonce retrans).recorded events).Run anyStep labels reached)
    (hbound : (issued reached.2).length ≤ 2 ^ 32) : Routed reached.1 reached.2 := by
  revert hbound
  refine System.Run.invariant (fun reached : Client × List Event =>
    (issued reached.2).length ≤ 2 ^ 32 → Routed reached.1 reached.2) ?_ ?_ hrun
  · exact fun _ => routed_init cltNonce retrans
  · intro labels source label target _ hrouted _ hstep hbound
    obtain ⟨hnext, hlog⟩ := System.recorded_step_eq_some.mp hstep
    rw [hlog] at hbound ⊢
    exact (hrouted ((length_issued_le _ _).trans hbound)).step hnext hbound

/-- Reply routing, for a run in which at most 2^32 calls get past the bind check:
a call that has returned has returned `timeout_failure` without having accepted a
reply, or the return code and the payload of the first reply with its xid that
arrived while the xid was in `calls_`; distinct calls have distinct xids; and when
a call has returned its xid is not in `calls_`. -/
theorem replyRouting {cltNonce : UInt32} {retrans : Bool} {labels : List Label}
    {reached : Client × List Event}
    (hrun : ((system cltNonce retrans).recorded events).Run anyStep labels reached)
    (hbound : (issued reached.2).length ≤ 2 ^ 32) :
    (∀ k call ret, reached.1.frames k = some call → call.result = some ret →
      ((accepted reached.2 call.xid = none ∧ ret = RpcConst.timeoutFailure) ∨
        ∃ reply, accepted reached.2 call.xid = some reply ∧ ret = reply.header.ret ∧
          call.un = reply.un) ∧
      reached.1.calls call.xid = none) ∧
    (∀ k k' call call', reached.1.frames k = some call → reached.1.frames k' = some call' →
      k ≠ k' → call.xid ≠ call'.xid) := by
  have h := routed_of_run hrun hbound
  refine ⟨fun k call ret hframe hret => ⟨?_, ?_⟩, fun k k' call call' hframe hframe' hne heq =>
    hne (h.frame_distinct k k' call call' hframe hframe' heq)⟩
  · have hholds := h.frame_holds k call hframe
    have hresult := h.frame_result k call ret hframe hret
    cases haccepted : accepted reached.2 call.xid with
    | none =>
        rw [haccepted] at hholds
        have hdone : call.done = false := hholds
        exact .inl ⟨rfl, by simpa [hdone] using hresult⟩
    | some reply =>
        rw [haccepted] at hholds
        obtain ⟨hdone, hintret, hun⟩ := hholds
        exact .inr ⟨reply, rfl, by simpa [hdone, hintret] using hresult, hun⟩
  · have hclosed : isOpen call.phase = false := by
      by_contra hopen
      rw [result_of_isOpen (by simpa using hopen)] at hret
      cases hret
    rw [h.frame_calls k call hframe, hclosed]
    rfl

/-- Two calls of `bind` at once. The second one is answered first, and twice; the
first one gives up without a reply. -/
theorem replyRouting_twoCalls :
    ∃ reached, ((system 7 true).recorded events).Run anyStep
        [.start 0 1 [], .start 1 1 [], .gotPdu [1, 2, 3],
          .gotPdu (replyPdu (List.replicate 12 0) ⟨2, 0⟩ [0, 0, 0, 9]),
          .gotPdu (replyPdu (List.replicate 12 0) ⟨2, 5⟩ []),
          .refconn 0 false none, .send 0 true, .expire 0, .retry 0 false false,
          .refconn 0 true none, .send 0 false, .erase 0, .finish 0, .refconn 1 false (some 3),
          .send 1 false, .wake 1, .erase 1, .finish 1] reached ∧
      accepted reached.2 1 = none ∧ (accepted reached.2 2).isSome ∧
      reached.1.calls 1 = none ∧ reached.1.calls 2 = none := by
  obtain ⟨reached, hexec, hissued, hfirst, hsecond, call, call', hframe, hret, hxid, hframe',
      hret', hxid'⟩ : ∃ reached, ((system 7 true).recorded events).exec
        ((system 7 true).recorded events).init
        [.start 0 1 [], .start 1 1 [], .gotPdu [1, 2, 3],
          .gotPdu (replyPdu (List.replicate 12 0) ⟨2, 0⟩ [0, 0, 0, 9]),
          .gotPdu (replyPdu (List.replicate 12 0) ⟨2, 5⟩ []),
          .refconn 0 false none, .send 0 true, .expire 0, .retry 0 false false,
          .refconn 0 true none, .send 0 false, .erase 0, .finish 0, .refconn 1 false (some 3),
          .send 1 false, .wake 1, .erase 1, .finish 1] = some reached ∧
      (issued reached.2).length = 2 ∧ accepted reached.2 1 = none ∧ (accepted reached.2 2).isSome ∧
      ∃ call call', reached.1.frames 0 = some call ∧ call.result = some (-1) ∧ call.xid = 1 ∧
        reached.1.frames 1 = some call' ∧ call'.result = some 0 ∧ call'.xid = 2 :=
    ⟨_, rfl, by decide, by decide, by decide, _, _, rfl, by decide, by decide, rfl, by decide,
      by decide⟩
  have hrun := System.run_of_exec hexec
  obtain ⟨hcalls, _⟩ := replyRouting hrun (by rw [hissued]; decide)
  have hnone := (hcalls 0 call _ hframe hret).2
  have hnone' := (hcalls 1 call' _ hframe' hret').2
  exact ⟨reached, hrun, hfirst, hsecond, hxid ▸ hnone, hxid' ▸ hnone'⟩

/-! ## When the counter goes around -/

/-- A run in which any number of calls of `bind` have been started. -/
theorem exists_run_started (n : ℕ) :
    ∃ (labels : List Label) (reached : Client × List Event),
      ((system 7 true).recorded events).Run anyStep labels reached ∧
      reached.1.bindDone = false ∧ reached.1.xid = UInt32.ofNat (1 + n) ∧
      (∀ k, k < n → ∃ call, reached.1.frames k = some call ∧ call.xid = UInt32.ofNat (1 + k)) ∧
      (∀ k, n ≤ k → reached.1.frames k = none) := by
  induction n with
  | zero => exact ⟨[], _, .start, rfl, rfl, by simp, fun _ _ => rfl⟩
  | succ n ih =>
      obtain ⟨labels, ⟨c, history⟩, hrun, hbind, hxid, hold, hnew⟩ := ih
      simp only at hbind hxid hold hnew
      have hrefuses : c.refuses RpcConst.bind = false := by
        simp [Client.refuses, hbind]
      have hstep : ((system 7 true).recorded events).step (c, history)
          (.start n RpcConst.bind []) =
          some (c.start n RpcConst.bind [], history ++ events c (.start n RpcConst.bind [])) := by
        simp [System.recorded, system, Client.step, hnew n le_rfl]
      refine ⟨_, _, hrun.snoc trivial hstep, ?_, ?_, ?_, ?_⟩
      · simpa [Client.start, hrefuses, Client.put] using hbind
      · simp only [Client.start, hrefuses, Client.put, Bool.false_eq_true, if_false, hxid]
        exact (UInt32.ofNat_add (1 + n) 1).symm
      · intro k hk
        simp only [Client.start, hrefuses, Client.put, Bool.false_eq_true, if_false]
        by_cases hkn : k = n
        · subst hkn
          exact ⟨_, Function.update_self .., hxid⟩
        · rw [Function.update_of_ne hkn]
          exact hold k (by omega)
      · intro k hk
        simp only [Client.start, hrefuses, Client.put, Bool.false_eq_true, if_false]
        rw [Function.update_of_ne (show k ≠ n by omega)]
        exact hnew k (by omega)

/-- After 2^32 calls a call gets the xid of the first one, which may still be
outstanding. -/
theorem xid_wrapsAround :
    ∃ (labels : List Label) (reached : Client × List Event) (k k' : CallId) (call call' : Call),
      ((system 7 true).recorded events).Run anyStep labels reached ∧
      reached.1.frames k = some call ∧ reached.1.frames k' = some call' ∧ k ≠ k' ∧
      call.xid = call'.xid := by
  obtain ⟨labels, reached, hrun, _, _, hold, _⟩ := exists_run_started (2 ^ 32 + 1)
  obtain ⟨call, hframe, hxid⟩ := hold 0 (by omega)
  obtain ⟨call', hframe', hxid'⟩ := hold (2 ^ 32) (by omega)
  refine ⟨labels, reached, 0, 2 ^ 32, call, call', hrun, hframe, hframe', by decide, ?_⟩
  rw [hxid, hxid']
  rfl

end YfsLab.Rpc.Client
