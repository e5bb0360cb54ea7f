/-
# What an access does

The connections that have been made stay, and one of them dies only in an access that is
made under its mutex. A dead connection stays dead, and a call that has been erased from
`calls_` does not get back into it. A connection to which nobody refers any more is dead:
this is the balance of the references, which every access keeps.
-/

import YfsLab.Rpc.ClientBalance
import YfsLab.Rpc.ClientRouting
import YfsLab.Threads.World

namespace YfsLab.Threads

open BigEndian Holders Locking Transition Rpc

/-! ## Clients -/

section Clients

/-- The call is not in `calls_` any more. -/
def erased (c : Client) (k : CallId) : Bool :=
  (c.frames k).any fun call => !Client.isOpen call.phase

/-- What `calls_` has are calls that have not been erased, under their own xids. -/
def Pending (c : Client) : Prop :=
  ∀ x k, c.calls x = some k →
    ∃ call, c.frames k = some call ∧ call.xid = x ∧ Client.isOpen call.phase = true

/-- A call leaves `calls_` in the section that erases it, and does not get back. -/
theorem isOpen_of_moves {c : Client} {k : CallId} {call found : Call} {label : Client.Label}
    (h : Client.Moves c k call label found) :
    Client.isOpen found.phase = Client.isOpen call.phase ∨
      (label = .erase k ∧ Client.isOpen call.phase = true) := by
  cases h with
  | same => exact .inl rfl
  | refconn hphase | woken hphase | expired hphase | finished hphase =>
      exact .inl (by rw [hphase]; rfl)
  | sent hphase => exact .inl (by rw [hphase, Client.isOpen_loop]; rfl)
  | retried hphase => exact .inl (by rw [hphase, Client.isOpen_retry]; rfl)
  | erased hphase => exact .inr ⟨rfl, by rw [hphase]; rfl⟩
  | accepted =>
      unfold Call.accept
      split <;> exact .inl rfl
  | bound hbinds =>
      refine .inl ?_
      simp only [Call.binds, Bool.and_eq_true] at hbinds
      cases hphase : call.phase <;> simp_all [Client.isOpen]

variable {c target : Client} {label : Client.Label} {k : CallId}

/-- What a section puts into `calls_` is a call that has just begun. -/
theorem calls_of_step (hstep : c.step label = some target) {x : UInt32}
    (hcalls : target.calls x = some k) :
    c.calls x = some k ∨
      ∃ call, target.frames k = some call ∧ call.xid = x ∧ Client.isOpen call.phase = true := by
  cases Client.section_of_step hstep with
  | @started j =>
      by_cases hx : x = c.xid
      · subst hx
        obtain rfl : j = k := by simpa [Client.put] using hcalls
        exact .inr ⟨_, Client.frames_put_eq_some.mpr (.inl ⟨rfl, rfl⟩), rfl, rfl⟩
      · exact .inl (by simpa [Client.put, Function.update_of_ne hx] using hcalls)
  | @erased j call =>
      by_cases hx : x = call.xid
      · subst hx
        simp [Client.erase, Client.put] at hcalls
      · exact .inl (by simpa [Client.erase, Client.put, Function.update_of_ne hx] using hcalls)
  | refused | connected | moved | dropped | noted | accepted | bound => exact .inl hcalls

theorem Pending.step (h : Pending c) (hstep : c.step label = some target) : Pending target := by
  intro x k hcalls
  rcases calls_of_step hstep hcalls with hbefore | hnew
  · obtain ⟨call, hcall, hxid, hopen⟩ := h x k hbefore
    obtain ⟨found, hfound, -, hkept⟩ := Client.exists_frame_of_step hstep hcall
    refine ⟨found, hfound, hkept.trans hxid, ?_⟩
    rcases Client.frame_of_step hstep hfound with ⟨_, _, _, _, hnew, _⟩ | ⟨old, hold, hmoves⟩
    · rw [hcall] at hnew
      cases hnew
    · obtain rfl := Option.some.inj (hcall.symm.trans hold)
      rcases isOpen_of_moves hmoves with hsame | ⟨rfl, -⟩
      · rw [hsame, hopen]
      · -- the section takes the xid of the call out of `calls_`
        obtain ⟨other, hother, -, rfl⟩ := Client.onCall_eq_some.mp hstep
        obtain rfl := Option.some.inj (hcall.symm.trans hother)
        simp [Client.erase, Client.put, hxid] at hcalls
  · exact hnew

end Clients

/-! ## Connections -/

section Objects

variable {objs : ConnId → ConnObj} {c₀ : ConnId}

/-- An object is written that is as dead as before. -/
theorem dead_update {obj : ConnObj} (hobj : obj.dead = (objs c₀).dead) (c : ConnId) :
    (Function.update objs c₀ obj c).dead = (objs c).dead :=
  (Function.forall_update_iff objs fun c obj => obj.dead = (objs c).dead).mpr
    ⟨hobj, fun _ _ => rfl⟩ c

/-- A reference is taken. -/
theorem dead_incref (c : ConnId) :
    (Function.update objs c₀ (objs c₀).incref c).dead = (objs c).dead :=
  dead_update (by rfl) c

/-- An object is marked dead. -/
theorem dead_marked (c : ConnId) :
    (Function.update objs c₀ { objs c₀ with dead := true } c).dead = (objs c).dead ∨
      ((Function.update objs c₀ { objs c₀ with dead := true } c).dead = true ∧ c₀ = c) := by
  by_cases hsame : c = c₀
  · subst hsame
    exact .inr ⟨by rw [Function.update_self], rfl⟩
  · exact .inl (by rw [Function.update_of_ne hsame])

end Objects

/-! ## Connections of a client -/

section Links

variable {s s' : Links} {label : Links.Label} {c : ConnId}

theorem made_of_links (hstep : s.step label = some s') : s.made ≤ s'.made := by
  cases Links.section_of_step hstep with
  | connected => exact Nat.le_succ _
  | _ => exact le_rfl

/-- A step in which a connection dies is about this connection. -/
theorem dead_of_links (h : s.Counted) (hstep : s.step label = some s') (c : ConnId) :
    (s'.objs c).dead = (s.objs c).dead ∨
      ((s'.objs c).dead = true ∧ (clientTouches s label).tested = some c) := by
  cases Links.section_of_step hstep with
  | dropped _ hgiven | gone _ hgiven | finished _ _ _ _ hgiven | discarded _ hgiven =>
      exact .inl (hgiven.dead c)
  | connected => exact .inl (dead_update (by rw [h.balance.fresh s.made le_rfl]) c)
  | taken => exact .inl (dead_incref c)
  | died => exact (dead_marked c).imp_right (And.imp_right (congrArg some))
  | @closed c₀ halive hfree hover hchan =>
      refine (dead_marked c).imp_right (And.imp_right fun hsame => ?_)
      have hclose : s.close.isSome = true := by
        rw [show s.close = s.step .close from rfl, hstep]
        rfl
      simp [clientTouches, Links.uses, hclose, hchan, hsame]
  | locked | absent | stale | good | unreachable | skipped | started | worked | closedEmpty =>
      exact .inl rfl

end Links

/-! ## Connections of the server -/

section Server

variable {σ : Type} {app : Service σ} {c : ConnId}

/-- The same of a step of the server's connections. -/
theorem dead_of_registry {s s' : Registry σ} {label : Registry.Label} (h : s.Sound app)
    (hstep : s.step app label = some s') (c : ConnId) :
    (s'.objs c).dead = (s.objs c).dead ∨
      ((s'.objs c).dead = true ∧ (registryTouches s label).tested = some c) := by
  cases Registry.section_of_step h.accounted hstep with
  | accepted => exact .inl (dead_update (by rw [h.placed.fresh s.made le_rfl]) c)
  | collected _ hdropped | gaveBack _ hdropped | released hdropped | left hdropped =>
      exact .inl (hdropped.dead c)
  | died => exact (dead_marked c).imp_right (And.imp_right (congrArg some))
  | taken | replaced | saved | switched => exact .inl (dead_incref c)
  | served _ hserve =>
      obtain ⟨server, -, ⟨-, rfl⟩ | ⟨-, rfl⟩⟩ := Registry.serve_eq_some hserve <;> exact .inl rfl
  | lookedAt | counted | erased | inserted | full | short | queued | kept | stayed =>
      exact .inl rfl

variable {s s' : Shutdown σ} {label : Shutdown.Label}

theorem made_of_shutdown (h : s.registry.Accounted) (hstep : s.step app label = some s') :
    s.registry.made ≤ s'.registry.made := by
  cases label with
  | registry label =>
      obtain ⟨-, -, registry, hregistry, rfl⟩ := Shutdown.work_cases hstep
      exact (Registry.touches_of_step h hregistry).2.1
  | closeconn =>
      obtain ⟨-, entry, rest, -, -, registry, hdie, rfl⟩ := Shutdown.closeconn_cases hstep
      exact (Registry.touches_of_step h hdie).2.1
  | decref =>
      obtain ⟨-, entry, rest, objs, -, -, rfl⟩ := Shutdown.decref_cases hstep
      exact le_rfl
  | join | drain =>
      obtain ⟨-, heq⟩ := Option.ite_none_right_eq_some.mp hstep
      obtain rfl := Option.some.inj heq
      exact le_rfl
  | finish clts =>
      obtain ⟨-, -, -, store, rfl⟩ := Shutdown.finish_cases hstep
      exact le_rfl

theorem dead_of_shutdown (h : s.registry.Sound app) (hstep : s.step app label = some s')
    (c : ConnId) :
    (s'.registry.objs c).dead = (s.registry.objs c).dead ∨
      ((s'.registry.objs c).dead = true ∧ (serverTouches s label).tested = some c) := by
  cases label with
  | registry label =>
      obtain ⟨-, -, registry, hregistry, rfl⟩ := Shutdown.work_cases hstep
      exact dead_of_registry h hregistry c
  | closeconn =>
      obtain ⟨-, entry, rest, hconns, -, registry, hdie, rfl⟩ := Shutdown.closeconn_cases hstep
      have hmarked := dead_of_registry h hdie c
      rwa [show serverTouches s .closeconn = registryTouches s.registry (.die entry.2) by
        simp [serverTouches, registryTouches, hconns]]
  | decref =>
      obtain ⟨-, entry, rest, objs, -, hdropped, rfl⟩ := Shutdown.decref_cases hstep
      exact .inl (hdropped.dead c)
  | join | drain =>
      obtain ⟨-, heq⟩ := Option.ite_none_right_eq_some.mp hstep
      obtain rfl := Option.some.inj heq
      exact .inl rfl
  | finish clts =>
      obtain ⟨-, -, -, store, rfl⟩ := Shutdown.finish_cases hstep
      exact .inl rfl

end Server

/-! ## The world -/

variable {σ : Type} {setup : Setup σ}

/-- The step that an access makes. -/
inductive Accessed (app : Service σ) (w : World σ) : Access → World σ → Prop
  | client {i : ClientId} {label : Links.Label} {s : Links}
      (hstep : (w.links i).step label = some s) :
      Accessed app w (.client i label (clientTouches (w.links i) label))
        { w with links := Function.update w.links i s }
  | server {label : Shutdown.Label} {server : Shutdown σ}
      (hstep : w.server.step app label = some server) :
      Accessed app w (.server label (serverTouches w.server label)) { w with server := server }
  | left {c : ConnId} {label : Shutdown.Label} {server : Shutdown σ}
      (hgives : w.server.gives label = some c)
      (htouches : serverTouches w.server label = { counted := some c })
      (hstep : w.server.step app label = some server) :
      Accessed app w (.leave c) { w with server := server }

theorem accessed_of_step {app : Service σ} {w w' : World σ} {a : Access}
    (hstep : w.step app a = some w') : Accessed app w a w' := by
  cases a with
  | client i label touched =>
      obtain ⟨rfl, hclient⟩ := Option.ite_none_right_eq_some.mp hstep
      obtain ⟨s, hs, rfl⟩ := Option.map_eq_some_iff.mp hclient
      exact .client hs
  | server label touched =>
      obtain ⟨rfl, hserve⟩ := Option.ite_none_right_eq_some.mp hstep
      obtain ⟨server, hserver, rfl⟩ := Option.map_eq_some_iff.mp hserve
      exact .server hserver
  | leave c =>
      obtain ⟨server, hserver, rfl⟩ := Option.map_eq_some_iff.mp hstep
      have hgives : w.server.gives (.registry (.leave (w.server.registry.leaving.idxOf c))) =
          some c := by
        obtain ⟨-, -, registry, hleave, -⟩ := Shutdown.work_cases hserver
        obtain ⟨c', hc', -⟩ := Option.bind_eq_some_iff.mp hleave
        have hlt := (List.getElem?_eq_some_iff.mp hc').1
        exact List.getElem?_idxOf (List.idxOf_lt_length_iff.mp hlt)
      exact .left hgives (by simp only [serverTouches, registryTouches, ← hgives]; rfl) hserver

/-- What holds of a process at any time. -/
structure Consistent (app : Service σ) (w : World σ) : Prop where
  counted : ∀ i, (w.links i).Counted
  pending : ∀ i, Pending (w.links i).client
  sound : w.server.registry.Sound app
  ordered : w.server.Ordered

theorem Consistent.step {app : Service σ} {w w' : World σ} {a : Access} (h : Consistent app w)
    (hstep : w.step app a = some w') : Consistent app w' := by
  have hserver : ∀ {label server}, w.server.step app label = some server →
      Consistent app { w with server := server } := by
    intro label server hs
    obtain ⟨hsound, hordered⟩ := Shutdown.sound_of_step h.sound h.ordered hs
    exact ⟨h.counted, h.pending, hsound, hordered⟩
  cases accessed_of_step hstep with
  | @client i label s hs =>
      refine ⟨(Function.forall_update_iff _ fun _ s => Links.Counted s).mpr
          ⟨(h.counted i).step hs, fun j _ => h.counted j⟩,
        (Function.forall_update_iff _ fun _ s => Pending (Links.client s)).mpr
          ⟨?_, fun j _ => h.pending j⟩, h.sound, h.ordered⟩
      rcases Links.client_of_step hs with hsame | ⟨part, hpart⟩
      · exact hsame ▸ h.pending i
      · exact (h.pending i).step hpart
  | server hs => exact hserver hs
  | left _ _ hs => exact hserver hs

theorem consistent_of_reachable {w : World σ} (h : Reachable (World.system setup) w) :
    Consistent setup.app w := by
  obtain ⟨labels, hrun⟩ := h
  refine hrun.invariant (Consistent setup.app) ?_ fun _ h _ hstep => h.step hstep
  refine ⟨fun i => Links.counted_start _ _, fun i => nofun, Registry.sound_start _, ?_⟩
  exact ⟨fun hjoined => absurd rfl hjoined, nofun, nofun, nofun, nofun⟩

variable {app : Service σ} {w w' : World σ} {a : Access} {e : End} {c : ConnId}

@[simp]
theorem mem_mutexes_conn {touched : Touched} {e e' : End} :
    .conn e c ∈ touched.mutexes e' ↔ e' = e ∧ touched.tested = some c := by
  simp [Touched.mutexes]
  tauto

@[simp]
theorem conn_not_mem_clientMutexes {i : ClientId} {label : Links.Label} :
    .conn e c ∉ clientMutexes i label := by
  unfold clientMutexes
  split <;> simp

/-- A connection dies in an access that is made under its mutex. -/
theorem dead_of_step (h : Consistent app w) (hstep : w.step app a = some w') (e : End)
    (c : ConnId) : (w'.objs e c).dead = (w.objs e c).dead ∨
      ((w'.objs e c).dead = true ∧ .conn e c ∈ a.mutexes) := by
  have hserver : ∀ {label : Shutdown.Label} {server : Shutdown σ},
      w.server.step app label = some server →
      ((serverTouches w.server label).tested = some c → .conn .server c ∈ a.mutexes) →
      w' = { w with server := server } → (w'.objs e c).dead = (w.objs e c).dead ∨
        ((w'.objs e c).dead = true ∧ .conn e c ∈ a.mutexes) := by
    rintro label server hs htested rfl
    cases e with
    | client i => exact .inl rfl
    | server => exact (dead_of_shutdown h.sound hs c).imp_right (And.imp_right htested)
  cases accessed_of_step hstep with
  | @client i label s hs =>
      cases e with
      | server => exact .inl rfl
      | client j =>
          by_cases hj : j = i
          · subst hj
            simpa [World.objs, Access.mutexes] using dead_of_links (h.counted j) hs c
          · exact .inl (by simp [World.objs, Function.update_of_ne hj])
  | server hs => exact hserver hs (fun htested => by simp [Access.mutexes, htested]) rfl
  | left _ htouches hs =>
      refine hserver hs (fun htested => ?_) rfl
      rw [htouches] at htested
      cases htested

theorem made_of_step (h : Consistent app w) (hstep : w.step app a = some w') (e : End) :
    w.made e ≤ w'.made e := by
  cases accessed_of_step hstep with
  | @client i label s hs =>
      cases e with
      | server => exact le_rfl
      | client j =>
          by_cases hj : j = i
          · subst hj
            simpa [World.made] using made_of_links hs
          · simp [World.made, Function.update_of_ne hj]
  | server hs | left _ _ hs =>
      cases e with
      | client i => exact le_rfl
      | server => exact made_of_shutdown h.sound.accounted hs

/-- An access of a client leaves the other clients alone, and so does the server. -/
theorem client_of_step (hstep : w.step app a = some w') (i : ClientId) :
    (w'.links i).client = (w.links i).client ∨
      ∃ label, (w.links i).step label = some (w'.links i) ∧
        ∃ touched, a = .client i label touched := by
  cases accessed_of_step hstep with
  | @client j label s hs =>
      by_cases hi : i = j
      · subst hi
        exact .inr ⟨label, by simpa using hs, _, rfl⟩
      · exact .inl (by simp [Function.update_of_ne hi])
  | server | left => exact .inl rfl

end YfsLab.Threads
