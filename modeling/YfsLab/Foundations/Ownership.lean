/-
# Exclusive ownership ledgers

A ledger says who owns each resource, if anybody does. It changes by two kinds
of events: a free resource is granted to an owner, and an owned resource is
given back by its owner. Giving back a resource that nobody owns changes
nothing and is allowed too, since a server may well accept it.

The results are about the histories a ledger can have: between two grants of a
resource its first owner has given it back, and whoever owns a resource is the
owner named by the last grant of it.
-/

import Mathlib.Logic.Function.Basic
import YfsLab.Foundations.History

namespace Ownership

universe u v w

variable {Resource : Type u} {Owner : Type v}

/-- What can happen to a resource. -/
inductive Event (Resource : Type u) (Owner : Type v)
  | granted (owner : Owner) (resource : Resource)
  | returned (owner : Owner) (resource : Resource)
  deriving DecidableEq

/-- Who owns each resource. -/
abbrev Ledger (Resource : Type u) (Owner : Type v) := Resource → Option Owner

/-- The ledgers a history can lead to, starting with everything free. -/
inductive Follows [DecidableEq Resource] :
    List (Event Resource Owner) → Ledger Resource Owner → Prop
  | start : Follows [] fun _ => none
  | grant {log : List (Event Resource Owner)} {ledger : Ledger Resource Owner}
      {owner : Owner} {resource : Resource} (prior : Follows log ledger)
      (free : ledger resource = none) :
      Follows (log ++ [.granted owner resource])
        (Function.update ledger resource (some owner))
  | giveBack {log : List (Event Resource Owner)} {ledger : Ledger Resource Owner}
      {owner : Owner} {resource : Resource} (prior : Follows log ledger)
      (owned : ∀ other, ledger resource = some other → other = owner) :
      Follows (log ++ [.returned owner resource])
        (Function.update ledger resource none)

/-- Between two grants of a resource, the first owner gives it back. -/
def Separated (log : List (Event Resource Owner)) : Prop :=
  ∀ before between after first second resource,
    log = before ++ .granted first resource ::
      (between ++ .granted second resource :: after) →
    .returned first resource ∈ between

/-- Every grant of a resource has been followed by its owner giving it back. -/
def Answered (log : List (Event Resource Owner)) (resource : Resource) : Prop :=
  ∀ before after owner, log = before ++ .granted owner resource :: after →
    .returned owner resource ∈ after

/-- The last grant of a resource names this owner. -/
def LastGrant (log : List (Event Resource Owner)) (resource : Resource)
    (owner : Owner) : Prop :=
  ∃ before after, log = before ++ .granted owner resource :: after ∧
    ∀ other, .granted other resource ∉ after

theorem LastGrant.concat {log : List (Event Resource Owner)} {resource : Resource}
    {owner : Owner} {event : Event Resource Owner} (hlast : LastGrant log resource owner)
    (hevent : ∀ other, event ≠ .granted other resource) :
    LastGrant (log ++ [event]) resource owner := by
  obtain ⟨before, after, rfl, hafter⟩ := hlast
  refine ⟨before, after ++ [event], by simp, fun other hmem => ?_⟩
  rcases List.mem_append.mp hmem with hold | hnew
  · exact hafter other hold
  · exact hevent other (List.mem_singleton.mp hnew).symm

theorem Answered.concat {log : List (Event Resource Owner)} {resource : Resource}
    {event : Event Resource Owner} (hanswered : Answered log resource)
    (hevent : ∀ other, event ≠ .granted other resource) :
    Answered (log ++ [event]) resource := by
  intro before after owner hsplit
  rcases History.concat_eq_append_cons.mp hsplit with ⟨_, hnew, _⟩ | ⟨rest, rfl, hold⟩
  · exact absurd hnew.symm (hevent owner)
  · exact List.mem_append_left _ (hanswered before rest owner hold)

/-- Appending anything but a grant of an unanswered resource keeps grants
separated. -/
theorem Separated.concat {log : List (Event Resource Owner)}
    {event : Event Resource Owner} (hseparated : Separated log)
    (hevent : ∀ owner resource, event = .granted owner resource → Answered log resource) :
    Separated (log ++ [event]) := by
  intro before between after first second resource hsplit
  rcases History.concat_eq_append_cons_append_cons.mp hsplit with
    ⟨hlog, hnew, _⟩ | ⟨rest, _, hold⟩
  · exact hevent second resource hnew.symm before between first hlog
  · exact hseparated before between rest first second resource hold

/-- When the last owner gives a resource back, all its grants are answered: the
earlier ones already were, because grants are separated. -/
theorem LastGrant.answered_concat {log : List (Event Resource Owner)}
    {resource : Resource} {owner : Owner} (hlast : LastGrant log resource owner)
    (hseparated : Separated log) :
    Answered (log ++ [.returned owner resource]) resource := by
  intro before after other hsplit
  rcases History.concat_eq_append_cons.mp hsplit with ⟨_, hnew, _⟩ | ⟨rest, rfl, hold⟩
  · cases hnew
  · obtain ⟨lastBefore, lastAfter, hlog, hnone⟩ := hlast
    rw [hlog] at hold
    rcases List.append_eq_append_iff.mp hold with ⟨middle, hbefore, hrest⟩ | ⟨middle, hlastB, hrest⟩
    · cases middle with
      | nil =>
          obtain ⟨hevent, _⟩ := List.cons.inj hrest
          cases hevent
          simp
      | cons head tail =>
          -- a grant after the last one
          obtain ⟨_, htail⟩ := List.cons.inj hrest
          exact absurd (htail ▸ by simp) (hnone other)
    · cases middle with
      | nil =>
          obtain ⟨hevent, _⟩ := List.cons.inj hrest
          cases hevent
          simp
      | cons head tail =>
          obtain ⟨rfl, htail⟩ := List.cons.inj hrest
          have hreturned : .returned other resource ∈ tail := by
            apply hseparated before tail lastAfter other owner resource
            rw [hlog, hlastB]
            simp
          rw [htail]
          simp [hreturned]

/-- What a history says about the ledger it leads to. -/
structure Consistent (log : List (Event Resource Owner))
    (ledger : Ledger Resource Owner) : Prop where
  separated : Separated log
  answered : ∀ resource, ledger resource = none → Answered log resource
  lastGrant : ∀ resource owner, ledger resource = some owner →
    LastGrant log resource owner

theorem Consistent.start : Consistent [] (fun _ : Resource => (none : Option Owner)) where
  separated := by
    intro before between after first second resource hsplit
    simp at hsplit
  answered := by
    intro resource _ before after owner hsplit
    simp at hsplit
  lastGrant := by
    intro resource owner howner
    cases howner

theorem Consistent.grant [DecidableEq Resource] {log : List (Event Resource Owner)}
    {ledger : Ledger Resource Owner} {owner : Owner} {resource : Resource}
    (h : Consistent log ledger) (free : ledger resource = none) :
    Consistent (log ++ [.granted owner resource])
      (Function.update ledger resource (some owner)) where
  separated := by
    refine h.separated.concat fun grantee granted hevent => ?_
    cases hevent
    exact h.answered resource free
  answered := by
    intro other hother
    by_cases heq : other = resource
    · subst other
      simp at hother
    · rw [Function.update_of_ne heq] at hother
      refine (h.answered other hother).concat fun grantee hevent => ?_
      cases hevent
      exact heq rfl
  lastGrant := by
    intro other grantee hother
    by_cases heq : other = resource
    · subst other
      obtain rfl : owner = grantee := by simpa using hother
      exact ⟨log, [], rfl, by simp⟩
    · rw [Function.update_of_ne heq] at hother
      refine (h.lastGrant other grantee hother).concat fun _ hevent => ?_
      cases hevent
      exact heq rfl

theorem Consistent.giveBack [DecidableEq Resource] {log : List (Event Resource Owner)}
    {ledger : Ledger Resource Owner} {owner : Owner} {resource : Resource}
    (h : Consistent log ledger)
    (owned : ∀ other, ledger resource = some other → other = owner) :
    Consistent (log ++ [.returned owner resource])
      (Function.update ledger resource none) where
  separated := h.separated.concat fun _ _ hevent => by cases hevent
  answered := by
    intro other hother
    by_cases heq : other = resource
    · subst other
      cases howner : ledger resource with
      | none => exact (h.answered resource howner).concat fun _ hevent => by cases hevent
      | some last =>
          obtain rfl := owned last howner
          exact (h.lastGrant resource last howner).answered_concat h.separated
    · rw [Function.update_of_ne heq] at hother
      exact (h.answered other hother).concat fun _ hevent => by cases hevent
  lastGrant := by
    intro other grantee hother
    by_cases heq : other = resource
    · subst other
      simp at hother
    · rw [Function.update_of_ne heq] at hother
      exact (h.lastGrant other grantee hother).concat fun _ hevent => by cases hevent

/-- Every history of a ledger is consistent with the ledger it leads to. -/
theorem Follows.consistent [DecidableEq Resource] {log : List (Event Resource Owner)}
    {ledger : Ledger Resource Owner} (hfollows : Follows log ledger) :
    Consistent log ledger := by
  induction hfollows with
  | start => exact .start
  | grant _ free ih => exact ih.grant free
  | giveBack _ owned ih => exact ih.giveBack owned

/-! ## The users behind the owners -/

variable {User : Type w}

/-- A ledger records what its users have. Several of them may own under one name, and
each has at most one resource at a time. -/
structure Records (ledger : Ledger Resource Owner) (name : User → Owner)
    (has : User → Option Resource) : Prop where
  owned : ∀ user resource, has user = some resource → ledger resource = some (name user)
  used : ∀ resource owner, ledger resource = some owner → ∃ user, has user = some resource
  sole : ∀ user other resource, has user = some resource → has other = some resource →
    user = other

variable {ledger : Ledger Resource Owner} {name : User → Owner} {has : User → Option Resource}
  {user : User} {resource : Resource}

theorem Records.start (name : User → Owner) :
    Records (fun _ : Resource => none) name fun _ => none := by
  constructor
  · intro user resource hhas
    cases hhas
  · intro resource owner howner
    cases howner
  · intro user other resource hhas
    cases hhas

/-- A user without a resource is granted a free one. -/
theorem Records.grant [DecidableEq Resource] [DecidableEq User] (h : Records ledger name has)
    (hfree : ledger resource = none) (hhas : has user = none) :
    Records (Function.update ledger resource (some (name user))) name
      (Function.update has user (some resource)) := by
  have hnobody : ∀ other, has other ≠ some resource := by
    intro other hother
    rw [h.owned other resource hother] at hfree
    cases hfree
  constructor
  · intro other r hother
    by_cases heq : other = user
    · subst heq
      rw [Function.update_self] at hother
      cases hother
      rw [Function.update_self]
    · rw [Function.update_of_ne heq] at hother
      have hne : r ≠ resource := by
        rintro rfl
        exact hnobody other hother
      rw [Function.update_of_ne hne]
      exact h.owned other r hother
  · intro r owner howner
    by_cases heq : r = resource
    · exact ⟨user, by rw [heq, Function.update_self]⟩
    · rw [Function.update_of_ne heq] at howner
      obtain ⟨other, hother⟩ := h.used r owner howner
      have hne : other ≠ user := by
        rintro rfl
        rw [hhas] at hother
        cases hother
      exact ⟨other, by rw [Function.update_of_ne hne, hother]⟩
  · intro u u' r hu hu'
    by_cases heq : u = user
    · subst heq
      rw [Function.update_self] at hu
      cases hu
      by_contra hne
      rw [Function.update_of_ne (Ne.symm hne)] at hu'
      exact hnobody u' hu'
    · rw [Function.update_of_ne heq] at hu
      by_cases heq' : u' = user
      · subst heq'
        rw [Function.update_self] at hu'
        cases hu'
        exact absurd hu (hnobody u)
      · rw [Function.update_of_ne heq'] at hu'
        exact h.sole u u' r hu hu'

/-- A user gives its resource back. -/
theorem Records.giveBack [DecidableEq Resource] [DecidableEq User] (h : Records ledger name has)
    (hhas : has user = some resource) :
    Records (Function.update ledger resource none) name (Function.update has user none) := by
  have hothers : ∀ other r, Function.update has user none other = some r →
      other ≠ user ∧ has other = some r := by
    intro other r hother
    by_cases heq : other = user
    · subst heq
      rw [Function.update_self] at hother
      cases hother
    · rw [Function.update_of_ne heq] at hother
      exact ⟨heq, hother⟩
  constructor
  · intro other r hother
    obtain ⟨hne, hbefore⟩ := hothers other r hother
    have hr : r ≠ resource := by
      rintro rfl
      exact hne (h.sole other user r hbefore hhas)
    rw [Function.update_of_ne hr]
    exact h.owned other r hbefore
  · intro r owner howner
    by_cases heq : r = resource
    · subst heq
      rw [Function.update_self] at howner
      cases howner
    · rw [Function.update_of_ne heq] at howner
      obtain ⟨other, hother⟩ := h.used r owner howner
      have hne : other ≠ user := by
        rintro rfl
        rw [hhas] at hother
        exact heq (Option.some.inj hother).symm
      exact ⟨other, by rw [Function.update_of_ne hne, hother]⟩
  · intro u u' r hu hu'
    exact h.sole u u' r (hothers u r hu).2 (hothers u' r hu').2

/-- Users without a resource may change their names. -/
theorem Records.rename (h : Records ledger name has) {name' : User → Owner}
    (hname : ∀ user, has user ≠ none → name' user = name user) : Records ledger name' has := by
  constructor
  · intro user resource hhas
    rw [hname user (by rw [hhas]; exact Option.some_ne_none resource)]
    exact h.owned user resource hhas
  · exact h.used
  · exact h.sole

end Ownership
