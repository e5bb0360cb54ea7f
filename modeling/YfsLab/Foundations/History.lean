/-
# Event histories

A history is a list of events with the newest event last. Statements such as
"between two events of one kind there is an event of another kind" quantify
over the ways a history splits around an event, so this module collects how the
splits of a history change when one event is appended.
-/

import Mathlib.Data.List.Basic

namespace History

universe u

variable {Event : Type u}

/-- The splits of an extended history around an event: either the event is the
new one, or it splits the old history and the new event ends the suffix. -/
theorem concat_eq_append_cons {log before after : List Event} {event new : Event} :
    log ++ [new] = before ++ event :: after ↔
      (before = log ∧ event = new ∧ after = []) ∨
        ∃ rest, after = rest ++ [new] ∧ log = before ++ event :: rest := by
  constructor
  · intro hsplit
    rcases List.eq_nil_or_concat after with rfl | ⟨rest, last, rfl⟩
    · left
      obtain ⟨hlog, hnew⟩ := List.append_inj' hsplit rfl
      exact ⟨hlog.symm, by simpa using hnew.symm, rfl⟩
    · right
      have hassoc : log ++ [new] = (before ++ event :: rest) ++ [last] := by
        simpa using hsplit
      obtain ⟨hlog, hnew⟩ := List.append_inj' hassoc rfl
      obtain rfl : new = last := by simpa using hnew
      exact ⟨rest, by simp, hlog⟩
  · rintro (⟨rfl, rfl, rfl⟩ | ⟨rest, rfl, rfl⟩)
    · rfl
    · simp

/-- The splits of an extended history around two events in order. -/
theorem concat_eq_append_cons_append_cons {log before between after : List Event}
    {first second new : Event} :
    log ++ [new] = before ++ first :: (between ++ second :: after) ↔
      (log = before ++ first :: between ∧ second = new ∧ after = []) ∨
        ∃ rest, after = rest ++ [new] ∧
          log = before ++ first :: (between ++ second :: rest) := by
  have hassoc : before ++ first :: (between ++ second :: after) =
      (before ++ first :: between) ++ second :: after := by simp
  rw [hassoc, concat_eq_append_cons]
  constructor
  · rintro (⟨hlog, hnew, hafter⟩ | ⟨rest, hafter, hlog⟩)
    · exact .inl ⟨hlog.symm, hnew, hafter⟩
    · exact .inr ⟨rest, hafter, by simpa using hlog⟩
  · rintro (⟨hlog, hnew, hafter⟩ | ⟨rest, hafter, hlog⟩)
    · exact .inl ⟨hlog.symm, hnew, hafter⟩
    · exact .inr ⟨rest, hafter, by simpa using hlog⟩

end History
