/-
# Prefix codes

A stream of words can be cut into its words again if no word is an initial part of
another one. The typical case are words that begin with their own length. A stream that
is still being written ends with an unfinished word; what a reader has cut off such a
stream are nevertheless the first of its words.
-/

import Mathlib.Data.List.Infix
import Mathlib.Data.Set.Basic

universe u

variable {α : Type u}

/-- No word is empty, and no word is an initial part of another one. -/
structure PrefixCode (code : Set (List α)) : Prop where
  nil_notMem : [] ∉ code
  eq_of_isPrefix : ∀ ⦃v w⦄, v ∈ code → w ∈ code → v <+: w → v = w

namespace PrefixCode

/-- The words whose length is a function of their first `k` letters. -/
def lengthFirst (k : ℕ) (size : List α → ℕ) : Set (List α) :=
  {w | k ≤ w.length ∧ size (w.take k) = w.length}

theorem of_lengthFirst {k : ℕ} (hk : 0 < k) (size : List α → ℕ) :
    PrefixCode (lengthFirst k size) where
  nil_notMem hnil := by
    have hle := hnil.1
    rw [List.length_nil] at hle
    omega
  eq_of_isPrefix v w hv hw hinitial := by
    obtain ⟨rest, rfl⟩ := hinitial
    refine List.IsPrefix.eq_of_length (List.prefix_append v rest) ?_
    rw [← hv.2, ← hw.2, List.take_append_of_le_length hv.1]

/-- Nothing, or an initial part of a word that is not all of it. -/
def Unfinished (code : Set (List α)) (part : List α) : Prop :=
  part = [] ∨ ∃ w ∈ code, part <+: w ∧ part ≠ w

variable {code : Set (List α)}

/-- A word does not begin inside the unfinished end of a stream. -/
theorem not_isPrefix_unfinished (hcode : PrefixCode code) {w part : List α} (hw : w ∈ code)
    (hpart : Unfinished code part) : ¬ w <+: part := by
  intro hinitial
  rcases hpart with rfl | ⟨v, hv, hle, hne⟩
  · rw [List.prefix_nil] at hinitial
    exact hcode.nil_notMem (hinitial ▸ hw)
  · obtain rfl : w = v := hcode.eq_of_isPrefix hw hv (hinitial.trans hle)
    exact hne (hle.eq_of_length_le hinitial.length_le)

/-- A word at the beginning of a stream is the first of its words. -/
theorem exists_cons_of_isPrefix (hcode : PrefixCode code) {w part : List α} {ws : List (List α)}
    (hw : w ∈ code) (hws : ∀ v ∈ ws, v ∈ code) (hpart : Unfinished code part)
    (hinitial : w <+: ws.flatten ++ part) : ∃ rest, ws = w :: rest := by
  cases ws with
  | nil => exact absurd hinitial (hcode.not_isPrefix_unfinished hw hpart)
  | cons v rest =>
      have hv := hws v List.mem_cons_self
      have hfirst : v <+: (v :: rest).flatten ++ part := by
        rw [List.flatten_cons, List.append_assoc]
        exact List.prefix_append _ _
      have heq : w = v := by
        rcases List.prefix_or_prefix_of_prefix hinitial hfirst with hle | hle
        · exact hcode.eq_of_isPrefix hw hv hle
        · exact (hcode.eq_of_isPrefix hv hw hle).symm
      exact ⟨rest, by rw [heq]⟩

/-- Words that make up the beginning of a stream are the first of its words. -/
theorem isPrefix_of_flatten (hcode : PrefixCode code) {part : List α} {vs ws : List (List α)}
    (hvs : ∀ v ∈ vs, v ∈ code) (hws : ∀ v ∈ ws, v ∈ code) (hpart : Unfinished code part)
    (hinitial : vs.flatten <+: ws.flatten ++ part) : vs <+: ws := by
  induction vs generalizing ws with
  | nil => exact List.nil_prefix
  | cons v vs ih =>
      have hv := hvs v List.mem_cons_self
      rw [List.flatten_cons] at hinitial
      obtain ⟨rest, rfl⟩ := hcode.exists_cons_of_isPrefix hv hws hpart
        ((List.prefix_append v _).trans hinitial)
      rw [List.flatten_cons, List.append_assoc, List.prefix_append_right_inj] at hinitial
      exact (List.prefix_cons_inj v).mpr (ih (fun u hu => hvs u (List.mem_cons_of_mem _ hu))
        (fun u hu => hws u (List.mem_cons_of_mem _ hu)) hinitial)

/-- A stream has its words and its unfinished end in one way only. -/
theorem eq_of_flatten_append (hcode : PrefixCode code) {p q : List α} {vs ws : List (List α)}
    (hvs : ∀ v ∈ vs, v ∈ code) (hws : ∀ v ∈ ws, v ∈ code) (hp : Unfinished code p)
    (hq : Unfinished code q) (heq : vs.flatten ++ p = ws.flatten ++ q) : vs = ws ∧ p = q := by
  have hforth : vs <+: ws :=
    hcode.isPrefix_of_flatten hvs hws hq (heq ▸ List.prefix_append _ _)
  have hback : ws <+: vs :=
    hcode.isPrefix_of_flatten hws hvs hp (heq ▸ List.prefix_append _ _)
  obtain rfl : vs = ws := hforth.eq_of_length_le hback.length_le
  exact ⟨rfl, List.append_cancel_left heq⟩

end PrefixCode
