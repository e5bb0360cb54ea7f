/-
# Ordered finite maps

A finite map is the list of its entries in strictly increasing key order, and
the order is part of the type. Assigning to a key replaces the entry of the key
or inserts a new one at its place. Rebuilding a map from its own entries, one
assignment after the other, gives the same map back.
-/

import Mathlib.Data.List.Induction
import Mathlib.Data.List.Lex
import Mathlib.Data.Prod.Lex
import Mathlib.Order.Lex

universe u v

/-- Entries in strictly increasing key order. -/
def SortedMap (Key : Type u) (Value : Type v) [LT Key] : Type (max u v) :=
  { entries : List (Key × Value) // entries.Pairwise fun first second => first.1 < second.1 }

namespace SortedMap

variable {Key : Type u} {Value : Type v} [LinearOrder Key]

/-- The map without entries. -/
def empty : SortedMap Key Value := ⟨[], List.Pairwise.nil⟩

/-- Put an entry at its place in a list of entries, over the old entry of its
key if there is one. -/
def assignEntry (key : Key) (value : Value) : List (Key × Value) → List (Key × Value)
  | [] => [(key, value)]
  | entry :: rest =>
      if key < entry.1 then (key, value) :: entry :: rest
      else if key = entry.1 then (key, value) :: rest
      else entry :: assignEntry key value rest

theorem mem_assignEntry {key : Key} {value : Value} {entries : List (Key × Value)}
    {entry : Key × Value} (hmem : entry ∈ assignEntry key value entries) :
    entry = (key, value) ∨ entry ∈ entries := by
  induction entries with
  | nil => simpa [assignEntry] using hmem
  | cons head rest ih =>
      simp only [assignEntry] at hmem
      split_ifs at hmem with hlt heq
      · simpa using hmem
      · rcases List.mem_cons.mp hmem with hnew | hold
        · exact .inl hnew
        · exact .inr (List.mem_cons_of_mem _ hold)
      · rcases List.mem_cons.mp hmem with hhead | hrest
        · exact .inr (hhead ▸ List.mem_cons_self)
        · exact (ih hrest).imp_right (List.mem_cons_of_mem _)

theorem pairwise_assignEntry (key : Key) (value : Value) {entries : List (Key × Value)}
    (hsorted : entries.Pairwise fun first second => first.1 < second.1) :
    (assignEntry key value entries).Pairwise fun first second => first.1 < second.1 := by
  induction entries with
  | nil => simp [assignEntry]
  | cons head rest ih =>
      obtain ⟨hhead, hrest⟩ := List.pairwise_cons.mp hsorted
      simp only [assignEntry]
      split_ifs with hlt heq
      · refine List.pairwise_cons.mpr ⟨fun entry hmem => ?_, hsorted⟩
        rcases List.mem_cons.mp hmem with rfl | hmem
        · exact hlt
        · exact hlt.trans (hhead entry hmem)
      · exact List.pairwise_cons.mpr ⟨fun entry hmem => heq ▸ hhead entry hmem, hrest⟩
      · refine List.pairwise_cons.mpr ⟨fun entry hmem => ?_, ih hrest⟩
        rcases mem_assignEntry hmem with rfl | hmem
        · exact lt_of_le_of_ne (not_lt.mp hlt) (Ne.symm heq)
        · exact hhead entry hmem

/-- `map[key] = value`. -/
def assign (map : SortedMap Key Value) (key : Key) (value : Value) : SortedMap Key Value :=
  ⟨assignEntry key value map.1, pairwise_assignEntry key value map.2⟩

/-- Assigning to a key above all others appends its entry. -/
theorem assignEntry_of_forall_lt {key : Key} {value : Value} {entries : List (Key × Value)}
    (hlt : ∀ entry ∈ entries, entry.1 < key) :
    assignEntry key value entries = entries ++ [(key, value)] := by
  induction entries with
  | nil => rfl
  | cons head rest ih =>
      have hhead : head.1 < key := hlt head List.mem_cons_self
      simp only [assignEntry, not_lt_of_gt hhead, if_false, (ne_of_lt hhead).symm,
        List.cons_append]
      rw [ih fun entry hmem => hlt entry (List.mem_cons_of_mem _ hmem)]

/-- Assign a list of entries, one after the other. -/
def assignAll (map : SortedMap Key Value) (entries : List (Key × Value)) :
    SortedMap Key Value :=
  entries.foldl (fun current entry => current.assign entry.1 entry.2) map

theorem assignAll_append (map : SortedMap Key Value) (first second : List (Key × Value)) :
    map.assignAll (first ++ second) = (map.assignAll first).assignAll second :=
  List.foldl_append

theorem assignAll_entries_of_sorted (entries : List (Key × Value)) :
    entries.Pairwise (fun first second => first.1 < second.1) →
    ((empty : SortedMap Key Value).assignAll entries).1 = entries := by
  induction entries using List.reverseRecOn with
  | nil => intro _; rfl
  | append_singleton rest entry ih =>
      intro hsorted
      obtain ⟨hrest, _, hcross⟩ := List.pairwise_append.mp hsorted
      rw [assignAll_append]
      change assignEntry entry.1 entry.2 (empty.assignAll rest).1 = rest ++ [entry]
      rw [ih hrest]
      exact assignEntry_of_forall_lt fun other hmem => hcross other hmem entry (by simp)

/-- Rebuilding a map from its entries gives the map back. -/
theorem assignAll_entries (map : SortedMap Key Value) :
    (empty : SortedMap Key Value).assignAll map.1 = map :=
  Subtype.ext (assignAll_entries_of_sorted map.1 map.2)

/-! ## The values of a map -/

/-- The values, in key order. -/
def values (map : SortedMap Key Value) : List Value := map.1.map Prod.snd

/-- `map.erase(key)`. -/
def erase (map : SortedMap Key Value) (key : Key) : SortedMap Key Value :=
  ⟨map.1.filter fun entry => entry.1 ≠ key, map.2.filter _⟩

theorem assignEntry_perm {key : Key} {value : Value} {entries : List (Key × Value)}
    (hfresh : ∀ entry ∈ entries, entry.1 ≠ key) :
    (assignEntry key value entries).Perm ((key, value) :: entries) := by
  induction entries with
  | nil => exact .refl _
  | cons head rest ih =>
      simp only [assignEntry]
      split_ifs with hlt heq
      · exact .refl _
      · exact absurd heq.symm (hfresh head List.mem_cons_self)
      · exact ((ih fun entry hmem => hfresh entry (List.mem_cons_of_mem _ hmem)).cons head).trans
          (.swap ..)

/-- A new key adds its value. -/
theorem values_assign_perm {map : SortedMap Key Value} {key : Key} (value : Value)
    (hfresh : ∀ entry ∈ map.1, entry.1 ≠ key) :
    (map.assign key value).values.Perm (value :: map.values) :=
  (assignEntry_perm hfresh).map Prod.snd

theorem mem_erase {map : SortedMap Key Value} {key : Key} {entry : Key × Value} :
    entry ∈ (map.erase key).1 ↔ entry ∈ map.1 ∧ entry.1 ≠ key := by
  simp [erase]

/-- Erasing a key takes its value away. -/
theorem values_perm_erase {map : SortedMap Key Value} {key : Key} {value : Value}
    (hmem : (key, value) ∈ map.1) : map.values.Perm (value :: (map.erase key).values) := by
  obtain ⟨before, after, hsplit⟩ := List.append_of_mem hmem
  have hsorted := map.2
  rw [hsplit] at hsorted
  obtain ⟨-, hafter, hcross⟩ := List.pairwise_append.mp hsorted
  have hkeep : (map.erase key).1 = before ++ after := by
    have hb : before.filter (fun entry => entry.1 ≠ key) = before :=
      List.filter_eq_self.mpr fun entry hentry => by
        simpa using (hcross entry hentry (key, value) List.mem_cons_self).ne
    have ha : after.filter (fun entry => entry.1 ≠ key) = after :=
      List.filter_eq_self.mpr fun entry hentry => by
        simpa using ((List.pairwise_cons.mp hafter).1 entry hentry).ne'
    simp only [erase, hsplit, List.filter_append, hb]
    rw [List.filter_cons_of_neg (by simp), ha]
  rw [values, values, hkeep, hsplit, List.map_append, List.map_append, List.map_cons]
  exact List.perm_middle

/-- Maps are compared entry by entry, keys before values. -/
instance [LinearOrder Value] : LinearOrder (SortedMap Key Value) :=
  LinearOrder.lift' (fun map => map.1.map toLex) fun _ _ heq =>
    Subtype.ext (List.map_injective_iff.mpr toLex.injective heq)

end SortedMap
