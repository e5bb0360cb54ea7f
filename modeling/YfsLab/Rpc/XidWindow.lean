/-
# The window of xids that are done

`update_xid_rep` keeps a sorted list whose front stands for all the xids up to it.
An xid that is done is inserted, and then the front moves on over the xids that
follow it without a gap. The list may hold an xid more than once. So whatever the order
of the updates, the front is the largest xid up to which all of them are done.
-/

import Mathlib.Data.List.TakeWhile
import YfsLab.Rpc.Client

namespace YfsLab.Rpc

/-- The window is sorted, and what follows its front is missing. -/
structure IsWindow (w : List UInt32) : Prop where
  ne_nil : w ≠ []
  sorted : w.Pairwise (· ≤ ·)
  gap : w.headD 0 + 1 ∉ w

theorem isWindow_start : IsWindow [0] := ⟨by simp, by simp, by decide⟩

theorem mem_insertXid {x y : UInt32} {l : List UInt32} :
    y ∈ insertXid x l ↔ y = x ∨ y ∈ l := by
  induction l with
  | nil => simp [insertXid]
  | cons it rest ih =>
      simp only [insertXid]
      split_ifs
      · simp
      · simp only [List.mem_cons, ih]
        tauto

theorem pairwise_insertXid {x : UInt32} {l : List UInt32} (hsorted : l.Pairwise (· ≤ ·)) :
    (insertXid x l).Pairwise (· ≤ ·) := by
  induction l with
  | nil => simp [insertXid]
  | cons it rest ih =>
      obtain ⟨hle, hrest⟩ := List.pairwise_cons.mp hsorted
      simp only [insertXid]
      split_ifs with hlt
      · refine List.pairwise_cons.mpr ⟨fun y hy => ?_, hsorted⟩
        rcases List.mem_cons.mp hy with rfl | hy
        · exact UInt32.le_of_lt hlt
        · exact UInt32.le_trans (UInt32.le_of_lt hlt) (hle y hy)
      · refine List.pairwise_cons.mpr ⟨fun y hy => ?_, ih hrest⟩
        rcases mem_insertXid.mp hy with rfl | hy
        · exact UInt32.not_lt.mp hlt
        · exact hle y hy

/-- An xid with a larger one is followed by the next number. -/
theorem toNat_succ {x y : UInt32} (hlt : x < y) : (x + 1).toNat = x.toNat + 1 := by
  have hlt' := UInt32.lt_iff_toNat_lt.mp hlt
  have hy := y.toNat_lt
  rw [UInt32.toNat_add, UInt32.toNat_one, Nat.mod_eq_of_lt (by omega)]

/-- Between an xid and its successor there is nothing. -/
theorem eq_of_between {x y : UInt32} (hle : x ≤ y) (hsucc : y ≤ x + 1) (hne : y ≠ x + 1)
    (hx : x < x + 1) : y = x := by
  have hle' := UInt32.le_iff_toNat_le.mp hle
  have hsucc' := UInt32.le_iff_toNat_le.mp hsucc
  have hne' : y.toNat ≠ (x + 1).toNat := fun heq => hne (UInt32.toNat_inj.mp heq)
  rw [toNat_succ hx] at hsucc' hne'
  exact UInt32.toNat_inj.mp (by omega)

/-- The compression: the front moves over the xids that follow it, and nothing else
leaves the list. The induction is on what the iterator has not passed yet; what it
has passed never contains the successor of the front. -/
theorem compress_spec (rest : List UInt32) : ∀ (f : UInt32) (passed : List UInt32),
    (f :: (passed ++ rest)).Pairwise (· ≤ ·) → f + 1 ∉ passed →
    ∃ g l, compress (f :: passed) rest = g :: l ∧ (g :: l).Pairwise (· ≤ ·) ∧ g + 1 ∉ l ∧
      f ≤ g ∧ (∀ y, y ∈ g :: l ↔ y ∈ f :: (passed ++ rest) ∧ g ≤ y) ∧
      ∀ y, f < y → y ≤ g → y ∈ passed ++ rest := by
  induction rest with
  | nil =>
      intro f passed hsorted hgap
      rw [List.append_nil] at hsorted ⊢
      refine ⟨f, passed, rfl, hsorted, hgap, UInt32.le_refl f, fun y => ⟨fun hy => ⟨hy, ?_⟩,
        And.left⟩, fun y hlt hle => absurd hle (UInt32.not_le.mpr hlt)⟩
      rcases List.mem_cons.mp hy with rfl | hy
      · exact UInt32.le_refl y
      · exact List.rel_of_pairwise_cons hsorted hy
  | cons it rest ih =>
      intro f passed hsorted hgap
      obtain ⟨hf, htail⟩ := List.pairwise_cons.mp hsorted
      obtain ⟨_, hrest, hpassed⟩ := List.pairwise_append.mp htail
      have hit : f ≤ it := hf it (by simp)
      by_cases hnext : f + 1 = it
      · -- everything the iterator has passed equals the front, and is popped
        have hlt : f < f + 1 := by
          refine UInt32.lt_of_le_of_ne (hnext ▸ hit) fun heq => ?_
          have hone := congrArg UInt32.toNat heq
          rw [UInt32.toNat_add, UInt32.toNat_one] at hone
          have hbound := f.toNat_lt
          omega
        have hall : ∀ y ∈ passed, y = f := fun y hy =>
          eq_of_between (hf y (by simp [hy])) (hnext ▸ hpassed y hy it (by simp))
            (fun heq => hgap (heq ▸ hy)) hlt
        have hdrop : (f :: passed).dropWhile (fun front => front + 1 == it) = [] := by
          rw [List.dropWhile_eq_nil_iff]
          intro y hy
          rcases List.mem_cons.mp hy with rfl | hy
          · simp [hnext]
          · simp [hall y hy, hnext]
        obtain ⟨g, l, hcompress, hsorted', hgap', hle, hmem, hreach⟩ := ih it [] hrest (by simp)
        have hfg : f < g := by
          rw [hnext] at hlt
          exact UInt32.lt_of_lt_of_le hlt hle
        refine ⟨g, l, by rw [compress, hdrop]; exact hcompress, hsorted', hgap',
          UInt32.le_of_lt hfg, fun y => ?_, fun y hy hyg => ?_⟩
        · rw [hmem y]
          constructor
          · exact fun ⟨hy, hgy⟩ => ⟨by simp at hy; simp [hy], hgy⟩
          · rintro ⟨hy, hgy⟩
            refine ⟨?_, hgy⟩
            have hne : y ≠ f := fun heq => UInt32.lt_irrefl f
              (UInt32.lt_of_lt_of_le hfg (heq ▸ hgy))
            rcases List.mem_cons.mp hy with heq | hy
            · exact absurd heq hne
            · rcases List.mem_append.mp hy with hy | hy
              · exact absurd (hall y hy) hne
              · simpa using hy
        · by_cases hyit : y ≤ it
          · have heq : y = it := by
              by_contra hne
              have hback := eq_of_between (UInt32.le_of_lt hy) (hnext ▸ hyit)
                (fun heq => hne (heq.trans hnext)) hlt
              exact UInt32.lt_irrefl f (hback ▸ hy)
            simp [heq]
          · have hy' := hreach y (UInt32.not_le.mp hyit) hyg
            simp at hy'
            simp [hy']
      · -- the iterator passes the element
        have hdrop : (f :: passed).dropWhile (fun front => front + 1 == it) = f :: passed := by
          simp [hnext]
        have hgap' : f + 1 ∉ passed ++ [it] := by
          simpa [hgap] using hnext
        obtain ⟨g, l, hcompress, hsorted', hgap'', hle, hmem, hreach⟩ :=
          ih f (passed ++ [it]) (by simpa using hsorted) hgap'
        refine ⟨g, l, ?_, hsorted', hgap'', hle, fun y => ?_, fun y hy hyg => ?_⟩
        · rw [compress, hdrop, ← hcompress, List.cons_append]
        · rw [hmem y]
          simp
        · simpa using hreach y hy hyg

/-- What an update does: the window keeps its form, its front does not move back, its
elements are those it had and the new one as far as they are not below the front,
and every xid that the front has moved over was among them. -/
theorem updateXidRep_spec {w : List UInt32} (h : IsWindow w) (x : UInt32) :
    IsWindow (updateXidRep w x) ∧ w.headD 0 ≤ (updateXidRep w x).headD 0 ∧
      (∀ y, y ∈ updateXidRep w x ↔ (y ∈ w ∨ y = x) ∧ (updateXidRep w x).headD 0 ≤ y) ∧
      ∀ y, w.headD 0 < y → y ≤ (updateXidRep w x).headD 0 → y ∈ w ∨ y = x := by
  cases w with
  | nil => exact absurd rfl h.ne_nil
  | cons front rest =>
      have hsorted := h.sorted
      have hfront : ∀ y ∈ rest, front ≤ y := (List.pairwise_cons.mp hsorted).1
      rw [List.headD_cons]
      by_cases hle : x ≤ front
      · have hsame : updateXidRep (front :: rest) x = front :: rest := if_pos hle
        rw [hsame, List.headD_cons]
        refine ⟨h, UInt32.le_refl _, fun y => ⟨fun hy => ⟨.inl hy, ?_⟩, ?_⟩,
          fun y hlt hy => absurd hy (UInt32.not_le.mpr hlt)⟩
        · rcases List.mem_cons.mp hy with rfl | hy
          · exact UInt32.le_refl y
          · exact hfront y hy
        · rintro ⟨hy | rfl, hfy⟩
          · exact hy
          · exact List.mem_cons.mpr (.inl (UInt32.le_antisymm hle hfy))
      · have hlt : ¬ x < front := UInt32.not_lt.mpr (UInt32.le_of_lt (UInt32.not_le.mp hle))
        have hinsert : insertXid x (front :: rest) = front :: insertXid x rest := by
          rw [insertXid, if_neg hlt]
        have hpair : (front :: ([] ++ insertXid x rest)).Pairwise (· ≤ ·) := by
          rw [List.nil_append, ← hinsert]
          exact pairwise_insertXid hsorted
        obtain ⟨g, l, hcompress, hsorted', hgap, hfg, hmem, hreach⟩ :=
          compress_spec (insertXid x rest) front [] hpair (by simp)
        have hupdate : updateXidRep (front :: rest) x = g :: l := by
          have hne : ¬ x ≤ (front :: rest).headD 0 := hle
          simp only [updateXidRep, if_neg hne, hinsert, hcompress]
        rw [hupdate, List.headD_cons]
        have hself : g ≠ g + 1 := by
          intro heq
          have hone := congrArg UInt32.toNat heq
          rw [UInt32.toNat_add, UInt32.toNat_one] at hone
          have hbound := g.toNat_lt
          omega
        refine ⟨⟨by simp, hsorted', ?_⟩, hfg, fun y => ?_, fun y hlt hyg => ?_⟩
        · simpa [hself.symm] using hgap
        · rw [hmem y]
          simp only [List.nil_append, List.mem_cons, mem_insertXid]
          tauto
        · have hy := hreach y hlt hyg
          simp only [List.nil_append, mem_insertXid] at hy
          exact hy.symm.imp_left (List.mem_cons_of_mem _)

/-! ## The front of the window -/

/-- The window after calls of `update_xid_rep` with these arguments, in this order. -/
def windowAfter (xids : List UInt32) : List UInt32 := xids.foldl updateXidRep [0]

/-- All the xids from 1 on, up to this one, have been reported. -/
def ReportedUpTo (xids : List UInt32) (m : UInt32) : Prop := ∀ y, 0 < y → y ≤ m → y ∈ xids

/-- A window stands for the xids that have been reported: all those up to its front, and
behind the front those that are in it. -/
structure Summarises (w xids : List UInt32) : Prop where
  window : IsWindow w
  reported : ReportedUpTo xids (w.headD 0)
  mem_iff : ∀ y, w.headD 0 < y → (y ∈ w ↔ y ∈ xids)

theorem Summarises.start : Summarises [0] [] where
  window := isWindow_start
  reported y hpos hle := absurd hle (UInt32.not_le.mpr hpos)
  mem_iff y hlt := by simpa using (UInt32.ne_of_lt hlt).symm

/-- One more report. -/
theorem Summarises.update {w xids : List UInt32} (h : Summarises w xids) (x : UInt32) :
    Summarises (updateXidRep w x) (xids ++ [x]) := by
  obtain ⟨hwindow, hfront, hmem, hreach⟩ := updateXidRep_spec h.window x
  refine ⟨hwindow, fun y hpos hle => ?_, fun y hlt => ?_⟩
  · by_cases hold : y ≤ w.headD 0
    · exact List.mem_append_left _ (h.reported y hpos hold)
    · have hbehind := UInt32.not_le.mp hold
      rcases hreach y hbehind hle with hy | rfl
      · exact List.mem_append_left _ ((h.mem_iff y hbehind).mp hy)
      · simp
  · have hbehind := UInt32.lt_of_le_of_lt hfront hlt
    rw [hmem y, h.mem_iff y hbehind, List.mem_append, List.mem_singleton]
    exact and_iff_left (UInt32.le_of_lt hlt)

theorem summarises_windowAfter (xids : List UInt32) : Summarises (windowAfter xids) xids := by
  induction xids using List.reverseRecOn with
  | nil => exact .start
  | append_singleton xids x ih =>
      rw [windowAfter, List.foldl_append]
      exact ih.update x

/-- The xid behind the front has not been reported, so that the front is the largest up to
which all of them have. -/
theorem Summarises.le_front {w xids : List UInt32} (h : Summarises w xids) {m : UInt32}
    (hm : ReportedUpTo xids m) : m ≤ w.headD 0 := by
  by_contra hgt
  have hlt := UInt32.not_le.mp hgt
  have hsucc := toNat_succ hlt
  have hle : w.headD 0 + 1 ≤ m := by
    have := UInt32.lt_iff_toNat_lt.mp hlt
    exact UInt32.le_iff_toNat_le.mpr (by omega)
  have hbehind : w.headD 0 < w.headD 0 + 1 := UInt32.lt_iff_toNat_lt.mpr (by omega)
  have hpos : 0 < w.headD 0 + 1 := UInt32.lt_of_le_of_lt (UInt32.zero_le ..) hbehind
  exact h.window.gap ((h.mem_iff _ hbehind).mpr (hm _ hpos hle))

/-- `update_xid_rep` computes the contiguous prefix. Whatever it is called with, in any
order and with any repetitions, the window is not empty and sorted, its front is the
largest xid up to which all have been reported, and behind the front the window has the
xids that have been. So the front depends on what has been reported and on nothing else. -/
theorem contiguousPrefix (xids : List UInt32) :
    windowAfter xids ≠ [] ∧ (windowAfter xids).Pairwise (· ≤ ·) ∧
      (ReportedUpTo xids ((windowAfter xids).headD 0) ∧
        ∀ m, ReportedUpTo xids m → m ≤ (windowAfter xids).headD 0) ∧
      (∀ y, (windowAfter xids).headD 0 < y → (y ∈ windowAfter xids ↔ y ∈ xids)) ∧
      ∀ others, (∀ y, y ∈ others ↔ y ∈ xids) →
        (windowAfter others).headD 0 = (windowAfter xids).headD 0 := by
  have h := summarises_windowAfter xids
  refine ⟨h.window.ne_nil, h.window.sorted, ⟨h.reported, fun m => h.le_front⟩, h.mem_iff,
    fun others hsame => ?_⟩
  have hothers := summarises_windowAfter others
  apply UInt32.le_antisymm
  · exact h.le_front fun y hpos hle => (hsame y).mp (hothers.reported y hpos hle)
  · exact hothers.le_front fun y hpos hle => (hsame y).mpr (h.reported y hpos hle)

/-- Replies come in any order, and most xids are reported twice. -/
example : windowAfter [2, 4, 2, 1, 1, 4] = [2, 2, 4, 4] := by decide

end YfsLab.Rpc
