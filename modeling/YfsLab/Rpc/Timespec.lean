/-
# Deadlines

`call1` computes its deadlines in `struct timespec`: `add_timespec` adds a number of
milliseconds to a point in time, and `cmp_timespec` compares two points. The carry
loop of `add_timespec` goes on while there is more than a second in the
nanoseconds, so a sum of exactly one second stays there. Such a result is no longer
a valid `timespec`, although it still denotes the right instant; comparisons with it
go wrong only where the instants are equal.

Seconds and nanoseconds are integers here: no clock comes near the limits of the
64-bit types they are kept in.
-/

import Mathlib.Data.Int.Notation
import Mathlib.Data.Int.Order.Basic
import YfsLab.Foundations.TwoDigits

namespace YfsLab.Rpc

open TwoDigits

/-- `struct timespec`. -/
structure Timespec where
  tvSec : ℤ
  tvNsec : ℤ
  deriving DecidableEq, Repr

namespace Timespec

/-- What `pthread_cond_timedwait` requires of a deadline. -/
def Valid (t : Timespec) : Prop := 0 ≤ t.tvNsec ∧ t.tvNsec < 1000000000

instance (t : Timespec) : Decidable t.Valid := inferInstanceAs (Decidable (_ ∧ _))

/-- The point in time, in nanoseconds since the Epoch. -/
def instant (t : Timespec) : ℤ := value 1000000000 t.tvSec t.tvNsec

/-- What `clock_gettime` returns for `CLOCK_REALTIME`: a valid point in time since
the Epoch. -/
def Reading (t : Timespec) : Prop := t.Valid ∧ 0 ≤ t.tvSec

instance (t : Timespec) : Decidable t.Reading := inferInstanceAs (Decidable (_ ∧ _))

end Timespec

/-! ## The functions -/

/-- `cmp_timespec`. -/
def cmpTimespec (a b : Timespec) : ℤ :=
  if a.tvSec > b.tvSec then 1
  else if a.tvSec < b.tvSec then -1
  else if a.tvNsec > b.tvNsec then 1
  else if a.tvNsec < b.tvNsec then -1
  else 0

/-- The loop of `add_timespec`, with a bound on its passes. -/
def carry : ℕ → ℤ → ℤ → Timespec
  | 0, tvSec, tvNsec => { tvSec, tvNsec }
  | passes + 1, tvSec, tvNsec =>
      if tvNsec > 1000000000 then carry passes (tvSec + 1) (tvNsec - 1000000000)
      else { tvSec, tvNsec }

/-- `add_timespec`, which fails where its assertion does. Every pass of the loop takes
from the nanoseconds, so it makes no more passes than there are nanoseconds. -/
def addTimespec (a : Timespec) (b : Int32) : Option Timespec :=
  let tvSec := a.tvSec + (b / 1000).toInt
  let tvNsec := a.tvNsec + (b % 1000 * 1000000).toInt
  if tvNsec ≥ 0 then some (carry tvNsec.toNat tvSec tvNsec) else none

/-! ## The carry -/

theorem carry_of_le (passes : ℕ) {tvSec tvNsec : ℤ} (h : tvNsec ≤ 1000000000) :
    carry passes tvSec tvNsec = { tvSec, tvNsec } := by
  cases passes with
  | zero => rfl
  | succ passes => rw [carry, if_neg (by omega)]

/-- The carry keeps the instant and leaves at most a second in the nanoseconds; it
does not run out of passes. -/
theorem carry_spec (passes : ℕ) (tvSec : ℤ) {tvNsec : ℤ} (h : 0 ≤ tvNsec)
    (henough : tvNsec ≤ passes) :
    (carry passes tvSec tvNsec).instant = value 1000000000 tvSec tvNsec ∧
      0 ≤ (carry passes tvSec tvNsec).tvNsec ∧
      (carry passes tvSec tvNsec).tvNsec ≤ 1000000000 := by
  induction passes generalizing tvSec tvNsec with
  | zero => exact ⟨rfl, h, by show tvNsec ≤ 1000000000; omega⟩
  | succ passes ih =>
      rcases lt_or_ge 1000000000 tvNsec with hmore | hdone
      · rw [carry, if_pos hmore]
        obtain ⟨hinstant, hbounds⟩ :=
          ih (tvSec + 1) (by omega : 0 ≤ tvNsec - 1000000000) (by omega)
        exact ⟨by rw [hinstant, value_carry], hbounds⟩
      · rw [carry_of_le _ hdone]
        exact ⟨rfl, h, hdone⟩

/-- Fewer than two seconds are carried by one pass of the loop. -/
theorem carry_of_lt {passes : ℕ} {tvSec tvNsec : ℤ} (hpasses : passes ≠ 0)
    (hone : 1000000000 < tvNsec) (htwo : tvNsec < 2000000000) :
    carry passes tvSec tvNsec = ⟨tvSec + 1, tvNsec - 1000000000⟩ := by
  obtain ⟨passes, rfl⟩ := Nat.exists_eq_succ_of_ne_zero hpasses
  rw [carry, if_pos hone, carry_of_le _ (by omega)]

/-! ## Adding milliseconds -/

section Milliseconds

variable {b : Int32}

theorem toInt_nonneg (hb : 0 ≤ b) : 0 ≤ b.toInt := by
  rw [Int32.le_iff_toInt_le] at hb
  exact hb

theorem toInt_div_thousand (hb : 0 ≤ b) : (b / 1000).toInt = b.toInt / 1000 := by
  rw [Int32.toInt_div_of_ne_right _ _ (by decide)]
  exact Int.tdiv_eq_ediv_of_nonneg (toInt_nonneg hb)

/-- The product in the nanoseconds does not overflow. -/
theorem toInt_mod_thousand (hb : 0 ≤ b) :
    (b % 1000 * 1000000).toInt = b.toInt % 1000 * 1000000 := by
  rw [Int32.toInt_mul, Int32.toInt_mod]
  show (b.toInt.tmod 1000 * 1000000).bmod (2 ^ 32) = b.toInt % 1000 * 1000000
  rw [Int.tmod_eq_emod_of_nonneg (toInt_nonneg hb)]
  apply Int.bmod_eq_of_le
  · omega
  · omega

/-- Both operators round towards zero. -/
theorem toInt_div_mod_of_neg (hb : b.toInt < 0) :
    (b / 1000).toInt = -(-b.toInt / 1000) ∧
      (b % 1000 * 1000000).toInt = -(-b.toInt % 1000) * 1000000 := by
  obtain ⟨m, hm, hpos⟩ : ∃ m, b.toInt = -m ∧ 0 < m := ⟨-b.toInt, by omega, by omega⟩
  constructor
  · rw [Int32.toInt_div_of_ne_right _ _ (by decide), hm, Int.neg_tdiv, neg_neg]
    show -m.tdiv 1000 = -(m / 1000)
    rw [Int.tdiv_eq_ediv_of_nonneg hpos.le]
  · rw [Int32.toInt_mul, Int32.toInt_mod, hm, Int.neg_tmod, neg_neg]
    show (-m.tmod 1000 * 1000000).bmod (2 ^ 32) = -(m % 1000) * 1000000
    rw [Int.tmod_eq_emod_of_nonneg hpos.le]
    apply Int.bmod_eq_of_le
    · omega
    · omega

end Milliseconds

/-- The sum of the nanoseconds is exactly one second, which is the one value the
carry loop misses. -/
def HitsSecond (a : Timespec) (b : Int32) : Prop :=
  a.tvNsec + (b % 1000 * 1000000).toInt = 1000000000

instance (a : Timespec) (b : Int32) : Decidable (HitsSecond a b) :=
  inferInstanceAs (Decidable (_ = _))

/-- What `add_timespec` returns: the right instant always, with a whole second left
in the nanoseconds just where the sum of the nanoseconds hits it. -/
theorem addTimespec_spec {a : Timespec} {b : Int32} (ha : a.Valid) (hb : 0 ≤ b) :
    ∃ r, addTimespec a b = some r ∧ r.instant = a.instant + b.toInt * 1000000 ∧
      0 ≤ r.tvNsec ∧ r.tvNsec ≤ 1000000000 ∧ (r.tvNsec = 1000000000 ↔ HitsSecond a b) := by
  have hnonneg := toInt_nonneg hb
  have hsum : 0 ≤ a.tvNsec + b.toInt % 1000 * 1000000 := by
    have := ha.1
    omega
  have hadd : addTimespec a b =
      some (carry (a.tvNsec + b.toInt % 1000 * 1000000).toNat (a.tvSec + b.toInt / 1000)
        (a.tvNsec + b.toInt % 1000 * 1000000)) := by
    rw [addTimespec, toInt_div_thousand hb, toInt_mod_thousand hb, if_pos hsum]
  obtain ⟨hinstant, hlow, hhigh⟩ :=
    carry_spec (a.tvNsec + b.toInt % 1000 * 1000000).toNat (a.tvSec + b.toInt / 1000) hsum
      (by omega)
  refine ⟨_, hadd, ?_, hlow, hhigh, ?_⟩
  · rw [hinstant, Timespec.instant, value, value]
    omega
  · rw [HitsSecond, toInt_mod_thousand hb]
    rcases lt_or_ge 1000000000 (a.tvNsec + b.toInt % 1000 * 1000000) with hmore | hless
    · rw [carry_of_lt (by omega) hmore (by have := ha.2; omega)]
      show a.tvNsec + b.toInt % 1000 * 1000000 - 1000000000 = 1000000000 ↔ _
      have := ha.2
      omega
    · rw [carry_of_le _ hless]

/-- A negative number of milliseconds leads to a valid earlier point in time, unless the
assertion fails. -/
theorem addTimespec_of_neg {a r : Timespec} {b : Int32} (ha : a.Valid) (hb : ¬0 ≤ b)
    (hadd : addTimespec a b = some r) : r.Valid ∧ r.instant ≤ a.instant := by
  have hneg : b.toInt < 0 := by
    rw [Int32.le_iff_toInt_le] at hb
    exact not_le.mp hb
  obtain ⟨hdiv, hmod⟩ := toInt_div_mod_of_neg hneg
  obtain ⟨hlow, hhigh⟩ := ha
  have hsum := Option.ite_none_right_eq_some.mp hadd
  rw [hdiv, hmod] at hsum
  obtain ⟨hassert, hr⟩ := hsum
  rw [carry_of_le _ (by omega)] at hr
  obtain rfl := Option.some.inj hr
  refine ⟨⟨hassert, ?_⟩, ?_⟩
  · show a.tvNsec + -(-b.toInt % 1000) * 1000000 < 1000000000
    omega
  · show value 1000000000 (a.tvSec + -(-b.toInt / 1000))
        (a.tvNsec + -(-b.toInt % 1000) * 1000000) ≤
      value 1000000000 a.tvSec a.tvNsec
    rw [value, value]
    omega

/-- Whole seconds leave the nanoseconds alone. -/
theorem addTimespec_of_mod_eq_zero {a : Timespec} {b : Int32} (ha : a.Valid) (hb : 0 ≤ b)
    (hmod : b.toInt % 1000 = 0) :
    addTimespec a b = some ⟨a.tvSec + b.toInt / 1000, a.tvNsec⟩ := by
  obtain ⟨hlow, hhigh⟩ := ha
  rw [addTimespec, toInt_div_thousand hb, toInt_mod_thousand hb, hmod, zero_mul, add_zero,
    if_pos hlow, carry_of_le _ (by omega)]

/-! ## Comparing the results -/

section Compare

variable {a b : Timespec}

/-- A deadline that does not compare as later is not later. -/
theorem instant_le_of_cmp_nonpos (ha : a.tvNsec ≤ 1000000000) (hb : 0 ≤ b.tvNsec)
    (hcmp : ¬cmpTimespec a b > 0) : a.instant ≤ b.instant := by
  rcases lt_trichotomy a.tvSec b.tvSec with hlt | heq | hgt
  · exact value_le_of_hi_lt (by decide) hlt ha hb
  · have hnsec : a.tvNsec ≤ b.tvNsec := by
      by_contra hmore
      have : cmpTimespec a b = 1 := by
        rw [cmpTimespec, if_neg (by omega), if_neg (by omega), if_pos (by omega)]
      omega
    rw [Timespec.instant, Timespec.instant, heq]
    exact value_mono_lo hnsec
  · have : cmpTimespec a b = 1 := by rw [cmpTimespec, if_pos hgt]
    omega

/-- On valid points in time `cmp_timespec` is the sign of the difference. -/
theorem cmpTimespec_eq_sign (ha : a.Valid) (hb : b.Valid) :
    cmpTimespec a b = (a.instant - b.instant).sign := by
  rcases lt_trichotomy a.tvSec b.tvSec with hlt | heq | hgt
  · have hless : a.instant < b.instant := value_lt_of_hi_lt (by decide) hlt ha.2 hb.1
    rw [cmpTimespec, if_neg (by omega), if_pos hlt, Int.sign_eq_neg_one_of_neg (by omega)]
  · rw [cmpTimespec, if_neg (by omega), if_neg (by omega), Timespec.instant,
      Timespec.instant, heq]
    rcases lt_trichotomy a.tvNsec b.tvNsec with hlt | hsame | hgt
    · have hless : value 1000000000 b.tvSec a.tvNsec < value 1000000000 b.tvSec b.tvNsec :=
        value_lt_of_lo_lt hlt
      rw [if_neg (by omega), if_pos hlt, Int.sign_eq_neg_one_of_neg (by omega)]
    · rw [if_neg (by omega), if_neg (by omega), hsame, sub_self, Int.sign_zero]
    · have hmore : value 1000000000 b.tvSec b.tvNsec < value 1000000000 b.tvSec a.tvNsec :=
        value_lt_of_lo_lt hgt
      rw [if_pos hgt, Int.sign_eq_one_of_pos (by omega)]
  · have hmore : b.instant < a.instant := value_lt_of_hi_lt (by decide) hgt hb.2 ha.1
    rw [cmpTimespec, if_pos hgt, Int.sign_eq_one_of_pos (by omega)]

end Compare

/-! ## What a deadline is to be -/

/-- `add_timespec` returns a valid point in time that is exactly `b` milliseconds
after `a`. -/
def Exact (a : Timespec) (b : Int32) : Prop :=
  ∃ r, addTimespec a b = some r ∧ r.Valid ∧ r.instant = a.instant + b.toInt * 1000000

/-- `cmp_timespec` on two results of `add_timespec` is the sign of the difference of
the instants. -/
def Compares (a : Timespec) (b : Int32) (a' : Timespec) (b' : Int32) : Prop :=
  ∀ r r', addTimespec a b = some r → addTimespec a' b' = some r' →
    cmpTimespec r r' =
      (a.instant + b.toInt * 1000000 - (a'.instant + b'.toInt * 1000000)).sign

theorem exact_iff {a : Timespec} {b : Int32} (ha : a.Valid) (hb : 0 ≤ b) :
    Exact a b ↔ ¬HitsSecond a b := by
  obtain ⟨r, hadd, hinstant, hlow, hhigh, hhits⟩ := addTimespec_spec ha hb
  rw [← hhits]
  constructor
  · rintro ⟨r', hadd', ⟨-, hvalid⟩, -⟩
    obtain rfl : r = r' := Option.some.inj (hadd ▸ hadd')
    omega
  · intro hmisses
    exact ⟨r, hadd, ⟨hlow, by omega⟩, hinstant⟩

/-- Exact results compare as their instants do. -/
theorem Exact.compares {a a' : Timespec} {b b' : Int32} (h : Exact a b) (h' : Exact a' b') :
    Compares a b a' b' := by
  intro r r' hr hr'
  obtain ⟨d, hd, hvalid, hinstant⟩ := h
  obtain ⟨d', hd', hvalid', hinstant'⟩ := h'
  obtain rfl : d = r := Option.some.inj (hd ▸ hr)
  obtain rfl : d' = r' := Option.some.inj (hd' ▸ hr')
  rw [cmpTimespec_eq_sign hvalid hvalid', hinstant, hinstant']

end YfsLab.Rpc
