/-
# How long a call waits

The loop of `call1` for a peer that never replies, with its deadlines and its clock.
The intervals double from `to_min` on; a deadline that would lie behind the final one
is replaced by it, and `finaldeadline.tv_sec` becomes zero to say that this wait is
the last. What the world contributes is the clock: its readings, and the time at
which `pthread_cond_timedwait` returns `ETIMEDOUT`.

The sections of `call1` that send the request stand between two rounds of this loop
and only let time pass, so they do not show here.
-/

import YfsLab.Foundations.Transition
import YfsLab.Rpc.Client
import YfsLab.Rpc.Timespec

namespace YfsLab.Rpc

open Transition

/-- `rpcc::to_min`. -/
def toMin : Int32 := 1000

namespace WaitLoop

/-! ## The loop -/

/-- Where the loop stands. -/
inductive Place
  /-- about to test `finaldeadline.tv_sec` -/
  | top
  /-- in `pthread_cond_timedwait` with `nextdeadline` -/
  | waiting
  /-- behind the loop -/
  | left
  deriving DecidableEq, Repr

/-- The local variables of the loop, the time that has come, and the deadlines of the
waits so far. -/
structure State where
  currTo : Int32 := toMin
  nextdeadline : Timespec
  finaldeadline : Timespec
  place : Place := .top
  clock : Timespec
  waits : List Timespec := []
  deriving DecidableEq, Repr

/-- The steps, with the readings of the clock. -/
inductive Label
  | leave
  | wait (now : Timespec)
  | expire (now : Timespec)
  deriving DecidableEq, Repr

/-- The part of `call1` before the loop; `nextdeadline` is not initialised there. -/
def enter (now : Timespec) (timeout : Int32) : Option State :=
  (addTimespec now timeout).map fun finaldeadline =>
    { nextdeadline := now, finaldeadline, clock := now }

/-- The wait that a round comes to. -/
def round (s : State) (now nextdeadline : Timespec) : State :=
  if cmpTimespec nextdeadline s.finaldeadline > 0 then
    { s with
      nextdeadline := s.finaldeadline
      finaldeadline := { s.finaldeadline with tvSec := 0 }
      place := .waiting
      clock := now
      waits := s.waits ++ [s.finaldeadline] }
  else
    { s with nextdeadline, place := .waiting, clock := now, waits := s.waits ++ [nextdeadline] }

/-- One step of the loop. -/
def step (s : State) : Label → Option State
  | .leave =>
      if s.place = .top ∧ s.finaldeadline.tvSec = 0 then some { s with place := .left }
      else none
  | .wait now =>
      if s.place = .top ∧ s.finaldeadline.tvSec ≠ 0 then
        (addTimespec now s.currTo).map (round s now)
      else none
  | .expire now =>
      if s.place = .waiting then
        some { s with currTo := s.currTo <<< 1, place := .top, clock := now }
      else none

/-- The loop, entered with these variables. -/
def system (init : State) : System State Label where
  init := init
  step := step

/-- The clock does not run backwards, and no wait ends before its deadline. -/
def Clocked (s : State) : Label → Prop
  | .leave => True
  | .wait now => now.Reading ∧ s.clock.instant ≤ now.instant
  | .expire now => now.Reading ∧ s.clock.instant ≤ now.instant ∧
      s.nextdeadline.instant ≤ now.instant

instance (s : State) : (label : Label) → Decidable (Clocked s label)
  | .leave => inferInstanceAs (Decidable True)
  | .wait _ => inferInstanceAs (Decidable (_ ∧ _))
  | .expire _ => inferInstanceAs (Decidable (_ ∧ _ ∧ _))

/-- The step that the loop takes at some time, unless it is over. -/
def next (s : State) (now : Timespec) : Label :=
  match s.place with
  | .waiting => .expire now
  | _ => if s.finaldeadline.tvSec = 0 then .leave else .wait now

/-- An executed list of labels that keeps to the clock. -/
theorem clocked_of_execIf {init s : State} {labels : List Label}
    (hexec : (system init).execIf (fun s label => decide (Clocked s label)) init labels =
      some s) : (system init).Run Clocked labels s :=
  System.run_of_execIf (fun _ _ => of_decide_eq_true) hexec

/-! ## The loop of the client's model -/

/-- The phase of a call in each place of the loop behind the test at its top. -/
def phase : Place → Phase
  | .top => .expired
  | .waiting => .waiting
  | .left => .erasing

/-- The doubled interval is used in a deadline only where it has not overflowed. -/
theorem toInt_double {b : Int32} {n : ℕ} (hb : b.toInt = 1000 * 2 ^ n)
    (hfits : 1000 * (2 ^ (n + 1) - 1 : ℤ) < 2 ^ 31) : (b <<< 1).toInt = 1000 * 2 ^ (n + 1) := by
  have hsum : b <<< (1 : Int32) = b + b := by
    rw [← Int32.toBitVec_inj, Int32.toBitVec_shiftLeft, Int32.toBitVec_add]
    show b.toBitVec <<< (1#32).toNat = _
    apply BitVec.eq_of_toNat_eq
    rw [BitVec.toNat_shiftLeft, Nat.shiftLeft_eq, BitVec.toNat_add]
    show b.toBitVec.toNat * 2 ^ 1 % 2 ^ 32 = _
    omega
  -- the largest power of two that fits leaves some room below the largest int
  have hn : n + 1 < 22 := by
    by_contra hlarge
    have hpow : (2 : ℤ) ^ 22 ≤ 2 ^ (n + 1) := pow_le_pow_right₀ (by decide) (by omega)
    omega
  have hpow : (2 : ℤ) ^ (n + 1) ≤ 2 ^ 21 := pow_le_pow_right₀ (by decide) (by omega)
  have hdouble : b.toInt + b.toInt = 1000 * 2 ^ (n + 1) := by
    rw [hb, pow_succ]
    omega
  have hpos : (0 : ℤ) < 2 ^ (n + 1) := pow_pos (by decide) _
  rw [hsum, Int32.toInt_add, hdouble]
  apply Int.bmod_eq_of_le
  · omega
  · omega

/-! ## Where a run stands -/

/-- A final deadline that is at most so many milliseconds behind the start. -/
structure Ahead (start final : Timespec) (bound : ℤ) : Prop where
  nonneg : 0 ≤ bound
  fits : bound < 2 ^ 31
  instant_le : final.instant ≤ start.instant + bound * 1000000
  low : 0 ≤ final.tvNsec
  high : final.tvNsec ≤ 1000000000

/-- The places of a run that was entered at `start`, by the kind of the wait before
it. After `n` waits that were not the last one, the clock has moved on by the sum of
the first `n` intervals. -/
inductive Standing (start final : Timespec) (bound : ℤ) (s : State) : Prop
  /-- at the top, with the final deadline ahead -/
  | running (n : ℕ) (place : s.place = .top) (deadline : s.finaldeadline = final)
      (count : s.waits.length = n) (interval : s.currTo.toInt = 1000 * 2 ^ n)
      (elapsed : start.instant + 1000000000 * (2 ^ n - 1) ≤ s.clock.instant)
      (fits : 1000 * (2 ^ n - 1) ≤ bound) (begun : s.waits ≠ [] → final.tvSec ≠ 0)
  /-- in a wait that is not the last one -/
  | waiting (n : ℕ) (place : s.place = .waiting) (deadline : s.finaldeadline = final)
      (count : s.waits.length = n + 1) (interval : s.currTo.toInt = 1000 * 2 ^ n)
      (elapsed : start.instant + 1000000000 * (2 ^ (n + 1) - 1) ≤ s.nextdeadline.instant)
      (early : s.nextdeadline.instant ≤ final.instant) (begun : final.tvSec ≠ 0)
  /-- in the last wait -/
  | last (n : ℕ) (place : s.place = .waiting) (sentinel : s.finaldeadline.tvSec = 0)
      (next : s.nextdeadline = final) (count : s.waits.length = n + 1)
      (fits : 1000 * (2 ^ n - 1) ≤ bound) (newest : s.waits.getLast? = some final)
  /-- behind the last wait -/
  | ended (n : ℕ) (place : s.place ≠ .waiting) (sentinel : s.finaldeadline.tvSec = 0)
      (count : s.waits.length = n + 1) (fits : 1000 * (2 ^ n - 1) ≤ bound)
      (newest : s.waits.getLast? = some final) (late : final.instant ≤ s.clock.instant)
  /-- behind the loop without any wait, since the final deadline looked like the sentinel -/
  | never (place : s.place = .left) (none : s.waits = []) (second : final.tvSec = 0)
      (late : start.instant ≤ s.clock.instant)

/-- The deadlines of the waits so far are no later than the final one, and valid
except perhaps for that one itself. -/
def Bounded (final : Timespec) (waits : List Timespec) : Prop :=
  ∀ d ∈ waits, d.instant ≤ final.instant ∧ (d.Valid ∨ d = final)

/-- The invariant of the loop. -/
structure Along (start final : Timespec) (bound : ℤ) (s : State) : Prop where
  standing : Standing start final bound s
  bounded : Bounded final s.waits

variable {start final : Timespec} {bound : ℤ} {timeout : Int32} {s target : State}

theorem Bounded.concat {waits : List Timespec} (h : Bounded final waits) {d : Timespec}
    (hd : d.instant ≤ final.instant ∧ (d.Valid ∨ d = final)) : Bounded final (waits ++ [d]) := by
  intro e he
  rcases List.mem_append.mp he with hold | hnew
  · exact h e hold
  · rw [List.mem_singleton.mp hnew]
    exact hd

theorem along_enter (hahead : Ahead start final bound) {init : State}
    (hfinal : addTimespec start timeout = some final)
    (henter : enter start timeout = some init) :
    init.finaldeadline = final ∧ Along start final bound init := by
  rw [enter, hfinal] at henter
  obtain rfl := Option.some.inj henter
  have hbound := hahead.nonneg
  refine ⟨rfl, .running 0 rfl rfl rfl rfl ?_ (by omega) (fun hne => absurd rfl hne),
    fun d hd => absurd hd List.not_mem_nil⟩
  show start.instant + 1000000000 * (2 ^ 0 - 1) ≤ start.instant
  omega

theorem Along.leave (h : Along start final bound s)
    (hstep : step s .leave = some target) : Along start final bound target := by
  obtain ⟨⟨hplace, hzero⟩, rfl⟩ := by simpa [step] using hstep
  refine ⟨?_, h.bounded⟩
  cases h.standing with
  | running n place deadline count interval elapsed fits begun =>
      have hsecond : final.tvSec = 0 := by rw [← deadline, hzero]
      have hnone : s.waits = [] := by
        by_contra hne
        exact begun hne hsecond
      rw [hnone, List.length_nil] at count
      subst count
      exact .never rfl hnone hsecond (by show start.instant ≤ s.clock.instant; omega)
  | waiting n place | last n place =>
      rw [hplace] at place
      exact absurd place (by decide)
  | ended n place sentinel count fits newest late =>
      exact .ended n nofun sentinel count fits newest late
  | never place =>
      rw [hplace] at place
      exact absurd place (by decide)

/-- A wait begins. Its interval has not overflowed, so its deadline is as far behind
the ones before as the interval says, unless the final deadline comes first. -/
theorem Along.wait (hahead : Ahead start final bound) (h : Along start final bound s)
    {now : Timespec} (hclocked : Clocked s (.wait now)) (hstep : step s (.wait now) = some target) :
    Along start final bound target := by
  obtain ⟨⟨hplace, hmore⟩, deadline', hadd, rfl⟩ := by simpa [step] using hstep
  obtain ⟨hnow, hclock⟩ := hclocked
  cases h.standing with
  | running n place deadline count interval elapsed fits begun =>
      have hpos : (0 : ℤ) < 2 ^ n := pow_pos (by decide) n
      have hsecond : final.tvSec ≠ 0 := by rwa [← deadline]
      have hcurr : 0 ≤ s.currTo := by
        rw [Int32.le_iff_toInt_le, interval]
        show (0 : ℤ) ≤ _
        omega
      have hmod : s.currTo.toInt % 1000 = 0 := by omega
      have hvalid : deadline'.Valid := by
        have hwhole := addTimespec_of_mod_eq_zero hnow.1 hcurr hmod
        rw [hadd] at hwhole
        rw [Option.some.inj hwhole]
        exact hnow.1
      have hinstant : deadline'.instant = now.instant + s.currTo.toInt * 1000000 := by
        obtain ⟨r, hr, hinstant, -⟩ := addTimespec_spec hnow.1 hcurr
        rw [hadd] at hr
        rwa [Option.some.inj hr]
      by_cases hcmp : cmpTimespec deadline' s.finaldeadline > 0
      · rw [round, if_pos hcmp]
        constructor
        · exact .last n rfl rfl deadline (by simp [count]) fits (by simp [deadline])
        · rw [deadline]
          exact h.bounded.concat ⟨le_refl _, .inr rfl⟩
      · rw [round, if_neg hcmp]
        have hearly : deadline'.instant ≤ final.instant := by
          rw [deadline] at hcmp
          exact instant_le_of_cmp_nonpos (by have := hvalid.2; omega) hahead.low hcmp
        refine ⟨.waiting n rfl deadline (by simp [count]) interval ?_ hearly hsecond,
          h.bounded.concat ⟨hearly, .inl hvalid⟩⟩
        show start.instant + 1000000000 * (2 ^ (n + 1) - 1) ≤ deadline'.instant
        rw [hinstant, interval, pow_succ]
        omega
  | waiting n place | last n place =>
      rw [hplace] at place
      exact absurd place (by decide)
  | ended n place sentinel => exact absurd sentinel hmore
  | never place =>
      rw [hplace] at place
      exact absurd place (by decide)

/-- A wait ends. Its deadline has passed, and unless it was the last one the interval
can be doubled without an overflow. -/
theorem Along.expire (hahead : Ahead start final bound) (h : Along start final bound s)
    {now : Timespec} (hclocked : Clocked s (.expire now))
    (hstep : step s (.expire now) = some target) : Along start final bound target := by
  obtain ⟨hplace, rfl⟩ := by simpa [step] using hstep
  obtain ⟨-, hclock, hlate⟩ := hclocked
  refine ⟨?_, h.bounded⟩
  cases h.standing with
  | running n place | never place =>
      rw [hplace] at place
      exact absurd place (by decide)
  | waiting n place deadline count interval elapsed early begun =>
      have hinstant := hahead.instant_le
      have hfits : 1000 * (2 ^ (n + 1) - 1) ≤ bound := by omega
      have hsmall := hahead.fits
      refine .running (n + 1) rfl deadline count (toInt_double interval (by omega)) ?_ hfits
        fun _ => begun
      show start.instant + 1000000000 * (2 ^ (n + 1) - 1) ≤ now.instant
      omega
  | last n place sentinel next count fits newest =>
      rw [next] at hlate
      exact .ended n nofun sentinel count fits newest hlate
  | ended n place => exact absurd hplace place

/-- The loop stands where its invariant says after every step. -/
theorem along_of_run (hahead : Ahead start final bound) {init : State}
    (hfinal : addTimespec start timeout = some final)
    (henter : enter start timeout = some init) {labels : List Label}
    (hrun : (system init).Run Clocked labels s) : Along start final bound s := by
  refine System.Run.invariant (Along start final bound)
    (along_enter hahead hfinal henter).2 ?_ hrun
  intro labels source label target _ h hclocked hstep
  cases label with
  | leave => exact h.leave hstep
  | wait now => exact h.wait hahead hclocked hstep
  | expire now => exact h.expire hahead hclocked hstep

/-- The loop makes fewer than `k` waits that are not the last one if the sum of the
first `k` intervals is more than the timeout. -/
theorem Standing.length_le (hahead : Ahead start final bound)
    (h : Standing start final bound s) {k : ℕ} (hk : bound < 1000 * (2 ^ k - 1)) :
    s.waits.length ≤ k := by
  have hlt : ∀ n : ℕ, 1000 * (2 ^ n - 1) ≤ bound → n < k := by
    intro n hn
    apply (pow_lt_pow_iff_right₀ (by decide : (1 : ℤ) < 2)).mp
    omega
  cases h with
  | running n place deadline count interval elapsed fits begun =>
      have := hlt n fits
      omega
  | waiting n place deadline count interval elapsed early begun =>
      have hinstant := hahead.instant_le
      have := hlt (n + 1) (by omega)
      omega
  | last n place sentinel next count fits newest =>
      have := hlt n fits
      omega
  | ended n place sentinel count fits newest late =>
      have := hlt n fits
      omega
  | never place none second late =>
      rw [none]
      exact Nat.zero_le k

/-- The end of the timeout, in nanoseconds since the Epoch. -/
def due (start : Timespec) (timeout : Int32) : ℤ := start.instant + timeout.toInt * 1000000

/-- The final deadline of a call is ahead of its start, also where the timeout is
negative. -/
theorem ahead_final (hstart : start.Valid) (hfinal : addTimespec start timeout = some final) :
    Ahead start final (max timeout.toInt 0) := by
  have hsmall := timeout.toInt_lt
  by_cases htimeout : 0 ≤ timeout
  · obtain ⟨r, hr, hinstant, hlow, hhigh, -⟩ := addTimespec_spec hstart htimeout
    obtain rfl : r = final := Option.some.inj (hr ▸ hfinal)
    exact ⟨by omega, by omega, by omega, hlow, hhigh⟩
  · obtain ⟨⟨hlow, hhigh⟩, hinstant⟩ := addTimespec_of_neg hstart htimeout hfinal
    exact ⟨by omega, by omega, by omega, hlow, by omega⟩

/-- The final deadline is valid unless the sum of the nanoseconds hits the second. -/
theorem final_valid_iff (hstart : start.Valid) (hfinal : addTimespec start timeout = some final) :
    final.Valid ↔ ¬HitsSecond start timeout := by
  by_cases htimeout : 0 ≤ timeout
  · obtain ⟨r, hr, -, hlow, hhigh, hhits⟩ := addTimespec_spec hstart htimeout
    obtain rfl : r = final := Option.some.inj (hr ▸ hfinal)
    rw [← hhits]
    exact ⟨fun hvalid => by have := hvalid.2; omega, fun hmisses => ⟨hlow, by omega⟩⟩
  · have hvalid := (addTimespec_of_neg hstart htimeout hfinal).1
    refine iff_of_true hvalid fun hhits => ?_
    rw [Int32.le_iff_toInt_le] at htimeout
    have hhigh := hstart.2
    rw [HitsSecond, (toInt_div_mod_of_neg (not_le.mp htimeout)).2] at hhits
    omega

/-- Deadline arithmetic: the results of `add_timespec` are valid, exact and compare as
their instants do just where neither sum of nanoseconds hits the second; and a run of
the loop of `call1`, for any timeout and any clock that does not run backwards, has
passed valid deadlines only to `pthread_cond_timedwait` unless the final one is among
them and its sum of nanoseconds hit the second. -/
theorem deadlineArithmetic {a a' : Timespec} {b b' : Int32} (ha : a.Valid) (hb : 0 ≤ b)
    (ha' : a'.Valid) (hb' : 0 ≤ b') :
    (Exact a b ∧ Exact a' b' ∧ Compares a b a' b' ↔ ¬HitsSecond a b ∧ ¬HitsSecond a' b') ∧
    ∀ start timeout init, start.Reading → enter start timeout = some init →
      ∀ labels s, (system init).Run Clocked labels s →
        ((∀ d ∈ s.waits, d.Valid) ↔
          ¬(HitsSecond start timeout ∧ init.finaldeadline ∈ s.waits)) := by
  constructor
  · rw [← exact_iff ha hb, ← exact_iff ha' hb']
    exact ⟨fun h => ⟨h.1, h.2.1⟩, fun h => ⟨h.1, h.2, h.1.compares h.2⟩⟩
  · intro start timeout init hstart henter labels s hrun
    obtain ⟨final, hfinal, -⟩ := Option.map_eq_some_iff.mp henter
    have hahead := ahead_final hstart.1 hfinal
    obtain ⟨hinit, -⟩ := along_enter hahead hfinal henter
    have h := along_of_run hahead hfinal henter hrun
    have hvalid := final_valid_iff hstart.1 hfinal
    rw [hinit]
    constructor
    · rintro hall ⟨hhits, hmem⟩
      exact hvalid.mp (hall final hmem) hhits
    · intro hexcept d hd
      rcases (h.bounded d hd).2 with hd' | rfl
      · exact hd'
      · exact hvalid.mpr fun hhits => hexcept ⟨hhits, hd⟩

/-- A call with a timeout of a second and a half that starts seven nanoseconds after a
second: all of its deadlines are valid. -/
theorem deadlineArithmetic_call :
    (Exact ⟨100, 7⟩ 1500 ∧ Exact ⟨100, 7⟩ 1000 ∧ Compares ⟨100, 7⟩ 1500 ⟨100, 7⟩ 1000) ∧
    ∃ init s, enter ⟨100, 7⟩ 1500 = some init ∧
      (system init).Run Clocked [.wait ⟨100, 7⟩, .expire ⟨101, 7⟩, .wait ⟨101, 7⟩] s ∧
      s.waits = [⟨101, 7⟩, ⟨101, 500000007⟩] ∧ ∀ d ∈ s.waits, d.Valid := by
  obtain ⟨init, s, henter, hexec, hwaits⟩ : ∃ init s,
      enter ⟨100, 7⟩ 1500 = some init ∧
      (system init).execIf (fun s label => decide (Clocked s label)) init
        [.wait ⟨100, 7⟩, .expire ⟨101, 7⟩, .wait ⟨101, 7⟩] = some s ∧
      s.waits = [⟨101, 7⟩, ⟨101, 500000007⟩] :=
    ⟨_, _, rfl, rfl, by decide⟩
  have hrun := clocked_of_execIf hexec
  have hvalid : (⟨100, 7⟩ : Timespec).Valid := by decide
  have hlong : (0 : Int32) ≤ 1500 := by decide
  have hshort : (0 : Int32) ≤ 1000 := by decide
  have h := deadlineArithmetic hvalid hlong hvalid hshort
  refine ⟨h.1.mpr ⟨by decide, by decide⟩, init, s, henter, hrun, hwaits, ?_⟩
  exact (h.2 ⟨100, 7⟩ 1500 init (by decide) henter _ s hrun).mpr fun hmisses =>
    absurd hmisses.1 (by decide)

/-- One millisecond after a second, 999 milliseconds later: the result has a whole
second in its nanoseconds, and it compares as earlier than the same instant in its
valid form. A call with a timeout of a second and a half that starts in the middle of
a second passes such a deadline to its last wait. -/
theorem wholeSecond_invalid :
    ((⟨5, 1000000⟩ : Timespec).Valid ∧ ¬Exact ⟨5, 1000000⟩ 999 ∧
      ¬Compares ⟨5, 1000000⟩ 999 ⟨5, 0⟩ 1000) ∧
    ∃ init s, enter ⟨5, 500000000⟩ 1500 = some init ∧
      (system init).Run Clocked
        [.wait ⟨5, 500000000⟩, .expire ⟨6, 500000000⟩, .wait ⟨6, 500000000⟩] s ∧
      s.place = .waiting ∧ s.nextdeadline = ⟨6, 1000000000⟩ ∧ ¬s.nextdeadline.Valid := by
  refine ⟨⟨by decide, ?_, ?_⟩, ?_⟩
  · rintro ⟨r, hr, hvalid, -⟩
    obtain rfl : ⟨5, 1000000000⟩ = r := Option.some.inj hr
    exact absurd hvalid (by decide)
  · intro hcompares
    exact absurd (hcompares ⟨5, 1000000000⟩ ⟨6, 0⟩ rfl rfl) (by decide)
  · obtain ⟨init, s, henter, hexec, hplace, hnext⟩ : ∃ init s,
        enter ⟨5, 500000000⟩ 1500 = some init ∧
        (system init).execIf (fun s label => decide (Clocked s label)) init
          [.wait ⟨5, 500000000⟩, .expire ⟨6, 500000000⟩, .wait ⟨6, 500000000⟩] = some s ∧
        s.place = .waiting ∧ s.nextdeadline = ⟨6, 1000000000⟩ :=
      ⟨_, _, rfl, rfl, by decide, by decide⟩
    have hrun := clocked_of_execIf hexec
    exact ⟨init, s, henter, hrun, hplace, hnext, by rw [hnext]; decide⟩

end WaitLoop

end YfsLab.Rpc
