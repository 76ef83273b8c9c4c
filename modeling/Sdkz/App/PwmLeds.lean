import Mathlib.Algebra.Group.Nat.Defs
import Mathlib.Data.List.Chain
import Sdkz.Base.Run

/-! # The blinking LED (app/src/pwmleds.c)

`start_pwmleds` looks for the longest period that the hardware takes, and then
halves and doubles the period within its bounds for ever. Whatever the hardware
refuses, the periods stay in range, the search is short, and every turn changes the
frequency; for a nominal period below `MIN_SCALE` all of this is lost, as the lower
bound is then zero. -/

namespace Sdkz.App
open Sdkz.Base

/-- `MIN_SCALE` -/
def minScale : UInt32 := 50

/-- The arguments of a `pwm_set_dt`. -/
structure PwmSet where
  period : UInt32
  pulse : UInt32
deriving DecidableEq

inductive PwmPhase where
  | calibrating
  | blinking (period : UInt32) (dir : Bool)
  | returned
deriving DecidableEq

/-- The variables of `start_pwmleds`, and the calls of its two loops. -/
structure PwmLeds where
  maxPeriod : UInt32
  phase : PwmPhase
  tries : List PwmSet
  blinks : List PwmSet
deriving DecidableEq

namespace PwmLeds

/-- The device is ready; `led` is `pwm_led.period`. -/
def start (led : UInt32) : PwmLeds := ⟨led, .calibrating, [], []⟩

/-- The period and the direction after a turn of the second loop. -/
def turn (led maxPeriod period : UInt32) (dir : Bool) : UInt32 × Bool :=
  let period := if dir then period * 2 else period / 2
  if period > maxPeriod then (maxPeriod / 2, false)
  else if period < led / minScale then (led / minScale * 2, true)
  else (period, dir)

/-- The next `pwm_set_dt`, which the hardware takes or not, and what follows on it. -/
def step (led : UInt32) (s : PwmLeds) (taken : Bool) : PwmLeds :=
  match s.phase with
  | .calibrating =>
    let tries := s.tries ++ [⟨s.maxPeriod, s.maxPeriod / 2⟩]
    if taken then { s with tries := tries, phase := .blinking s.maxPeriod false }
    else
      { s with
        tries := tries
        maxPeriod := s.maxPeriod / 2
        phase := if s.maxPeriod / 2 < 4 * (led / minScale) then .returned else .calibrating }
  | .blinking period dir =>
    let blinks := s.blinks ++ [⟨period, period / 2⟩]
    if taken then
      let r := turn led s.maxPeriod period dir
      { s with blinks := blinks, phase := .blinking r.1 r.2 }
    else { s with blinks := blinks, phase := .returned }
  | .returned => s

/-- The search is over after five calls, no period leaves its bounds or is zero, and
every turn of the second loop sets a new one. -/
structure Sweeps (led : UInt32) (s : PwmLeds) : Prop where
  tries : s.tries.length ≤ 5
  tried : ∀ c ∈ s.tries, 4 * (led / minScale) ≤ c.period ∧ c.period ≤ led
  range : ∀ c ∈ s.blinks, 0 < c.period ∧ led / minScale ≤ c.period ∧ c.period ≤ s.maxPeriod
  changes : s.blinks.IsChain fun a b => a.period ≠ b.period

/-! ## One turn -/

theorem toNat_quarter (led : UInt32) : (4 * (led / minScale)).toNat = 4 * (led.toNat / 50) := by
  have hlt := led.toNat_lt
  rw [UInt32.toNat_mul, UInt32.toNat_div]
  show 4 * (led.toNat / 50) % 2 ^ 32 = _
  omega

/-- A turn stays in range and changes the period, also where the doubling overflows. -/
theorem turn_range {led maxPeriod period : UInt32} (dir : Bool) (hled : 50 ≤ led)
    (hmax : 4 * (led / minScale) ≤ maxPeriod) (hlow : led / minScale ≤ period)
    (hhigh : period ≤ maxPeriod) :
    led / minScale ≤ (turn led maxPeriod period dir).1 ∧
      (turn led maxPeriod period dir).1 ≤ maxPeriod ∧
      (turn led maxPeriod period dir).1 ≠ period := by
  have hmin : (led / minScale).toNat = led.toNat / 50 := UInt32.toNat_div ..
  have hbounds := And.intro led.toNat_lt (And.intro maxPeriod.toNat_lt period.toNat_lt)
  rw [UInt32.le_iff_toNat_le] at hled hmax hlow hhigh
  rw [toNat_quarter] at hmax
  rw [hmin] at hlow
  rw [show (50 : UInt32).toNat = 50 from rfl] at hled
  have hhalf : (maxPeriod / 2).toNat = maxPeriod.toNat / 2 := UInt32.toNat_div ..
  have hdouble : (led / minScale * 2).toNat = led.toNat / 50 * 2 % 4294967296 := by
    rw [UInt32.toNat_mul, hmin]
    rfl
  have hnext : (if dir then period * 2 else period / 2).toNat =
      if dir then period.toNat * 2 % 4294967296 else period.toNat / 2 := by
    split
    · rw [UInt32.toNat_mul]
      rfl
    · exact UInt32.toNat_div ..
  unfold turn
  generalize (if dir then period * 2 else period / 2) = next at hnext ⊢
  simp only [UInt32.le_iff_toNat_le, ne_eq, ← UInt32.toNat_inj, hmin]
  by_cases habove : next > maxPeriod
  · rw [if_pos habove]
    rw [gt_iff_lt, UInt32.lt_iff_toNat_lt] at habove
    simp only [hhalf]
    split at hnext <;> omega
  · rw [if_neg habove]
    rw [gt_iff_lt, UInt32.lt_iff_toNat_lt] at habove
    by_cases hbelow : next < led / minScale
    · rw [if_pos hbelow]
      rw [UInt32.lt_iff_toNat_lt, hmin] at hbelow
      simp only [hdouble]
      split at hnext <;> omega
    · rw [if_neg hbelow]
      rw [UInt32.lt_iff_toNat_lt, hmin] at hbelow
      dsimp only
      split at hnext <;> omega

/-! ## Every run -/

structure Inv (led : UInt32) (s : PwmLeds) : Prop where
  sweeps : s.Sweeps led
  calibrating : s.phase = .calibrating → s.maxPeriod.toNat = led.toNat / 2 ^ s.tries.length ∧
    s.tries.length ≤ 4 ∧ 4 * (led / minScale) ≤ s.maxPeriod ∧ s.blinks = []
  blinking : ∀ period dir, s.phase = .blinking period dir → 4 * (led / minScale) ≤ s.maxPeriod ∧
    led / minScale ≤ period ∧ period ≤ s.maxPeriod ∧ ∀ c ∈ s.blinks.getLast?, c.period ≠ period

variable {led : UInt32} {s : PwmLeds}

theorem minScale_le (led : UInt32) : led / minScale ≤ 4 * (led / minScale) ∧
    4 * (led / minScale) ≤ led := by
  have hmin : (led / minScale).toNat = led.toNat / 50 := UInt32.toNat_div ..
  rw [UInt32.le_iff_toNat_le, UInt32.le_iff_toNat_le, toNat_quarter, hmin]
  omega

theorem start_inv (led : UInt32) : (start led).Inv led where
  sweeps := ⟨Nat.zero_le _, by simp [start], by simp [start], List.isChain_nil⟩
  calibrating _ := ⟨by simp [start], Nat.zero_le _, (minScale_le led).2, rfl⟩
  blinking _ _ h := by cases h

/-- Five halvings lead below the bound of the search. -/
theorem short_search (hled : 50 ≤ led) {k : Nat}
    (h : 4 * (led.toNat / 50) ≤ led.toNat / 2 ^ k) : k ≤ 4 := by
  by_contra hk
  have hpow : led.toNat / 2 ^ k ≤ led.toNat / 2 ^ 5 :=
    Nat.div_le_div_left (Nat.pow_le_pow_right (by omega) (by omega)) (by omega)
  rw [UInt32.le_iff_toNat_le, show (50 : UInt32).toNat = 50 from rfl] at hled
  omega

theorem minScale_pos (hled : 50 ≤ led) : 0 < led / minScale := by
  have hmin : (led / minScale).toNat = led.toNat / 50 := UInt32.toNat_div ..
  rw [UInt32.le_iff_toNat_le, show (50 : UInt32).toNat = 50 from rfl] at hled
  rw [UInt32.lt_iff_toNat_lt, hmin]
  exact Nat.div_pos hled (by decide)

/-- A call of the search, taken or not. -/
theorem Inv.try_step (I : s.Inv led) (hled : 50 ≤ led) (hphase : s.phase = .calibrating)
    (taken : Bool) : (s.step led taken).Inv led := by
  obtain ⟨hperiod, hshort, hlow, hblinks⟩ := I.calibrating hphase
  have htries : (s.tries ++ [PwmSet.mk s.maxPeriod (s.maxPeriod / 2)]).length =
      s.tries.length + 1 := List.length_append
  have hsweeps : ∀ maxPeriod phase, Sweeps led ⟨maxPeriod, phase,
      s.tries ++ [⟨s.maxPeriod, s.maxPeriod / 2⟩], s.blinks⟩ := by
    intro maxPeriod phase
    refine ⟨htries.trans_le (Nat.succ_le_succ hshort), fun c hc => ?_, ?_, I.sweeps.changes⟩
    · rcases List.mem_append.mp hc with hc | hc
      · exact I.sweeps.tried c hc
      · rw [List.mem_singleton.mp hc]
        refine ⟨hlow, UInt32.le_iff_toNat_le.mpr ?_⟩
        rw [hperiod]
        exact Nat.div_le_self ..
    · simp [hblinks]
  cases taken with
  | true =>
    simp only [PwmLeds.step, hphase, if_true]
    refine ⟨hsweeps _ _, fun h => by (cases h), fun period dir h => ?_⟩
    obtain ⟨rfl, rfl⟩ := PwmPhase.blinking.inj h
    exact ⟨hlow, UInt32.le_trans (minScale_le led).1 hlow, UInt32.le_refl _, by simp [hblinks]⟩
  | false =>
    simp only [PwmLeds.step, hphase, Bool.false_eq_true, if_false]
    refine ⟨hsweeps _ _, fun h => ?_, fun period dir h => ?_⟩
    · have hon : 4 * (led / minScale) ≤ s.maxPeriod / 2 := by
        by_contra hbelow
        simp only [if_pos (UInt32.not_le.mp hbelow)] at h
        cases h
      have hhalf : (s.maxPeriod / 2).toNat = led.toNat / 2 ^ (s.tries.length + 1) := by
        rw [UInt32.toNat_div, hperiod, Nat.pow_succ, ← Nat.div_div_eq_div_mul]
        rfl
      refine ⟨hhalf.trans (by rw [htries]), ?_, hon, hblinks⟩
      rw [UInt32.le_iff_toNat_le, toNat_quarter, hhalf] at hon
      rw [htries]
      exact short_search hled hon
    · split at h <;> cases h

/-- A turn of the second loop. -/
theorem Inv.blink_step (I : s.Inv led) (hled : 50 ≤ led) {period : UInt32} {dir : Bool}
    (hphase : s.phase = .blinking period dir) (taken : Bool) : (s.step led taken).Inv led := by
  obtain ⟨hmax, hlow, hhigh, hlast⟩ := I.blinking period dir hphase
  have hsweeps : ∀ phase, Sweeps led
      ⟨s.maxPeriod, phase, s.tries, s.blinks ++ [⟨period, period / 2⟩]⟩ := by
    intro phase
    refine ⟨I.sweeps.tries, I.sweeps.tried, fun c hc => ?_, ?_⟩
    · rcases List.mem_append.mp hc with hc | hc
      · exact I.sweeps.range c hc
      · rw [List.mem_singleton.mp hc]
        exact ⟨UInt32.lt_of_lt_of_le (minScale_pos hled) hlow, hlow, hhigh⟩
    · refine I.sweeps.changes.append (List.isChain_singleton _) fun a ha b hb => ?_
      rw [List.head?_cons, Option.mem_some_iff] at hb
      rw [← hb]
      exact hlast a ha
  cases taken with
  | true =>
    simp only [PwmLeds.step, hphase, if_true]
    refine ⟨hsweeps _, fun h => by (cases h), fun next dir' h => ?_⟩
    obtain ⟨rfl, rfl⟩ := PwmPhase.blinking.inj h
    obtain ⟨hlow', hhigh', hne⟩ := turn_range dir hled hmax hlow hhigh
    refine ⟨hmax, hlow', hhigh', fun c hc => ?_⟩
    rw [List.getLast?_append, List.getLast?_singleton, Option.some_or, Option.mem_some_iff] at hc
    rw [← hc]
    exact hne.symm
  | false =>
    simp only [PwmLeds.step, hphase, Bool.false_eq_true, if_false]
    exact ⟨hsweeps _, fun h => by (cases h), fun _ _ h => by (cases h)⟩

theorem Inv.step (I : s.Inv led) (hled : 50 ≤ led) (taken : Bool) : (s.step led taken).Inv led := by
  cases hphase : s.phase with
  | calibrating => exact I.try_step hled hphase taken
  | blinking period dir => exact I.blink_step hled hphase taken
  | returned =>
    have hstep : s.step led taken = s := by simp only [PwmLeds.step, hphase]
    rwa [hstep]

/-- Below `MIN_SCALE` the halving ends in a period of zero. -/
theorem zero_below : ∀ led < 50, ((List.replicate 8 true).foldl (step (.ofNat led))
    (start (.ofNat led))).blinks.any fun c => c.period = 0 := by
  decide +kernel

/-- **The LED keeps changing within its bounds**, whatever periods the hardware takes or
refuses, exactly if its nominal period is no shorter than `MIN_SCALE`. -/
theorem leds_sweep_iff (led : UInt32) :
    (∀ taken, Always (step led) (Sweeps led) (start led) taken) ↔ 50 ≤ led := by
  constructor
  · intro hsweeps
    by_contra hbelow
    have hlt := UInt32.lt_iff_toNat_lt.mp (UInt32.not_le.mp hbelow)
    have hzero := zero_below led.toNat hlt
    rw [UInt32.ofNat_toNat, List.any_eq_true] at hzero
    obtain ⟨c, hc, hperiod⟩ := hzero
    have hpos := ((hsweeps _).last.range c hc).1
    rw [of_decide_eq_true hperiod] at hpos
    exact absurd hpos (by decide)
  · intro hled taken p hp
    have hinv : Always (step led) (Inv led) (start led) taken :=
      Guarded.always (C := fun _ _ => True) (fun _ t I _ => I.step hled t) (start_inv led)
        fun _ _ _ => trivial
    exact (hinv p hp).sweeps

end PwmLeds

end Sdkz.App
