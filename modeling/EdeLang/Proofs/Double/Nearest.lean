import EdeLang.Double.Rounding
import Mathlib.Algebra.Order.Ring.Int
import Mathlib.Data.Int.Init
import Mathlib.Tactic.Ring

/-!
# The number nearest to an integer

The bits of a finite number give its value as a multiple of the least positive number, so distances
to an integer can be compared exactly. The conversion of an integer yields the finite number nearest
to it, with an even last digit where two are equally near.
-/

namespace EdeLang.Double

def exponentField (d : Double) : Nat := d.bits.toNat / 2 ^ 52 % 2 ^ 11

def fraction (d : Double) : Nat := d.bits.toNat % 2 ^ 52

/-- The number is neither infinite nor a NaN. -/
def Finite (d : Double) : Prop := d.exponentField < 2 ^ 11 - 1

/-- The digits of a finite number. Those of a normal one start with a one that has no bit. -/
def binaryDigits (d : Double) : Nat :=
  if d.exponentField = 0 then d.fraction else 2 ^ 52 + d.fraction

/-- The value of a finite number, as a multiple of `2 ^ (-1074)`. -/
def units (d : Double) : Int :=
  (if d.bits.toNat < 2 ^ 63 then 1 else -1) * (d.binaryDigits * 2 ^ (d.exponentField - 1) : Nat)

def unitsOfOne : Nat := 2 ^ 1074

theorem unitsOfOne_pos : 0 < unitsOfOne := by
  unfold unitsOfOne
  exact pow_pos Nat.two_pos 1074

/-- How far a finite number is from an integer. -/
def distance (d : Double) (v : Int) : Nat := (d.units - v * unitsOfOne).natAbs

/-- The number is the finite one nearest to an integer. Where two are equally near it is the one
with an even last digit, and zero is the positive one. Integers up to `2 ^ 53` are exact. -/
structure Rounds (v : Int) (d : Double) : Prop where
  finite : d.Finite
  nearest : ∀ d' : Double, d'.Finite → d.distance v ≤ d'.distance v
  even : ∀ d' : Double, d'.Finite → d'.units ≠ d.units → d'.distance v = d.distance v →
    d.binaryDigits % 2 = 0
  sign : d.bits.toNat < 2 ^ 63 ↔ 0 ≤ v
  exact : v.natAbs ≤ 2 ^ 53 → d.units = v * unitsOfOne

theorem natAbs_units (d : Double) :
    d.units.natAbs = d.binaryDigits * 2 ^ (d.exponentField - 1) := by
  unfold units
  split
  · rw [one_mul, Int.natAbs_natCast]
  · rw [neg_one_mul, Int.natAbs_neg, Int.natAbs_natCast]

theorem binaryDigits_lt (d : Double) : d.binaryDigits < 2 ^ 53 := by
  have hfraction : d.fraction < 2 ^ 52 := Nat.mod_lt _ (by decide)
  unfold binaryDigits
  split <;> omega

/-- The rounded quotient is a nearest one, and even if there are two. -/
theorem divNearest_nearest (num : Nat) {den : Nat} (hden : 0 < den) (j : Int) :
    ((divNearest num den : Int) * den - num).natAbs ≤ (j * den - num).natAbs ∧
      (j ≠ divNearest num den →
        (j * den - num).natAbs = ((divNearest num den : Int) * den - num).natAbs →
          divNearest num den % 2 = 0) := by
  obtain ⟨q, r, hq, hr⟩ : ∃ q r, num / den = q ∧ num % den = r := ⟨_, _, rfl, rfl⟩
  have hlt : r < den := hr ▸ Nat.mod_lt num hden
  have hnum : (num : Int) = q * den + r := by
    have hsplit := Nat.div_add_mod' num den
    rw [hq, hr] at hsplit
    exact_mod_cast hsplit.symm
  -- quotients are compared by their difference from the one that is rounded down
  have hshift : ∀ i : Int, i * den - num = (i - q) * den - r := by
    intro i
    rw [hnum]
    ring
  have hbelow : j - q ≤ -1 → (j - q) * den ≤ -den := by
    intro h
    have hmul := Int.mul_le_mul_of_nonneg_right h (Int.natCast_nonneg den)
    omega
  have habove : 1 ≤ j - q → (den : Int) ≤ (j - q) * den := by
    intro h
    have hmul := Int.mul_le_mul_of_nonneg_right h (Int.natCast_nonneg den)
    omega
  have hfar : 2 ≤ j - q → 2 * (den : Int) ≤ (j - q) * den := by
    intro h
    exact Int.mul_le_mul_of_nonneg_right h (Int.natCast_nonneg den)
  have hsame : j - q = 0 → (j - q) * den = 0 := by
    intro h
    rw [h, zero_mul]
  have hone : ((q + 1 : Nat) - q : Int) * den = den := by
    rw [Nat.cast_succ, add_sub_cancel_left, one_mul]
  have hzero : ((q : Nat) - q : Int) * den = 0 := by rw [sub_self, zero_mul]
  rw [hshift, hshift, divNearest, hq, hr]
  generalize (j - q) * (den : Int) = p at *
  split_ifs with hup htie
  · rw [hone]
    omega
  · by_cases hodd : q % 2 = 0
    · rw [hodd, Nat.add_zero, hzero]
      omega
    · have hq1 : q % 2 = 1 := by omega
      rw [hq1, hone]
      omega
  · rw [hzero]
    omega

theorem divNearest_bounds (num den : Nat) :
    num / den ≤ divNearest num den ∧ divNearest num den ≤ num / den + 1 := by
  unfold divNearest
  dsimp only
  split_ifs <;> omega

theorem divNearest_of_dvd {num den : Nat} (hden : 0 < den) (h : den ∣ num) :
    divNearest num den * den = num := by
  have hmod : num % den = 0 := Nat.mod_eq_zero_of_dvd h
  have htwice : ¬ den < 2 * 0 := by omega
  have hne : ¬ 2 * 0 = den := by omega
  rw [divNearest, hmod]
  simp only [htwice, hne, if_false]
  exact Nat.div_mul_cancel h

/-- A ratio `num / den` in the range of the grid `2 ^ exponent`, in units of which `count` make one
part of the ratio. A number off the grid is below its range, so a rounded quotient, taken on the
grid, is nearest among all numbers of up to 53 digits. -/
private theorem grid_nearest {num den count exponent digits weight : Nat} (hden : 0 < den)
    (hcount : 0 < count) (hgrid : 2 ^ exponent = den * count) (hlow : 2 ^ 52 * den ≤ num) {u : Int}
    (hu : u.natAbs = digits * 2 ^ weight) (hdigits : digits < 2 ^ 53) :
    ((divNearest num den * 2 ^ exponent : Nat) - (num * count : Nat) : Int).natAbs ≤
        (u - (num * count : Nat)).natAbs ∧
      (u ≠ (divNearest num den * 2 ^ exponent : Nat) →
        (u - (num * count : Nat)).natAbs =
          ((divNearest num den * 2 ^ exponent : Nat) - (num * count : Nat) : Int).natAbs →
        divNearest num den % 2 = 0) := by
  have hscaled : ∀ i : Int, (i * (2 ^ exponent : Nat) - (num * count : Nat)).natAbs =
      (i * den - num).natAbs * count := by
    intro i
    rw [hgrid, ← Int.natAbs_natCast count, ← Int.natAbs_mul, Int.natAbs_natCast]
    congr 1
    push_cast
    ring
  have hcast : ((divNearest num den * 2 ^ exponent : Nat) : Int) =
      (divNearest num den : Int) * (2 ^ exponent : Nat) := by push_cast; ring
  rw [hcast]
  by_cases hweight : exponent ≤ weight
  · have hdvd : ((2 ^ exponent : Nat) : Int) ∣ u := by
      rw [Int.natCast_dvd, hu]
      exact (pow_dvd_pow 2 hweight).mul_left digits
    obtain ⟨j, rfl⟩ := hdvd
    rw [mul_comm _ j]
    obtain ⟨hle, heven⟩ := divNearest_nearest num hden j
    refine ⟨?_, fun hne heq => heven ?_ ?_⟩
    · rw [hscaled, hscaled]
      exact Nat.mul_le_mul_right count hle
    · rintro rfl
      exact hne rfl
    · rw [hscaled, hscaled] at heq
      exact Nat.eq_of_mul_eq_mul_right hcount heq
  · have hpow : 2 * 2 ^ weight ≤ 2 ^ exponent := by
      rw [← pow_succ']
      exact Nat.pow_le_pow_right (by decide) (by omega)
    have hbelow : u.natAbs < 2 ^ 52 * 2 ^ exponent := by
      have hmul : digits * 2 ^ weight < 2 ^ 53 * 2 ^ weight :=
        Nat.mul_lt_mul_of_pos_right hdigits (Nat.two_pow_pos weight)
      omega
    have hfirst := (divNearest_nearest num hden (2 ^ 52 : Nat)).1
    have hstart : 2 ^ 52 * 2 ^ exponent ≤ num * count := by
      rw [hgrid, ← Nat.mul_assoc]
      exact Nat.mul_le_mul_right count hlow
    have hless : ((divNearest num den : Int) * (2 ^ exponent : Nat) -
        (num * count : Nat)).natAbs ≤ num * count - 2 ^ 52 * 2 ^ exponent := by
      refine (hscaled _).trans_le ((Nat.mul_le_mul_right count hfirst).trans ?_)
      rw [← hscaled]
      generalize 2 ^ exponent = grid, num * count = value at hstart
      omega
    omega

theorem toNat_bits_ofSign (negative : Bool) {magnitude : Nat} (h : magnitude < 2 ^ 63) :
    (ofSign negative magnitude).bits.toNat = (if negative then 2 ^ 63 else 0) + magnitude := by
  rw [ofSign, UInt64.toNat_ofNat']
  split
  · exact Nat.mod_eq_of_lt (by omega)
  · rw [Nat.zero_add]
    exact Nat.mod_eq_of_lt (by omega)

/-- Digits that are rounded up to the next power of two carry into the exponent. -/
private theorem ofSign_packed (negative : Bool) {exponent digits : Nat} (hlow : 2 ^ 52 ≤ digits)
    (hhigh : digits ≤ 2 ^ 53) (hexponent : exponent < 2044) {d : Double}
    (hd : d = ofSign negative (exponent * 2 ^ 52 + digits)) :
    d.Finite ∧ d.units = (if negative then -1 else 1) * (digits * 2 ^ exponent : Nat) ∧
      d.binaryDigits % 2 = digits % 2 ∧ (d.bits.toNat < 2 ^ 63 ↔ negative = false) := by
  have hbits : d.bits.toNat = (if negative then 2 ^ 63 else 0) + (exponent * 2 ^ 52 + digits) :=
    hd ▸ toNat_bits_ofSign negative (by omega)
  have hsign : d.bits.toNat < 2 ^ 63 ↔ negative = false := by
    cases negative with
    | true => simp [hbits]
    | false =>
      simp [hbits]
      omega
  have hfields : d.exponentField = exponent + 1 + digits / 2 ^ 53 ∧
      d.fraction = digits % 2 ^ 52 := by
    unfold exponentField fraction
    cases negative <;> simp [hbits] <;> omega
  have hbinary : d.binaryDigits = 2 ^ 52 + digits % 2 ^ 52 := by
    have hne : ¬ d.exponentField = 0 := by omega
    rw [binaryDigits, if_neg hne, hfields.2]
  have hvalue : d.binaryDigits * 2 ^ (d.exponentField - 1) = digits * 2 ^ exponent := by
    rw [hbinary, hfields.1]
    by_cases hcarry : digits = 2 ^ 53
    · subst hcarry
      have hpow : exponent + 1 + 2 ^ 53 / 2 ^ 53 - 1 = exponent + 1 := by omega
      rw [hpow, pow_succ]
      omega
    · have hdigits : 2 ^ 52 + digits % 2 ^ 52 = digits := by omega
      have hpow : exponent + 1 + digits / 2 ^ 53 - 1 = exponent := by omega
      rw [hdigits, hpow]
  refine ⟨?_, ?_, by omega, hsign⟩
  · unfold Finite
    omega
  · rw [units, hvalue]
    simp only [hsign]
    cases negative <;> rfl

private theorem nearestMagnitude_eq {num den exponent digits : Nat} (hnum : num ≠ 0)
    (hexponent : (max (ratioLog2 num den - 52) (-1074) + 1074).toNat = exponent)
    (hdigits : (if 0 ≤ max (ratioLog2 num den - 52) (-1074) then
        divNearest num (den <<< (max (ratioLog2 num den - 52) (-1074)).toNat)
      else divNearest (num <<< (-max (ratioLog2 num den - 52) (-1074)).toNat) den) = digits)
    (hhigh : digits ≤ 2 ^ 53) (hrange : exponent < 2044) :
    nearestMagnitude num den = exponent * 2 ^ 52 + digits := by
  have hfinite : exponent * 2 ^ 52 + digits ≤ infinityMagnitude := by
    rw [infinityMagnitude]
    omega
  rw [nearestMagnitude, if_neg hnum]
  dsimp only
  rw [hexponent, hdigits]
  exact Nat.min_eq_left hfinite

/-- A positive integer as the ratio `num / den` on the grid of its highest digit: `count` units make
one part of the ratio, and rounding the ratio gives the digits of the number that it converts to. -/
structure OnGrid (n num den count : Nat) : Prop where
  den_pos : 0 < den
  count_pos : 0 < count
  value : n * unitsOfOne = num * count
  grid : 2 ^ (n.log2 + 1022) = den * count
  low : 2 ^ 52 * den ≤ num
  high : num < 2 ^ 53 * den
  exact : n ≤ 2 ^ 53 → den ∣ num
  magnitude : nearestMagnitude n 1 = (n.log2 + 1022) * 2 ^ 52 + divNearest num den

private theorem log2_le_of_le {n : Nat} (hn : n ≠ 0) (hle : n ≤ 2 ^ 63) : n.log2 ≤ 63 := by
  have hlt : n.log2 < 64 := (Nat.log2_lt hn).mpr (by omega)
  omega

private theorem scale_eq {n : Nat} (hn : n ≠ 0) :
    max (ratioLog2 n 1 - 52) (-1074) = (n.log2 : Int) - 52 := by
  have hone : Nat.log2 1 = 0 := by decide
  have hratio : ratioLog2 n 1 = n.log2 := by
    simp [ratioLog2, hone, Nat.shiftLeft_eq, Nat.log2_self_le hn]
  rw [hratio]
  omega

private theorem onGrid_of_wide {n : Nat} (hn : n ≠ 0) (hle : n ≤ 2 ^ 63) (hwide : 52 ≤ n.log2) :
    OnGrid n n (2 ^ (n.log2 - 52)) unitsOfOne := by
  obtain ⟨k, hk⟩ : ∃ k, n.log2 - 52 = k := ⟨_, rfl⟩
  have hbits := log2_le_of_le hn hle
  have hlow : 2 ^ 52 * 2 ^ k ≤ n := by
    have hsum : 52 + k = n.log2 := by omega
    rw [← pow_add, hsum]
    exact Nat.log2_self_le hn
  have hhigh : n < 2 ^ 53 * 2 ^ k := by
    have hsum : 53 + k = n.log2 + 1 := by omega
    rw [← pow_add, hsum]
    exact Nat.lt_log2_self
  rw [hk]
  refine ⟨Nat.two_pow_pos k, unitsOfOne_pos, rfl, ?_, hlow, hhigh, fun hsmall => ?_, ?_⟩
  · have hsum : n.log2 + 1022 = k + 1074 := by omega
    rw [hsum, pow_add, unitsOfOne]
  · have hk1 : k < 2 := by
      by_contra hlarge
      have hpow : 2 ^ 2 ≤ 2 ^ k := Nat.pow_le_pow_right (by decide) (by omega)
      omega
    obtain rfl | rfl : k = 0 ∨ k = 1 := by omega
    · exact one_dvd n
    · omega
  · have hscale := scale_eq hn
    have hshift : (max (ratioLog2 n 1 - 52) (-1074)).toNat = k := by omega
    have hsign : 0 ≤ max (ratioLog2 n 1 - 52) (-1074) := by omega
    have hquotient := divNearest_bounds n (2 ^ k)
    have hlt : n / 2 ^ k < 2 ^ 53 := (Nat.div_lt_iff_lt_mul (Nat.two_pow_pos k)).mpr hhigh
    apply nearestMagnitude_eq hn (by omega) _ (by omega) (by omega)
    rw [if_pos hsign, hshift, Nat.shiftLeft_eq, one_mul]

private theorem onGrid_of_narrow {n : Nat} (hn : n ≠ 0) (hnarrow : n.log2 < 52) :
    OnGrid n (n * 2 ^ (52 - n.log2)) 1 (2 ^ (n.log2 + 1022)) := by
  obtain ⟨k, hk⟩ : ∃ k, 52 - n.log2 = k := ⟨_, rfl⟩
  have hlow : 2 ^ 52 ≤ n * 2 ^ k := by
    have hsum : 52 = n.log2 + k := by omega
    rw [hsum, pow_add]
    exact Nat.mul_le_mul_right _ (Nat.log2_self_le hn)
  have hhigh : n * 2 ^ k < 2 ^ 53 := by
    have hsum : 53 = n.log2 + 1 + k := by omega
    rw [hsum, pow_add]
    exact Nat.mul_lt_mul_of_pos_right Nat.lt_log2_self (Nat.two_pow_pos k)
  rw [hk]
  refine ⟨Nat.one_pos, Nat.two_pow_pos _, ?_, (one_mul _).symm, by omega, by omega,
    fun _ => one_dvd _, ?_⟩
  · have hsum : 1074 = k + (n.log2 + 1022) := by omega
    rw [mul_assoc, ← pow_add, unitsOfOne, hsum]
  · have hscale := scale_eq hn
    have hshift : (-max (ratioLog2 n 1 - 52) (-1074)).toNat = k := by omega
    have hsign : ¬ 0 ≤ max (ratioLog2 n 1 - 52) (-1074) := by omega
    have hexact := divNearest_of_dvd Nat.one_pos (one_dvd (n * 2 ^ k))
    apply nearestMagnitude_eq hn (by omega) _ (by omega) (by omega)
    rw [if_neg hsign, hshift, Nat.shiftLeft_eq]

private theorem exists_onGrid {n : Nat} (hn : n ≠ 0) (hle : n ≤ 2 ^ 63) :
    ∃ num den count, OnGrid n num den count := by
  by_cases hwide : 52 ≤ n.log2
  · exact ⟨_, _, _, onGrid_of_wide hn hle hwide⟩
  · exact ⟨_, _, _, onGrid_of_narrow hn (by omega)⟩

private theorem OnGrid.ofInt {v : Int} {num den count : Nat} (hv : v ≠ 0)
    (hle : v.natAbs ≤ 2 ^ 63) (h : OnGrid v.natAbs num den count) :
    (ofInt v).Finite ∧
      (ofInt v).units = v.sign * (divNearest num den * 2 ^ (v.natAbs.log2 + 1022) : Nat) ∧
      (ofInt v).binaryDigits % 2 = divNearest num den % 2 ∧
      ((ofInt v).bits.toNat < 2 ^ 63 ↔ 0 ≤ v) := by
  have hlog := log2_le_of_le (Int.natAbs_ne_zero.mpr hv) hle
  have hquotient := divNearest_bounds num den
  have hlow : 2 ^ 52 ≤ num / den := (Nat.le_div_iff_mul_le h.den_pos).mpr h.low
  have hhigh : num / den < 2 ^ 53 := (Nat.div_lt_iff_lt_mul h.den_pos).mpr h.high
  have hd : Double.ofInt v = ofSign (decide (v < 0))
      ((v.natAbs.log2 + 1022) * 2 ^ 52 + divNearest num den) := by
    rw [Double.ofInt, ofRatio, h.magnitude]
  obtain ⟨hfinite, hunits, hparity, hpositive⟩ :=
    ofSign_packed (decide (v < 0)) (by omega) (by omega) (by omega) hd
  refine ⟨hfinite, ?_, hparity, ?_⟩
  · rw [hunits]
    by_cases hneg : v < 0
    · rw [decide_eq_true hneg, if_pos rfl, Int.sign_eq_neg_one_of_neg hneg]
    · rw [decide_eq_false hneg, if_neg Bool.false_ne_true, Int.sign_eq_one_of_pos (by omega)]
  · rw [hpositive, decide_eq_false_iff_not, not_lt]

private theorem rounds_zero : Rounds 0 (ofInt 0) := by
  have hfinite : (ofInt 0).Finite := by
    unfold Finite
    decide
  have hunits : (ofInt 0).units = 0 := by decide
  have hdistance : (ofInt 0).distance 0 = 0 := by rw [distance, hunits, zero_mul, sub_zero]; rfl
  have hbinary : (ofInt 0).binaryDigits % 2 = 0 := by decide
  refine ⟨hfinite, fun d' _ => ?_, fun _ _ _ _ => hbinary, by decide, fun _ => ?_⟩
  · rw [hdistance]
    exact Nat.zero_le _
  · rw [hunits, zero_mul]

private theorem rounds_of_ne_zero {v : Int} (hv : v ≠ 0) (hle : v.natAbs ≤ 2 ^ 63) :
    Rounds v (ofInt v) := by
  obtain ⟨num, den, count, hgrid⟩ := exists_onGrid (Int.natAbs_ne_zero.mpr hv) hle
  obtain ⟨hfinite, hunits, hparity, hpositive⟩ := hgrid.ofInt hv hle
  -- the sign is taken out of all distances
  have hsquare : v.sign * v.sign = 1 := by
    rw [← Int.natAbs_mul_self, Int.natAbs_sign_of_ne_zero hv]
    rfl
  have hflip : ∀ u : Int, v.sign * (v.sign * u) = u := by
    intro u
    rw [← mul_assoc, hsquare, one_mul]
  have hnatAbs : ∀ u : Int, (v.sign * u).natAbs = u.natAbs := by
    intro u
    rw [Int.natAbs_mul, Int.natAbs_sign_of_ne_zero hv, one_mul]
  have hvalue : v * unitsOfOne = v.sign * (num * count : Nat) := by
    rw [← hgrid.value, Nat.cast_mul, ← mul_assoc, Int.sign_mul_natAbs]
  have hdistance : ∀ d : Double,
      d.distance v = (v.sign * d.units - (num * count : Nat)).natAbs := by
    intro d
    rw [distance, hvalue, ← hnatAbs, mul_sub, hflip]
  have hnearest := fun d : Double => grid_nearest hgrid.den_pos hgrid.count_pos hgrid.grid hgrid.low
    ((hnatAbs d.units).trans d.natAbs_units) d.binaryDigits_lt
  refine ⟨hfinite, fun d _ => ?_, fun d _ hne heq => ?_, hpositive, fun hsmall => ?_⟩
  · rw [hdistance, hdistance, hunits, hflip]
    exact (hnearest d).1
  · rw [hdistance, hdistance, hunits, hflip] at heq
    rw [hparity]
    refine (hnearest d).2 (fun h => hne ?_) heq
    rw [hunits, ← h, hflip]
  · have hnum := divNearest_of_dvd hgrid.den_pos (hgrid.exact hsmall)
    rw [hunits, hvalue, hgrid.grid, ← Nat.mul_assoc, hnum]

/-- The conversion of a signed word rounds to nearest. -/
theorem rounds_ofInt (v : Int64) : Rounds v.toInt (ofInt v.toInt) := by
  by_cases hv : v.toInt = 0
  · rw [hv]
    exact rounds_zero
  · have hlow := v.le_toInt
    have hhigh := v.toInt_lt
    exact rounds_of_ne_zero hv (by omega)

end EdeLang.Double
