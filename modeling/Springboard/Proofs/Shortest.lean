import Springboard.Proofs.Rounding

/-!
# Shortest decimals lie in the rounding interval

The decimal that is printed for a float lies in the float's rounding interval. A grid of decimals
that is finer than the interval has a point in it, and the grid of seventeen digits is fine enough
for each float.
-/

namespace Springboard.Binary64

/-- The value of a decimal. -/
def Decimal.value (d : Decimal) : ℚ :=
  d.digits * 10 ^ d.exponent

/-- The denominator of a number scaled by ten is positive. -/
theorem scaledByTen_pos (n : Nat) (e : Int) : 0 < (scaledByTen n e).2 := by
  exact (ratio_of_power (by decide) n e).1

/-- A number scaled by ten is the number times a power of ten. -/
theorem scaledByTen_ratio (n : Nat) (e : Int) :
  ((scaledByTen n e).1 : ℚ) / (scaledByTen n e).2 = n * 10 ^ e
  := by
  exact (ratio_of_power (by decide) n e).2

/-- The test of a decimal says whether its value lies in the interval. -/
theorem holds_iff (i : Interval) (d : Decimal) : i.holds d = true ↔ i.Contains d.value := by
  have hdown : (0 : ℚ) < (scaledByTen d.digits d.exponent).2 := by
    exact_mod_cast scaledByTen_pos d.digits d.exponent
  have hparts : (0 : ℚ) < (scaled 1 i.exponent).2 := by exact_mod_cast scaled_pos 1 i.exponent
  have hvalue : ((scaledByTen d.digits d.exponent).1 : ℚ)
      = d.value * (scaledByTen d.digits d.exponent).2 := by
    rw [← div_eq_iff hdown.ne', scaledByTen_ratio, Decimal.value]
  have hgrain : ((scaled 1 i.exponent).1 : ℚ) = 2 ^ i.exponent * (scaled 1 i.exponent).2 := by
    rw [← div_eq_iff hparts.ne', scaled_ratio, Nat.cast_one, one_mul]
  unfold Interval.holds Interval.Contains
  dsimp only
  generalize (scaledByTen d.digits d.exponent).1 = up at hvalue
  generalize (scaledByTen d.digits d.exponent).2 = down at hvalue hdown
  generalize (scaled 1 i.exponent).1 = grain at hgrain
  generalize (scaled 1 i.exponent).2 = parts at hgrain hparts
  have hscale : (0 : ℚ) < parts * down := by positivity
  have hleft : ((up * parts : Nat) : ℚ) = d.value * (parts * down) := by
    push_cast
    rw [hvalue]
    ring
  have hend : ∀ n : Nat, ((n * grain * down : Nat) : ℚ) = n * 2 ^ i.exponent * (parts * down) := by
    intro n
    push_cast
    rw [hgrain]
    ring
  have hle : ∀ n : Nat, (n * grain * down ≤ up * parts ↔ (n : ℚ) * 2 ^ i.exponent ≤ d.value)
      ∧ (up * parts ≤ n * grain * down ↔ d.value ≤ n * 2 ^ i.exponent) := by
    intro n
    rw [← Nat.cast_le (α := ℚ), ← Nat.cast_le (α := ℚ), hleft, hend]
    exact ⟨mul_le_mul_iff_left₀ hscale, mul_le_mul_iff_left₀ hscale⟩
  split
  · simp only [Bool.and_eq_true, decide_eq_true_eq, (hle _).1, (hle _).2]
  · simp only [Bool.and_eq_true, decide_eq_true_eq, ← Nat.not_le, (hle _).1, (hle _).2, not_le]

/-- Decimals that are found lie in the interval. -/
theorem holds_of_decimal? {i : Interval} {top : Int} {count : Nat} {d : Decimal}
    (h : i.decimal? top count = some d) :
  i.holds d = true
  := by
  unfold Interval.decimal? at h
  dsimp only at h
  split at h
  · rename_i hbelow habove
    cases h
    rw [apply_ite i.holds, hbelow, habove, ite_self]
  · rename_i hbelow _
    cases h
    exact hbelow
  · rename_i _ habove
    cases h
    exact habove
  · contradiction

/-- A binary number lies between two neighbours of a decimal grid, which a division finds. -/
theorem grid_bounds (n : Nat) (q e : Int) {floor : Nat}
    (hfloor : (scaled n q).1 * (scaledByTen 1 e).2 / ((scaled n q).2 * (scaledByTen 1 e).1)
      = floor) :
  (floor : ℚ) * 10 ^ e ≤ n * 2 ^ q ∧ (n : ℚ) * 2 ^ q < floor * 10 ^ e + 10 ^ e
  := by
  have hdown : (0 : ℚ) < (scaledByTen 1 e).2 := by exact_mod_cast scaledByTen_pos 1 e
  have hparts : (0 : ℚ) < (scaled n q).2 := by exact_mod_cast scaled_pos n q
  have hstep : ((scaledByTen 1 e).1 : ℚ) = 10 ^ e * (scaledByTen 1 e).2 := by
    rw [← div_eq_iff hdown.ne', scaledByTen_ratio, Nat.cast_one, one_mul]
  have hvalue : ((scaled n q).1 : ℚ) = n * 2 ^ q * (scaled n q).2 := by
    rw [← div_eq_iff hparts.ne', scaled_ratio]
  generalize (scaledByTen 1 e).1 = step at hfloor hstep
  generalize (scaledByTen 1 e).2 = down at hfloor hstep hdown
  generalize (scaled n q).1 = value at hfloor hvalue
  generalize (scaled n q).2 = parts at hfloor hvalue hparts
  have hscale : (0 : ℚ) < parts * down := by positivity
  have hden : 0 < parts * step := by
    have : (0 : ℚ) < parts * step := by
      rw [hstep]
      positivity
    exact_mod_cast this
  have hle : floor * (parts * step) ≤ value * down := by
    rw [← hfloor]
    exact Nat.div_mul_le_self _ _
  have hlt : value * down < floor * (parts * step) + parts * step := by
    rw [← hfloor]
    exact Nat.lt_div_mul_add hden
  have hle : (floor * (parts * step) : ℚ) ≤ value * down := by exact_mod_cast hle
  have hlt : (value * down : ℚ) < floor * (parts * step) + parts * step := by exact_mod_cast hlt
  rw [hstep, hvalue] at hle hlt
  constructor
  · apply le_of_mul_le_mul_right _ hscale
    linarith
  · apply lt_of_mul_lt_mul_right _ hscale.le
    linarith

/-- Of two neighbours on both sides of a point in the interval, one lies in the interval too if
they are closer than its ends. -/
theorem contains_or_contains {i : Interval} {v a step : ℚ} (hlow : i.low * 2 ^ i.exponent < v)
    (hhigh : v < i.high * 2 ^ i.exponent) (hbelow : a ≤ v) (habove : v < a + step)
    (hfine : step < (i.high - i.low) * 2 ^ i.exponent) :
  i.Contains a ∨ i.Contains (a + step)
  := by
  unfold Interval.Contains
  split
  · by_cases h : i.low * 2 ^ i.exponent ≤ a
    · exact .inl ⟨h, by linarith⟩
    · exact .inr ⟨by linarith, by linarith⟩
  · by_cases h : i.low * 2 ^ i.exponent < a
    · exact .inl ⟨h, by linarith⟩
    · exact .inr ⟨by linarith, by linarith⟩

/-- A grid that is finer than the interval has a point in it. -/
theorem exists_decimal? {i : Interval} {top : Int} {count : Nat} (hlow : i.low < i.value)
    (hhigh : i.value < i.high)
    (hfine : (10 : ℚ) ^ (top - (count - 1 : Nat)) < (i.high - i.low) * 2 ^ i.exponent) :
  ∃ d, i.decimal? top count = some d
  := by
  unfold Interval.decimal?
  dsimp only
  generalize top - (count - 1 : Nat) = e at hfine ⊢
  generalize hfloor : (scaled i.value i.exponent).1 * (scaledByTen 1 e).2
      / ((scaled i.value i.exponent).2 * (scaledByTen 1 e).1) = floor
  obtain ⟨hbelow, habove⟩ := grid_bounds i.value i.exponent e hfloor
  have hone : i.holds ⟨floor, e⟩ = true ∨ i.holds ⟨floor + 1, e⟩ = true := by
    have hnext : Decimal.value ⟨floor + 1, e⟩ = floor * 10 ^ e + 10 ^ e := by
      rw [Decimal.value]
      push_cast
      ring
    have hlow : (i.low : ℚ) * 2 ^ i.exponent < i.value * 2 ^ i.exponent := by gcongr
    have hhigh : (i.value : ℚ) * 2 ^ i.exponent < i.high * 2 ^ i.exponent := by gcongr
    rw [holds_iff, holds_iff, hnext]
    exact contains_or_contains hlow hhigh hbelow habove hfine
  cases hb : i.holds ⟨floor, e⟩ with
  | true => cases i.holds ⟨floor + 1, e⟩ <;> exact ⟨_, rfl⟩
  | false =>
    rw [hb] at hone
    rw [hone.resolve_left Bool.false_ne_true]
    exact ⟨_, rfl⟩

/-- Up to the sizes of floats, the guess at a decimal logarithm is at most one too large. -/
theorem ten_zpow_le_two_zpow {l : Int} (hlow : -1100 ≤ l) (hhigh : l ≤ 1100) :
  (10 : ℚ) ^ (l * 30103 / 100000 - 1) ≤ 2 ^ l
  := by
  have hpos : ∀ k < 1101, 10 ^ (k * 30103 / 100000) ≤ 10 * 2 ^ k := by
    decide +kernel
  have hneg : ∀ k < 1101, 2 ^ k ≤ 10 ^ (1 + (k * 30103 + 99999) / 100000) := by
    decide +kernel
  obtain ⟨k, rfl | rfl⟩ := l.eq_nat_or_neg
  · have h := hpos k (by omega)
    have h : (10 : ℚ) ^ (k * 30103 / 100000) ≤ 10 * 2 ^ k := by exact_mod_cast h
    have hdiv : (k : Int) * 30103 / 100000 = ((k * 30103 / 100000 : Nat) : Int) := by
      omega
    rw [hdiv, zpow_sub_one₀ (by norm_num), zpow_natCast, zpow_natCast]
    linarith
  · have h := hneg k (by omega)
    have h : (2 : ℚ) ^ k ≤ 10 ^ (1 + (k * 30103 + 99999) / 100000) := by exact_mod_cast h
    have hdiv : -(k : Int) * 30103 / 100000 - 1
        = -((1 + (k * 30103 + 99999) / 100000 : Nat) : Int) := by
      omega
    rw [hdiv, zpow_neg, zpow_neg, zpow_natCast, zpow_natCast]
    gcongr

/-- The decimal logarithm is not too large. -/
theorem floorLog10_le {num den : Nat} (hnum : 0 < num) (hden : 0 < den)
    (hlow : -1100 ≤ floorLog2 num den) (hhigh : floorLog2 num den ≤ 1100) :
  (10 : ℚ) ^ floorLog10 num den ≤ num / den
  := by
  have hd : (0 : ℚ) < den := by exact_mod_cast hden
  have hfits : ∀ e : Int, (scaledByTen den e).1 ≤ num * (scaledByTen den e).2 →
      (10 : ℚ) ^ e ≤ num / den := by
    intro e h
    have hdown : (0 : ℚ) < (scaledByTen den e).2 := by exact_mod_cast scaledByTen_pos den e
    have hratio := scaledByTen_ratio den e
    rw [div_eq_iff hdown.ne'] at hratio
    have h : ((scaledByTen den e).1 : ℚ) ≤ num * (scaledByTen den e).2 := by exact_mod_cast h
    rw [hratio] at h
    rw [le_div_iff₀ hd, mul_comm]
    exact le_of_mul_le_mul_right h hdown
  unfold floorLog10
  dsimp only
  split
  · rename_i h
    exact hfits _ h
  · split
    · rename_i h
      exact hfits _ h
    · exact le_trans (ten_zpow_le_two_zpow hlow hhigh) (floorLog2_spec hnum hden).1

/-- Zeros at the end do not count. -/
theorem value_trim (fuel : Nat) (d : Decimal) : (d.trim fuel).value = d.value := by
  induction fuel generalizing d with
  | zero => rfl
  | succ fuel ih =>
    rw [Decimal.trim]
    split
    · rename_i h
      rw [ih, Decimal.value, Decimal.value]
      have hmod : d.digits % 10 = 0 := by
        simp only [Bool.and_eq_true, decide_eq_true_eq] at h
        exact h.1
      have hdigits : (d.digits : ℚ) = (d.digits / 10 : Nat) * 10 := by
        exact_mod_cast (Nat.div_mul_cancel (Nat.dvd_of_mod_eq_zero hmod)).symm
      dsimp only
      rw [hdigits, zpow_add_one₀ (by norm_num)]
      ring
    · rfl

/-- The binary logarithm of a finite float. -/
theorem floorLog2_bounds {p : Parts} (hp : p.Canonical) (hbits : p.bits < infinityBits)
    {num den : Nat} (hnum : 0 < num) (hden : 0 < den)
    (h : (num : ℚ) / den = p.significand * 2 ^ p.exponent) :
  -1100 ≤ floorLog2 num den ∧ floorLog2 num den ≤ 1100
  := by
  have hone : (1 : ℚ) ≤ p.significand := by exact_mod_cast hp.pos
  have hlarge : (p.significand : ℚ) < 2 ^ (53 : Int) := by exact_mod_cast hp.lt
  have hexponent : p.exponent ≤ 1046 := by
    have hbits : (p.exponent + 1074).toNat * 2 ^ 52 + p.significand < 2047 * 2 ^ 52 := hbits
    omega
  have hlow := hp.le
  constructor
  · have hle : p.exponent ≤ floorLog2 num den := by
      rw [le_floorLog2_iff hnum hden, h]
      exact le_mul_of_one_le_left (by positivity) hone
    omega
  · have hlt : ¬ 53 + p.exponent ≤ floorLog2 num den := by
      rw [le_floorLog2_iff hnum hden, h, zpow_add₀ two_ne_zero, not_le]
      gcongr
    omega

/-- Seventeen digits are finer than the rounding interval. -/
theorem seventeen_digits {p : Parts} (hp : p.Canonical) {top : Int}
    (htop : (10 : ℚ) ^ top ≤ (interval p).value * 2 ^ (interval p).exponent) :
  (10 : ℚ) ^ (top - 16) < ((interval p).high - (interval p).low) * 2 ^ (interval p).exponent
  := by
  have hunit : (0 : ℚ) < 2 ^ (interval p).exponent := by positivity
  have hvalue : ((interval p).value : ℚ) = 4 * p.significand := by
    simp [interval]
  have hhigh : ((interval p).high : ℚ) = 4 * p.significand + 2 := by
    simp [interval]
  have hwide : 4 * (p.significand : ℚ) < ((interval p).high - (interval p).low) * 10 ^ 16 := by
    rw [hhigh]
    obtain ⟨⟨hpower, -⟩, hlow⟩ | ⟨-, hlow⟩ := low_interval hp.pos
    · rw [hlow, hpower]
      norm_num [twoTo]
    · have hlarge : (p.significand : ℚ) < 2 ^ 53 := by exact_mod_cast hp.lt
      rw [hlow]
      linarith
  have hsplit : (10 : ℚ) ^ (top - 16) = 10 ^ top / 10 ^ 16 := by
    rw [zpow_sub₀ (by norm_num)]
    norm_cast
  rw [hsplit, div_lt_iff₀ (by positivity)]
  calc (10 : ℚ) ^ top ≤ 4 * p.significand * 2 ^ (interval p).exponent := by rwa [← hvalue]
    _ < ((interval p).high - (interval p).low) * 10 ^ 16 * 2 ^ (interval p).exponent := by gcongr
    _ = ((interval p).high - (interval p).low) * 2 ^ (interval p).exponent * 10 ^ 16 := by ring

/-- The shortest decimal lies in the rounding interval. -/
theorem contains_shortest {p : Parts} (hp : p.Canonical) (hbits : p.bits < infinityBits) :
  (interval p).Contains (shortest p).value
  := by
  have hparts := scaled_pos (interval p).value (interval p).exponent
  have hratio := scaled_ratio (interval p).value (interval p).exponent
  have hvalue : (interval p).value = 4 * p.significand := rfl
  have hpos := hp.pos
  have hmagnitude : ((interval p).value : ℚ) * 2 ^ (interval p).exponent
      = p.significand * 2 ^ p.exponent := by
    have hexponent : (interval p).exponent = p.exponent - 2 := rfl
    rw [hvalue, hexponent, zpow_sub₀ two_ne_zero]
    push_cast
    ring
  have hgrain : 0 < (scaled (interval p).value (interval p).exponent).1 := by
    have hone : (0 : ℚ) < p.significand := by exact_mod_cast hpos
    have hdown : (0 : ℚ) < (scaled (interval p).value (interval p).exponent).2 := by
      exact_mod_cast hparts
    rw [hmagnitude, div_eq_iff hdown.ne'] at hratio
    have : (0 : ℚ) < (scaled (interval p).value (interval p).exponent).1 := by
      rw [hratio]
      positivity
    exact_mod_cast this
  obtain ⟨hlow, hhigh⟩ := floorLog2_bounds hp hbits hgrain hparts (hratio.trans hmagnitude)
  have htop := floorLog10_le hgrain hparts hlow hhigh
  rw [hratio] at htop
  generalize htop' : floorLog10 (scaled (interval p).value (interval p).exponent).1
      (scaled (interval p).value (interval p).exponent).2 = top at htop
  have hfine := seventeen_digits hp htop
  rw [show (16 : Int) = ((17 - 1 : Nat) : Int) from rfl] at hfine
  have hfound : ∃ d, (interval p).decimal? top 17 = some d := by
    refine exists_decimal? ?_ ?_ hfine
    · show 4 * p.significand - ite _ 1 2 < 4 * p.significand
      split <;> omega
    · show 4 * p.significand < 4 * p.significand + 2
      omega
  have hsome : ((List.range 17).findSome? fun count =>
      (interval p).decimal? top (count + 1)).isSome = true := by
    rw [List.findSome?_isSome_iff]
    obtain ⟨d, hd⟩ := hfound
    exact ⟨16, by decide, by rw [hd]; rfl⟩
  obtain ⟨d, hd⟩ := Option.isSome_iff_exists.mp hsome
  have hshortest : shortest p = d.trim 20 := by
    unfold shortest
    dsimp only
    rw [htop', hd]
  obtain ⟨count, -, hcount⟩ := List.exists_of_findSome?_eq_some hd
  rw [hshortest, value_trim, ← holds_iff]
  exact holds_of_decimal? hcount

end Springboard.Binary64
