import Mathlib.Algebra.Order.Field.Power
import Mathlib.Algebra.Order.Field.Rat
import Mathlib.Tactic.FieldSimp
import Mathlib.Tactic.Linarith
import Mathlib.Tactic.NormNum
import Mathlib.Tactic.Ring
import Springboard.Number.Shortest

/-!
# Rounding

A ratio of natural numbers is rounded to the float in whose rounding interval it lies: a unit in
the last place is found by the binary logarithm, and the nearest multiple of it by a division. Where
a ratio lies just below a power of two, the smaller unit is taken and rounding carries.
-/

namespace Springboard.Binary64

/-- A number times a power of a base, as a ratio. -/
theorem ratio_of_power {b : Nat} (hb : 0 < b) (n : Nat) (e : Int) :
  0 < (if 0 ≤ e then (n * Nat.pow b e.toNat, 1) else (n, Nat.pow b (-e).toNat)).2
    ∧ ((if 0 ≤ e then (n * Nat.pow b e.toNat, 1) else (n, Nat.pow b (-e).toNat)).1 : ℚ)
      / (if 0 ≤ e then (n * Nat.pow b e.toNat, 1) else (n, Nat.pow b (-e).toNat)).2 = n * b ^ e
  := by
  split
  · rename_i h
    obtain ⟨k, rfl⟩ := Int.eq_ofNat_of_zero_le h
    simp
  · rename_i h
    obtain ⟨k, rfl⟩ : ∃ k : Nat, e = -k := ⟨(-e).toNat, by omega⟩
    simp [div_eq_mul_inv, hb]

/-- The denominator of a scaled number is positive. -/
theorem scaled_pos (n : Nat) (e : Int) : 0 < (scaled n e).2 := by
  exact (ratio_of_power Nat.two_pos n e).1

/-- A scaled number is the number times a power of two. -/
theorem scaled_ratio (n : Nat) (e : Int) :
  ((scaled n e).1 : ℚ) / (scaled n e).2 = n * 2 ^ e
  := by
  exact (ratio_of_power Nat.two_pos n e).2

/-- A ratio lies between two powers of two, the lower of which is found. -/
theorem floorLog2_spec {num den : Nat} (hnum : 0 < num) (hden : 0 < den) :
  (2 : ℚ) ^ floorLog2 num den ≤ num / den ∧ (num : ℚ) / den < 2 ^ (floorLog2 num den + 1)
  := by
  have hd : (0 : ℚ) < den := by exact_mod_cast hden
  have hn : (0 : ℚ) < num := by exact_mod_cast hnum
  have h1 : (2 : ℚ) ^ (num.log2 : Int) ≤ num := by
    rw [zpow_natCast]
    exact_mod_cast Nat.log2_self_le hnum.ne'
  have h2 : (num : ℚ) < 2 ^ ((num.log2 : Int) + 1) := by
    rw [← Nat.cast_succ, zpow_natCast]
    exact_mod_cast Nat.lt_log2_self
  have h3 : (2 : ℚ) ^ (den.log2 : Int) ≤ den := by
    rw [zpow_natCast]
    exact_mod_cast Nat.log2_self_le hden.ne'
  have h4 : (den : ℚ) < 2 ^ ((den.log2 : Int) + 1) := by
    rw [← Nat.cast_succ, zpow_natCast]
    exact_mod_cast Nat.lt_log2_self
  generalize hg : (num.log2 : Int) - den.log2 = g
  have hlow : (2 : ℚ) ^ (g - 1) < num / den := by
    rw [lt_div_iff₀ hd]
    calc (2 : ℚ) ^ (g - 1) * den < 2 ^ (g - 1) * 2 ^ ((den.log2 : Int) + 1) := by gcongr
      _ = 2 ^ (num.log2 : Int) := by rw [← zpow_add₀ (by norm_num)]; congr 1; omega
      _ ≤ num := h1
  have hhigh : (num : ℚ) / den < 2 ^ (g + 1) := by
    rw [div_lt_iff₀ hd]
    calc (num : ℚ) < 2 ^ ((num.log2 : Int) + 1) := h2
      _ = 2 ^ (g + 1) * 2 ^ (den.log2 : Int) := by rw [← zpow_add₀ (by norm_num)]; congr 1; omega
      _ ≤ 2 ^ (g + 1) * den := by gcongr
  have hfits : (scaled den g).1 ≤ num * (scaled den g).2 ↔ (2 : ℚ) ^ g ≤ num / den := by
    have hpos : (0 : ℚ) < (scaled den g).2 := by exact_mod_cast scaled_pos den g
    have hratio := scaled_ratio den g
    rw [div_eq_iff hpos.ne'] at hratio
    rw [le_div_iff₀ hd, ← Nat.cast_le (α := ℚ), Nat.cast_mul, hratio, mul_comm (den : ℚ)]
    exact mul_le_mul_iff_left₀ hpos
  unfold floorLog2
  rw [hg]
  dsimp only
  split
  · rename_i h
    exact ⟨hfits.mp h, hhigh⟩
  · rename_i h
    refine ⟨hlow.le, ?_⟩
    rw [Int.sub_add_cancel]
    exact lt_of_not_ge fun h' => h (hfits.mpr h')

/-- A power of two is at most a ratio just when its exponent is at most the binary logarithm. -/
theorem le_floorLog2_iff {num den : Nat} (hnum : 0 < num) (hden : 0 < den) {k : Int} :
  k ≤ floorLog2 num den ↔ (2 : ℚ) ^ k ≤ num / den
  := by
  obtain ⟨hle, hlt⟩ := floorLog2_spec hnum hden
  constructor
  · intro h
    exact le_trans (zpow_le_zpow_right₀ one_le_two h) hle
  · intro h
    have hsucc : k < floorLog2 num den + 1 :=
      (zpow_lt_zpow_iff_right₀ one_lt_two).mp (lt_of_le_of_lt h hlt)
    omega

/-- A number at a distance of at most a half is the nearest one; if it is odd, the distance has to
be less. -/
theorem divideToNearest_eq {num den m : Nat} (hden : 0 < den) (hlow : 2 * m * den ≤ 2 * num + den)
    (hhigh : 2 * num ≤ 2 * m * den + den)
    (htie : m % 2 = 1 → 2 * m * den ≠ 2 * num + den ∧ 2 * num ≠ 2 * m * den + den) :
  divideToNearest num den = m
  := by
  have hnum : den * (num / den) + num % den = num := Nat.div_add_mod num den
  have hrest : num % den < den := Nat.mod_lt num hden
  unfold divideToNearest
  dsimp only
  generalize num / den = floor at hnum ⊢
  generalize num % den = rest at hnum hrest ⊢
  have hle : floor ≤ m := by
    by_contra h
    have : den * (m + 1) ≤ den * floor := Nat.mul_le_mul_left den (by omega)
    rw [Nat.mul_add] at this
    nlinarith
  have hge : m ≤ floor + 1 := by
    by_contra h
    have : den * (floor + 2) ≤ den * m := Nat.mul_le_mul_left den (by omega)
    rw [Nat.mul_add] at this
    nlinarith
  obtain rfl | rfl : floor = m ∨ m = floor + 1 := by omega
  · have h1 : 2 * floor * den = 2 * (den * floor) := by ring
    rw [h1] at hlow hhigh htie
    split
    · rfl
    · split
      · omega
      · split
        · rfl
        · have := htie (by omega)
          omega
  · have h1 : 2 * (floor + 1) * den = 2 * (den * floor) + 2 * den := by ring
    rw [h1] at hlow hhigh htie
    split
    · omega
    · split
      · rfl
      · split
        · have := htie (by omega)
          omega
        · rfl

/-- The multiple of a unit that is nearest to a ratio. -/
theorem divideToNearest_scaled {num den k : Nat} {u : Int} (hden : 0 < den)
    (hlow : ((k : ℚ) - 1 / 2) * 2 ^ u ≤ num / den) (hhigh : (num : ℚ) / den ≤ (k + 1 / 2) * 2 ^ u)
    (hodd : k % 2 = 1 → ((k : ℚ) - 1 / 2) * 2 ^ u ≠ num / den
      ∧ (num : ℚ) / den ≠ (k + 1 / 2) * 2 ^ u) :
  divideToNearest (num * (scaled den u).2) (scaled den u).1 = k
  := by
  have hd : (0 : ℚ) < den := by exact_mod_cast hden
  have hdown : (0 : ℚ) < (scaled den u).2 := by exact_mod_cast scaled_pos den u
  have hunit : (0 : ℚ) < 2 ^ u := by positivity
  have hratio := scaled_ratio den u
  rw [div_eq_iff hdown.ne'] at hratio
  have hup : (0 : ℚ) < (scaled den u).1 := by
    rw [hratio]
    positivity
  -- both sides in units of the scaled denominator
  have hnum : (num : ℚ) * (scaled den u).2 = num / den / 2 ^ u * (scaled den u).1 := by
    rw [hratio]
    field_simp
  generalize (scaled den u).1 = up at hup hnum ⊢
  generalize (scaled den u).2 = down at hnum ⊢
  generalize hw : (num : ℚ) / den / 2 ^ u = w at hnum
  have hvw : (num : ℚ) / den = w * 2 ^ u := by
    rw [← hw, div_mul_cancel₀ _ hunit.ne']
  rw [hvw] at hlow hhigh hodd
  have hlow' : (k : ℚ) - 1 / 2 ≤ w := le_of_mul_le_mul_right hlow hunit
  have hhigh' : w ≤ (k : ℚ) + 1 / 2 := le_of_mul_le_mul_right hhigh hunit
  apply divideToNearest_eq (by exact_mod_cast hup)
  · have h : (2 * k * up : ℚ) ≤ 2 * (num * down) + up := by
      rw [hnum]
      nlinarith
    exact_mod_cast h
  · have h : (2 * (num * down) : ℚ) ≤ 2 * k * up + up := by
      rw [hnum]
      nlinarith
    exact_mod_cast h
  · intro hk
    obtain ⟨hne, hne'⟩ := hodd hk
    constructor
    · intro h
      apply hne
      have h : (2 * k * up : ℚ) = 2 * (num * down) + up := by exact_mod_cast h
      rw [hnum] at h
      congr 1
      apply mul_right_cancel₀ hup.ne'
      linarith
    · intro h
      apply hne'
      have h : (2 * (num * down) : ℚ) = 2 * k * up + up := by exact_mod_cast h
      rw [hnum] at h
      congr 1
      apply mul_right_cancel₀ hup.ne'
      linarith

/-- What the parts of a float that is finite and not zero are like. -/
structure Parts.Canonical (p : Parts) : Prop where
  pos : 0 < p.significand
  lt : p.significand < twoTo 53
  le : -1074 ≤ p.exponent
  subnormal : p.significand < twoTo 52 → p.exponent = -1074

/-- The bits of a magnitude. -/
def Parts.bits (p : Parts) : Nat :=
  (p.exponent + 1074).toNat * twoTo 52 + p.significand

/-- The parts of a float that is not zero are in canonical form. -/
theorem canonical_parts {x : Float} (hx : magnitudeBits x ≠ 0) : (parts x).Canonical := by
  have hfraction : magnitudeBits x % 2 ^ 52 < 2 ^ 52 := Nat.mod_lt _ (by decide)
  unfold parts
  dsimp only
  split
  · rename_i h
    refine ⟨?_, ?_, Int.le_refl _, fun _ => rfl⟩
    · replace h : magnitudeBits x / 2 ^ 52 = 0 := h
      show 0 < magnitudeBits x % 2 ^ 52
      omega
    · show magnitudeBits x % 2 ^ 52 < 2 ^ 53
      omega
  · rename_i h
    replace h : magnitudeBits x / 2 ^ 52 ≠ 0 := h
    refine ⟨?_, ?_, ?_, ?_⟩
    · show 0 < 2 ^ 52 + magnitudeBits x % 2 ^ 52
      omega
    · show 2 ^ 52 + magnitudeBits x % 2 ^ 52 < 2 ^ 53
      omega
    · show -1074 ≤ ((magnitudeBits x / 2 ^ 52 : Nat) : Int) - 1075
      omega
    · show 2 ^ 52 + magnitudeBits x % 2 ^ 52 < 2 ^ 52 → _
      omega

/-- The parts of a float have its bits. -/
theorem bits_parts (x : Float) : (parts x).bits = magnitudeBits x := by
  unfold parts
  dsimp only
  split
  · rename_i h
    replace h : magnitudeBits x / 2 ^ 52 = 0 := h
    have hzero : (-1074 + 1074 : Int).toNat = 0 := rfl
    rw [Parts.bits]
    dsimp only
    rw [hzero, twoTo, Nat.pow_eq]
    omega
  · rename_i h
    replace h : magnitudeBits x / 2 ^ 52 ≠ 0 := h
    show (((magnitudeBits x / 2 ^ 52 : Nat) : Int) - 1075 + 1074).toNat * 2 ^ 52
      + (2 ^ 52 + magnitudeBits x % 2 ^ 52) = magnitudeBits x
    omega

/-- A rational number lies in the interval. -/
def Interval.Contains (i : Interval) (v : ℚ) : Prop :=
  if i.closed then i.low * 2 ^ i.exponent ≤ v ∧ v ≤ i.high * 2 ^ i.exponent
  else i.low * 2 ^ i.exponent < v ∧ v < i.high * 2 ^ i.exponent

/-- Below a power of two the neighbour is only half as far. -/
def Parts.IsNarrow (p : Parts) : Prop :=
  p.significand = twoTo 52 ∧ -1074 < p.exponent

/-- The lower end of the interval is a half or a quarter below, in units of the last place. -/
theorem low_interval {p : Parts} (hp : 0 < p.significand) :
  p.IsNarrow ∧ ((interval p).low : ℚ) = 4 * p.significand - 1
    ∨ ¬ p.IsNarrow ∧ ((interval p).low : ℚ) = 4 * p.significand - 2
  := by
  by_cases hn : p.IsNarrow
  · left
    refine ⟨hn, ?_⟩
    have : (interval p).low = 4 * p.significand - 1 := by
      simp [interval, hn.1, hn.2]
    rw [this, Nat.cast_sub (by omega)]
    norm_num
  · right
    refine ⟨hn, ?_⟩
    have : (interval p).low = 4 * p.significand - 2 := by
      have hn' : ¬ (p.significand = twoTo 52 ∧ -1074 < p.exponent) := hn
      simp only [interval, Bool.and_eq_true, decide_eq_true_eq, if_neg hn']
    rw [this, Nat.cast_sub (by omega)]
    norm_num

/-- The ends of the interval, in units of the last place. -/
theorem contains_interval {p : Parts} (hp : p.Canonical) {v : ℚ} (h : (interval p).Contains v) :
  ((p.significand : ℚ) - 1 / 2) * 2 ^ p.exponent ≤ v
    ∧ v ≤ (p.significand + 1 / 2) * 2 ^ p.exponent
    ∧ (p.significand % 2 = 1 → ((p.significand : ℚ) - 1 / 2) * 2 ^ p.exponent ≠ v
      ∧ v ≠ (p.significand + 1 / 2) * 2 ^ p.exponent)
    ∧ (p.IsNarrow → ((p.significand : ℚ) - 1 / 4) * 2 ^ p.exponent ≤ v)
  := by
  have hlow := low_interval hp.pos
  have hhigh : ((interval p).high : ℚ) = 4 * p.significand + 2 := by
    simp [interval]
  have hexponent : (2 : ℚ) ^ (interval p).exponent = 2 ^ p.exponent / 4 := by
    show (2 : ℚ) ^ (p.exponent - 2) = _
    rw [zpow_sub₀ (by norm_num)]
    norm_num
  have hunit : (0 : ℚ) < 2 ^ p.exponent := by positivity
  have hclosed : (interval p).closed = decide (p.significand % 2 = 0) := rfl
  unfold Interval.Contains at h
  rw [hclosed, hhigh, hexponent] at h
  split at h
  · rename_i heven
    have heven := of_decide_eq_true heven
    obtain ⟨h1, h2⟩ := h
    refine ⟨?_, by linarith, by omega, ?_⟩
    · obtain ⟨-, hl⟩ | ⟨-, hl⟩ := hlow <;> rw [hl] at h1 <;> linarith
    · intro hn
      obtain ⟨-, hl⟩ | ⟨hn', -⟩ := hlow
      · rw [hl] at h1
        linarith
      · contradiction
  · obtain ⟨h1, h2⟩ := h
    obtain ⟨hn, -⟩ | ⟨hn, hl⟩ := hlow
    · rename_i hodd
      exfalso
      apply hodd
      rw [hn.1]
      decide
    · rw [hl] at h1
      refine ⟨by linarith, by linarith, fun _ => ⟨by intro h; linarith, by intro h; linarith⟩, ?_⟩
      intro hn'
      contradiction

section OfRatio

variable {p : Parts} {num den : Nat}

/-- What a ratio is rounded to, once its unit in the last place and the multiple of it are known. -/
theorem ofRatio_of_unit {unit : Int} {n bits : Nat} (hnum : 0 < num)
    (hunit : unit = max (floorLog2 num den - 52) (-1074))
    (hn : divideToNearest (num * (scaled den unit).2) (scaled den unit).1 = n)
    (hsum : (unit + 1074).toNat * twoTo 52 + n = bits) (hbits : bits < infinityBits) :
  ofRatio num den = some (Float.ofBits (UInt64.ofNat bits))
  := by
  unfold ofRatio
  rw [if_neg (Nat.ne_of_gt hnum)]
  dsimp only
  rw [← hunit, hn, hsum, if_pos hbits]

/-- A ratio just below the power of two that a float is has the smaller unit. -/
theorem floorLog2_of_narrow (hnum : 0 < num) (hden : 0 < den)
    (hpower : (p.significand : ℚ) = 2 ^ (52 : Int))
    (hlow : ((p.significand : ℚ) - 1 / 4) * 2 ^ p.exponent ≤ num / den)
    (hbelow : (num : ℚ) / den < 2 ^ (52 : Int) * 2 ^ p.exponent) :
  floorLog2 num den = 51 + p.exponent
  := by
  apply le_antisymm
  · have hlt : ¬ 52 + p.exponent ≤ floorLog2 num den := by
      rw [le_floorLog2_iff hnum hden, zpow_add₀ two_ne_zero, not_le]
      exact hbelow
    omega
  · rw [le_floorLog2_iff hnum hden, zpow_add₀ two_ne_zero]
    refine le_trans ?_ hlow
    gcongr
    rw [hpower]
    norm_num

/-- Any other ratio near a float has the unit of the float. -/
theorem exponent_eq_unit (hp : p.Canonical) (hnum : 0 < num) (hden : 0 < den)
    (hlow : ((p.significand : ℚ) - 1 / 2) * 2 ^ p.exponent ≤ num / den)
    (hhigh : (num : ℚ) / den ≤ (p.significand + 1 / 2) * 2 ^ p.exponent)
    (habove : p.IsNarrow → 2 ^ (52 : Int) * 2 ^ p.exponent ≤ (num : ℚ) / den) :
  p.exponent = max (floorLog2 num den - 52) (-1074)
  := by
  have hle := hp.le
  have hup : ¬ 53 + p.exponent ≤ floorLog2 num den := by
    have hlarge : (p.significand : ℚ) + 1 ≤ 2 ^ (53 : Int) := by exact_mod_cast hp.lt
    rw [le_floorLog2_iff hnum hden, zpow_add₀ two_ne_zero, not_le]
    refine lt_of_le_of_lt hhigh ?_
    gcongr
    linarith
  by_cases hq : p.exponent = -1074
  · omega
  · have hnormal : 2 ^ 52 ≤ p.significand := by
      by_contra h52
      exact hq (hp.subnormal (Nat.lt_of_not_le h52))
    have hdown : 52 + p.exponent ≤ floorLog2 num den := by
      rw [le_floorLog2_iff hnum hden, zpow_add₀ two_ne_zero]
      by_cases hpower : p.significand = twoTo 52
      · exact habove ⟨hpower, by omega⟩
      · have hsucc : 2 ^ 52 + 1 ≤ p.significand :=
          Nat.lt_of_le_of_ne hnormal fun h => hpower h.symm
        have hsucc : (2 : ℚ) ^ (52 : Int) + 1 ≤ p.significand := by exact_mod_cast hsucc
        refine le_trans ?_ hlow
        gcongr
        linarith
    omega

/-- A ratio within the rounding interval of a float is rounded to it. -/
theorem ofRatio_eq (hp : p.Canonical) (hbits : p.bits < infinityBits) (hden : 0 < den)
    (h : (interval p).Contains (num / den)) :
  ofRatio num den = some (Float.ofBits (UInt64.ofNat p.bits))
  := by
  obtain ⟨hlow, hhigh, hodd, hnarrow⟩ := contains_interval hp h
  have hnum : 0 < num := by
    have hone : (1 : ℚ) ≤ p.significand := by exact_mod_cast hp.pos
    have hunit : (0 : ℚ) < 2 ^ p.exponent := by positivity
    by_contra h0
    obtain rfl : num = 0 := by omega
    rw [Nat.cast_zero, zero_div] at hlow
    nlinarith
  by_cases hcarry : p.IsNarrow ∧ (num : ℚ) / den < 2 ^ (52 : Int) * 2 ^ p.exponent
  · -- rounding in the smaller unit carries to the power of two
    obtain ⟨⟨hpower, hq⟩, hbelow⟩ := hcarry
    have hlow' := hnarrow ⟨hpower, hq⟩
    have hcast : (p.significand : ℚ) = 2 ^ (52 : Int) := by
      rw [hpower]
      norm_num [twoTo]
    have hlog := floorLog2_of_narrow hnum hden hcast hlow' hbelow
    have hhalf : (2 : ℚ) ^ (p.exponent - 1) = 2 ^ p.exponent / 2 := by
      rw [zpow_sub₀ two_ne_zero, zpow_one]
    have hcarried : ((twoTo 53 : Nat) : ℚ) = 2 * 2 ^ (52 : Int) := by
      norm_num [twoTo]
    have hn : divideToNearest (num * (scaled den (p.exponent - 1)).2)
        (scaled den (p.exponent - 1)).1 = twoTo 53 := by
      apply divideToNearest_scaled hden
      · rw [hhalf, hcarried]
        rw [hcast] at hlow'
        linarith
      · rw [hhalf, hcarried]
        linarith
      · intro hodd
        exact absurd hodd (by decide)
    apply ofRatio_of_unit hnum _ hn _ hbits
    · omega
    · rw [Parts.bits, hpower]
      show (p.exponent - 1 + 1074).toNat * 2 ^ 52 + 2 ^ 53
        = (p.exponent + 1074).toNat * 2 ^ 52 + 2 ^ 52
      omega
  · have hunit : p.exponent = max (floorLog2 num den - 52) (-1074) := by
      apply exponent_eq_unit hp hnum hden hlow hhigh
      intro hn
      by_contra hbelow
      exact hcarry ⟨hn, lt_of_not_ge hbelow⟩
    exact ofRatio_of_unit hnum hunit (divideToNearest_scaled hden hlow hhigh hodd) rfl hbits

end OfRatio

end Springboard.Binary64
