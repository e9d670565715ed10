import Mathlib.Tactic.Positivity
import Springboard.Number.Numeral
import Springboard.Proofs.FloatBits
import Springboard.Proofs.Shortest
import Springboard.Proofs.Tokens

/-!
# Numerals are read back

An integer of no more digits than a numeral may have is read as itself. The text of a finite float
is a sign and a numeral that is read as the float without its sign: the digits that are written
stand for the shortest decimal, whatever the notation, and that lies in the rounding interval of the
float.
-/

namespace Springboard

open Binary64

/-! ### Digits -/

namespace Text

/-- Digits behind other digits. -/
theorem ofDigits_append (base : Nat) (xs ys : List Nat) :
  ofDigits base (xs ++ ys) = ofDigits base xs * base ^ ys.length + ofDigits base ys
  := by
  induction ys using List.reverseRecOn with
  | nil => simp [ofDigits]
  | append_singleton ys d ih =>
    have hlast : ∀ zs, ofDigits base (zs ++ [d]) = base * ofDigits base zs + d := by
      intro zs
      simp [ofDigits]
    rw [← List.append_assoc, hlast, hlast, ih, List.length_append, List.length_singleton, pow_succ]
    ring

/-- Zeros in front do not count. -/
theorem ofDigits_dropWhile (base : Nat) (ds : List Nat) :
  ofDigits base (ds.dropWhile (· == 0)) = ofDigits base ds
  := by
  induction ds with
  | nil => rfl
  | cons d ds ih =>
    rw [List.dropWhile_cons]
    split
    · rename_i hd
      rw [ih, eq_of_beq hd, ← List.singleton_append, ofDigits_append]
      simp [ofDigits]
    · rfl

/-- A number has fewer digits than a power of the base has zeros. -/
theorem ofDigits_lt {base : Nat} {ds : List Nat} (h : ∀ d ∈ ds, d < base) :
  ofDigits base ds < base ^ ds.length
  := by
  induction ds with
  | nil => simp [ofDigits]
  | cons d ds ih =>
    obtain ⟨hd, hds⟩ := List.forall_mem_cons.mp h
    have hrest := ih hds
    rw [← List.singleton_append, ofDigits_append, List.length_append, List.length_singleton,
      pow_add, pow_one]
    have hsingle : ofDigits base [d] = d := by simp [ofDigits]
    rw [hsingle]
    calc d * base ^ ds.length + ofDigits base ds
        < d * base ^ ds.length + base ^ ds.length := by omega
      _ = (d + 1) * base ^ ds.length := by ring
      _ ≤ base * base ^ ds.length := Nat.mul_le_mul_right _ hd

/-- A number that begins with a digit other than zero has all its digits. -/
theorem le_ofDigits {base d : Nat} (hd : 0 < d) (ds : List Nat) :
  base ^ ds.length ≤ ofDigits base (d :: ds)
  := by
  rw [← List.singleton_append, ofDigits_append]
  have hsingle : ofDigits base [d] = d := by simp [ofDigits]
  rw [hsingle]
  exact le_trans (Nat.le_mul_of_pos_left _ hd) (Nat.le_add_right _ _)

end Text

/-! ### Floats -/

namespace Number

/-- The sizes of floats are far from those that are not computed with. -/
theorem shortest_bounds {p : Parts} (hp : p.Canonical) (hbits : p.bits < infinityBits) :
  (10 : ℚ) ^ (-400 : Int) ≤ (shortest p).value ∧ (shortest p).value < 10 ^ (400 : Int)
  := by
  obtain ⟨hlow, hhigh, -⟩ := contains_interval hp (contains_shortest hp hbits)
  have hone : (1 : ℚ) ≤ p.significand := by exact_mod_cast hp.pos
  have hlarge : (p.significand : ℚ) + 1 ≤ 2 ^ (53 : Int) := by exact_mod_cast hp.lt
  have hexponent : p.exponent ≤ 972 := by
    have hbits : (p.exponent + 1074).toNat * 2 ^ 52 + p.significand < 2047 * 2 ^ 52 := hbits
    have hpos := hp.pos
    omega
  constructor
  · calc (10 : ℚ) ^ (-400 : Int) ≤ 2 ^ (-1075 : Int) := by
          rw [zpow_neg, zpow_neg]
          gcongr
          have : (2 : ℕ) ^ 1075 ≤ 10 ^ 400 := by decide +kernel
          exact_mod_cast this
      _ = 1 / 2 * 2 ^ (-1074 : Int) := by
          rw [show (-1075 : Int) = -1074 + -1 from rfl, zpow_add₀ two_ne_zero, zpow_neg_one]
          ring
      _ ≤ (p.significand - 1 / 2) * 2 ^ p.exponent := by
          have hle := hp.le
          have hhalf : (1 : ℚ) / 2 ≤ p.significand - 1 / 2 := by linarith
          gcongr
          norm_num
      _ ≤ _ := hlow
  · calc (shortest p).value ≤ (p.significand + 1 / 2) * 2 ^ p.exponent := hhigh
      _ ≤ 2 ^ (53 : Int) * 2 ^ (972 : Int) := by
          gcongr
          · linarith
          · norm_num
      _ = 2 ^ (1025 : Int) := by rw [← zpow_add₀ two_ne_zero]; rfl
      _ < 10 ^ (400 : Int) := by
          have : (2 : ℕ) ^ 1025 < 10 ^ 400 := by decide +kernel
          exact_mod_cast this

/-- Digits that stand for the shortest decimal of a float are read as the float without its
sign. -/
theorem nearest_eq {x : Float} (hfinite : isFinite x = true) (hzero : magnitudeBits x ≠ 0)
    {ds : List Nat} (hds : ∀ d ∈ ds, d < 10) {e : Int}
    (h : (Text.ofDigits 10 ds : ℚ) * 10 ^ e = (shortest (parts x)).value) :
  nearest ds e = withSign false x
  := by
  have hp := canonical_parts hzero
  have hbits : (parts x).bits < infinityBits := by
    rw [bits_parts]
    exact of_decide_eq_true hfinite
  have hcontains := contains_shortest hp hbits
  obtain ⟨hlow, hhigh⟩ := shortest_bounds hp hbits
  rw [← h, ← Text.ofDigits_dropWhile] at hlow hhigh hcontains
  have hmem : ∀ d ∈ ds.dropWhile (· == 0), d < 10 := by
    intro d hd
    exact hds d ((List.dropWhile_sublist _).mem hd)
  have hfirst : ∀ d ∈ (ds.dropWhile (· == 0)).head?, (d == 0) = false := by
    intro d hd
    have := List.head?_dropWhile_not (· == 0) ds
    rw [Option.mem_def.mp hd] at this
    simpa using this
  unfold nearest
  dsimp only
  generalize ds.dropWhile (· == 0) = significant at hlow hhigh hcontains hmem hfirst
  cases significant with
  | nil =>
    exfalso
    simp only [Text.ofDigits, List.foldl_nil, Nat.cast_zero, zero_mul] at hlow
    have : (0 : ℚ) < 10 ^ (-400 : Int) := by positivity
    linarith
  | cons d rest =>
    have hd : 0 < d := Nat.pos_of_ne_zero (by simpa using hfirst d rfl)
    have hle : 10 ^ rest.length ≤ Text.ofDigits 10 (d :: rest) := Text.le_ofDigits hd rest
    have hlt := Text.ofDigits_lt hmem
    generalize Text.ofDigits 10 (d :: rest) = value at hlow hhigh hcontains hle hlt
    have hten : (1 : ℚ) < 10 := by norm_num
    have htop : -400 < e + (d :: rest).length := by
      rw [← zpow_lt_zpow_iff_right₀ hten]
      refine lt_of_le_of_lt hlow ?_
      rw [add_comm, zpow_add₀ (by norm_num), zpow_natCast]
      gcongr
      exact_mod_cast hlt
    have hbottom : e + rest.length < 400 := by
      rw [← zpow_lt_zpow_iff_right₀ hten]
      refine lt_of_le_of_lt ?_ hhigh
      rw [add_comm, zpow_add₀ (by norm_num), zpow_natCast]
      gcongr
      exact_mod_cast hle
    have hlength : ((d :: rest).length : Int) = rest.length + 1 := by
      simp
    have hsome : ¬ ((d :: rest).isEmpty || decide (e + (d :: rest).length < -400)) = true := by
      simp only [List.isEmpty_cons, Bool.false_or, decide_eq_true_eq]
      omega
    rw [if_neg hsome, if_neg (by omega)]
    rw [← scaledByTen_ratio] at hcontains
    rw [ofRatio_eq hp hbits (scaledByTen_pos value e) hcontains, bits_parts]
    rfl

end Number

/-! ### Reading numerals -/

namespace Grammar

/-- A digit begins no word, is no blank and part of no sign, and has a value below ten. -/
theorem isDigit_facts {c : Char} (hc : c.isDigit = true) :
  Text.isStart c = false ∧ c ≠ ' ' ∧ (c ≠ '>' ∧ c ≠ '=') ∧ digit c < 10
  := by
  have hall : ∀ k < 10, Text.isStart (Char.ofNat (48 + k)) = false ∧ Char.ofNat (48 + k) ≠ ' '
      ∧ (Char.ofNat (48 + k) ≠ '>' ∧ Char.ofNat (48 + k) ≠ '=')
      ∧ digit (Char.ofNat (48 + k)) < 10 := by
    decide +kernel
  obtain ⟨hlow, hhigh⟩ : 48 ≤ c.toNat ∧ c.toNat ≤ 57 := by
    rw [Char.isDigit, Bool.and_eq_true, decide_eq_true_eq, decide_eq_true_eq] at hc
    exact ⟨UInt32.le_iff_toNat_le.mp hc.1, UInt32.le_iff_toNat_le.mp hc.2⟩
  obtain ⟨k, hk⟩ := Nat.exists_eq_add_of_le hlow
  rw [← Char.ofNat_toNat c, hk]
  exact hall k (by omega)

/-- Nothing that stands behind an expression is a digit. -/
theorem isDigit_of_stops {rest : List Char} (h : Stops rest) :
  ∀ c ∈ rest.head?, c.isDigit = false
  := by
  intro c hc
  exact (isContinue_of_mem_stops c (h c hc)).2.2.1

/-- No fraction stands behind an expression. -/
theorem splitFraction_of_stops {rest : List Char} (h : Stops rest) :
  splitFraction rest = (none, rest)
  := by
  unfold splitFraction
  split
  · exact absurd rfl (isContinue_of_mem_stops _ (h _ rfl)).2.2.2.1
  · rfl

/-- No exponent stands behind an expression. -/
theorem splitExponent_of_stops {rest : List Char} (h : Stops rest) :
  splitExponent rest = (none, rest)
  := by
  unfold splitExponent
  split
  · exact absurd rfl (isContinue_of_mem_stops _ (h _ rfl)).2.2.2.2
  · rfl

/-- A numeral is read as its number, if its digits, its fraction and its exponent are found. -/
theorem lexes_numeral {whole tail : List Char} {fraction? : Option (List Char)}
    {exponent? : Option Int} {n : Number} (hsome : whole ≠ [])
    (hwhole : ∀ c ∈ whole, c.isDigit = true) (htail : ∀ c ∈ tail.head?, c.isDigit = false)
    (hsplit : ∀ rest, Stops rest → ∃ middle, splitFraction (tail ++ rest) = (fraction?, middle)
      ∧ splitExponent middle = (exponent?, rest))
    (hn : number? whole fraction? exponent? = some n) :
  Lexes (whole ++ tail) [.numeral n]
  := by
  obtain ⟨c, digits, rfl⟩ := List.exists_cons_of_ne_nil hsome
  have hc : c.isDigit = true := hwhole c List.mem_cons_self
  obtain ⟨hstart, hblank, hsign, -⟩ := isDigit_facts hc
  refine ⟨fun d hd => ?_, fun rest us hrest h => ?_⟩
  · cases hd
    exact hsign
  obtain ⟨middle, hfraction, hexponent⟩ := hsplit rest hrest
  have hbehind : ∀ c ∈ (tail ++ rest).head?, c.isDigit = false := by
    cases tail with
    | nil => exact isDigit_of_stops hrest
    | cons c tail => exact htail
  obtain ⟨htake, hdrop⟩ := split_append hwhole hbehind
  have hend : (rest.head?.any fun c => Text.isContinue c || c == '.') = false := by
    cases rest with
    | nil => rfl
    | cons c rest =>
      obtain ⟨hcontinue, -, -, hpoint, -⟩ := isContinue_of_mem_stops c (hrest c rfl)
      simp [hcontinue, hpoint]
  have hread : readNumeral? (c :: digits ++ (tail ++ rest)) = some (.numeral n, rest) := by
    unfold readNumeral?
    rw [htake, hdrop, hfraction]
    dsimp only
    rw [hexponent]
    dsimp only
    rw [hend, hn]
    rfl
  rw [List.append_assoc]
  refine tokens?_of_readToken? hblank ?_ (by simp; omega) h
  rw [readToken?, hstart, hc]
  exact hread

/-- The value of digits that are written. -/
theorem ofDigits_map_digit (cs : List Char) :
  Text.ofDigits 10 (cs.map digit) = Nat.ofDigitChars 10 cs 0
  := by
  rw [Text.ofDigits, List.foldl_map, Nat.ofDigitChars_eq_foldl]
  rfl

/-- The digits of a number begin with a zero only if it is zero. -/
theorem head_toDigits {n : Nat} (hn : n ≠ 0) : (Nat.toDigits 10 n).head? ≠ some '0' := by
  induction n using Nat.strongRecOn with
  | ind n ih =>
    by_cases hsmall : n < 10
    · rw [Nat.toDigits_of_lt_base hsmall]
      have hdigits : ∀ k < 10, k ≠ 0 → [k.digitChar].head? ≠ some '0' := by decide
      exact hdigits n hsmall hn
    · rw [Nat.toDigits_of_base_le (by decide) (Nat.le_of_not_lt hsmall),
        List.head?_append_of_ne_nil _ Nat.toDigits_ne_nil]
      exact ih (n / 10) (by omega) (by omega)

/-- A natural number that is not too long is read as itself. -/
theorem lexes_natText {n : Nat} (hn : n < tenTo Number.digitLimit) :
  Lexes (Number.natText n).toList [.numeral (.int n)]
  := by
  have hdigits : ∀ c ∈ Nat.toDigits 10 n, c.isDigit = true := by
    intro c hc
    exact Nat.isDigit_of_mem_toDigits (by decide) (Nat.le_refl 10) hc
  have htenTo : ∀ m, tenTo m = 10 ^ m := fun m => rfl
  have hlength : (Nat.toDigits 10 n).length ≤ Number.digitLimit := by
    rwa [Nat.length_toDigits_le_iff (by decide) (by decide), ← htenTo]
  have hinteger : number? (Nat.toDigits 10 n) none none = some (.int n) := by
    have hlimit : ¬ Number.digitLimit < (Nat.toDigits 10 n).length := Nat.not_lt.mpr hlength
    have hfront : ((Nat.toDigits 10 n).head? == some '0' && (Nat.toDigits 10 n).length != 1)
        = false := by
      by_cases hzero : n = 0
      · rw [hzero]
        rfl
      · rw [Bool.and_eq_false_iff, beq_eq_false_iff_ne]
        exact .inl (head_toDigits hzero)
    rw [number?, integer?, hfront, decide_eq_false hlimit, ofDigits_map_digit,
      Nat.ofDigitChars_ten_toDigits]
    rfl
  rw [Number.natText, Nat.toList_repr, ← List.append_nil (Nat.toDigits 10 n)]
  refine lexes_numeral Nat.toDigits_ne_nil hdigits (by simp) (fun rest hrest => ?_) hinteger
  exact ⟨rest, splitFraction_of_stops hrest, splitExponent_of_stops hrest⟩

open Number

/-- The digits behind a point are found. -/
theorem splitFraction_point {fraction rest : List Char}
    (hfraction : ∀ c ∈ fraction, c.isDigit = true) (hrest : ∀ c ∈ rest.head?, c.isDigit = false) :
  splitFraction ('.' :: (fraction ++ rest)) = (some fraction, rest)
  := by
  obtain ⟨htake, hdrop⟩ := split_append hfraction hrest
  rw [splitFraction, htake, hdrop]

/-- An exponent with a sign is found. -/
theorem splitExponent_sign (negative : Bool) {power rest : List Char} (hsome : power ≠ [])
    (hpower : ∀ c ∈ power, c.isDigit = true) (hrest : ∀ c ∈ rest.head?, c.isDigit = false) :
  splitExponent ('e' :: (if negative then '-' else '+') :: (power ++ rest))
    = (some (signed negative (Text.ofDigits 10 (power.map digit))), rest)
  := by
  obtain ⟨htake, hdrop⟩ := split_append hpower hrest
  have hsign : splitPlusMinus ((if negative then '-' else '+') :: (power ++ rest))
      = (negative, power ++ rest) := by
    cases negative <;> rfl
  rw [splitExponent, hsign]
  dsimp only
  rw [htake, hdrop, List.isEmpty_eq_false_iff.mpr hsome]
  rfl

/-- Digits with a point among them are read as a float. -/
theorem lexes_point {whole fraction : List Char} (hsome : whole ≠ [])
    (hwhole : ∀ c ∈ whole, c.isDigit = true) (hfraction : ∀ c ∈ fraction, c.isDigit = true) :
  Lexes (whole ++ '.' :: fraction)
    [.numeral (.float (nearest ((whole ++ fraction).map digit) (0 - fraction.length)))]
  := by
  have hn : number? whole (some fraction) none
      = some (.float (nearest ((whole ++ fraction).map digit) (0 - fraction.length))) := rfl
  refine lexes_numeral hsome hwhole ?_ (fun rest hrest => ?_) hn
  · intro c hc
    cases hc
    rfl
  · exact ⟨rest, splitFraction_point hfraction (isDigit_of_stops hrest),
      splitExponent_of_stops hrest⟩

/-- Digits with an exponent behind them are read as a float. -/
theorem lexes_exponent {whole fraction power : List Char} (negative : Bool) (hsome : whole ≠ [])
    (hwhole : ∀ c ∈ whole, c.isDigit = true) (hfraction : ∀ c ∈ fraction, c.isDigit = true)
    (hpower : power ≠ []) (hdigits : ∀ c ∈ power, c.isDigit = true) :
  Lexes (whole ++ ((if fraction.isEmpty then [] else '.' :: fraction)
      ++ 'e' :: (if negative then '-' else '+') :: power))
    [.numeral (.float (nearest ((whole ++ fraction).map digit)
      (signed negative (Text.ofDigits 10 (power.map digit)) - fraction.length)))]
  := by
  have hn : ∀ (fraction? : Option (List Char)) (e : Int), number? whole fraction? (some e)
      = some (.float (nearest ((whole ++ fraction?.getD []).map digit)
        (e - (fraction?.getD []).length))) := by
    intro fraction? e
    cases fraction? <;> rfl
  cases fraction with
  | nil =>
    refine lexes_numeral hsome hwhole ?_ (fun rest hrest => ?_) (hn none _)
    · intro c hc
      cases hc
      rfl
    · exact ⟨_, rfl, splitExponent_sign negative hpower hdigits (isDigit_of_stops hrest)⟩
  | cons d fraction =>
    refine lexes_numeral hsome hwhole ?_ (fun rest hrest => ?_) (hn (some (d :: fraction)) _)
    · intro c hc
      cases hc
      rfl
    · refine ⟨_, ?_, splitExponent_sign negative hpower hdigits (isDigit_of_stops hrest)⟩
      rw [List.append_assoc]
      exact splitFraction_point hfraction (by simp)

/-- Zeros are digits. -/
theorem isDigit_of_mem_zeros {n : Nat} {c : Char} (hc : c ∈ zeros n) : c.isDigit = true := by
  rw [List.eq_of_mem_replicate hc]
  rfl

/-- A text is a numeral with digits and an exponent of the given value. -/
def Shows (cs : List Char) (v : ℚ) : Prop :=
  ∃ ds e, Lexes cs [.numeral (.float (nearest ds e))] ∧ (∀ k ∈ ds, k < 10)
    ∧ (Text.ofDigits 10 ds : ℚ) * 10 ^ e = v

section Shows

variable {whole fraction : List Char} (hsome : whole ≠ []) (hwhole : ∀ c ∈ whole, c.isDigit = true)
variable (hfraction : ∀ c ∈ fraction, c.isDigit = true) {v : ℚ}

include hwhole hfraction in
/-- Digits have values below ten. -/
theorem lt_ten_of_mem_digits : ∀ k ∈ (whole ++ fraction).map digit, k < 10 := by
  intro k hk
  obtain ⟨c, hc, rfl⟩ := List.mem_map.mp hk
  exact (isDigit_facts (List.forall_mem_append.mpr ⟨hwhole, hfraction⟩ c hc)).2.2.2

include hsome hwhole hfraction

/-- Digits with a point among them. -/
theorem shows_point
    (h : (Nat.ofDigitChars 10 (whole ++ fraction) 0 : ℚ) * 10 ^ (0 - (fraction.length : Int)) = v) :
  Shows (whole ++ '.' :: fraction) v
  := by
  refine ⟨_, _, lexes_point hsome hwhole hfraction, lt_ten_of_mem_digits hwhole hfraction, ?_⟩
  rwa [ofDigits_map_digit]

/-- Digits with an exponent of two digits or more behind them. -/
theorem shows_exponent (top : Int)
    (h : (Nat.ofDigitChars 10 (whole ++ fraction) 0 : ℚ) * 10 ^ (top - fraction.length) = v) :
  Shows (whole ++ ((if fraction.isEmpty then [] else '.' :: fraction)
    ++ 'e' :: (if top < 0 then '-' else '+') :: (zeros (2 - (Nat.toDigits 10 top.natAbs).length)
      ++ Nat.toDigits 10 top.natAbs))) v
  := by
  have hpower : ∀ c ∈ zeros (2 - (Nat.toDigits 10 top.natAbs).length)
      ++ Nat.toDigits 10 top.natAbs, c.isDigit = true := by
    refine List.forall_mem_append.mpr ⟨fun c hc => isDigit_of_mem_zeros hc, fun c hc => ?_⟩
    exact Nat.isDigit_of_mem_toDigits (by decide) (Nat.le_refl 10) hc
  have hexponent : Nat.ofDigitChars 10 (zeros (2 - (Nat.toDigits 10 top.natAbs).length)
      ++ Nat.toDigits 10 top.natAbs) 0 = top.natAbs := by
    rw [Nat.ofDigitChars_append, zeros, Nat.ofDigitChars_replicate_zero, Nat.mul_zero,
      Nat.ofDigitChars_ten_toDigits]
  have hsigned : signed (top < 0) top.natAbs = top := by
    rw [signed]
    by_cases hnegative : top < 0
    · rw [if_pos (decide_eq_true hnegative)]
      omega
    · rw [if_neg (by rwa [decide_eq_true_eq])]
      omega
  have hlexes := lexes_exponent (top < 0) hsome hwhole hfraction
    (List.append_ne_nil_of_right_ne_nil _ Nat.toDigits_ne_nil) hpower
  rw [ofDigits_map_digit, hexponent, hsigned] at hlexes
  simp only [decide_eq_true_eq] at hlexes
  refine ⟨_, _, hlexes, lt_ten_of_mem_digits hwhole hfraction, ?_⟩
  rwa [ofDigits_map_digit]

end Shows

/-- A decimal is written as a numeral of its value. -/
theorem shows_decimalText (d : Decimal) : Shows (decimalText d) d.value := by
  have hdigits : ∀ c ∈ Nat.toDigits 10 d.digits, c.isDigit = true := by
    intro c hc
    exact Nat.isDigit_of_mem_toDigits (by decide) (Nat.le_refl 10) hc
  have hvalue : Nat.ofDigitChars 10 (Nat.toDigits 10 d.digits) 0 = d.digits :=
    Nat.ofDigitChars_ten_toDigits
  have hlength : 0 < (Nat.toDigits 10 d.digits).length := Nat.length_toDigits_pos
  unfold decimalText
  dsimp only
  generalize Nat.toDigits 10 d.digits = digits at hdigits hvalue hlength
  generalize htop : d.exponent + (digits.length - 1 : Nat) = top
  have htake : ∀ n, ∀ c ∈ digits.take n, c.isDigit = true := fun n c hc =>
    hdigits c (List.mem_of_mem_take hc)
  have hdrop : ∀ n, ∀ c ∈ digits.drop n, c.isDigit = true := fun n c hc =>
    hdigits c (List.mem_of_mem_drop hc)
  have hsome : ∀ n, digits.take (n + 1) ≠ [] := by
    intro n
    simp [List.take_eq_nil_iff, List.length_pos_iff.mp hlength]
  split
  · split
    · -- behind the point, after some zeros
      have hzeros : Nat.ofDigitChars 10 (['0'] ++ zeros (-top - 1).toNat) 0 = 0 := by
        simp [Nat.ofDigitChars_cons, zeros]
      have he : (0 - ((zeros (-top - 1).toNat ++ digits).length : Int)) = d.exponent := by
        rw [List.length_append, zeros, List.length_replicate]
        omega
      apply @shows_point ['0'] (zeros (-top - 1).toNat ++ digits) (by simp) (by simp)
      · exact List.forall_mem_append.mpr ⟨fun c hc => isDigit_of_mem_zeros hc, hdigits⟩
      · rw [he, Decimal.value, ← List.append_assoc, Nat.ofDigitChars_append, hzeros, hvalue]
    · split
      · -- before the point, perhaps with zeros behind
        rename_i hempty
        have hle : digits.length ≤ top.toNat + 1 := by
          rwa [List.isEmpty_iff, List.drop_eq_nil_iff] at hempty
        obtain ⟨k, hk⟩ : ∃ k : Nat, d.exponent = k := Int.eq_ofNat_of_zero_le (by omega)
        have hplaces : top.toNat + 1 - digits.length = k := by omega
        rw [List.take_of_length_le hle]
        apply shows_point
        · exact List.append_ne_nil_of_left_ne_nil (List.length_pos_iff.mp hlength) _
        · exact List.forall_mem_append.mpr ⟨hdigits, fun c hc => isDigit_of_mem_zeros hc⟩
        · simp
        · rw [hplaces, Nat.ofDigitChars_append, Nat.ofDigitChars_append, hvalue, Decimal.value, hk,
            zpow_natCast]
          simp only [zeros, Nat.ofDigitChars_replicate_zero, Nat.ofDigitChars_cons]
          norm_num
          ring
      · -- on both sides of the point
        rename_i hboth
        have hlt : top.toNat + 1 < digits.length := by
          rwa [List.isEmpty_iff, List.drop_eq_nil_iff, Nat.not_le] at hboth
        have hnone : zeros (top.toNat + 1 - digits.length) = [] := by
          rw [Nat.sub_eq_zero_of_le hlt.le]
          rfl
        rw [hnone, List.append_nil]
        apply shows_point (hsome _) (htake _) (hdrop _)
        rw [List.take_append_drop, hvalue, Decimal.value, List.length_drop]
        congr 2
        omega
  · -- one digit before the point, and an exponent
    have he : top - (digits.drop 1).length = d.exponent := by
      rw [List.length_drop]
      omega
    have hshows := @shows_exponent (digits.take 1) (digits.drop 1) (hsome 0) (htake 1) (hdrop 1)
      d.value top (by rw [List.take_append_drop, hvalue, he, Decimal.value])
    simpa only [List.append_assoc, List.cons_append] using hshows

/-- A finite float is written with its sign and a numeral for the float without it. -/
theorem lexes_floatText {x : Float} (hx : isFinite x = true) :
  ∃ s, floatText x = (if isNegative x then "-" else "") ++ s
    ∧ Lexes s.toList [.numeral (.float (withSign false x))]
  := by
  have hisNaN : x.isNaN = false := by
    rw [← Bool.not_eq_true, isNaN_iff, Nat.not_lt]
    exact (of_decide_eq_true hx).le
  unfold floatText
  rw [hisNaN, hx]
  dsimp only
  by_cases hzero : magnitudeBits x = 0
  · rw [if_pos hzero]
    refine ⟨"0.0", rfl, ?_⟩
    have hfloat : withSign false x = nearest ((['0'] ++ ['0']).map digit) (0 - ['0'].length) := by
      rw [withSign, hzero]
      rfl
    have hdigit : ∀ c ∈ ['0'], c.isDigit = true := List.forall_mem_singleton.mpr rfl
    rw [hfloat]
    exact lexes_point (List.cons_ne_nil _ _) hdigit hdigit
  · rw [if_neg hzero]
    obtain ⟨ds, e, hlexes, hds, hvalue⟩ := shows_decimalText (shortest (parts x))
    refine ⟨String.ofList (decimalText (shortest (parts x))), rfl, ?_⟩
    rwa [String.toList_ofList, ← nearest_eq hx hzero hds hvalue]

end Grammar

end Springboard
