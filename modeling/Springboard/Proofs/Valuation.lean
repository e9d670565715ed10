import Springboard.Proofs.FloatBits
import Springboard.Proofs.Forms
import Springboard.Proofs.Phrasing

/-!
# Values of expressions

What an expression is worth once its names have values. An operator that is written as an expression
of binary operators computes the same from the values of its operands as the operator does, and a
number that is written as an expression is its value.
-/

namespace Springboard.Grammar

open Machine

/-- The floats that have a name but no numeral. -/
def namedFloats : List (String × Float) :=
  [("inf", Binary64.infinity), ("-inf", Binary64.withSign true Binary64.infinity),
   ("nan", Binary64.undefinedFloat)]

/-- A float that is not finite has its own name. -/
theorem lookup_floatText {x : Float} (hx : Binary64.isFinite x = false) :
  namedFloats.lookup (Number.floatText x) = some x
  := by
  have hlarge : Binary64.infinityBits ≤ Binary64.magnitudeBits x := by
    rw [Binary64.isFinite, decide_eq_false_iff_not, Nat.not_lt] at hx
    exact hx
  unfold Number.floatText
  cases hisNaN : x.isNaN with
  | true =>
    rw [Binary64.eq_undefinedFloat hisNaN]
    rfl
  | false =>
    have hbits : Binary64.magnitudeBits x = Binary64.infinityBits := by
      rw [← Bool.not_eq_true, Binary64.isNaN_iff, Nat.not_lt] at hisNaN
      exact Nat.le_antisymm hisNaN hlarge
    have hinfinity : Binary64.magnitudeBits Binary64.infinity = Binary64.infinityBits := by
      decide +kernel
    have hsign := Binary64.withSign_isNegative x
    rw [hx]
    cases hnegative : Binary64.isNegative x with
    | true =>
      rw [hnegative, Binary64.withSign, hbits, ← hinfinity] at hsign
      rw [← hsign]
      rfl
    | false =>
      rw [hnegative, Binary64.withSign, hbits] at hsign
      rw [← hsign]
      rfl

namespace Expression

/-- The float that a call of `float` makes of a name. -/
def namedFloat? : Expression → Option Float
  | call (name f) [text s] => if f = "float" then namedFloats.lookup s else none
  | _ => none

section Values

variable (names : String → Option Value) (other : Expression → Except Fault Value)

mutual

/-- The value of an expression, given those of names. What functions are and what calls return is
given too; but `float` makes floats of their names, unless it is the name of something else. -/
def value : Expression → Except Fault Value
  | number n => .ok (.number n)
  | name x =>
    match names x with
    | some v => .ok v
    | none => .error (.unbound x)
  | negate e => do
    let v ← value e
    Operand.negate v
  | deny e => do
    let v ← value e
    .ok (Operand.ofBool (!Operand.isTrue v))
  | binary op a b => do
    let v ← value a
    let w ← value b
    op.apply v w
  | comparison first ops others => do
    let v ← value first
    compared v ops others
  | choose test conseq alt => do
    let v ← value test
    if Operand.isTrue v then value conseq else value alt
  | call f args =>
    match names "float", (call f args).namedFloat? with
    | none, some x => .ok (.number (.float x))
    | _, _ => other (call f args)
  | text s => other (text s)
  | lambda params body => other (lambda params body)

/-- The value of a row of comparisons: the first that fails, or else the last. -/
def compared (v : Value) : List BinaryOp → List Expression → Except Fault Value
  | op :: ops, e :: others => do
    let w ← value e
    let holds ← op.apply v w
    if ops.isEmpty || !Operand.isTrue holds then .ok holds else compared w ops others
  | _, _ => .error .mismatch

end

variable {names other}

/-- An operator over two operands. -/
theorem value_ofBinary (op : BinaryOp) {a b : Expression} {w : Value}
    (hb : value names other b = .ok w) :
  value names other (ofBinary op a b) = value names other a >>= fun v => op.apply v w
  := by
  unfold ofBinary
  split
  · rw [value]
    congr 1
    funext v
    rw [compared, hb]
    cases h : op.apply v w with
    | error f => simp [h, Bind.bind, Except.bind]
    | ok r => simp [h, Bind.bind, Except.bind]
  · rw [value, hb]
    rfl

/-- A row of operands is folded from the left. -/
theorem value_foldl (op : BinaryOp) {rest : List Code} {vs : List Value}
    (h : List.Forall₂ (fun c v => value names other (ofCode c) = .ok v) rest vs) (first : Code) :
  value names other (ofCode (rest.foldl (.binary op) first))
    = value names other (ofCode first) >>= fun v => vs.foldlM op.apply v
  := by
  induction h generalizing first with
  | nil =>
    show value names other (ofCode first) = value names other (ofCode first) >>= pure
    rw [bind_pure]
  | cons hnext _ ih =>
    rw [List.foldl_cons, ih, ofCode, value_ofBinary op hnext, bind_assoc]
    congr 1

/-- An operator computes the value of its expression from those of its operands. -/
theorem value_ofOperation {op : Operator} {codes : List Code} {code : Code} {vs : List Value}
    (h : Code.ofOperation op codes = some code)
    (hvs : List.Forall₂ (fun c v => value names other (ofCode c) = .ok v) codes vs) :
  value names other (ofCode code) = op.evaluate vs
  := by
  have hexpressed := expressed_of_ofOperation h
  unfold Operator.evaluate
  generalize op.shape = shape at hexpressed
  cases hexpressed with
  | chain b first rest =>
    obtain - | ⟨hfirst, hrest⟩ := hvs
    rw [value_foldl b hrest, hfirst]
    rfl
  | negative x =>
    obtain - | ⟨hx, ⟨⟩⟩ := hvs
    rw [ofCode, value, hx]
    rfl
  | difference first next rest =>
    obtain - | ⟨hfirst, hrest⟩ := hvs
    rw [value_foldl .sub hrest, hfirst]
    cases hrest
    rfl
  | pair b x y =>
    obtain - | ⟨hx, - | ⟨hy, ⟨⟩⟩⟩ := hvs
    rw [ofCode, value_ofBinary b hy, hx]
    rfl
  | denial x =>
    obtain - | ⟨hx, ⟨⟩⟩ := hvs
    rw [ofCode, value, hx]
    rfl
  | against b n x =>
    obtain - | ⟨hx, ⟨⟩⟩ := hvs
    have hn : value names other (ofCode (.constant (.int n))) = .ok (.number (.int n)) := rfl
    rw [ofCode, value_ofBinary b hn, hx]
    rfl

/-- A number is the value of the expression that it is written as. -/
theorem value_ofNumber (hfloat : names "float" = none) (n : Number) :
  value names other (ofNumber n) = .ok (.number n)
  := by
  cases n with
  | bool b => rfl
  | int n =>
    rw [ofNumber]
    split
    · rename_i hnegative
      have habs : -(n.natAbs : Int) = n := by omega
      show Except.ok (Value.number (.int (-(n.natAbs : Int)))) = _
      rw [habs]
    · rfl
  | float x =>
    have hsign := Binary64.withSign_isNegative x
    rw [ofNumber]
    cases hx : Binary64.isFinite x with
    | true =>
      have hsize : Binary64.magnitudeBits x ≤ Binary64.infinityBits := (of_decide_eq_true hx).le
      cases hnegative : Binary64.isNegative x with
      | true =>
        rw [hnegative] at hsign
        show Except.ok (Value.number (.float (-(Binary64.withSign false x)))) = _
        rw [Binary64.neg_withSign hsize, hsign]
      | false => rfl
    | false =>
      show value names other (call (name "float") [text (Number.floatText x)]) = _
      rw [value, hfloat, namedFloat?, if_pos rfl, lookup_floatText hx]

end Values

end Expression

end Springboard.Grammar
