import Springboard.Proofs.Emission
import Springboard.Proofs.Valuation

/-!
# Emitted expressions are read back

Main statement: the text of a tree that is an expression is read in just one way, as the expression
that mirrors the tree. Brackets are written around everything but names, literals and calls, and a
literal has none of its own: it may start with a minus sign, so it hangs together as loosely as a
signed number, which is tight enough for an operand. Only where a literal is called does it get
brackets. So the text of an operation is worth what the operator computes from its operands.
-/

namespace Springboard

/-- The trees that are written as expressions. -/
inductive Tree.IsExpression : Tree → Prop
  | literal (n : Number) : IsExpression (.literal n)
  | var (x : String) : IsExpression (.var x)
  | operation {op : Operator} {operands : List Tree} (hcount : op.accepts operands.length)
    (h : ∀ t ∈ operands, IsExpression t) : IsExpression (.operation op operands)
  | choice {test conseq alt : Tree} (htest : IsExpression test) (hconseq : IsExpression conseq)
    (halt : IsExpression alt) : IsExpression (.conditional .converted test conseq alt)
  | abstraction (params : List String) {body : Tree} (h : IsExpression body) :
    IsExpression (.abstraction params body)
  | application {rator : Tree} {rands : List Tree} (hrator : IsExpression rator)
    (hrands : ∀ t ∈ rands, IsExpression t) : IsExpression (.application rator rands)

namespace Grammar

open Machine

/-! ### Texts of operations -/

/-- A row of operands is written from the left. -/
theorem ofCode_foldl {op : BinaryOp} (hop : op.level ≠ .comparison) (first : Code)
    (rest : List Code) :
  Expression.ofCode (rest.foldl (.binary op) first)
    = (rest.map Expression.ofCode).foldl (.binary op) (.ofCode first)
  := by
  induction rest generalizing first with
  | nil => rfl
  | cons next rest ih =>
    rw [List.foldl_cons, ih, List.map_cons, List.foldl_cons, Expression.ofCode,
      Expression.ofBinary, if_neg hop]

/-- A row of operands in brackets. -/
theorem isText_joined {op : BinaryOp} (hop : op.level ≠ .comparison) {s : String} {first : Code}
    {sources : List String} {rest : List Code} (h : IsText .factor s (.ofCode first))
    (hrest : List.Forall₂ (fun s c => IsText .factor s (.ofCode c)) sources rest) :
  IsText .atom (Operator.joined op (s :: sources)) (.ofCode (rest.foldl (.binary op) first))
  := by
  have hlevel : Level.factor.rank ≤ op.level.rank ∧ Level.factor.rank ≤ op.operandLevel.rank := by
    cases op <;> decide
  rw [ofCode_foldl hop]
  apply IsText.chain hop (h.up hlevel.1)
  rw [List.forall₂_map_right_iff]
  exact hrest.imp fun s c hc => hc.up hlevel.2

/-- An operator is written as its expression. -/
theorem isText_render {op : Operator} {sources : List String} {codes : List Code}
    (hcount : op.accepts sources.length)
    (h : List.Forall₂ (fun s c => IsText .factor s (.ofCode c)) sources codes) :
  ∃ s c, op.render sources = .ok s ∧ Code.ofOperation op codes = some c
    ∧ IsText .atom s (.ofCode c)
  := by
  have hchain : ∀ b, op.shape = .chain b → b.level ≠ .comparison := by
    intro b hb
    cases op <;> cases hb <;> decide
  have hagainst : ∀ b n, op.shape = .against b n → n ≤ 1 := by
    intro b n hn
    cases op <;> cases hn <;> decide
  have hlength := h.length_eq
  rw [hlength] at hcount
  obtain ⟨c, hc⟩ := exists_ofOperation hcount
  have hexpressed := expressed_of_ofOperation hc
  suffices hrender : ∃ s, op.render sources = .ok s ∧ IsText .atom s (.ofCode c) by
    obtain ⟨s, hs, htext⟩ := hrender
    exact ⟨s, c, hs, hc, htext⟩
  unfold Operator.render
  generalize op.shape = shape at hchain hagainst hexpressed
  cases hexpressed with
  | chain b first rest =>
    obtain - | ⟨hfirst, hrest⟩ := h
    exact ⟨_, rfl, isText_joined (hchain b rfl) hfirst hrest⟩
  | negative x =>
    obtain - | @⟨s, _, _, _, hx, ⟨⟩⟩ := h
    have hgroup := hx.negate.group
    rw [← String.append_assoc] at hgroup
    exact ⟨"(-" ++ s ++ ")", rfl, hgroup⟩
  | difference first next rest =>
    obtain - | ⟨hfirst, - | ⟨hnext, hrest⟩⟩ := h
    exact ⟨_, rfl, isText_joined (by decide) hfirst (.cons hnext hrest)⟩
  | pair b x y =>
    obtain - | ⟨hx, - | ⟨hy, ⟨⟩⟩⟩ := h
    exact ⟨_, rfl, hx.pair hy⟩
  | denial x =>
    obtain - | @⟨s, _, _, _, hx, ⟨⟩⟩ := h
    have hgroup := (hx.up (by decide)).deny.group
    rw [← String.append_assoc] at hgroup
    exact ⟨"(not " ++ s ++ ")", rfl, hgroup⟩
  | against b n x =>
    obtain - | ⟨hx, ⟨⟩⟩ := h
    have hlimit : 1 < tenTo Number.digitLimit := by
      have htenTo : ∀ m, tenTo m = 10 ^ m := fun m => rfl
      rw [htenTo]
      exact Nat.one_lt_pow (by decide) (by decide)
    have hnumeral := lexes_natText (Nat.lt_of_le_of_lt (hagainst b n rfl) hlimit)
    exact ⟨_, rfl, hx.pair (.numeral hnumeral)⟩

/-! ### Texts of trees -/

/-- A tree is written as the expression of its code. Only a literal may have to stand in brackets
before it can be called. -/
def IsWritten (table : HelperTable) (t : Tree) : Prop :=
  ∃ s c, t.emitPiece table = .ok (.text s, table) ∧ Code.ofTree? t = some c
    ∧ IsText .factor s (.ofCode c) ∧ (t.isLiteral = false → IsText .primary s (.ofCode c))

variable {table : HelperTable}

/-- Trees are written one after the other. -/
theorem exists_emitPieces {ts : List Tree} (h : ∀ t ∈ ts, IsWritten table t) :
  ∃ sources codes, Tree.emitPieces ts table = .ok (sources.map Piece.text, table)
    ∧ Code.ofTrees? ts = some codes ∧ sources.length = ts.length
    ∧ List.Forall₂ (fun s c => IsText .factor s (.ofCode c)) sources codes
  := by
  induction ts with
  | nil => exact ⟨[], [], rfl, rfl, rfl, .nil⟩
  | cons t ts ih =>
    obtain ⟨⟨s, c, hs, hc, htext, -⟩, hts⟩ := List.forall_mem_cons.mp h
    obtain ⟨sources, codes, hsources, hcodes, hlength, htexts⟩ := ih hts
    refine ⟨s :: sources, c :: codes, ?_, ?_, congrArg (· + 1) hlength, .cons htext htexts⟩
    · simp only [Tree.emitPieces, Bind.bind, StateT.bind, hs, hsources, Except.bind]
      rfl
    · rw [Code.ofTrees?, hc, hcodes]
      rfl

/-- Texts are the expressions of their pieces. -/
theorem mapM_expression (sources : List String) :
  (sources.map Piece.text).mapM Piece.expression = .ok sources
    ∧ (sources.map Piece.text).map Piece.inline = sources
  := by
  have hinline : (sources.map Piece.text).map Piece.inline = sources := by
    rw [List.map_map]
    exact List.map_id sources
  have htexts : ∀ piece ∈ sources.map Piece.text, piece.IsText := by
    intro piece hpiece
    obtain ⟨s, -, rfl⟩ := List.mem_map.mp hpiece
    exact ⟨s, rfl⟩
  obtain ⟨shown, hexpressions, hshown, -⟩ := exists_expressions htexts
  rw [← hshown, hinline] at hexpressions
  exact ⟨hexpressions, hinline⟩

/-- An expression with short integers is written. -/
theorem isWritten_of_isExpression {t : Tree} (ht : t.IsExpression) (hshort : t.HasShortIntegers) :
  IsWritten table t
  := by
  induction ht with
  | literal n =>
    have hwrites : (Tree.literal n).Writes table Piece.IsText := Tree.writes_literal n
    obtain ⟨-, -, ⟨s, rfl⟩, hs⟩ | ⟨hlong, -⟩ := hwrites
    · have hliteral : literalText n = .ok s := by
        rw [Tree.emitPiece] at hs
        cases hshown : literalText n with
        | error _ =>
          rw [hshown] at hs
          contradiction
        | ok shown =>
          rw [hshown] at hs
          cases hs
          rfl
      refine ⟨s, _, hs, rfl, IsText.literal hliteral, fun h => ?_⟩
      contradiction
    · exact absurd hshort hlong
  | var x =>
    have hname := IsText.name x
    exact ⟨mangle x, _, rfl, rfl, hname.up (by decide), fun _ => hname.up (by decide)⟩
  | @operation op operands hcount _ ih =>
    rw [Tree.hasShortIntegers_iff (by simp)] at hshort
    obtain ⟨sources, codes, hsources, hcodes, hlength, htexts⟩ :=
      exists_emitPieces fun t ht => ih t ht (hshort t ht)
    obtain ⟨s, c, hs, hc, htext⟩ := isText_render (by rwa [hlength]) htexts
    refine ⟨s, c, ?_, ?_, htext.up (by decide), fun _ => htext.up (by decide)⟩
    · obtain ⟨hexpressions, hinline⟩ := mapM_expression sources
      have hshown : Error.ofFault (op.render sources) = .ok s := by
        rw [hs]
        rfl
      have hbind : ∀ next : List Piece → Emit Piece,
          (Tree.emitPieces operands >>= next) table = next (sources.map .text) table := by
        intro next
        simp only [Bind.bind, StateT.bind, hsources, Except.bind]
      have hpure : (liftM (Except.ok sources : Except Error (List String)) : Emit _)
          = pure sources := rfl
      rw [Tree.emitPiece, hbind, hexpressions, hinline, hpure, ite_self, pure_bind]
      dsimp only
      rw [hshown]
      rfl
    · rw [Code.ofTree?, hcodes]
      exact hc
  | @choice test conseq alt _ _ _ ihtest ihconseq ihalt =>
    rw [Tree.hasShortIntegers_iff (by simp)] at hshort
    obtain ⟨test', t, htest, ht, htext, -⟩ := ihtest (hshort _ (by simp [Tree.children]))
    obtain ⟨conseq', c, hconseq, hc, hctext, -⟩ := ihconseq (hshort _ (by simp [Tree.children]))
    obtain ⟨alt', a, halt, ha, hatext, -⟩ := ihalt (hshort _ (by simp [Tree.children]))
    have hchoice := (htext.up (by decide)).choose (hctext.up (by decide)) (hatext.up (by decide))
    refine ⟨_, .choose t c a, ?_, ?_, hchoice.up (by decide), fun _ => hchoice.up (by decide)⟩
    · simp only [Tree.emitPiece, Bind.bind, StateT.bind, htest, hconseq, halt, Except.bind]
      rfl
    · rw [Code.ofTree?, ht, hc, ha]
      rfl
  | @abstraction params body _ ih =>
    rw [Tree.hasShortIntegers_iff (by simp)] at hshort
    obtain ⟨s, c, hs, hc, htext, -⟩ := ih (hshort _ (by simp [Tree.children]))
    have hlambda := IsText.lambda params (htext.up (by decide))
    refine ⟨_, .lambda (params.map mangle) c, ?_, ?_, hlambda.up (by decide),
      fun _ => hlambda.up (by decide)⟩
    · simp only [Tree.emitPiece, Bind.bind, StateT.bind, hs, Except.bind]
      rfl
    · rw [Code.ofTree?, hc]
      rfl
  | @application rator rands _ _ ihrator ihrands =>
    rw [Tree.hasShortIntegers_iff (by simp)] at hshort
    obtain ⟨s, f, hs, hf, hliteral, hother⟩ := ihrator (hshort _ (by simp [Tree.children]))
    obtain ⟨sources, codes, hsources, hcodes, -, htexts⟩ :=
      exists_emitPieces fun t ht => ihrands t ht (hshort t (by simp [Tree.children, ht]))
    have hrator : IsText .primary (rator.ratorText (.text s)) (.ofCode f) := by
      unfold Tree.ratorText
      cases hrator : rator.isLiteral with
      | false => exact hother hrator
      | true => exact hliteral.group.up (by decide)
    have hrands : List.Forall₂ (IsText .expression) sources (codes.map Expression.ofCode) := by
      rw [List.forall₂_map_right_iff]
      exact htexts.imp fun s c hc => hc.up (by decide)
    have hcall := hrator.call hrands
    rw [← Expression.ofCodes_eq_map] at hcall
    refine ⟨_, .call f codes, ?_, ?_, hcall.up (by decide), fun _ => hcall⟩
    · simp only [Tree.emitPiece, Bind.bind, StateT.bind, hs, hsources, Except.bind,
        (mapM_expression sources).1]
      rfl
    · rw [Code.ofTree?, hf, hcodes]
      rfl

/-- The text of a tree that is written. -/
theorem emit_eq {table : HelperTable} {t : Tree} {s : String}
    (h : t.emitPiece table = .ok (.text s, table)) :
  t.emit table = .ok s
  := by
  simp only [Tree.emit, StateT.run', h]
  rfl

/-! ### Values -/

section Values

variable {table : HelperTable} {names : String → Option Value}
variable {other : Expression → Except Fault Value}

/-- The text of a tree is read as an expression of the given value. -/
def HasValue (table : HelperTable) (names : String → Option Value)
    (other : Expression → Except Fault Value) (t : Tree) (v : Value) : Prop :=
  ∃ text e, t.emit table = .ok text ∧ Reads text e ∧ e.value names other = .ok v

/-- The values of trees are those of their codes. -/
theorem forall₂_value {ts : List Tree} {vs : List Value} {codes : List Code}
    (hts : ∀ t ∈ ts, IsWritten table t) (hcodes : Code.ofTrees? ts = some codes)
    (hvs : List.Forall₂ (HasValue table names other) ts vs) :
  List.Forall₂ (fun c v => (Expression.ofCode c).value names other = .ok v) codes vs
  := by
  induction hvs generalizing codes with
  | nil =>
    cases hcodes
    exact .nil
  | @cons t v ts vs hv _ ih =>
    obtain ⟨⟨s, c, hs, hc, htext, -⟩, hts⟩ := List.forall_mem_cons.mp hts
    obtain ⟨text, e, hemit, hreads, hvalue⟩ := hv
    cases hemit.symm.trans (emit_eq hs)
    rw [htext.reads_iff] at hreads
    rw [Code.ofTrees?, hc] at hcodes
    cases hrest : Code.ofTrees? ts with
    | none =>
      rw [hrest] at hcodes
      contradiction
    | some rest =>
      rw [hrest] at hcodes
      cases hcodes
      rw [hreads] at hvalue
      exact .cons hvalue (ih hts hrest)

/-- An expression over literals of numbers with numerals that are not too long, names, operations
with as many operands as their operators accept, converted choices, functions and calls is written
as a text that is read in just one way, as the expression of its code. There an operation is the
binary operator that its operator folds with, associated to the left, a negative literal is minus
its magnitude, a float that is not finite is the call of `float` on its name, and names are their
identifiers. Hence a literal that is written and read has its own value, and an operation the value
that its operator computes from those of its operands. -/
theorem reads_emit_iff {t : Tree} (ht : t.IsExpression) (hshort : t.HasShortIntegers)
    (table : HelperTable) :
  ∃ text code, t.emit table = .ok text ∧ Code.ofTree? t = some code
    ∧ (∀ e, Reads text e ↔ e = .ofCode code)
    ∧ ∀ (names : String → Option Value) (other : Expression → Except Fault Value),
      (∀ n, t = .literal n → names "float" = none →
        (Expression.ofCode code).value names other = .ok (.number n))
      ∧ ∀ op operands vs, t = .operation op operands →
        List.Forall₂ (HasValue table names other) operands vs →
        (Expression.ofCode code).value names other = op.evaluate vs
  := by
  have hwritten : IsWritten table t := isWritten_of_isExpression ht hshort
  obtain ⟨text, code, htext, hcode, hreads, -⟩ := hwritten
  refine ⟨text, code, emit_eq htext, hcode, fun e => hreads.reads_iff, fun names other => ⟨?_, ?_⟩⟩
  · rintro n rfl hfloat
    cases hcode
    exact Expression.value_ofNumber hfloat n
  · rintro op operands vs rfl hvs
    obtain - | - | ⟨hcount, hoperands⟩ := ht
    rw [Tree.hasShortIntegers_iff (by simp)] at hshort
    have hwritten : ∀ u ∈ operands, IsWritten table u := fun u hu =>
      isWritten_of_isExpression (hoperands u hu) (hshort u hu)
    rw [Code.ofTree?] at hcode
    cases hcodes : Code.ofTrees? operands with
    | none =>
      rw [hcodes] at hcode
      contradiction
    | some codes =>
      rw [hcodes] at hcode
      exact Expression.value_ofOperation hcode (forall₂_value hwritten hcodes hvs)

end Values

/-- The difference of a negative number, the negative of one and the result of a call. -/
def difference : Tree :=
  .operation .minus
    [.literal (.int (-7)), .operation .minus [.literal (.int (-2))],
     .application (.literal (.int (-3))) [.var "k?", .literal (.float Binary64.infinity)]]

/-- Two minus signs in a row are read apart, and a negative number that is called stands in
brackets. The difference is computed from the left. -/
theorem reads_emit_iff_difference :
  difference.IsExpression ∧ difference.HasShortIntegers
    ∧ difference.emit .plain = .ok "(-7 - (--2) - (-3)(k_p, float('inf')))"
    ∧ ∃ called : Expression,
      called = .call (.negate (.number (.int 3))) [.name "k_p", .call (.name "float") [.text "inf"]]
      ∧ (∀ e, Reads "(-7 - (--2) - (-3)(k_p, float('inf')))" e
        ↔ e = .binary .sub (.binary .sub (.negate (.number (.int 7)))
          (.negate (.negate (.number (.int 2))))) called)
      ∧ ∀ names other v, names "float" = none → other called = .ok v →
        HasValue .plain names other (.operation .minus [.literal (.int (-2))]) (.number (.int 2))
        ∧ (Expression.binary .sub (.binary .sub (.negate (.number (.int 7)))
          (.negate (.negate (.number (.int 2))))) called).value names other
            = Operator.minus.evaluate [.number (.int (-7)), .number (.int 2), v]
  := by
  have hcall : (Tree.application (.literal (.int (-3)))
      [.var "k?", .literal (.float Binary64.infinity)]).IsExpression :=
    .application (.literal _) (List.forall_mem_cons.mpr
      ⟨.var _, List.forall_mem_singleton.mpr (.literal _)⟩)
  have hnegative : (Tree.operation .minus [.literal (.int (-2))]).IsExpression :=
    .operation (by decide) (List.forall_mem_singleton.mpr (.literal _))
  have hexpression : difference.IsExpression :=
    .operation (by decide) (List.forall_mem_cons.mpr ⟨.literal _, List.forall_mem_cons.mpr
      ⟨hnegative, List.forall_mem_singleton.mpr hcall⟩⟩)
  have hint : ∀ n : Int, n.natAbs < 10 → (Tree.literal (.int n)).HasShortIntegers := by
    intro n hn
    rw [Tree.hasShortIntegers_int, IsShort, Nat.digits_length_le_iff (by decide)]
    exact Nat.lt_of_lt_of_le hn (Nat.le_self_pow (by decide) 10)
  have hleaf : ∀ t : Tree, (∀ n, t ≠ .literal (.int n)) → t.children = [] →
      t.HasShortIntegers := by
    intro t ht hchildren
    rw [Tree.hasShortIntegers_iff ht, hchildren]
    exact List.forall_mem_nil _
  have hshortCall : (Tree.application (.literal (.int (-3)))
      [.var "k?", .literal (.float Binary64.infinity)]).HasShortIntegers := by
    rw [Tree.hasShortIntegers_iff (by simp)]
    exact List.forall_mem_cons.mpr ⟨hint _ (by decide), List.forall_mem_cons.mpr
      ⟨hleaf _ (by simp) rfl, List.forall_mem_singleton.mpr (hleaf _ (by simp) rfl)⟩⟩
  have hshortNegative : (Tree.operation .minus [.literal (.int (-2))]).HasShortIntegers := by
    rw [Tree.hasShortIntegers_iff (by simp)]
    exact List.forall_mem_singleton.mpr (hint _ (by decide))
  have hshort : difference.HasShortIntegers := by
    rw [difference, Tree.hasShortIntegers_iff (by simp)]
    exact List.forall_mem_cons.mpr ⟨hint _ (by decide), List.forall_mem_cons.mpr
      ⟨hshortNegative, List.forall_mem_singleton.mpr hshortCall⟩⟩
  obtain ⟨text, code, hemit, hcode, hreads, hvalues⟩ := reads_emit_iff hexpression hshort .plain
  have htext : (difference.emit .plain).toOption
      = some "(-7 - (--2) - (-3)(k_p, float('inf')))" := by
    decide +kernel
  rw [hemit] at htext
  cases htext
  cases hcode
  refine ⟨hexpression, hshort, hemit, _, rfl, hreads, fun names other v hfloat hother => ?_⟩
  have hliteral : ∀ n : Int, n.natAbs < 10 →
      HasValue .plain names other (.literal (.int n)) (.number (.int n)) := by
    intro n hn
    obtain ⟨text, code, hemit, -, hreads, hvalue⟩ := reads_emit_iff (.literal _) (hint n hn) .plain
    exact ⟨text, _, hemit, (hreads _).mpr rfl, (hvalue names other).1 _ rfl hfloat⟩
  have htwo : HasValue .plain names other (.operation .minus [.literal (.int (-2))])
      (.number (.int 2)) := by
    obtain ⟨text, code, hemit, -, hreads, hvalue⟩ := reads_emit_iff hnegative hshortNegative .plain
    exact ⟨text, _, hemit, (hreads _).mpr rfl,
      (hvalue names other).2 _ _ _ rfl (.cons (hliteral _ (by decide)) .nil)⟩
  have hcalled : HasValue .plain names other (.application (.literal (.int (-3)))
      [.var "k?", .literal (.float Binary64.infinity)]) v := by
    obtain ⟨text, code, hemit, hcode, hreads, -⟩ := reads_emit_iff hcall hshortCall .plain
    cases hcode
    refine ⟨text, _, hemit, (hreads _).mpr rfl, ?_⟩
    rw [Expression.ofCode, Expression.value, hfloat]
    exact hother
  exact ⟨htwo, (hvalues names other).2 _ _ _ rfl
    (.cons (hliteral _ (by decide)) (.cons htwo (.cons hcalled .nil)))⟩

end Grammar

end Springboard
