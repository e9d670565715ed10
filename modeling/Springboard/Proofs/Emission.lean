import Mathlib.Data.Nat.Digits.Lemmas
import Springboard.Proofs.Shape

/-!
# Writing compiled programs

A compiled program can be written out as the text of a module, except for integers with more digits
than a numeral may have. Each step of emission has a value if the integers it meets are short, and
otherwise fails with the fault that there are too many digits.
-/

namespace Springboard

open NameSource

/-! ### Integers that can be written -/

/-- An integer with no more decimal digits than a numeral may have. -/
def IsShort (n : Int) : Prop :=
  (Nat.digits 10 n.natAbs).length ≤ Number.digitLimit

/-- The integers that stand in a tree are short. -/
def Tree.HasShortIntegers (t : Tree) : Prop :=
  ∀ n, t.Contains (.literal (.int n)) → IsShort n

/-- An integer can be written just when it is short. -/
theorem intText_cases (n : Int) :
  (IsShort n ∧ ∃ s, Number.intText n = .ok s)
    ∨ (¬ IsShort n ∧ Number.intText n = .error .tooManyDigits)
  := by
  have htenTo : ∀ m, tenTo m = 10 ^ m := fun m => rfl
  have hshort : IsShort n ↔ ¬ tenTo Number.digitLimit ≤ n.natAbs := by
    rw [IsShort, Nat.digits_length_le_iff (by decide), Nat.not_le, htenTo]
  rw [hshort, Number.intText]
  by_cases h : tenTo Number.digitLimit ≤ n.natAbs
  · rw [if_pos h]
    exact .inr ⟨not_not_intro h, rfl⟩
  · rw [if_neg h]
    exact .inl ⟨h, _, rfl⟩

/-- What stands in a tree is the tree itself, or stands in a child. -/
theorem Tree.contains_iff {t u : Tree} :
  t.Contains u ↔ t = u ∨ ∃ c ∈ t.children, c.Contains u
  := by
  exact Relation.ReflTransGen.cases_head_iff

/-- The integers in a tree other than an integer are those in its children. -/
theorem Tree.hasShortIntegers_iff {t : Tree} (h : ∀ n, t ≠ .literal (.int n)) :
  t.HasShortIntegers ↔ ∀ c ∈ t.children, c.HasShortIntegers
  := by
  constructor
  · intro ht c hc n hn
    exact ht n (contains_iff.mpr (.inr ⟨c, hc, hn⟩))
  · intro ht n hn
    obtain heq | ⟨c, hc, hn⟩ := contains_iff.mp hn
    · exact absurd heq (h n)
    · exact ht c hc n hn

/-- An integer is short if it is as a tree. -/
theorem Tree.hasShortIntegers_int {n : Int} :
  (literal (.int n)).HasShortIntegers ↔ IsShort n
  := by
  constructor
  · intro h
    exact h n .refl
  · intro h m hm
    obtain heq | ⟨c, hc, -⟩ := contains_iff.mp hm
    · cases heq
      exact h
    · contradiction

/-! ### Steps of emission -/

/-- With the given names for the helpers, a step has a good value and leaves the names alone if
`short` holds, and fails because of too many digits otherwise. -/
def Settles {α : Type} (table : HelperTable) (short : Prop) (good : α → Prop) (step : Emit α) : Prop :=
  (short ∧ ∃ a, good a ∧ step table = .ok (a, table))
    ∨ (¬ short ∧ step table = .error (.fault .tooManyDigits))

namespace Settles

variable {α β : Type} {table : HelperTable} {short short' : Prop} {good : α → Prop} {good' : β → Prop}

/-- A pure step has its value. -/
theorem pure {a : α} (h : good a) : Settles table True good (pure a) := by
  exact .inl ⟨trivial, a, h, rfl⟩

/-- A step that succeeds has its value. -/
theorem of_ok {step : Emit α} {a : α} (h : good a) (hstep : step table = .ok (a, table)) :
  Settles table True good step
  := by
  exact .inl ⟨trivial, a, h, hstep⟩

/-- Steps in a sequence need what each of them needs. -/
theorem bind
    {step : Emit α} {next : α → Emit β} (h : Settles table short good step)
    (hnext : ∀ a, good a → Settles table short' good' (next a)) :
  Settles table (short ∧ short') good' (step >>= next)
  := by
  obtain ⟨hshort, a, ha, hstep⟩ | ⟨hshort, hstep⟩ := h
  · have hbind : (step >>= next) table = next a table := by
      simp only [Bind.bind, StateT.bind, hstep, Except.bind]
    obtain ⟨hshort', b, hb, hvalue⟩ | ⟨hshort', hfails⟩ := hnext a ha
    · exact .inl ⟨⟨hshort, hshort'⟩, b, hb, hbind.trans hvalue⟩
    · exact .inr ⟨fun hboth => hshort' hboth.2, hbind.trans hfails⟩
  · have hbind : (step >>= next) table = .error (.fault .tooManyDigits) := by
      simp only [Bind.bind, StateT.bind, hstep, Except.bind]
    exact .inr ⟨fun hboth => hshort hboth.1, hbind⟩

/-- In front of a step that always succeeds nothing more is needed. -/
theorem before
    {step : Emit α} {next : α → Emit β} (h : Settles table short good step)
    (hnext : ∀ a, good a → Settles table True good' (next a)) :
  Settles table short good' (step >>= next)
  := by
  have hboth := h.bind hnext
  rw [and_true] at hboth
  exact hboth

/-- What a step needs can be said in other words. -/
theorem of_iff {step : Emit α} (h : Settles table short good step) (hiff : short' ↔ short) :
  Settles table short' good step
  := by
  rw [Settles, hiff]
  exact h

end Settles

/-! ### Pieces -/

/-- Pieces of text, rather than lines. -/
def Piece.IsText (piece : Piece) : Prop :=
  ∃ s, piece = .text s

/-- Pieces of text are expressions. -/
theorem exists_expressions {pieces : List Piece} (h : ∀ piece ∈ pieces, piece.IsText) :
  ∃ sources, pieces.mapM Piece.expression = .ok sources ∧ pieces.map Piece.inline = sources
    ∧ sources.length = pieces.length
  := by
  induction pieces with
  | nil => exact ⟨[], rfl, rfl, rfl⟩
  | cons piece pieces ih =>
    obtain ⟨⟨s, rfl⟩, hpieces⟩ := List.forall_mem_cons.mp h
    obtain ⟨sources, hexpressions, hinline, hlength⟩ := ih hpieces
    refine ⟨s :: sources, ?_, ?_, congrArg (· + 1) hlength⟩
    · rw [List.mapM_cons, hexpressions]
      rfl
    · rw [List.map_cons, hinline]
      rfl

/-- An operator is written around as many operands as it accepts. -/
theorem exists_render {op : Operator} {sources : List String} (h : op.accepts sources.length) :
  ∃ s, op.render sources = .ok s
  := by
  unfold Operator.accepts Operator.least Operator.most? at h
  unfold Operator.render
  generalize op.shape = shape at h
  cases shape with
  | chain b => exact ⟨_, rfl⟩
  | pair b => exact ⟨_, rfl⟩
  | difference =>
    match sources with
    | [] => simp at h
    | [x] => exact ⟨_, rfl⟩
    | x :: y :: rest => exact ⟨_, rfl⟩
  | denial =>
    match sources with
    | [] => simp at h
    | [x] => exact ⟨_, rfl⟩
    | x :: y :: rest =>
      simp at h
      omega
  | against b n =>
    match sources with
    | [] => simp at h
    | [x] => exact ⟨_, rfl⟩
    | x :: y :: rest =>
      simp at h
      omega

namespace Tree

/-- The tree is written if its integers are short. -/
def Writes (table : HelperTable) (good : Piece → Prop) (t : Tree) : Prop :=
  Settles table t.HasShortIntegers good (emitPiece t)

variable {table : HelperTable}

/-- Trees are written one after the other. -/
theorem settles_emitPieces {good : Piece → Prop} {ts : List Tree}
    (h : ∀ t ∈ ts, t.Writes table good) :
  Settles table (∀ t ∈ ts, t.HasShortIntegers)
    (fun pieces => pieces.length = ts.length ∧ ∀ piece ∈ pieces, good piece) (emitPieces ts)
  := by
  induction ts with
  | nil =>
    rw [emitPieces]
    exact .of_iff (.pure ⟨rfl, List.forall_mem_nil _⟩) (iff_true_intro (List.forall_mem_nil _))
  | cons t ts ih =>
    obtain ⟨ht, hts⟩ := List.forall_mem_cons.mp h
    rw [emitPieces]
    refine .of_iff (.bind ht fun first hfirst => .before (ih hts) fun rest hrest => .pure ?_)
      List.forall_mem_cons
    exact ⟨congrArg (· + 1) hrest.1, List.forall_mem_cons.mpr ⟨hfirst, hrest.2⟩⟩

/-- A literal is written if it is short. -/
theorem writes_literal (value : Number) : (literal value).Writes table Piece.IsText := by
  rw [Writes, emitPiece]
  cases value with
  | bool b =>
    refine .of_iff (.of_ok ⟨if b then "True" else "False", rfl⟩ ?_) (iff_true_intro ?_)
    · cases b <;> rfl
    · rw [hasShortIntegers_iff (by simp)]
      exact List.forall_mem_nil _
  | float x =>
    refine .of_iff (.of_ok ⟨_, rfl⟩ rfl) (iff_true_intro ?_)
    rw [hasShortIntegers_iff (by simp)]
    exact List.forall_mem_nil _
  | int n =>
    obtain ⟨hshort, s, hs⟩ | ⟨hshort, hfails⟩ := intText_cases n
    · refine .inl ⟨hasShortIntegers_int.mpr hshort, .text s, ⟨s, rfl⟩, ?_⟩
      have hliteral : literalText (.int n) = .ok s := by
        rw [literalText, Number.text, hs]
        rfl
      rw [hliteral]
      rfl
    · refine .inr ⟨fun h => hshort (hasShortIntegers_int.mp h), ?_⟩
      have hliteral : literalText (.int n) = .error (.fault .tooManyDigits) := by
        rw [literalText, Number.text, hfails]
        rfl
      rw [hliteral]
      rfl

/-- A function is written if its body is. -/
theorem writes_abstraction (params : List String) {body : Tree} {good : Piece → Prop}
    (h : body.Writes table good) :
  (abstraction params body).Writes table Piece.IsText
  := by
  rw [Writes, emitPiece]
  refine .of_iff (.before h fun piece _ => .pure ⟨_, rfl⟩) ?_
  rw [hasShortIntegers_iff (by simp)]
  exact List.forall_mem_singleton

/-- A choice is written if its parts are. -/
theorem writes_conditional {test conseq alt : Tree} {good : Piece → Prop}
    (htest : test.Writes table good) (hconseq : conseq.Writes table good)
    (halt : alt.Writes table good) :
  (conditional .converted test conseq alt).Writes table Piece.IsText
  := by
  rw [Writes, emitPiece]
  refine .of_iff (.bind htest fun _ _ => .bind hconseq fun _ _ => .before halt fun _ _ =>
    .pure ⟨_, rfl⟩) ?_
  rw [hasShortIntegers_iff (by simp)]
  simp [children]

/-- Compiled code is written as a piece of text. -/
theorem writes_of_compiled {place : Place} {t : Tree} (h : Compiled place t) :
  t.Writes table Piece.IsText
  := by
  induction h with
  | literal value => exact writes_literal value
  | var x =>
    rw [Writes, emitPiece]
    refine .of_iff (.pure ⟨_, rfl⟩) (iff_true_intro ?_)
    rw [hasShortIntegers_iff (by simp)]
    exact List.forall_mem_nil _
  | @operation op operands hcount _ ih =>
    rw [Writes, emitPiece]
    refine .of_iff (.before (settles_emitPieces ih) fun pieces hpieces => ?_) ?_
    · obtain ⟨sources, hexpressions, hinline, hlength⟩ := exists_expressions hpieces.2
      obtain ⟨s, hs⟩ := @exists_render op sources (by rwa [hlength, hpieces.1])
      have hshown : Error.ofFault (op.render sources) = .ok s := by
        rw [hs]
        rfl
      apply Settles.of_ok ⟨s, rfl⟩
      rw [hinline, hexpressions]
      split
      · rw [pure_bind]
        dsimp only
        rw [hshown]
        rfl
      · have hsources : (liftM (Except.ok sources : Except Error (List String)) : Emit _)
            = pure sources := rfl
        rw [hsources, pure_bind]
        dsimp only
        rw [hshown]
        rfl
    · rw [hasShortIntegers_iff (by simp)]
      rfl
  | choice _ _ _ ihtest ihconseq ihalt => exact writes_conditional ihtest ihconseq ihalt
  | function _ _ ih => exact writes_abstraction _ (writes_abstraction [] ih)
  | @call rator rands _ _ ihrator ihrands =>
    rw [Writes, emitPiece]
    refine .of_iff (.bind ihrator fun function _ => .before (settles_emitPieces ihrands)
      fun pieces hpieces => ?_) ?_
    · obtain ⟨sources, hexpressions, -, -⟩ := exists_expressions hpieces.2
      apply Settles.of_ok ⟨_, rfl⟩
      rw [hexpressions]
      rfl
    · rw [hasShortIntegers_iff (by simp)]
      exact List.forall_mem_cons
  | branch _ _ _ ihtest ihconseq ihalt => exact writes_conditional ihtest ihconseq ihalt

/-! ### Programs -/

/-- An entry is written as lines, where its helpers have names. -/
theorem writes_of_isEntryOf {d : Definition} {t : Tree} (h : IsEntryOf d t) (n : Int) :
  t.Writes (helpersAt n) fun _ => True
  := by
  obtain ⟨k, flag, own, body, hbody, rfl⟩ := h
  have hhelper : ∀ helper, Settles (helpersAt n) True (fun _ => True) (helperIdent helper) := by
    intro helper
    cases helper <;> exact .of_ok trivial rfl
  have hinner : (definition own (d.params ++ [k]) body.delayed none).Writes (helpersAt n)
      fun _ => True := by
    rw [Writes, emitPiece]
    refine .of_iff (.before (writes_abstraction [] (writes_of_compiled hbody))
      fun piece hpiece => ?_) ?_
    · obtain ⟨s, rfl⟩ := hpiece
      exact .of_ok trivial rfl
    · rw [hasShortIntegers_iff (by simp)]
      exact List.forall_mem_singleton
  rw [Writes, emitPiece]
  refine .of_iff (.bind (hhelper .identity) fun _ _ => .bind hinner fun _ _ =>
    .bind (hhelper .makeFlag) fun _ _ => .before (hhelper .trampoline) fun _ _ => .pure trivial) ?_
  rw [hasShortIntegers_iff (by simp), true_and, and_true, and_true]
  exact List.forall_mem_singleton

/-- The helpers of a program can be imported. -/
theorem exists_importLines (source : String) (n : Int) :
  ∃ lines, importLines source (helpersAt n) = .ok lines
  := by
  exact ⟨_, rfl⟩

/-- A program of entries is written if its integers are short, and otherwise writing it fails
because of too many digits. -/
theorem emitProgram_cases {es : List Tree} (h : ∀ e ∈ es, ∃ d, IsEntryOf d e) (n : Int)
    (source : String) :
  ((programOf es (helpersAt n)).HasShortIntegers
      ∧ ∃ emitted, (programOf es (helpersAt n)).emitProgram source = .ok emitted)
    ∨ (¬ (programOf es (helpersAt n)).HasShortIntegers
      ∧ (programOf es (helpersAt n)).emitProgram source = .error (.fault .tooManyDigits))
  := by
  have hwrites : ∀ e ∈ es, e.Writes (helpersAt n) fun _ => True := by
    intro e he
    obtain ⟨d, hd⟩ := h e he
    exact writes_of_isEntryOf hd n
  obtain ⟨lines, hlines⟩ := exists_importLines source n
  rw [programOf, sorted_helpersAt, emitProgram, hlines, hasShortIntegers_iff (by simp)]
  obtain ⟨hshort, pieces, -, hpieces⟩ | ⟨hshort, hfails⟩ := settles_emitPieces hwrites
  · refine .inl ⟨hshort, moduleText lines pieces, ?_⟩
    simp only [StateT.run', hpieces]
    rfl
  · refine .inr ⟨hshort, ?_⟩
    simp only [StateT.run', hfails]
    rfl

end Tree

end Springboard
