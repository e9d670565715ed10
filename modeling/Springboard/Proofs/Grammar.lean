import Mathlib.Order.Lattice
import Springboard.Proofs.Tokens

/-!
# The grammar of expressions

Which rows of tokens are expressions, by levels of precedence: binary operators associate to the
left, comparisons form rows, and a function or a choice reaches as far as possible. The grammar is
not ambiguous. A reader that goes from the left and never looks back finds every expression that
the grammar derives, so it derives at most one from the same tokens.
-/

namespace Springboard.Grammar

/-- What an expression consists of. -/
inductive Expression
  | number (n : Number)
  | text (content : String)
  | name (ident : String)
  | negate (operand : Expression)
  | deny (operand : Expression)
  | binary (op : BinaryOp) (left right : Expression)
  /-- A row of comparisons, each with what stands before it. -/
  | comparison (first : Expression) (ops : List BinaryOp) (others : List Expression)
  | choose (test conseq alt : Expression)
  | lambda (params : List String) (body : Expression)
  | call (function : Expression) (args : List Expression)

/-- How tightly the parts of an expression hang together, the loosest first. -/
inductive Level
  | expression | inversion | comparison | sum | term | factor | primary | atom
  deriving DecidableEq

namespace Level

/-- The next tighter level. -/
def next? : Level → Option Level
  | expression => some inversion
  | inversion => some comparison
  | comparison => some sum
  | sum => some term
  | term => some factor
  | factor => some primary
  | primary => some atom
  | atom => none

/-- The number of tighter levels. -/
def rank : Level → Nat
  | expression => 7
  | inversion => 6
  | comparison => 5
  | sum => 4
  | term => 3
  | factor => 2
  | primary => 1
  | atom => 0

end Level

end Grammar

namespace BinaryOp

open Grammar

/-- The level of the expressions that an operator makes. -/
def level : BinaryOp → Level
  | add | sub => .sum
  | mul | div | quot | mod => .term
  | lt | le | gt | ge | eq | ne => .comparison

/-- The level of the right operand of an operator. -/
def operandLevel (op : BinaryOp) : Level :=
  match op.level with
  | .comparison => .sum
  | .sum => .term
  | _ => .factor

end BinaryOp

namespace Grammar

/-- Token lists with commas between them. -/
def commas (rows : List (List Token)) : List Token :=
  [Token.comma].intercalate rows

/-- One row alone has no comma. -/
theorem commas_singleton (row : List Token) : commas [row] = row := by
  simp [commas, List.intercalate]

/-- A comma stands between the first row and the others. -/
theorem commas_cons (row next : List Token) (rows : List (List Token)) :
  commas (row :: next :: rows) = row ++ .comma :: commas (next :: rows)
  := by
  simp [commas, List.intercalate]

/-- The grammar of expressions. -/
inductive Derives : Level → List Token → Expression → Prop
  | name (x : String) : Derives .atom [.name x] (.name x)
  | numeral (n : Number) : Derives .atom [.numeral n] (.number n)
  | text (s : String) : Derives .atom [.text s] (.text s)
  | group {ts : List Token} {e : Expression} (h : Derives .expression ts e) :
    Derives .atom (.opening :: (ts ++ [.closing])) e
  | call {ts : List Token} {f : Expression} (args : List (List Token × Expression))
    (h : Derives .primary ts f) (hargs : ∀ a ∈ args, Derives .expression a.1 a.2) :
    Derives .primary (ts ++ .opening :: (commas (args.map Prod.fst) ++ [.closing]))
      (.call f (args.map Prod.snd))
  | negate {ts : List Token} {e : Expression} (h : Derives .factor ts e) :
    Derives .factor (.operator .sub :: ts) (.negate e)
  | binary {op : BinaryOp} {ts us : List Token} {a b : Expression} (hop : op.level ≠ .comparison)
    (ha : Derives op.level ts a) (hb : Derives op.operandLevel us b) :
    Derives op.level (ts ++ .operator op :: us) (.binary op a b)
  | comparison {ts : List Token} {e : Expression} {rest : List (BinaryOp × List Token × Expression)}
    (hsome : rest ≠ []) (hops : ∀ r ∈ rest, r.1.level = .comparison) (h : Derives .sum ts e)
    (hrest : ∀ r ∈ rest, Derives .sum r.2.1 r.2.2) :
    Derives .comparison (ts ++ rest.flatMap fun r => .operator r.1 :: r.2.1)
      (.comparison e (rest.map fun r => r.1) (rest.map fun r => r.2.2))
  | deny {ts : List Token} {e : Expression} (h : Derives .inversion ts e) :
    Derives .inversion (.denial :: ts) (.deny e)
  | choose {ts us vs : List Token} {test conseq alt : Expression}
    (hconseq : Derives .inversion ts conseq) (htest : Derives .inversion us test)
    (halt : Derives .expression vs alt) :
    Derives .expression (ts ++ .choice :: (us ++ .otherwise :: vs)) (.choose test conseq alt)
  | lambda (params : List String) {ts : List Token} {body : Expression}
    (h : Derives .expression ts body) :
    Derives .expression
      (.function :: (commas (params.map fun p => [.name p]) ++ .colon :: ts)) (.lambda params body)
  /-- What hangs together more tightly may stand in the place of what does less so. -/
  | tighter {l l' : Level} {ts : List Token} {e : Expression} (hnext : l.next? = some l')
    (h : Derives l' ts e) : Derives l ts e

/-! ### Reading -/

/-- The parameters of a function up to the colon. -/
def parameters : List Token → Option (List String × List Token)
  | .colon :: ts => some ([], ts)
  | .name x :: .colon :: ts => some ([x], ts)
  | .name x :: .comma :: ts =>
    (parameters ts).map fun r => (x :: r.1, r.2)
  | _ => none

mutual

/-- Reads an expression of a level from the front of some tokens. -/
def parse : Nat → Level → List Token → Option (Expression × List Token)
  | 0, _, _ => none
  | n + 1, .expression, ts =>
    match ts with
    | .function :: ts => do
      let (params, ts) ← parameters ts
      let (body, ts) ← parse n .expression ts
      some (.lambda params body, ts)
    | ts => do
      let (e, ts) ← parse n .inversion ts
      match ts with
      | .choice :: ts => do
        let (test, ts) ← parse n .inversion ts
        match ts with
        | .otherwise :: ts => do
          let (alt, ts) ← parse n .expression ts
          some (.choose test e alt, ts)
        | _ => none
      | ts => some (e, ts)
  | n + 1, .inversion, ts =>
    match ts with
    | .denial :: ts => do
      let (e, ts) ← parse n .inversion ts
      some (.deny e, ts)
    | ts => parse n .comparison ts
  | n + 1, .comparison, ts => do
    let (e, ts) ← parse n .sum ts
    let (rest, ts) ← parseComparisons n ts
    some (if rest.isEmpty then e else .comparison e (rest.map Prod.fst) (rest.map Prod.snd), ts)
  | n + 1, .sum, ts => do
    let (e, ts) ← parse n .term ts
    parseMore n .sum e ts
  | n + 1, .term, ts => do
    let (e, ts) ← parse n .factor ts
    parseMore n .term e ts
  | n + 1, .factor, ts =>
    match ts with
    | .operator .sub :: ts => do
      let (e, ts) ← parse n .factor ts
      some (.negate e, ts)
    | ts => parse n .primary ts
  | n + 1, .primary, ts => do
    let (e, ts) ← parse n .atom ts
    parseMore n .primary e ts
  | n + 1, .atom, ts =>
    match ts with
    | .name x :: ts => some (.name x, ts)
    | .numeral k :: ts => some (.number k, ts)
    | .text s :: ts => some (.text s, ts)
    | .opening :: ts => do
      let (e, ts) ← parse n .expression ts
      match ts with
      | .closing :: ts => some (e, ts)
      | _ => none
    | _ => none

/-- Goes on with operands or arguments for what was read so far. -/
def parseMore : Nat → Level → Expression → List Token → Option (Expression × List Token)
  | 0, _, _, _ => none
  | n + 1, l, e, ts =>
    match ts with
    | .operator op :: ts =>
      if op.level = l then do
        let (b, ts) ← parse n op.operandLevel ts
        parseMore n l (.binary op e b) ts
      else some (e, .operator op :: ts)
    | .opening :: ts =>
      if l = .primary then do
        let (args, ts) ← parseArguments n ts
        parseMore n l (.call e args) ts
      else some (e, .opening :: ts)
    | ts => some (e, ts)

/-- Reads comparisons. -/
def parseComparisons : Nat → List Token → Option (List (BinaryOp × Expression) × List Token)
  | 0, _ => none
  | n + 1, ts =>
    match ts with
    | .operator op :: ts =>
      if op.level = .comparison then do
        let (e, ts) ← parse n .sum ts
        let (rest, ts) ← parseComparisons n ts
        some ((op, e) :: rest, ts)
      else some ([], .operator op :: ts)
    | ts => some ([], ts)

/-- Reads arguments up to the closing bracket. -/
def parseArguments : Nat → List Token → Option (List Expression × List Token)
  | 0, _ => none
  | n + 1, ts =>
    match ts with
    | .closing :: ts => some ([], ts)
    | ts => do
      let (e, ts) ← parse n .expression ts
      match ts with
      | .closing :: ts => some ([e], ts)
      | .comma :: ts => do
        let (es, ts) ← parseArguments n ts
        some (e :: es, ts)
      | _ => none

end


/-! ### Enough fuel -/

/-- With enough fuel the result is the given one. -/
def Returns {α : Type} (f : Nat → Option α) (a : α) : Prop :=
  ∃ enough, ∀ n ≥ enough, f n = some a

namespace Returns

variable {α β : Type} {f : Nat → Option α} {a : α}

/-- There is only one result. -/
theorem unique {a' : α} (h : Returns f a) (h' : Returns f a') : a = a' := by
  obtain ⟨n, hn⟩ := h
  obtain ⟨n', hn'⟩ := h'
  have heq := (hn (max n n') (Nat.le_max_left n n')).symm.trans
    (hn' (max n n') (Nat.le_max_right n n'))
  exact Option.some.inj heq

/-- One unit of fuel more changes nothing. -/
theorem of_succ (h : Returns (fun n => f (n + 1)) a) : Returns f a := by
  obtain ⟨enough, h⟩ := h
  refine ⟨enough + 1, fun n hn => ?_⟩
  obtain ⟨m, rfl⟩ := Nat.exists_eq_add_of_le' hn
  exact h (m + enough) (Nat.le_add_left enough m)

/-- What needs no fuel. -/
theorem of_some : Returns (fun _ => some a) a := by
  exact ⟨0, fun _ _ => rfl⟩

/-- Reading goes on with the result of a first reading. -/
theorem bind {g : Nat → α → Option β} {b : β} (h : Returns f a)
    (hg : Returns (fun n => g n a) b) :
  Returns (fun n => f n >>= g n) b
  := by
  obtain ⟨n₁, h⟩ := h
  obtain ⟨n₂, hg⟩ := hg
  refine ⟨max n₁ n₂, fun n hn => ?_⟩
  show f n >>= g n = some b
  rw [h n (le_trans (Nat.le_max_left n₁ n₂) hn)]
  exact hg n (le_trans (Nat.le_max_right n₁ n₂) hn)

end Returns

/-! ### Where an expression ends -/

/-- The level of the expressions that a token goes on with. -/
def Token.level? : Token → Option Level
  | operator op => some op.level
  | opening => some .primary
  | choice => some .expression
  | _ => none

/-- No expression with fewer tighter levels goes on with the tokens. -/
def Closed (rank : Nat) (ts : List Token) : Prop :=
  ∀ t ∈ ts.head?, ∀ l ∈ t.level?, rank ≤ l.rank

/-- Tokens that close loose expressions close tight ones. -/
theorem Closed.mono {rank rank' : Nat} {ts : List Token} (h : Closed rank ts) (hle : rank' ≤ rank) :
  Closed rank' ts
  := by
  intro t ht l hl
  exact le_trans hle (h t ht l hl)

/-- A token closes what it does not go on with. -/
theorem closed_cons {rank : Nat} {t : Token} {ts : List Token} (h : ∀ l ∈ t.level?, rank ≤ l.rank) :
  Closed rank (t :: ts)
  := by
  intro u hu
  cases hu
  exact h

/-- Most tokens close every expression. -/
theorem closed_of_level? {rank : Nat} {t : Token} {ts : List Token} (h : t.level? = none) :
  Closed rank (t :: ts)
  := by
  apply closed_cons
  intro l hl
  rw [h] at hl
  contradiction

/-- A next tighter level has one tighter level less. -/
theorem Level.rank_of_next? {l l' : Level} (h : l.next? = some l') : l.rank = l'.rank + 1 := by
  cases l <;> cases h <;> rfl

/-- The level that a token in front of an expression makes. -/
def Token.front? : Token → Option Level
  | function => some .expression
  | denial => some .inversion
  | operator .sub => some .factor
  | _ => none

/-- What stands in front of an expression of a level belongs to the level, and is not the end of
something. -/
theorem exists_head {l : Level} {ts : List Token} {e : Expression} (h : Derives l ts e) :
  ∃ t ts', ts = t :: ts' ∧ (∀ l' ∈ t.front?, l'.rank ≤ l.rank) ∧ t ≠ .closing
  := by
  induction h with
  | name x | numeral n | text s => exact ⟨_, _, rfl, by simp [Token.front?], by simp⟩
  | group h ih => exact ⟨_, _, rfl, by simp [Token.front?], by simp⟩
  | call args h hargs ih ihargs =>
    obtain ⟨t, ts', rfl, ht⟩ := ih
    exact ⟨t, _, rfl, ht⟩
  | negate h ih => exact ⟨_, _, rfl, by simp [Token.front?], by simp⟩
  | binary hop ha hb iha ihb =>
    obtain ⟨t, ts', rfl, ht⟩ := iha
    exact ⟨t, _, rfl, ht⟩
  | comparison hsome hops h hrest ih ihrest =>
    obtain ⟨t, ts', rfl, ht, hclosing⟩ := ih
    exact ⟨t, _, rfl, fun l' hl' => le_trans (ht l' hl') (by decide), hclosing⟩
  | deny h ih => exact ⟨_, _, rfl, by simp [Token.front?], by simp⟩
  | choose hconseq htest halt ihconseq ihtest ihalt =>
    obtain ⟨t, ts', rfl, ht, hclosing⟩ := ihconseq
    exact ⟨t, _, rfl, fun l' hl' => le_trans (ht l' hl') (by decide), hclosing⟩
  | lambda params h ih => exact ⟨_, _, rfl, by simp [Token.front?], by simp⟩
  | tighter hnext h ih =>
    obtain ⟨t, ts', rfl, ht, hclosing⟩ := ih
    have hrank := Level.rank_of_next? hnext
    exact ⟨t, _, rfl, fun l' hl' => le_trans (ht l' hl') (by omega), hclosing⟩

/-! ### Reading back -/

/-- The levels whose expressions begin with an expression of the same level. -/
def Level.grows : Level → Bool
  | sum | term | primary => true
  | _ => false

/-- What is read once an expression of a level stands in front of some tokens. -/
def Extends (l : Level) (e : Expression) (rest : List Token) (r : Expression × List Token) : Prop :=
  if l.grows then Returns (fun n => parseMore n l e rest) r
  else Closed (l.rank + 1) rest ∧ r = (e, rest)

/-- Tokens are read as an expression of a level, whatever follows them. -/
def IsRead (l : Level) (ts : List Token) (e : Expression) : Prop :=
  ∀ rest r, Closed l.rank rest → Extends l e rest r → Returns (fun n => parse n l (ts ++ rest)) r

/-- Nothing is added to an expression that is closed. -/
theorem returns_parseMore {l : Level} {e : Expression} {rest : List Token}
    (h : Closed (l.rank + 1) rest) :
  Returns (fun n => parseMore n l e rest) (e, rest)
  := by
  apply Returns.of_succ
  cases rest with
  | nil => exact .of_some
  | cons t rest =>
    have ht : ∀ l' ∈ t.level?, l.rank + 1 ≤ l'.rank := h t rfl
    cases t with
    | operator op =>
      have hop : op.level ≠ l := by
        rintro rfl
        exact absurd (ht op.level rfl) (Nat.not_succ_le_self _)
      simp only [parseMore, if_neg hop]
      exact .of_some
    | opening =>
      have hprimary : l ≠ .primary := by
        rintro rfl
        exact absurd (ht .primary rfl) (Nat.not_succ_le_self _)
      simp only [parseMore, if_neg hprimary]
      exact .of_some
    | _ => exact .of_some

/-- Tokens are read as an expression that is closed by what follows. -/
theorem IsRead.closed {l : Level} {ts rest : List Token} {e : Expression} (h : IsRead l ts e)
    (hrest : Closed (l.rank + 1) rest) :
  Returns (fun n => parse n l (ts ++ rest)) (e, rest)
  := by
  apply h rest _ (hrest.mono (Nat.le_succ _))
  unfold Extends
  split
  · exact returns_parseMore hrest
  · exact ⟨hrest, rfl⟩

/-- No comparisons are read where an expression is closed. -/
theorem returns_parseComparisons {rest : List Token} (h : Closed (Level.comparison.rank + 1) rest) :
  Returns (fun n => parseComparisons n rest) ([], rest)
  := by
  apply Returns.of_succ
  cases rest with
  | nil => exact .of_some
  | cons t rest =>
    have ht : ∀ l' ∈ t.level?, Level.comparison.rank + 1 ≤ l'.rank := h t rfl
    cases t with
    | operator op =>
      have hop : op.level ≠ .comparison := by
        intro hop
        have := ht op.level rfl
        rw [hop] at this
        exact absurd this (Nat.not_succ_le_self _)
      simp only [parseComparisons, if_neg hop]
      exact .of_some
    | _ => exact .of_some

/-- A tighter expression is read as one of the next looser level, unless something stands in front
of it. -/
theorem returns_of_next {l l' : Level} {t : Token} {ts rest : List Token} {e : Expression}
    {r : Expression × List Token} (hnext : l.next? = some l')
    (ht : ∀ l'' ∈ t.front?, l''.rank < l.rank)
    (h : Returns (fun n => parse n l' (t :: ts)) (e, rest)) (hr : Extends l e rest r) :
  Returns (fun n => parse n l (t :: ts)) r
  := by
  apply Returns.of_succ
  cases l with
  | expression =>
    cases hnext
    obtain ⟨hclosed, rfl⟩ := hr
    have hparse : Returns (fun n => match rest with
        | .choice :: ts => do
          let (test, ts) ← parse n .inversion ts
          match ts with
          | .otherwise :: ts => do
            let (alt, ts) ← parse n .expression ts
            some (.choose test e alt, ts)
          | _ => none
        | ts => some (e, ts)) (e, rest) := by
      cases rest with
      | nil => exact .of_some
      | cons u rest =>
        cases u with
        | choice => exact absurd (hclosed _ rfl _ rfl) (Nat.not_succ_le_self _)
        | _ => exact .of_some
    cases t with
    | function => exact absurd (ht _ rfl) (Nat.lt_irrefl _)
    | _ => exact h.bind hparse
  | inversion =>
    cases hnext
    obtain ⟨-, rfl⟩ := hr
    cases t with
    | denial => exact absurd (ht _ rfl) (Nat.lt_irrefl _)
    | _ => exact h
  | comparison =>
    cases hnext
    obtain ⟨hclosed, rfl⟩ := hr
    exact h.bind ((returns_parseComparisons hclosed).bind .of_some)
  | sum =>
    cases hnext
    exact h.bind hr
  | term =>
    cases hnext
    exact h.bind hr
  | factor =>
    cases hnext
    obtain ⟨-, rfl⟩ := hr
    cases t with
    | operator op =>
      cases op with
      | sub => exact absurd (ht _ rfl) (Nat.lt_irrefl _)
      | _ => exact h
    | _ => exact h
  | primary =>
    cases hnext
    exact h.bind hr
  | atom => contradiction

/-- Parameters are read back. -/
theorem parameters_commas (params : List String) (ts : List Token) :
  parameters (commas (params.map fun p => [.name p]) ++ .colon :: ts) = some (params, ts)
  := by
  induction params with
  | nil => rfl
  | cons p params ih =>
    cases params with
    | nil => rfl
    | cons q params =>
      rw [List.map_cons] at ih
      rw [List.map_cons, List.map_cons, commas_cons, List.append_assoc, List.singleton_append,
        List.cons_append, parameters, ih]
      rfl

/-- Arguments are read back if each of them is. -/
theorem returns_parseArguments {args : List (List Token × Expression)}
    (hargs : ∀ a ∈ args, Derives .expression a.1 a.2 ∧ IsRead .expression a.1 a.2)
    (rest : List Token) :
  Returns (fun n => parseArguments n (commas (args.map Prod.fst) ++ .closing :: rest))
    (args.map Prod.snd, rest)
  := by
  induction args with
  | nil => exact .of_succ .of_some
  | cons a args ih =>
    obtain ⟨⟨ha, hread⟩, hargs⟩ := List.forall_mem_cons.mp hargs
    obtain ⟨t, ts, hts, -, ht⟩ := exists_head ha
    -- an argument is read first, since it does not begin with a closing bracket
    have hfirst : ∀ {more : List Token} {r : List Expression × List Token},
        Returns (fun n => parse n .expression (a.1 ++ more) >>= fun (e, ts) => match ts with
          | .closing :: ts => some ([e], ts)
          | .comma :: ts => do
            let (es, ts) ← parseArguments n ts
            some (e :: es, ts)
          | _ => none) r →
        Returns (fun n => parseArguments n (a.1 ++ more)) r := by
      intro more r h
      apply Returns.of_succ
      rw [hts] at h ⊢
      cases t with
      | closing => contradiction
      | _ => exact h
    cases args with
    | nil =>
      rw [List.map_singleton, commas_singleton]
      apply hfirst
      exact (hread.closed (closed_of_level? rfl)).bind .of_some
    | cons b args =>
      rw [List.map_cons, List.map_cons, commas_cons, List.append_assoc]
      apply hfirst
      refine (hread.closed (closed_of_level? rfl)).bind ?_
      exact (ih hargs).bind .of_some

/-- Comparisons are read back if what is compared is. -/
theorem returns_parseComparisons_flatMap {rows : List (BinaryOp × List Token × Expression)}
    (hops : ∀ r ∈ rows, r.1.level = .comparison) (hread : ∀ r ∈ rows, IsRead .sum r.2.1 r.2.2)
    {rest : List Token} (hrest : Closed (Level.comparison.rank + 1) rest) :
  Closed (Level.sum.rank + 1) (rows.flatMap (fun r => .operator r.1 :: r.2.1) ++ rest)
    ∧ Returns
      (fun n => parseComparisons n (rows.flatMap (fun r => .operator r.1 :: r.2.1) ++ rest))
      (rows.map fun r => (r.1, r.2.2), rest)
  := by
  induction rows with
  | nil => exact ⟨hrest.mono (by decide), returns_parseComparisons hrest⟩
  | cons r rows ih =>
    obtain ⟨hop, hops⟩ := List.forall_mem_cons.mp hops
    obtain ⟨hr, hread⟩ := List.forall_mem_cons.mp hread
    obtain ⟨hclosed, ih⟩ := ih hops hread
    rw [List.flatMap_cons, List.append_assoc, List.cons_append]
    constructor
    · apply closed_cons
      intro l hl
      cases hl
      rw [hop]
      decide
    · apply Returns.of_succ
      simp only [parseComparisons, if_pos hop]
      exact (hr.closed hclosed).bind (ih.bind .of_some)

/-- The right operand of an operator is one level tighter. -/
theorem BinaryOp.operandLevel_rank (op : BinaryOp) : op.operandLevel.rank + 1 = op.level.rank := by
  cases op <;> rfl

/-- Whatever the grammar derives is read back. -/
theorem isRead_of_derives {l : Level} {ts : List Token} {e : Expression} (h : Derives l ts e) :
  IsRead l ts e
  := by
  induction h with
  | name x | numeral n | text s =>
    rintro rest r - ⟨-, rfl⟩
    exact .of_succ .of_some
  | group h ih =>
    rintro rest r - ⟨-, rfl⟩
    rw [List.cons_append, List.append_assoc]
    exact .of_succ ((ih.closed (closed_of_level? rfl)).bind .of_some)
  | call args h hargs ih ihargs =>
    intro rest r hrest hr
    rw [List.append_assoc, List.cons_append, List.append_assoc]
    apply ih _ _ (closed_cons (by simp [Token.level?]))
    have harguments := returns_parseArguments (fun a ha => ⟨hargs a ha, ihargs a ha⟩) rest
    exact .of_succ (harguments.bind hr)
  | negate h ih =>
    rintro rest r - ⟨hclosed, rfl⟩
    exact .of_succ ((ih.closed hclosed).bind .of_some)
  | @binary op ts us a b hop ha hb iha ihb =>
    intro rest r hrest hr
    rw [List.append_assoc, List.cons_append]
    have hgrows : op.level.grows = true := by
      cases op <;> first | rfl | contradiction
    rw [Extends, if_pos hgrows] at hr
    apply iha _ _ (closed_cons (by simp [Token.level?]))
    rw [Extends, if_pos hgrows]
    apply Returns.of_succ
    simp only [parseMore, if_true]
    exact (ihb.closed (by rwa [BinaryOp.operandLevel_rank])).bind hr
  | @comparison ts e rows hsome hops h hrows ih ihrows =>
    rintro rest r - ⟨hclosed, rfl⟩
    rw [List.append_assoc]
    obtain ⟨hrest, hcomparisons⟩ := returns_parseComparisons_flatMap hops ihrows hclosed
    refine .of_succ ((ih.closed hrest).bind (hcomparisons.bind ?_))
    have hmap : (rows.map fun r => (r.1, r.2.2)).isEmpty = false := by
      rwa [List.isEmpty_map, List.isEmpty_eq_false_iff]
    simp only [hmap, List.map_map, Function.comp_def]
    exact .of_some
  | deny h ih =>
    rintro rest r - ⟨hclosed, rfl⟩
    exact .of_succ ((ih.closed hclosed).bind .of_some)
  | @choose ts us vs test conseq alt hconseq htest halt ihconseq ihtest ihalt =>
    rintro rest r - ⟨hclosed, rfl⟩
    rw [List.append_assoc, List.cons_append, List.append_assoc, List.cons_append]
    obtain ⟨t, ts', rfl, ht, -⟩ := exists_head hconseq
    have hchoice : Closed (Level.inversion.rank + 1)
        (.choice :: (us ++ .otherwise :: (vs ++ rest))) :=
      closed_cons fun l hl => by cases hl; decide
    have hotherwise : Closed (Level.inversion.rank + 1) (.otherwise :: (vs ++ rest)) :=
      closed_of_level? rfl
    apply Returns.of_succ
    cases t with
    | function => exact absurd (ht _ rfl) (by decide)
    | _ =>
      exact (ihconseq.closed hchoice).bind
        ((ihtest.closed hotherwise).bind ((ihalt.closed hclosed).bind .of_some))
  | lambda params h ih =>
    rintro rest r - ⟨hclosed, rfl⟩
    rw [List.cons_append, List.append_assoc, List.cons_append]
    apply Returns.of_succ
    simp only [parse, parameters_commas]
    exact (ih.closed hclosed).bind .of_some
  | tighter hnext h ih =>
    intro rest r hrest hr
    obtain ⟨t, ts', rfl, ht, -⟩ := exists_head h
    have hrank := Level.rank_of_next? hnext
    rw [hrank] at hrest
    exact returns_of_next hnext (fun l hl => by have := ht l hl; omega) (ih.closed hrest) hr

/-- The grammar derives only one expression from some tokens. -/
theorem Derives.unique {ts : List Token} {e e' : Expression} (h : Derives .expression ts e)
    (h' : Derives .expression ts e') :
  e = e'
  := by
  have hclosed : Closed (Level.expression.rank + 1) [] := by
    intro t ht
    contradiction
  have hread := (isRead_of_derives h).closed hclosed
  have hread' := (isRead_of_derives h').closed hclosed
  exact congrArg Prod.fst (hread.unique hread')

/-- Levels differ in the number of tighter levels. -/
theorem Level.rank_injective {l l' : Level} (h : l.rank = l'.rank) : l = l' := by
  cases l <;> cases l' <;> first | rfl | contradiction

/-- What hangs together tightly may stand in the place of anything looser. -/
theorem Derives.up {l l' : Level} {ts : List Token} {e : Expression} (h : Derives l ts e)
    (hle : l.rank ≤ l'.rank) :
  Derives l' ts e
  := by
  generalize hgap : l'.rank - l.rank = gap
  induction gap generalizing l' with
  | zero => rwa [Level.rank_injective (show l'.rank = l.rank by omega)]
  | succ gap ih =>
    cases hnext : l'.next? with
    | none =>
      have hatom : l'.rank = 0 := by
        cases l' <;> first | rfl | contradiction
      omega
    | some l'' =>
      have hrank := Level.rank_of_next? hnext
      exact .tighter hnext (ih (by omega) (by omega))

end Springboard.Grammar
