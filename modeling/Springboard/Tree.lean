import Springboard.Number
import Springboard.Operator

/-!
# Trees

One type of trees serves all stages of the compiler: the surface syntax that is read, the
trees with explicit continuations, and the compiled program. A tree may also hold a stray
value where a node is expected; the stages complain about those.
-/

namespace Springboard

/-- The sorts of conditionals. -/
inductive Conditional
  /-- Not classified. -/
  | plain
  /-- All three parts are trivial, so the conditional is a value. -/
  | trivial
  /-- Some part needs evaluation. -/
  | serious
  /-- All parts have been converted. -/
  | converted
  deriving DecidableEq, Repr

/-- A node of the syntax, or a stray value in the place of one. -/
inductive Tree
  /-- A node of no particular kind. -/
  | blank
  | literal (value : Number)
  | var (name : String)
  | operation (op : Operator) (operands : List Tree)
  | conditional (sort : Conditional) (test conseq alt : Tree)
  | abstraction (params : List String) (body : Tree)
  /-- A named abstraction. After conversion `own` is the fresh name that the references of the
  body to itself were renamed to. -/
  | definition (name : String) (params : List String) (body : Tree) (own : Option String)
  /-- The rest of a computation, waiting for the value of `arg`. -/
  | continuation (arg : String) (body : Tree)
  /-- A value handed to a continuation. -/
  | resumption (k arg : Tree)
  | application (rator : Tree) (rands : List Tree)
  /-- The entry of a compiled definition: it makes the flag, calls the inner definition once and
  bounces until the flag is set. -/
  | entry (name : String) (params : List String) (k flag : String) (inner : Tree)
  /-- A compiled program, with the names its four helpers are bound to. -/
  | program (definitions : List Tree) (helpers : List (String × String))
  /-- A stray absence of a value. -/
  | nothing
  /-- A stray number. -/
  | number (n : Number)
  /-- A stray text. -/
  | text (s : String)
  /-- A stray list. -/
  | list (items : List Tree)
  /-- A stray tuple. -/
  | tuple (items : List Tree)

/-- The kinds of nodes. -/
inductive Kind
  | node | literal | var | operation | conditional (sort : Conditional) | abstraction
  | definition | continuation | resumption | application | entry | program
  deriving DecidableEq, Repr

namespace Kind

/-- The name of a kind. -/
def name : Kind → String
  | node => "Node"
  | literal => "Literal"
  | var => "Variable"
  | operation => "Operation"
  | conditional .plain => "Conditional"
  | conditional .trivial => "TrivialConditional"
  | conditional .serious => "SeriousConditional"
  | conditional .converted => "ConvertedConditional"
  | abstraction => "Abstraction"
  | definition => "Definition"
  | continuation => "Continuation"
  | resumption => "ContinuationApplication"
  | application => "Application"
  | entry => "TrampolinedDefinition"
  | program => "Program"

/-- All kinds. -/
def all : List Kind :=
  [node, literal, var, operation, conditional .plain, conditional .trivial, conditional .serious,
   conditional .converted, abstraction, definition, continuation, resumption, application, entry,
   program]

/-- The kind of the given name. -/
def ofName? (name : String) : Option Kind :=
  all.find? fun kind => kind.name == name

/-- A kind followed by the more general kinds it belongs to. -/
def lineage : Kind → List Kind
  | node => [node]
  | conditional .plain => [conditional .plain, node]
  | conditional sort => [conditional sort, conditional .plain, node]
  | kind => [kind, node]

end Kind

namespace Tree

/-- The kind of a node; a stray value has none. -/
def kind? : Tree → Option Kind
  | blank => some .node
  | literal _ => some .literal
  | var _ => some .var
  | operation _ _ => some .operation
  | conditional sort _ _ _ => some (.conditional sort)
  | abstraction _ _ => some .abstraction
  | definition _ _ _ _ => some .definition
  | continuation _ _ => some .continuation
  | resumption _ _ => some .resumption
  | application _ _ => some .application
  | entry _ _ _ _ _ => some .entry
  | program _ _ => some .program
  | nothing | number _ | text _ | list _ | tuple _ => none

/-- Whether a tree is a node rather than a stray value. -/
def isNode (t : Tree) : Bool :=
  t.kind?.isSome

/-- The name of the kind of a node, or of the sort of a stray value. -/
def sortName : Tree → String
  | nothing => "NoneType"
  | number n => n.sortName
  | text _ => "str"
  | list _ => "list"
  | tuple _ => "tuple"
  | t => (t.kind?.map Kind.name).getD ""

/-- Whether a tree is a definition. -/
def isDefinition : Tree → Bool
  | definition _ _ _ _ => true
  | _ => false

/-! ### Children -/

/-- The children of a node, in order. -/
def children : Tree → List Tree
  | operation _ operands => operands
  | conditional _ test conseq alt => [test, conseq, alt]
  | abstraction _ body => [body]
  | definition _ _ body _ => [body]
  | continuation _ body => [body]
  | resumption k arg => [k, arg]
  | application rator rands => rator :: rands
  | entry _ _ _ _ inner => [inner]
  | program definitions _ => definitions
  | _ => []

/-- A node of the same kind with other children. -/
def withChildren : Tree → List Tree → Tree
  | operation op _, operands => operation op operands
  | conditional sort _ _ _, [test, conseq, alt] => conditional sort test conseq alt
  | abstraction params _, [body] => abstraction params body
  | definition name params _ own, [body] => definition name params body own
  | continuation arg _, [body] => continuation arg body
  | resumption _ _, [k, arg] => resumption k arg
  | application _ _, rator :: rands => application rator rands
  | entry name params k flag _, [inner] => entry name params k flag inner
  | program _ helpers, definitions => program definitions helpers
  | t, _ => t

/-! ### Triviality -/

mutual

/-- A trivial node is a value: it can be computed without calling anything. -/
def isTrivial : Tree → Bool
  | literal _ | var _ | abstraction _ _ | continuation _ _ => true
  | conditional sort _ _ _ => sort == .trivial || sort == .converted
  | operation _ operands => allTrivial operands
  | _ => false

/-- Whether all trees of a list are trivial. -/
def allTrivial : List Tree → Bool
  | [] => true
  | t :: ts => isTrivial t && allTrivial ts

end

/-- The conditional of three parts, classified by their triviality. -/
def choose (test conseq alt : Tree) : Tree :=
  if test.isTrivial && conseq.isTrivial && alt.isTrivial then
    conditional .trivial test conseq alt
  else
    conditional .serious test conseq alt

/-! ### Names -/

mutual

/-- The names of all variables that occur anywhere in a tree. -/
def mentioned : Tree → List String
  | var name => [name]
  | operation _ operands => mentionedAll operands
  | conditional _ test conseq alt => mentioned test ++ mentioned conseq ++ mentioned alt
  | abstraction _ body | definition _ _ body _ | continuation _ body => mentioned body
  | resumption k arg => mentioned k ++ mentioned arg
  | application rator rands => mentioned rator ++ mentionedAll rands
  | entry _ _ _ _ inner => mentioned inner
  | program definitions _ => mentionedAll definitions
  | _ => []

/-- The names of all variables that occur anywhere in a list of trees. -/
def mentionedAll : List Tree → List String
  | [] => []
  | t :: ts => mentioned t ++ mentionedAll ts

end

end Tree

end Springboard
