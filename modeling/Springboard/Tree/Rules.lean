import Springboard.Error
import Springboard.Tree

/-!
# Rules of the passes

Which kinds of nodes each pass has a rule for. A rule for a general kind also covers the kinds
that belong to it.
-/

namespace Springboard.Pass

/-- The kinds that a pass has a rule of their own for. -/
def ownRules : Pass → List Kind
  | conversion =>
    [.literal, .var, .operation, .conditional .trivial, .conditional .serious,
     .conditional .converted, .abstraction, .continuation, .application, .definition]
  | abstraction => [.node, .continuation, .resumption]
  | suspension =>
    [.literal, .var, .operation, .conditional .converted, .abstraction, .definition,
     .application, .conditional .trivial, .conditional .serious, .continuation, .resumption]
  | trampolining => [.definition, .entry]
  | emission =>
    [.literal, .var, .operation, .conditional .converted, .abstraction, .application,
     .definition, .entry, .program, .conditional .trivial, .conditional .serious,
     .continuation, .resumption]
  | evaluation =>
    [.literal, .var, .operation, .conditional .plain, .abstraction, .definition, .application]

/-- The rule that a pass applies to nodes of a kind, named by the kind it is written for. -/
def rule? (pass : Pass) (kind : Kind) : Option Kind :=
  kind.lineage.find? fun k => pass.ownRules.contains k

end Springboard.Pass
