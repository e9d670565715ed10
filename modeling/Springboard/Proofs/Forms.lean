import Mathlib.Data.List.Nodup
import Springboard.Machine.Code
import Springboard.Proofs.Threading
import Springboard.Tree.Suspend

/-!
# The shape of threaded trees

In a threaded tree every part is of one of three kinds: a value, which is computed without calling
anything; a continuation, which is the one at hand or a function of one value; and a tail, which
ends in one call, after some choices between branches. The code that a suspended tree is emitted
as can be read off the tree itself.
-/

namespace Springboard

open NameSource

/-- The names that a function may use: those that stand for data and those that stand for
continuations. Written out by `ident` they all differ, also from the name of the helper that
hands on values. -/
structure Idiom (ident : String → String) (ak : String) where
  data : String → Prop
  cont : String → Prop
  cont_notData {x : String} : cont x → ¬ data x
  injective {x y : String} : (data x ∨ cont x) → (data y ∨ cont y) → ident x = ident y → x = y
  helper {x : String} : (data x ∨ cont x) → ident x ≠ ident ak

/-- What a part of a threaded tree is for; `k` is the name of the continuation at hand. -/
inductive Role
  | value
  | tail (k : String)
  | cont (k : String)

/-- The parts of threaded trees. -/
inductive Fragment {ident : String → String} {ak : String} (I : Idiom ident ak) : Role → Tree → Prop
  | literal (n : Number) : Fragment I .value (.literal n)
  | var {x : String} (hx : I.data x) : Fragment I .value (.var x)
  | operation {op : Operator} {ts : List Tree} (hcount : op.accepts ts.length)
      (hts : ∀ t ∈ ts, Fragment I .value t) : Fragment I .value (.operation op ts)
  | choice {test conseq alt : Tree} (htest : Fragment I .value test) (hconseq : Fragment I .value conseq)
      (halt : Fragment I .value alt) : Fragment I .value (.conditional .converted test conseq alt)
  | function {params : List String} {k : String} {body : Tree}
      (hparams : ∀ x ∈ params, I.data x) (hk : I.cont k) (hnodup : params.Nodup)
      (hbody : Fragment I (.tail k) body) : Fragment I .value (.abstraction (params ++ [k]) body)
  | handed {k : String} {cont value : Tree} (hcont : Fragment I (.cont k) cont)
      (hvalue : Fragment I .value value) :
      Fragment I (.tail k) (.application (.var ak) [cont, value])
  | call {k : String} {rator cont : Tree} {rands : List Tree} (hrator : Fragment I .value rator)
      (hrands : ∀ t ∈ rands, Fragment I .value t) (hcont : Fragment I (.cont k) cont) :
      Fragment I (.tail k) (.application rator (rands ++ [cont]))
  | branch {k : String} {test conseq alt : Tree} (htest : Fragment I .value test)
      (hconseq : Fragment I (.tail k) conseq) (halt : Fragment I (.tail k) alt) :
      Fragment I (.tail k) (.conditional .converted test conseq alt)
  | given (k : String) : Fragment I (.cont k) (.var k)
  | waiting {k s : String} {body : Tree} (hs : I.data s) (hbody : Fragment I (.tail k) body) :
      Fragment I (.cont k) (.abstraction [s] body)

/-- Induction over tails: they make a call at once, or choose between two tails. -/
@[elab_as_elim]
theorem Fragment.tail_induction
    {ident : String → String} {ak : String} {I : Idiom ident ak} {k : String}
    {motive : (t : Tree) → Fragment I (.tail k) t → Prop}
    (handed : ∀ {cont value} (hcont : Fragment I (.cont k) cont) (hvalue : Fragment I .value value),
      motive (.application (.var ak) [cont, value]) (.handed hcont hvalue))
    (call : ∀ {rator cont rands} (hrator : Fragment I .value rator)
      (hrands : ∀ t ∈ rands, Fragment I .value t) (hcont : Fragment I (.cont k) cont),
      motive (.application rator (rands ++ [cont])) (.call hrator hrands hcont))
    (branch : ∀ {test conseq alt} (htest : Fragment I .value test)
      (hconseq : Fragment I (.tail k) conseq) (halt : Fragment I (.tail k) alt),
      motive conseq hconseq → motive alt halt →
        motive (.conditional .converted test conseq alt) (.branch htest hconseq halt))
    {t : Tree} (ht : Fragment I (.tail k) t) :
  motive t ht
  := by
  suffices h : ∀ {role t} (ht : Fragment I role t) (hrole : role = .tail k),
      motive t (hrole ▸ ht) from h ht rfl
  intro role t ht
  induction ht with
  | handed hcont hvalue _ _ =>
    rintro ⟨⟩
    exact handed hcont hvalue
  | call hrator hrands hcont _ _ _ =>
    rintro ⟨⟩
    exact call hrator hrands hcont
  | branch htest hconseq halt _ ihconseq ihalt =>
    rintro ⟨⟩
    exact branch htest hconseq halt (ihconseq rfl) (ihalt rfl)
  | _ =>
    intro hrole
    contradiction

/-! ### Code -/

namespace Machine

mutual

/-- The code of a threaded tree with the bodies of its functions suspended. -/
def codeOf (ident : String → String) : Tree → Code
  | .literal n => .constant n
  | .var x => .name (ident x)
  | .operation op ts => (Code.ofOperation op (codesOf ident ts)).getD (.constant (.bool false))
  | .conditional _ test conseq alt =>
    .choose (codeOf ident test) (codeOf ident conseq) (codeOf ident alt)
  | .abstraction params body => .lambda (params.map ident) (.lambda [] (codeOf ident body))
  | .application rator rands => .call (codeOf ident rator) (codesOf ident rands)
  | _ => .constant (.bool false)

/-- The code of some threaded trees. -/
def codesOf (ident : String → String) : List Tree → List Code
  | [] => []
  | t :: ts => codeOf ident t :: codesOf ident ts

end

/-- Trees are written out one by one. -/
theorem codesOf_eq_map (ident : String → String) (ts : List Tree) :
  codesOf ident ts = ts.map (codeOf ident)
  := by
  induction ts with
  | nil => rw [codesOf, List.map_nil]
  | cons t ts ih => rw [codesOf, List.map_cons, ih]

/-- The expression that an operator of a shape has over its operands. -/
inductive Expressed : Operator.Shape → List Code → Code → Prop
  | chain (b : BinaryOp) (first : Code) (rest : List Code) :
    Expressed (.chain b) (first :: rest) (rest.foldl (.binary b) first)
  | negative (x : Code) : Expressed .difference [x] (.negate x)
  | difference (first next : Code) (rest : List Code) :
    Expressed .difference (first :: next :: rest) ((next :: rest).foldl (.binary .sub) first)
  | pair (b : BinaryOp) (x y : Code) : Expressed (.pair b) [x, y] (.binary b x y)
  | denial (x : Code) : Expressed .denial [x] (.deny x)
  | against (b : BinaryOp) (n : Nat) (x : Code) :
    Expressed (.against b n) [x] (.binary b x (.constant (.int n)))

/-- What the expression of an operator can be. -/
theorem expressed_of_ofOperation {op : Operator} {codes : List Code} {code : Code}
    (h : Code.ofOperation op codes = some code) :
  Expressed op.shape codes code
  := by
  unfold Code.ofOperation at h
  generalize op.shape = shape at h
  split at h
  case h_1 =>
    cases codes with
    | nil => contradiction
    | cons first rest =>
      cases h
      exact .chain _ first rest
  case h_3 hnotOne =>
    rcases codes with _ | ⟨first, _ | ⟨next, rest⟩⟩
    · contradiction
    · exact (hnotOne first rfl).elim
    · cases h
      exact .difference first next rest
  case h_7 => contradiction
  all_goals
    cases h
    constructor

/-- An operator over as many operands as it accepts has an expression. -/
theorem exists_ofOperation {op : Operator} {codes : List Code} (h : op.accepts codes.length) :
  ∃ code, Code.ofOperation op codes = some code
  := by
  unfold Operator.accepts Operator.least Operator.most? at h
  unfold Code.ofOperation
  generalize op.shape = shape at h
  cases shape with
  | chain b =>
    match codes with
    | [] => cases b <;> simp at h
    | first :: rest => exact ⟨_, rfl⟩
  | difference =>
    match codes with
    | [] => simp at h
    | [x] => exact ⟨_, rfl⟩
    | x :: y :: rest => exact ⟨_, rfl⟩
  | pair b =>
    match codes with
    | [] => simp at h
    | [x] => simp at h
    | [x, y] => exact ⟨_, rfl⟩
    | x :: y :: z :: rest =>
      simp only [List.length_cons, Bool.and_eq_true, decide_eq_true_eq] at h
      omega
  | denial =>
    match codes with
    | [] => simp at h
    | [x] => exact ⟨_, rfl⟩
    | x :: y :: rest =>
      simp only [List.length_cons, Bool.and_eq_true, decide_eq_true_eq] at h
      omega
  | against b n =>
    match codes with
    | [] => simp at h
    | [x] => exact ⟨_, rfl⟩
    | x :: y :: rest =>
      simp only [List.length_cons, Bool.and_eq_true, decide_eq_true_eq] at h
      omega

/-- The code of an operation is the expression of its operator. -/
theorem ofOperation_eq {ident : String → String} {op : Operator} {ts : List Tree}
    (h : op.accepts ts.length) :
  Code.ofOperation op (codesOf ident ts) = some (codeOf ident (.operation op ts))
  := by
  have hlength : (codesOf ident ts).length = ts.length := by
    rw [codesOf_eq_map, List.length_map]
  rw [← hlength] at h
  obtain ⟨code, hcode⟩ := exists_ofOperation h
  rw [codeOf, hcode, Option.getD_some]

/-- A tree is suspended and written out as its code. -/
def WrittenOut (t : Tree) : Prop :=
  ∃ u, t.suspend = .ok u ∧ Code.ofTree? u = some (codeOf mangle t)

/-- Trees that are written out one by one are written out together. -/
theorem writtenOut_all {ts : List Tree} (h : ∀ t ∈ ts, WrittenOut t) :
  ∃ us, Tree.suspendAll ts = .ok us ∧ Code.ofTrees? us = some (codesOf mangle ts)
  := by
  induction ts with
  | nil => exact ⟨[], rfl, rfl⟩
  | cons t ts ih =>
    obtain ⟨u, hu, hcode⟩ := h t List.mem_cons_self
    obtain ⟨us, hus, hcodes⟩ := ih fun t ht => h t (List.mem_cons_of_mem _ ht)
    refine ⟨u :: us, ?_, ?_⟩
    · rw [Tree.suspendAll, hu, hus]
      rfl
    · rw [Code.ofTrees?, hcode, hcodes, codesOf]
      rfl

/-- A function is written out when its body is. -/
theorem WrittenOut.abstraction {body : Tree} (h : WrittenOut body) (params : List String) :
  WrittenOut (.abstraction params body)
  := by
  obtain ⟨u, hu, hcode⟩ := h
  refine ⟨.abstraction params (.abstraction [] u), ?_, ?_⟩
  · rw [Tree.suspend, hu]
    rfl
  · rw [Code.ofTree?, Code.ofTree?, hcode, codeOf]
    rfl

/-- A choice is written out when its parts are. -/
theorem WrittenOut.conditional {test conseq alt : Tree} (htest : WrittenOut test)
    (hconseq : WrittenOut conseq) (halt : WrittenOut alt) :
  WrittenOut (.conditional .converted test conseq alt)
  := by
  obtain ⟨test', htest, htestCode⟩ := htest
  obtain ⟨conseq', hconseq, hconseqCode⟩ := hconseq
  obtain ⟨alt', halt, haltCode⟩ := halt
  refine ⟨.conditional .converted test' conseq' alt', ?_, ?_⟩
  · rw [Tree.suspend, htest, hconseq, halt]
    rfl
  · rw [Code.ofTree?, htestCode, hconseqCode, haltCode, codeOf]
    rfl

/-- A call is written out when its parts are. -/
theorem WrittenOut.application {rator : Tree} {rands : List Tree} (hrator : WrittenOut rator)
    (hrands : ∀ t ∈ rands, WrittenOut t) :
  WrittenOut (.application rator rands)
  := by
  obtain ⟨rator', hrator, hratorCode⟩ := hrator
  obtain ⟨rands', hrands, hrandsCode⟩ := writtenOut_all hrands
  refine ⟨.application rator' rands', ?_, ?_⟩
  · rw [Tree.suspend, hrator, hrands]
    rfl
  · rw [Code.ofTree?, hratorCode, hrandsCode, codeOf]
    rfl

/-- A variable is written out as its identifier. -/
theorem writtenOut_var (x : String) : WrittenOut (.var x) := by
  refine ⟨.var x, ?_, ?_⟩
  · rw [Tree.suspend]
  · rw [Code.ofTree?, codeOf]

/-- Threaded trees are written out. -/
theorem writtenOut_of_fragment
    {ak : String} {I : Idiom mangle ak} {role : Role} {t : Tree} (h : Fragment I role t) :
  WrittenOut t
  := by
  induction h with
  | literal n =>
    refine ⟨.literal n, ?_, ?_⟩
    · rw [Tree.suspend]
    · rw [Code.ofTree?, codeOf]
  | var _ => apply writtenOut_var
  | @operation op ts hcount _ ih =>
    obtain ⟨us, hus, hcodes⟩ := writtenOut_all ih
    refine ⟨.operation op us, ?_, ?_⟩
    · rw [Tree.suspend, hus]
      rfl
    · rw [Code.ofTree?, hcodes]
      exact ofOperation_eq hcount
  | choice _ _ _ ihtest ihconseq ihalt => exact ihtest.conditional ihconseq ihalt
  | function _ _ _ _ ih => apply ih.abstraction
  | handed _ _ ihcont ihvalue =>
    apply (writtenOut_var ak).application
    simpa using ⟨ihcont, ihvalue⟩
  | call _ _ _ ihrator ihrands ihcont =>
    apply ihrator.application
    intro t ht
    rcases List.mem_append.mp ht with ht | ht
    · exact ihrands t ht
    · cases List.mem_singleton.mp ht
      exact ihcont
  | branch _ _ _ ihtest ihconseq ihalt => exact ihtest.conditional ihconseq ihalt
  | given k => apply writtenOut_var
  | waiting _ _ ih => apply ih.abstraction

/-! ### Distinct parameters -/

/-- Expressions are proper when each of them is. -/
theorem areProper_iff {codes : List Code} :
  Code.areProper codes ↔ ∀ code ∈ codes, code.isProper
  := by
  induction codes with
  | nil => simp [Code.areProper]
  | cons code codes ih => simp [Code.areProper, ih]

/-- What holds of all operands holds of the expression of an operator, if it is kept by the ways
in which expressions of operators are put together. -/
theorem of_ofOperation
    {P : Code → Prop} (hconstant : ∀ n, P (.constant n)) (hnegate : ∀ a, P a → P (.negate a))
    (hdeny : ∀ a, P a → P (.deny a)) (hbinary : ∀ op a b, P a → P b → P (.binary op a b))
    {op : Operator} {codes : List Code} (hcodes : ∀ code ∈ codes, P code) {code : Code}
    (h : Code.ofOperation op codes = some code) :
  P code
  := by
  have hfold : ∀ (b : BinaryOp) {rest : List Code} {first : Code}, P first →
      (∀ code ∈ rest, P code) → P (rest.foldl (.binary b) first) := by
    intro b rest first hfirst hrest
    induction rest generalizing first with
    | nil => exact hfirst
    | cons next rest ih =>
      obtain ⟨hnext, hrest⟩ := List.forall_mem_cons.mp hrest
      exact ih (hbinary b first next hfirst hnext) hrest
  have hexpressed := expressed_of_ofOperation h
  generalize op.shape = shape at hexpressed
  cases hexpressed with
  | chain b first rest =>
    obtain ⟨hfirst, hrest⟩ := List.forall_mem_cons.mp hcodes
    exact hfold b hfirst hrest
  | negative x => exact hnegate x (hcodes x List.mem_cons_self)
  | difference first next rest =>
    obtain ⟨hfirst, hrest⟩ := List.forall_mem_cons.mp hcodes
    exact hfold .sub hfirst hrest
  | pair b x y =>
    obtain ⟨hx, hy⟩ := List.forall_mem_cons.mp hcodes
    exact hbinary b x y hx (hy y List.mem_cons_self)
  | denial x => exact hdeny x (hcodes x List.mem_cons_self)
  | against b n x => exact hbinary b x _ (hcodes x List.mem_cons_self) (hconstant _)

/-- What holds of constants and of the names of an idiom, of functions with suspended bodies, and is
kept by operators and choices, holds of the code of values and of continuations. -/
theorem of_fragment
    {ident : String → String} {ak : String} {I : Idiom ident ak} {P : Code → Prop}
    (hconstant : ∀ n, P (.constant n)) (hname : ∀ x, I.data x ∨ I.cont x → P (.name (ident x)))
    (hlambda : ∀ params k body, params ≠ [] → (∀ x ∈ params, I.data x ∨ I.cont x) → I.cont k →
      Fragment I (.tail k) body → P (codeOf ident (.abstraction params body)))
    (hnegate : ∀ a, P a → P (.negate a)) (hdeny : ∀ a, P a → P (.deny a))
    (hbinary : ∀ op a b, P a → P b → P (.binary op a b))
    (hchoose : ∀ a b c, P a → P b → P c → P (.choose a b c)) {role : Role} {t : Tree}
    (ht : Fragment I role t) (htail : ∀ k, role ≠ .tail k)
    (hcont : ∀ k, role = .cont k → I.cont k) :
  P (codeOf ident t)
  := by
  induction ht with
  | literal n => exact hconstant n
  | var hx => exact hname _ (.inl hx)
  | operation hcount _ ih =>
    apply of_ofOperation hconstant hnegate hdeny hbinary _ (ofOperation_eq hcount)
    intro code hcode
    rw [codesOf_eq_map] at hcode
    obtain ⟨t, ht, rfl⟩ := List.mem_map.mp hcode
    exact ih t ht htail hcont
  | choice _ _ _ ihtest ihconseq ihalt =>
    exact hchoose _ _ _ (ihtest htail hcont) (ihconseq htail hcont) (ihalt htail hcont)
  | @function params k body hparams hk _ hbody _ =>
    apply hlambda _ k body _ _ hk hbody
    · exact List.append_ne_nil_of_right_ne_nil _ (List.cons_ne_nil _ _)
    · intro x hx
      rcases List.mem_append.mp hx with hx | hx
      · exact .inl (hparams x hx)
      · cases List.mem_singleton.mp hx
        exact .inr hk
  | given k => exact hname k (.inr (hcont k rfl))
  | @waiting k s body hs hbody _ =>
    apply hlambda [s] k body (List.cons_ne_nil _ _) _ (hcont k rfl) hbody
    intro x hx
    cases List.mem_singleton.mp hx
    exact .inl hs
  | @handed k _ _ _ _ _ _ => exact absurd rfl (htail k)
  | @call k _ _ _ _ _ _ _ _ _ => exact absurd rfl (htail k)
  | @branch k _ _ _ _ _ _ _ _ _ => exact absurd rfl (htail k)

/-- The parameters of a function and the name of its continuation are written out differently. -/
theorem nodup_map_params
    {ident : String → String} {ak : String} (I : Idiom ident ak) {params : List String} {k : String}
    (hparams : ∀ x ∈ params, I.data x) (hk : I.cont k) (hnodup : params.Nodup) :
  ((params ++ [k]).map ident).Nodup
  := by
  have hdistinct : (params ++ [k]).Nodup := by
    rw [List.nodup_append]
    refine ⟨hnodup, List.nodup_singleton k, ?_⟩
    rintro x hx y hy rfl
    cases List.mem_singleton.mp hy
    exact I.cont_notData hk (hparams _ hx)
  have hnames : ∀ x ∈ params ++ [k], I.data x ∨ I.cont x := by
    intro x hx
    rcases List.mem_append.mp hx with hx | hx
    · exact .inl (hparams x hx)
    · cases List.mem_singleton.mp hx
      exact .inr hk
  apply List.Nodup.map_on _ hdistinct
  intro x hx y hy hxy
  exact I.injective (hnames x hx) (hnames y hy) hxy

/-- In the code of a threaded tree the parameters of every function are distinct. -/
theorem isProper_codeOf
    {ident : String → String} {ak : String} {I : Idiom ident ak} {role : Role} {t : Tree}
    (h : Fragment I role t) :
  (codeOf ident t).isProper
  := by
  induction h with
  | literal n => rfl
  | var _ => rfl
  | @operation op ts hcount _ ih =>
    refine of_ofOperation (P := fun code => code.isProper) (fun n => rfl) (fun a ha => ha)
      (fun a ha => ha) ?_ ?_ (ofOperation_eq hcount)
    · intro op a b ha hb
      rw [Code.isProper, ha, hb]
      rfl
    · rw [codesOf_eq_map]
      simpa using ih
  | choice _ _ _ ihtest ihconseq ihalt =>
    rw [codeOf, Code.isProper, ihtest, ihconseq, ihalt]
    rfl
  | @function params k _ hparams hk hnodup _ ih =>
    rw [codeOf, Code.isProper, Code.isProper, ih, decide_eq_true (nodup_map_params I hparams hk hnodup)]
    rfl
  | handed _ _ ihcont ihvalue =>
    simp only [codeOf, codesOf, Code.isProper, Code.areProper, ihcont, ihvalue, Bool.and_true]
  | call _ _ _ ihrator ihrands ihcont =>
    rw [codeOf, Code.isProper, ihrator, Bool.true_and, areProper_iff, codesOf_eq_map]
    intro code hcode
    obtain ⟨t, ht, rfl⟩ := List.mem_map.mp hcode
    rcases List.mem_append.mp ht with ht | ht
    · exact ihrands t ht
    · cases List.mem_singleton.mp ht
      exact ihcont
  | branch _ _ _ ihtest ihconseq ihalt =>
    rw [codeOf, Code.isProper, ihtest, ihconseq, ihalt]
    rfl
  | given k => rfl
  | waiting _ _ ih =>
    simp only [codeOf, Code.isProper, List.map_cons, List.map_nil, ih, List.nodup_singleton,
      List.nodup_nil, decide_true, Bool.and_true]

end Machine

/-! ### Threaded trees -/

namespace Tree

section Threaded

variable {ident : String → String} {ak : String} {I : Idiom ident ak} {start finish : Int}
variable (hfresh : ∀ {i}, start ≤ i → i < finish → I.data (nameOf "s" i) ∧ I.cont (nameOf "k" i))
include hfresh

/-- Threaded with numbers from `start` on and below `finish`, the tree is a value if it is trivial,
and with a continuation it is a tail. -/
def Threads (I : Idiom ident ak) (start finish : Int) (t : Tree) : Prop :=
  (∀ x ∈ t.names, I.data x) → t.hasDistinctParams →
    ∀ {r : Renaming}, (∀ f own, r = some (f, own) → I.data own) → ∀ {n : Int}, start ≤ n →
      (t.isTrivial → (threaded ak none (r.tree t) n).2 ≤ finish →
        Fragment I .value (threaded ak none (r.tree t) n).1)
      ∧ ∀ {k : String} {cont : Tree}, Fragment I (.cont k) cont →
        (threaded ak (some cont) (r.tree t) n).2 ≤ finish →
          Fragment I (.tail k) (threaded ak (some cont) (r.tree t) n).1

omit hfresh in
/-- A trivial tree that is a value is a tail when it is handed to a continuation. -/
theorem threads_of_isTrivial
    {t : Tree} (ht : Surface false t) (htrivial : t.isTrivial)
    (h : (∀ x ∈ t.names, I.data x) → t.hasDistinctParams →
      ∀ {r : Renaming}, (∀ f own, r = some (f, own) → I.data own) → ∀ {n : Int}, start ≤ n →
        (threaded ak none (r.tree t) n).2 ≤ finish →
          Fragment I .value (threaded ak none (r.tree t) n).1) :
  Threads I start finish t
  := by
  intro hnames hdistinct r hr n hn
  have hvalue := h hnames hdistinct hr hn
  refine ⟨fun _ => hvalue, ?_⟩
  intro k cont hcont
  rw [threaded_of_isTrivial ak (Renaming.surface_tree ht r)
    ((r.isTrivial_tree t).trans htrivial)]
  intro hend
  exact .handed hcont (hvalue hend)

section Lists

variable {ts : List Tree} (hts : ∀ t ∈ ts, Threads I start finish t)
variable (hnames : ∀ x ∈ namesAll ts, I.data x) (hdistinct : haveDistinctParams ts)
variable {r : Renaming} (hr : ∀ f own, r = some (f, own) → I.data own)
include hts hnames hdistinct hr

/-- The parts of a tree are values. -/
theorem fragment_of_mem_threadedParts {n : Int} (hn : start ≤ n)
    (hend : (threadedParts ak (r.trees ts) n).2 ≤ finish) :
  ∀ u ∈ (threadedParts ak (r.trees ts) n).1.1, Fragment I .value u
  := by
  induction ts generalizing n with
  | nil =>
    rw [Renaming.trees, threadedParts]
    intro u hu
    contradiction
  | cons t ts ih =>
    rw [haveDistinctParams, Bool.and_eq_true] at hdistinct
    simp only [namesAll, List.mem_append] at hnames
    have ih := fun {n} => @ih (fun t ht => hts t (List.mem_cons_of_mem _ ht))
      (fun x hx => hnames x (.inr hx)) hdistinct.2 n
    rw [Renaming.trees, threadedParts] at hend ⊢
    by_cases htrivial : t.isTrivial
    · rw [if_pos ((r.isTrivial_tree t).trans htrivial)] at hend ⊢
      have hfirst := hts t List.mem_cons_self (fun x hx => hnames x (.inl hx)) hdistinct.1 hr hn
      have hle := hn.trans (le_threaded ak none (r.tree t) n)
      have hfirstEnd := (le_threadedParts ak (r.trees ts) _).trans hend
      exact List.forall_mem_cons.mpr ⟨hfirst.1 htrivial hfirstEnd, ih hle hend⟩
    · rw [if_neg (by rwa [r.isTrivial_tree t])] at hend ⊢
      have hlt := (le_threadedParts ak (r.trees ts) (n + 1)).trans hend
      exact List.forall_mem_cons.mpr ⟨.var (hfresh hn (by omega)).1, ih (by omega) hend⟩

/-- Computing parts first makes a tail of a tail. -/
theorem fragment_threadedPending
    {n m : Int} (hn : start ≤ n) (hparts : (threadedParts ak (r.trees ts) n).2 ≤ finish)
    (hm : start ≤ m) {k : String} {result : Tree} (hresult : Fragment I (.tail k) result)
    (hend : (threadedPending ak (r.trees ts) (threadedParts ak (r.trees ts) n).1.2 result m).2
      ≤ finish) :
  Fragment I (.tail k)
    (threadedPending ak (r.trees ts) (threadedParts ak (r.trees ts) n).1.2 result m).1
  := by
  induction ts generalizing n with
  | nil =>
    simp only [Renaming.trees, threadedPending]
    exact hresult
  | cons t ts ih =>
    rw [haveDistinctParams, Bool.and_eq_true] at hdistinct
    simp only [namesAll, List.mem_append] at hnames
    have ih := fun {n} => @ih (fun t ht => hts t (List.mem_cons_of_mem _ ht))
      (fun x hx => hnames x (.inr hx)) hdistinct.2 n
    rw [Renaming.trees, threadedParts] at hparts hend ⊢
    by_cases htrivial : t.isTrivial
    · rw [if_pos ((r.isTrivial_tree t).trans htrivial)] at hparts hend ⊢
      rw [threadedPending] at hend ⊢
      exact ih (hn.trans (le_threaded ak none (r.tree t) n)) hparts hend
    · rw [if_neg (by rwa [r.isTrivial_tree t])] at hparts hend ⊢
      rw [threadedPending] at hend ⊢
      have hlt := (le_threadedParts ak (r.trees ts) (n + 1)).trans hparts
      have hle := le_threadedPending ak (r.trees ts)
        (threadedParts ak (r.trees ts) (n + 1)).1.2 result m
      have hrest := ih (by omega) hparts ((le_threaded ak _ _ _).trans hend)
      have hfirst := hts t List.mem_cons_self (fun x hx => hnames x (.inl hx)) hdistinct.1 hr
        (hm.trans hle)
      exact hfirst.2 (.waiting (hfresh hn (by omega)).1 hrest) hend

end Lists

/-- Threaded surface trees are values and tails. -/
theorem threads_of_surface {t : Tree} (ht : Surface false t) : Threads I start finish t := by
  induction ht with
  | literal value =>
    apply threads_of_isTrivial (.literal value) rfl
    intro _ _ r _ n _ _
    rw [Renaming.tree, threaded, handed]
    exact .literal value
  | var x =>
    apply threads_of_isTrivial (.var x) rfl
    intro hnames _ r hr n _ _
    rw [Renaming.tree, threaded, handed]
    apply Fragment.var
    obtain ⟨own, hown, hname⟩ | hname := r.name_cases x
    · rw [hname]
      exact hr x own hown
    · rw [hname]
      exact hnames x (List.mem_singleton_self x)
  | @operation op operands hcount hoperands ih =>
    intro hnames hdistinct r hr n hn
    have hparts : (threadedParts ak (r.trees operands) n).2 ≤ finish →
        Fragment I .value (.operation op (threadedParts ak (r.trees operands) n).1.1) := by
      intro hend
      apply Fragment.operation
      · rw [length_threadedParts, Renaming.trees_eq_map, List.length_map]
        exact hcount
      · exact fragment_of_mem_threadedParts hfresh ih hnames hdistinct hr hn hend
    rw [Renaming.tree]
    constructor
    · intro htrivial
      have htrivial' : allTrivial (r.trees operands) :=
        (r.allTrivial_trees operands).trans htrivial
      rw [threaded, threadedPending_of_allTrivial ak htrivial', handed]
      exact hparts
    · intro k cont hcont hend
      rw [threaded] at hend ⊢
      have hend' := (le_threadedPending ak (r.trees operands) _ _ _).trans hend
      apply fragment_threadedPending hfresh ih hnames hdistinct hr hn hend' _ _ hend
      · exact hn.trans (le_threadedParts ak (r.trees operands) n)
      · exact .handed hcont (hparts hend')
  | @trivialConditional test conseq alt htrivial htest hconseq halt ihtest ihconseq ihalt =>
    apply threads_of_isTrivial (.trivialConditional htrivial htest hconseq halt) rfl
    intro hnames hdistinct r hr n hn hend
    simp only [names, List.mem_append] at hnames
    simp only [hasDistinctParams, Bool.and_eq_true] at hdistinct
    rw [Renaming.tree, threaded] at hend ⊢
    have hconseqEnd := (le_threaded ak none (r.tree alt) _).trans hend
    have htestEnd := (le_threaded ak none (r.tree conseq) _).trans hconseqEnd
    have htest := ihtest (fun x hx => hnames x (.inl (.inl hx))) hdistinct.1.1 hr hn
    have hn := hn.trans (le_threaded ak none (r.tree test) n)
    have hconseq := ihconseq (fun x hx => hnames x (.inl (.inr hx))) hdistinct.1.2 hr hn
    have hn := hn.trans (le_threaded ak none (r.tree conseq) _)
    have halt := ihalt (fun x hx => hnames x (.inr hx)) hdistinct.2 hr hn
    exact .choice (htest.1 htrivial.1 htestEnd) (hconseq.1 htrivial.2.1 hconseqEnd)
      (halt.1 htrivial.2.2 hend)
  | @seriousConditional test conseq alt htest hconseq halt ihtest ihconseq ihalt =>
    intro hnames hdistinct r hr n hn
    refine ⟨fun htrivial => by contradiction, ?_⟩
    intro k cont hcont hend
    simp only [names, List.mem_append] at hnames
    simp only [hasDistinctParams, Bool.and_eq_true] at hdistinct
    have htrees : [r.tree test] = r.trees [test] := by rw [Renaming.trees, Renaming.trees]
    have hparts : ∀ t ∈ [test], Threads I start finish t := by simpa using ihtest
    have hpartNames : ∀ x ∈ namesAll [test], I.data x := by
      intro x hx
      rw [namesAll, namesAll, List.append_nil] at hx
      exact hnames x (.inl (.inl hx))
    have hpartsDistinct : haveDistinctParams [test] := by
      rw [haveDistinctParams, haveDistinctParams, hdistinct.1.1]
      rfl
    rw [Renaming.tree, threaded_conditional, htrees] at hend ⊢
    have hpartsEnd := (le_threadedPending ak (r.trees [test]) _ _ _).trans hend
    have haltEnd := (le_threadedParts ak (r.trees [test]) _).trans hpartsEnd
    have hconseqEnd := (le_threaded ak (some cont) (r.tree alt) _).trans haltEnd
    have hconseq := ihconseq (fun x hx => hnames x (.inl (.inr hx))) hdistinct.1.2 hr hn
    have hn' := hn.trans (le_threaded ak (some cont) (r.tree conseq) n)
    have halt := ihalt (fun x hx => hnames x (.inr hx)) hdistinct.2 hr hn'
    have hn'' := hn'.trans (le_threaded ak (some cont) (r.tree alt) _)
    apply fragment_threadedPending hfresh hparts hpartNames hpartsDistinct hr hn'' hpartsEnd _ _ hend
    · exact hn''.trans (le_threadedParts ak _ _)
    · have hvalue :=
        fragment_of_mem_threadedParts hfresh hparts hpartNames hpartsDistinct hr hn'' hpartsEnd
      have hlength := length_threadedParts ak (r.trees [test])
        (threaded ak (some cont) (r.tree alt) (threaded ak (some cont) (r.tree conseq) n).2).2
      obtain ⟨test', htest'⟩ := List.length_eq_one_iff.mp hlength
      rw [htest'] at hvalue ⊢
      exact .branch (hvalue test' List.mem_cons_self) (hconseq.2 hcont hconseqEnd)
        (halt.2 hcont haltEnd)
  | @abstraction params body hbody ih =>
    apply threads_of_isTrivial (.abstraction params hbody) rfl
    intro hnames hdistinct r hr n hn hend
    simp only [names, List.mem_append] at hnames
    rw [hasDistinctParams, Bool.and_eq_true, decide_eq_true_eq] at hdistinct
    have hr' : ∀ f own, r.under params = some (f, own) → I.data own := by
      intro f own h
      rw [Renaming.under, Option.filter_eq_some_iff] at h
      exact hr f own h.1
    have hbody := ih (fun x hx => hnames x (.inr hx)) hdistinct.2 hr' (by omega : start ≤ n + 1)
    rw [Renaming.tree, threaded] at hend ⊢
    have hlt := (le_threaded ak _ ((r.under params).tree body) (n + 1)).trans hend
    exact .function (fun x hx => hnames x (.inl hx)) (hfresh hn (by omega)).2 hdistinct.1
      (hbody.2 (.given _) hend)
  | definition name params hnested _ _ => contradiction
  | @application rator rands hrator hrands ihrator ihrands =>
    intro hnames hdistinct r hr n hn
    refine ⟨fun htrivial => by contradiction, ?_⟩
    intro k cont hcont hend
    have hparts : ∀ t ∈ rator :: rands, Threads I start finish t :=
      List.forall_mem_cons.mpr ⟨ihrator, ihrands⟩
    rw [Renaming.tree, threaded_application, ← Renaming.trees] at hend ⊢
    have hpartsEnd := (le_threadedPending ak (r.trees (rator :: rands)) _ _ _).trans hend
    apply fragment_threadedPending hfresh hparts hnames hdistinct hr hn hpartsEnd _ _ hend
    · exact hn.trans (le_threadedParts ak _ _)
    · have hvalue := fragment_of_mem_threadedParts hfresh hparts hnames hdistinct hr hn hpartsEnd
      have hlength := length_threadedParts ak (r.trees (rator :: rands)) n
      generalize (threadedParts ak (r.trees (rator :: rands)) n).1.1 = parts at hvalue hlength
      cases parts with
      | nil =>
        rw [Renaming.trees] at hlength
        contradiction
      | cons rator' rands' =>
        obtain ⟨hrator', hrands'⟩ := List.forall_mem_cons.mp hvalue
        exact .call hrator' hrands' hcont

end Threaded

end Tree

end Springboard
