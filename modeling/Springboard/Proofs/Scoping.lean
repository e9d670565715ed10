import Springboard.Proofs.Failure
import Springboard.Proofs.FreeVariables

/-!
# Scopes

Compilation gives a definition a fresh name of its own and a continuation, and it binds the values
of what is computed first. On a way down a threaded tree, each number that was drawn for a name is
met at most once, before the way goes on in the continuation. Main statement: compilation keeps the
free variables of a definition, up to its own name, provided that no name of the source looks like a
fresh name; every fresh variable is bound, and none is bound twice on a way down the tree.
-/

namespace Springboard

open NameSource

namespace Tree

/-! ### Ways down a tree -/

/-- The names that are bound on a way from the root of the tree down to one of its nodes, in
order. -/
inductive Scope : Tree → List String → Prop
  | root (t : Tree) : Scope t []
  | child {t c : Tree} {xs : List String} (hc : c ∈ t.children) (h : Scope c xs) :
    Scope t (t.binders ++ xs)

/-- The name is bound somewhere in the tree. -/
def Binds (t : Tree) (x : String) : Prop :=
  ∃ xs, t.Scope xs ∧ x ∈ xs

/-- A way down a tree stops at its root or goes on in a child. -/
theorem scope_iff {t : Tree} {xs : List String} :
  t.Scope xs ↔ xs = [] ∨ ∃ c ∈ t.children, ∃ ys, c.Scope ys ∧ xs = t.binders ++ ys
  := by
  constructor
  · intro h
    cases h with
    | root => exact .inl rfl
    | child hc h => exact .inr ⟨_, hc, _, h, rfl⟩
  · rintro (rfl | ⟨c, hc, ys, h, rfl⟩)
    · exact .root t
    · exact .child hc h

/-- A way down a tree goes down another one if the roots bind the same names and it does so below
them. -/
theorem Scope.of_children {t u : Tree} {xs : List String} (hxs : u.Scope xs)
    (hbinders : u.binders = t.binders)
    (h : ∀ c ∈ u.children, ∃ c' ∈ t.children, ∀ xs, c.Scope xs → c'.Scope xs) :
  t.Scope xs
  := by
  obtain rfl | ⟨c, hc, ys, hys, rfl⟩ := scope_iff.mp hxs
  · exact .root t
  · obtain ⟨c', hc', hscope⟩ := h c hc
    rw [hbinders]
    exact .child hc' (hscope ys hys)

/-- A renaming changes no binder. -/
theorem scope_of_tree {t : Tree} (h : Surface false t) (r : Renaming) {xs : List String}
    (hxs : (r.tree t).Scope xs) :
  t.Scope xs
  := by
  induction h generalizing r xs with
  | literal value => exact hxs
  | var y =>
    rw [Renaming.tree] at hxs
    exact hxs.of_children rfl fun c hc => by contradiction
  | operation _ _ ih =>
    rw [Renaming.tree, Renaming.trees_eq_map] at hxs
    refine hxs.of_children rfl fun u hu => ?_
    obtain ⟨t, ht, rfl⟩ := List.mem_map.mp hu
    exact ⟨t, ht, fun ys => ih t ht r⟩
  | trivialConditional _ _ _ _ ihtest ihconseq ihalt
  | seriousConditional _ _ _ ihtest ihconseq ihalt =>
    rw [Renaming.tree] at hxs
    refine hxs.of_children rfl ?_
    simp only [children, List.forall_mem_cons, List.exists_mem_cons_iff]
    exact ⟨.inl fun ys => ihtest r, .inr (.inl fun ys => ihconseq r),
      .inr (.inr (.inl fun ys => ihalt r)), List.forall_mem_nil _⟩
  | abstraction params _ ih =>
    rw [Renaming.tree] at hxs
    refine hxs.of_children rfl fun u hu => ?_
    cases List.mem_singleton.mp hu
    exact ⟨_, List.mem_cons_self, fun ys => ih (r.under params)⟩
  | definition name params hnested _ _ => contradiction
  | application _ _ ihrator ihrands =>
    rw [Renaming.tree, Renaming.trees_eq_map] at hxs
    refine hxs.of_children rfl fun u hu => ?_
    obtain rfl | hu := List.mem_cons.mp hu
    · exact ⟨_, List.mem_cons_self, fun ys => ihrator r⟩
    · obtain ⟨t, ht, rfl⟩ := List.mem_map.mp hu
      exact ⟨t, List.mem_cons_of_mem _ ht, fun ys => ihrands t ht r⟩

/-- A way down a tree that is suspended, and perhaps delayed, binds the same names as before. -/
theorem scope_of_suspendsTo {t u : Tree} {xs : List String} (h : SuspendsTo t u)
    (hxs : u.Scope xs) :
  t.Scope xs
  := by
  induction hxs generalizing t with
  | root u => exact .root t
  | @child u c xs hc hscope ih =>
    obtain ⟨b, hb, rfl | rfl⟩ := h
    · obtain ⟨y, rfl, rfl⟩ | ⟨-, -, hsame, hchildren⟩ := suspend_cases hb
      · contradiction
      · obtain ⟨c₀, hc₀, hrelated⟩ := exists_of_mem_right hchildren hc
        rw [hsame]
        exact .child hc₀ (ih hrelated)
    · cases List.mem_singleton.mp hc
      exact ih ⟨c, hb, .inl rfl⟩

/-! ### Binders of threaded trees -/

/-- The names are bound in the source, or they are fresh names with numbers of the given kind; and no
name is among them twice that is not bound in the source. -/
def Spends (source : String → Prop) (number : Int → Prop) (xs : List String) : Prop :=
  (∀ x ∈ xs, source x ∨ ∃ base i, number i ∧ x = nameOf base i)
    ∧ ∀ x, ¬ source x → xs.count x ≤ 1

namespace Spends

variable {source : String → Prop} {number number' : Int → Prop} {xs ys : List String}

/-- No name uses no number. -/
theorem nil : Spends source number [] := by
  exact ⟨List.forall_mem_nil _, fun x _ => Nat.zero_le 1⟩

/-- Names of the source use no number. -/
theorem of_source (h : ∀ x ∈ xs, source x) : Spends source number xs := by
  refine ⟨fun x hx => .inl (h x hx), fun x hx => ?_⟩
  rw [List.count_eq_zero_of_not_mem fun hmem => hx (h x hmem)]
  exact Nat.zero_le 1

/-- A fresh name uses its number. -/
theorem singleton {base : String} {i : Int} (h : number i) : Spends source number [nameOf base i] := by
  refine ⟨List.forall_mem_singleton.mpr (.inr ⟨base, i, h, rfl⟩), fun x _ => ?_⟩
  exact List.count_le_length

/-- Numbers of a kind are numbers of a wider kind. -/
theorem mono (h : Spends source number xs) (hnumber : ∀ i, number i → number' i) :
  Spends source number' xs
  := by
  refine ⟨fun x hx => (h.1 x hx).imp_right ?_, h.2⟩
  rintro ⟨base, i, hi, rfl⟩
  exact ⟨base, i, hnumber i hi, rfl⟩

/-- Names that use different numbers are used together. -/
theorem append (hxs : Spends source number xs) (hys : Spends source number' ys)
    (hdisjoint : ∀ i, number i → ¬ number' i) :
  Spends source (fun i => number i ∨ number' i) (xs ++ ys)
  := by
  constructor
  · intro x hx
    obtain hx | hx := List.mem_append.mp hx
    · exact (hxs.mono fun i => .inl).1 x hx
    · exact (hys.mono fun i => .inr).1 x hx
  · intro x hx
    rw [List.count_append]
    by_cases hmem : x ∈ xs
    · have hnot : x ∉ ys := by
        intro hmem'
        obtain ⟨base, i, hi, rfl⟩ := (hxs.1 x hmem).resolve_left hx
        obtain ⟨base', j, hj, heq⟩ := (hys.1 _ hmem').resolve_left hx
        obtain ⟨-, rfl⟩ := nameOf_injective heq
        exact hdisjoint i hi hj
      rw [List.count_eq_zero_of_not_mem hnot]
      exact hxs.2 x hx
    · rw [List.count_eq_zero_of_not_mem hmem, Nat.zero_add]
      exact hys.2 x hx

end Spends

/-- Every way down the tree uses numbers from `m` up to `n` and then goes on in another tree, if it
does not stop. -/
def Leads (source : String → Prop) (m n : Int) (further : List String → Prop) (t : Tree) : Prop :=
  ∀ xs, t.Scope xs → ∃ ys zs, xs = ys ++ zs ∧ Spends source (fun i => m ≤ i ∧ i < n) ys
    ∧ (zs = [] ∨ further zs)

namespace Leads

variable {source : String → Prop} {further further' : List String → Prop} {t : Tree}

/-- The numbers may be taken from a wider range. -/
theorem mono {m m' n n' : Int} (h : Leads source m n further t) (hm : m' ≤ m) (hn : n ≤ n') :
  Leads source m' n' further t
  := by
  intro xs hxs
  obtain ⟨ys, zs, rfl, hspends, hzs⟩ := h xs hxs
  exact ⟨ys, zs, rfl, hspends.mono fun i hi => ⟨by omega, by omega⟩, hzs⟩

/-- A tree that leads to trees that lead on with earlier numbers leads on itself. -/
theorem trans {l m n : Int} (h : Leads source m n further t) (hlm : l ≤ m) (hmn : m ≤ n)
    (hfurther : ∀ xs, further xs → ∃ u, Leads source l m further' u ∧ u.Scope xs) :
  Leads source l n further' t
  := by
  intro xs hxs
  obtain ⟨ys, zs, rfl, hspends, hzs⟩ := h xs hxs
  obtain rfl | hzs := hzs
  · exact ⟨ys, [], rfl, hspends.mono fun i hi => ⟨by omega, hi.2⟩, .inl rfl⟩
  obtain ⟨u, hu, hzs⟩ := hfurther zs hzs
  obtain ⟨ys', zs', rfl, hspends', hzs'⟩ := hu zs hzs
  refine ⟨ys ++ ys', zs', (List.append_assoc _ _ _).symm, ?_, hzs'⟩
  refine (hspends.append hspends' fun i hi hi' => by omega).mono fun i hi => ?_
  omega

end Leads

/-- However a continuation is threaded through the tree, a way down the result uses the numbers of
that and goes on in the continuation. -/
def LeadsToContinuation (ak : String) (source : String → Prop) (t : Tree) : Prop :=
  ∀ k? n, Leads source n (threaded ak k? t n).2 (fun xs => ∃ k ∈ k?, k.Scope xs)
    (threaded ak k? t n).1

section Threaded

variable {ak : String} {source : String → Prop}

/-- A way down a node that binds nothing stops there or is a way down a child. -/
theorem scope_of_binders_eq_nil {t : Tree} (ht : t.binders = []) {xs : List String}
    (h : t.Scope xs) :
  xs = [] ∨ ∃ c ∈ t.children, c.Scope xs
  := by
  obtain hxs | ⟨c, hc, ys, hys, rfl⟩ := scope_iff.mp h
  · exact .inl hxs
  · rw [ht]
    exact .inr ⟨c, hc, hys⟩

/-- Nothing is bound in a variable. -/
theorem scope_var {x : String} {xs : List String} (h : (var x).Scope xs) : xs = [] := by
  obtain hxs | ⟨c, hc, -⟩ := scope_of_binders_eq_nil rfl h
  · exact hxs
  · contradiction

/-- A way down a value that is handed on goes down the value or the continuation. -/
theorem scope_handed {k? : Option Tree} {value : Tree} {xs : List String}
    (h : (handed ak k? value).Scope xs) :
  value.Scope xs ∨ ∃ k ∈ k?, k.Scope xs
  := by
  cases k? with
  | none => exact .inl h
  | some k =>
    obtain rfl | ⟨c, hc, hscope⟩ := scope_of_binders_eq_nil rfl h
    · exact .inl (.root value)
    · have hc : c ∈ [var ak, k, value] := hc
      simp only [List.mem_cons, List.not_mem_nil, or_false] at hc
      obtain rfl | rfl | rfl := hc
      · rw [scope_var hscope]
        exact .inl (.root value)
      · exact .inr ⟨_, rfl, hscope⟩
      · exact .inl hscope

/-- A way down a value that stands for a part uses numbers that are not those of other parts. -/
theorem spends_of_mem_threadedParts {ts : List Tree}
    (h : ∀ t ∈ ts, LeadsToContinuation ak source t) (n : Int) :
  ∀ v ∈ (threadedParts ak ts n).1.1, ∀ xs, v.Scope xs →
    Spends source (fun i => (n ≤ i ∧ i < (threadedParts ak ts n).2)
      ∧ some (nameOf "s" i) ∉ (threadedParts ak ts n).1.2) xs
  := by
  induction ts generalizing n with
  | nil =>
    rw [threadedParts]
    intro v hv
    contradiction
  | cons t ts ih =>
    obtain ⟨ht, hts⟩ := List.forall_mem_cons.mp h
    rw [threadedParts]
    split
    · have hle := le_threaded ak none t n
      have hle' := le_threadedParts ak ts (threaded ak none t n).2
      refine List.forall_mem_cons.mpr ⟨?_, ?_⟩
      · intro xs hxs
        obtain ⟨ys, zs, rfl, hspends, rfl | ⟨k, hk, -⟩⟩ := ht none n xs hxs
        · rw [List.append_nil]
          refine hspends.mono fun i hi => ⟨⟨hi.1, by dsimp only; omega⟩, ?_⟩
          intro hmem
          obtain ⟨j, hj, -, heq⟩ := number_of_mem_pending (by simpa using hmem)
          obtain ⟨-, rfl⟩ := nameOf_injective heq
          omega
        · contradiction
      · intro v hv xs hxs
        refine (ih hts _ v hv xs hxs).mono fun i hi => ⟨⟨by omega, hi.1.2⟩, ?_⟩
        simpa using hi.2
    · refine List.forall_mem_cons.mpr ⟨?_, ?_⟩
      · intro xs hxs
        rw [scope_var hxs]
        exact .nil
      · intro v hv xs hxs
        refine (ih hts _ v hv xs hxs).mono fun i hi => ⟨⟨by omega, hi.1.2⟩, ?_⟩
        intro hmem
        obtain heq | hmem := List.mem_cons.mp hmem
        · obtain ⟨-, rfl⟩ := nameOf_injective (Option.some.inj heq)
          omega
        · exact hi.2 hmem

/-- A way down what is computed first in front of a tree uses the names of the values and numbers of
the computations, and goes on in the tree. -/
theorem exists_of_scope_threadedPending {ts : List Tree}
    (h : ∀ t ∈ ts, LeadsToContinuation ak source t) {n m : Int}
    (hm : (threadedParts ak ts n).2 ≤ m) (result : Tree) {xs : List String}
    (hxs : (threadedPending ak ts (threadedParts ak ts n).1.2 result m).1.Scope xs) :
  ∃ ys zs, xs = ys ++ zs
    ∧ Spends source (fun i =>
        (m ≤ i ∧ i < (threadedPending ak ts (threadedParts ak ts n).1.2 result m).2)
          ∨ some (nameOf "s" i) ∈ (threadedParts ak ts n).1.2) ys
    ∧ (zs = [] ∨ result.Scope zs)
  := by
  induction ts generalizing n xs with
  | nil =>
    rw [threadedParts, threadedPending] at hxs
    · exact ⟨[], xs, rfl, .nil, .inr hxs⟩
    all_goals intros; contradiction
  | cons t ts ih =>
    obtain ⟨ht, hts⟩ := List.forall_mem_cons.mp h
    rw [threadedParts] at hm hxs ⊢
    split at hm
    · rename_i htrivial
      rw [if_pos htrivial] at hxs ⊢
      rw [threadedPending] at hxs ⊢
      obtain ⟨ys, zs, rfl, hspends, hfurther⟩ := ih hts hm hxs
      exact ⟨ys, zs, rfl, hspends.mono fun i hi => hi.imp_right (List.mem_cons_of_mem _), hfurther⟩
    · rename_i hserious
      rw [if_neg hserious] at hxs ⊢
      rw [threadedPending] at hxs ⊢
      dsimp only at hm hxs ⊢
      generalize hrest : threadedPending ak ts (threadedParts ak ts (n + 1)).1.2 result m = rest
        at hxs ⊢
      have hle : m ≤ rest.2 := hrest ▸ le_threadedPending ak ts _ result m
      have hle' := (le_threadedParts ak ts (n + 1)).trans hm
      have hlast := le_threaded ak (some (abstraction [nameOf "s" n] rest.1)) t rest.2
      obtain ⟨ys, zs, rfl, hspends, hzs⟩ := ht _ _ xs hxs
      have hfirst : Spends source (fun i => m ≤ i ∧ i < (threaded ak (some (abstraction
          [nameOf "s" n] rest.1)) t rest.2).2 ∨ some (nameOf "s" i) ∈ some (nameOf "s" n)
          :: (threadedParts ak ts (n + 1)).1.2) ys := hspends.mono fun i hi => .inl ⟨by omega, hi.2⟩
      obtain rfl | ⟨k, hk, hzs⟩ := hzs
      · exact ⟨ys, [], rfl, hfirst, .inl rfl⟩
      cases hk
      obtain rfl | ⟨c, hc, ws, hws, rfl⟩ := scope_iff.mp hzs
      · exact ⟨ys, [], rfl, hfirst, .inl rfl⟩
      cases List.mem_singleton.mp hc
      rw [← hrest] at hws
      obtain ⟨ys', zs', rfl, hspends', hfurther⟩ := ih hts hm hws
      refine ⟨ys ++ ([nameOf "s" n] ++ ys'), zs', by simp [binders], ?_, hfurther⟩
      have hpending : ∀ i, some (nameOf "s" i) ∈ (threadedParts ak ts (n + 1)).1.2 →
          n + 1 ≤ i ∧ i < m := by
        intro i hi
        obtain ⟨j, hj, hlt, heq⟩ := number_of_mem_pending hi
        obtain ⟨-, rfl⟩ := nameOf_injective heq
        exact ⟨hj, by omega⟩
      have hs : Spends source (· = n) [nameOf "s" n] := .singleton rfl
      refine (hspends.append (hs.append hspends' ?_) ?_).mono ?_
      · rintro i rfl (⟨hi, -⟩ | hi)
        · omega
        · have := hpending i hi
          omega
      · rintro i ⟨hi, -⟩ (rfl | ⟨-, hi'⟩ | hi')
        · omega
        · rw [hrest] at hi'
          omega
        · have := hpending i hi'
          omega
      · rintro i (⟨hi, hi'⟩ | rfl | ⟨hi, hi'⟩ | hi)
        · exact .inl ⟨by omega, hi'⟩
        · exact .inr List.mem_cons_self
        · rw [hrest] at hi'
          exact .inl ⟨hi, by omega⟩
        · exact .inr (List.mem_cons_of_mem _ hi)

/-- A tree that is put together from the values of parts, with what is computed first in front of
it, leads where it leads beside the values. -/
theorem leads_of_parts {ts : List Tree} (h : ∀ t ∈ ts, LeadsToContinuation ak source t) {n : Int}
    {result : Tree} {further : List String → Prop}
    (hresult : ∀ xs, result.Scope xs →
      xs = [] ∨ (∃ v ∈ (threadedParts ak ts n).1.1, v.Scope xs) ∨ further xs) :
  Leads source n
    (threadedPending ak ts (threadedParts ak ts n).1.2 result (threadedParts ak ts n).2).2 further
    (threadedPending ak ts (threadedParts ak ts n).1.2 result (threadedParts ak ts n).2).1
  := by
  intro xs hxs
  have hle := le_threadedParts ak ts n
  have hle' := le_threadedPending ak ts (threadedParts ak ts n).1.2 result (threadedParts ak ts n).2
  obtain ⟨ys, zs, rfl, hspends, hzs⟩ := exists_of_scope_threadedPending h (le_refl _) result hxs
  have hpending : ∀ i, some (nameOf "s" i) ∈ (threadedParts ak ts n).1.2 →
      n ≤ i ∧ i < (threadedParts ak ts n).2 := by
    intro i hi
    obtain ⟨j, hj, hlt, heq⟩ := number_of_mem_pending hi
    obtain ⟨-, rfl⟩ := nameOf_injective heq
    exact ⟨hj, hlt⟩
  have hfirst : Spends source (fun i => n ≤ i ∧ i < (threadedPending ak ts
      (threadedParts ak ts n).1.2 result (threadedParts ak ts n).2).2) ys := by
    refine hspends.mono ?_
    rintro i (⟨hi, hi'⟩ | hi)
    · exact ⟨by omega, hi'⟩
    · have := hpending i hi
      omega
  obtain rfl | hzs := hzs
  · exact ⟨ys, [], rfl, hfirst, .inl rfl⟩
  obtain rfl | ⟨v, hv, hscope⟩ | hfurther := hresult zs hzs
  · exact ⟨ys, [], rfl, hfirst, .inl rfl⟩
  · refine ⟨ys ++ zs, [], (List.append_nil _).symm, ?_, .inl rfl⟩
    refine (hspends.append (spends_of_mem_threadedParts h n v hv zs hscope) ?_).mono ?_
    · rintro i (⟨hi, -⟩ | hi) ⟨⟨-, hi'⟩, hnot⟩
      · omega
      · exact hnot hi
    · rintro i ((⟨hi, hi'⟩ | hi) | ⟨⟨hi, hi'⟩, -⟩)
      · exact ⟨by omega, hi'⟩
      · have := hpending i hi
        omega
      · exact ⟨hi, by omega⟩
  · exact ⟨ys, zs, rfl, hfirst, .inr hfurther⟩

/-- A value that is handed on leads to the continuation. -/
theorem leads_handed {m n : Int} (k? : Option Tree) {value : Tree}
    (h : ∀ xs, value.Scope xs → Spends source (fun i => m ≤ i ∧ i < n) xs) :
  Leads source m n (fun xs => ∃ k ∈ k?, k.Scope xs) (handed ak k? value)
  := by
  intro xs hxs
  obtain hxs | hxs := scope_handed hxs
  · exact ⟨xs, [], (List.append_nil xs).symm, h xs hxs, .inl rfl⟩
  · exact ⟨[], xs, rfl, .nil, .inr hxs⟩

/-- A way down a tree without a continuation uses the numbers of its threading. -/
theorem LeadsToContinuation.spends {t : Tree} (h : LeadsToContinuation ak source t) {n : Int}
    {xs : List String} (hxs : (threaded ak none t n).1.Scope xs) :
  Spends source (fun i => n ≤ i ∧ i < (threaded ak none t n).2) xs
  := by
  obtain ⟨ys, zs, rfl, hspends, rfl | ⟨k, hk, -⟩⟩ := h none n xs hxs
  · rwa [List.append_nil]
  · contradiction

/-- What is bound in a child is bound in the node. -/
theorem Binds.of_child {t c : Tree} {x : String} (hc : c ∈ t.children) (h : c.Binds x) :
  t.Binds x
  := by
  obtain ⟨xs, hxs, hx⟩ := h
  exact ⟨_, .child hc hxs, List.mem_append_right _ hx⟩

/-- Every way down a threaded surface tree leads to its continuation. -/
theorem leadsToContinuation_of_surface {t : Tree} (ht : Surface false t)
    (hsource : ∀ x, t.Binds x → source x) :
  LeadsToContinuation ak source t
  := by
  induction ht with
  | literal value =>
    intro k? n
    rw [threaded]
    apply leads_handed
    intro xs hxs
    obtain rfl | ⟨c, hc, -⟩ := scope_of_binders_eq_nil rfl hxs
    · exact .nil
    · contradiction
  | var x =>
    intro k? n
    rw [threaded]
    apply leads_handed
    intro xs hxs
    rw [scope_var hxs]
    exact .nil
  | @operation op operands hcount hoperands ih =>
    intro k? n
    have hparts := fun t ht => ih t ht fun x hx => hsource x (hx.of_child ht)
    rw [threaded]
    apply leads_of_parts hparts
    intro xs hxs
    obtain hxs | hxs := scope_handed hxs
    · exact (scope_of_binders_eq_nil rfl hxs).imp_right .inl
    · exact .inr (.inr hxs)
  | @trivialConditional test conseq alt htrivial htest hconseq halt ihtest ihconseq ihalt =>
    intro k? n
    have ihtest := ihtest fun x hx => hsource x (hx.of_child (by simp [children]))
    have ihconseq := ihconseq fun x hx => hsource x (hx.of_child (by simp [children]))
    have ihalt := ihalt fun x hx => hsource x (hx.of_child (by simp [children]))
    rw [threaded]
    have hle := le_threaded ak none test n
    have hle' := le_threaded ak none conseq (threaded ak none test n).2
    have hle'' := le_threaded ak none alt (threaded ak none conseq (threaded ak none test n).2).2
    apply leads_handed
    intro xs hxs
    obtain rfl | ⟨c, hc, hscope⟩ := scope_of_binders_eq_nil rfl hxs
    · exact .nil
    simp only [children, List.mem_cons, List.not_mem_nil, or_false] at hc
    obtain rfl | rfl | rfl := hc
    · exact (ihtest.spends hscope).mono fun i hi => ⟨hi.1, by omega⟩
    · exact (ihconseq.spends hscope).mono fun i hi => ⟨by omega, by omega⟩
    · exact (ihalt.spends hscope).mono fun i hi => ⟨by omega, hi.2⟩
  | @seriousConditional test conseq alt htest hconseq halt ihtest ihconseq ihalt =>
    intro k? n
    have ihtest := ihtest fun x hx => hsource x (hx.of_child (by simp [children]))
    have ihconseq := ihconseq (fun x hx => hsource x (hx.of_child (by simp [children]))) k? n
    have ihalt := ihalt (fun x hx => hsource x (hx.of_child (by simp [children]))) k?
      (threaded ak k? conseq n).2
    have hle := le_threaded ak k? conseq n
    have hle' := le_threaded ak k? alt (threaded ak k? conseq n).2
    rw [threaded_conditional]
    generalize threaded ak k? alt (threaded ak k? conseq n).2 = alt' at ihalt hle' ⊢
    have hle'' := (le_threadedParts ak [test] alt'.2).trans
      (le_threadedPending ak [test] (threadedParts ak [test] alt'.2).1.2
        (chosen (threaded ak k? conseq n).1 alt'.1 (threadedParts ak [test] alt'.2).1.1)
        (threadedParts ak [test] alt'.2).2)
    have hleads := @leads_of_parts ak source [test] (List.forall_mem_singleton.mpr ihtest) alt'.2
      (chosen (threaded ak k? conseq n).1 alt'.1 (threadedParts ak [test] alt'.2).1.1)
      (fun xs => (threaded ak k? conseq n).1.Scope xs ∨ alt'.1.Scope xs) ?_
    · refine hleads.trans (hle.trans hle') hle'' ?_
      rintro xs (hxs | hxs)
      · exact ⟨_, ihconseq.mono (le_refl n) hle', hxs⟩
      · exact ⟨_, ihalt.mono hle (le_refl _), hxs⟩
    · intro xs hxs
      obtain ⟨test', htest'⟩ := exists_threadedParts_singleton ak test alt'.2
      rw [htest', chosen] at hxs
      rw [htest']
      obtain rfl | ⟨c, hc, hscope⟩ := scope_of_binders_eq_nil rfl hxs
      · exact .inl rfl
      simp only [children, List.mem_cons, List.not_mem_nil, or_false] at hc
      obtain rfl | rfl | rfl := hc
      · exact .inr (.inl ⟨_, List.mem_cons_self, hscope⟩)
      · exact .inr (.inr (.inl hscope))
      · exact .inr (.inr (.inr hscope))
  | @abstraction params body hbody ih =>
    intro k? n
    have ih := ih (fun x hx => hsource x (hx.of_child List.mem_cons_self)) (some (var (nameOf "k" n)))
      (n + 1)
    have hle := le_threaded ak (some (var (nameOf "k" n))) body (n + 1)
    rw [threaded]
    apply leads_handed
    intro xs hxs
    obtain rfl | ⟨c, hc, ys, hys, rfl⟩ := scope_iff.mp hxs
    · exact .nil
    cases List.mem_singleton.mp hc
    obtain ⟨ys, zs, rfl, hspends, hzs⟩ := ih ys hys
    have hparams : Spends source (fun _ => False) params := by
      refine .of_source fun x hx => hsource x ⟨params ++ [], ?_, by simpa using hx⟩
      exact .child (t := Tree.abstraction params body) List.mem_cons_self (.root body)
    have hk : Spends source (· = n) [nameOf "k" n] := .singleton rfl
    obtain rfl : zs = [] := by
      obtain hzs | ⟨k, hk, hzs⟩ := hzs
      · exact hzs
      · cases hk
        exact scope_var hzs
    rw [List.append_nil]
    refine ((hparams.append hk fun i hi => hi.elim).append hspends ?_).mono ?_
    · rintro i (hi | rfl) ⟨hi', -⟩
      · exact hi
      · omega
    · rintro i ((hi | rfl) | hi)
      · exact hi.elim
      · exact ⟨le_refl _, by dsimp only; omega⟩
      · exact ⟨by omega, hi.2⟩
  | definition name params hnested _ _ => contradiction
  | @application rator rands hrator hrands ihrator ihrands =>
    intro k? n
    have hparts : ∀ t ∈ rator :: rands, LeadsToContinuation ak source t := by
      have hsource' : ∀ t ∈ rator :: rands, ∀ x, t.Binds x → source x :=
        fun t ht x hx => hsource x (hx.of_child ht)
      obtain ⟨hratorSource, hrandSource⟩ := List.forall_mem_cons.mp hsource'
      exact List.forall_mem_cons.mpr
        ⟨ihrator hratorSource, fun t ht => ihrands t ht (hrandSource t ht)⟩
    rw [threaded_application]
    apply leads_of_parts hparts
    intro xs hxs
    obtain ⟨rator', rands', hvalues⟩ := exists_threadedParts_cons ak rator rands n
    rw [hvalues, applied] at hxs
    rw [hvalues]
    obtain rfl | ⟨c, hc, hscope⟩ := scope_of_binders_eq_nil rfl hxs
    · exact .inl rfl
    rw [children, ← List.cons_append, List.mem_append, Option.mem_toList] at hc
    obtain hc | hc := hc
    · exact .inr (.inl ⟨c, hc, hscope⟩)
    · exact .inr (.inr ⟨c, hc, hscope⟩)

end Threaded

/-- What is bound in a surface tree is among its names. -/
theorem mem_names_of_binds {nested : Bool} {t : Tree} (h : Surface nested t) {x : String}
    (hx : t.Binds x) :
  x ∈ t.names
  := by
  obtain ⟨xs, hxs, hx⟩ := hx
  induction h generalizing xs with
  | literal value =>
    obtain rfl | ⟨c, hc, -⟩ := scope_of_binders_eq_nil rfl hxs
    · contradiction
    · contradiction
  | var y =>
    rw [scope_var hxs] at hx
    contradiction
  | operation _ _ ih =>
    obtain rfl | ⟨c, hc, hscope⟩ := scope_of_binders_eq_nil rfl hxs
    · contradiction
    · exact mem_namesAll.mpr ⟨c, hc, ih c hc xs hscope hx⟩
  | trivialConditional _ _ _ _ ihtest ihconseq ihalt
  | seriousConditional _ _ _ ihtest ihconseq ihalt =>
    obtain rfl | ⟨c, hc, hscope⟩ := scope_of_binders_eq_nil rfl hxs
    · contradiction
    simp only [children, List.mem_cons, List.not_mem_nil, or_false] at hc
    rw [names, List.mem_append, List.mem_append]
    obtain rfl | rfl | rfl := hc
    · exact .inl (.inl (ihtest xs hscope hx))
    · exact .inl (.inr (ihconseq xs hscope hx))
    · exact .inr (ihalt xs hscope hx)
  | abstraction params _ ih =>
    obtain rfl | ⟨c, hc, ys, hys, rfl⟩ := scope_iff.mp hxs
    · contradiction
    cases List.mem_singleton.mp hc
    exact List.mem_append.mpr ((List.mem_append.mp hx).imp_right (ih ys hys))
  | definition name params _ _ ih =>
    obtain rfl | ⟨c, hc, ys, hys, rfl⟩ := scope_iff.mp hxs
    · contradiction
    cases List.mem_singleton.mp hc
    simp only [binders, Option.toList_none, List.append_nil] at hx
    refine List.mem_cons_of_mem _ (List.mem_append.mpr ?_)
    exact (List.mem_append.mp hx).imp_right (ih ys hys)
  | application _ _ ihrator ihrands =>
    obtain rfl | ⟨c, hc, hscope⟩ := scope_of_binders_eq_nil rfl hxs
    · contradiction
    rw [names, List.mem_append]
    obtain rfl | hc := List.mem_cons.mp hc
    · exact .inl (ihrator xs hscope hx)
    · exact .inr (mem_namesAll.mpr ⟨c, hc, ihrands c hc xs hscope hx⟩)

end Tree

/-! ### Compiled definitions -/

/-- What stands in a surface tree is a surface tree. -/
theorem Surface.of_contains {nested : Bool} {t u : Tree} (h : Surface nested t)
    (hu : t.Contains u) :
  Surface nested u
  := by
  induction hu with
  | refl => exact h
  | @tail v c _ hc ih =>
    cases ih with
    | literal _ | var _ => contradiction
    | operation _ hoperands => exact hoperands c hc
    | trivialConditional _ htest hconseq halt | seriousConditional htest hconseq halt =>
      simp only [Tree.children, List.mem_cons, List.not_mem_nil, or_false] at hc
      obtain rfl | rfl | rfl := hc
      · exact htest
      · exact hconseq
      · exact halt
    | abstraction _ hbody | definition _ _ _ hbody =>
      cases List.mem_singleton.mp hc
      exact hbody
    | application hrator hrands => exact List.forall_mem_cons.mpr ⟨hrator, hrands⟩ c hc

namespace Definition

/-- The free variables of the body of a converted definition are the new names of those of its body,
the name of its continuation, and perhaps that of the helper. -/
theorem free_threadedBody {d : Definition} (hd : Surface false d.body) {n : Int}
    (hnames : ∀ x ∈ d.toTree.names, Tree.Predates n x) {ak x : String} (hx : x ≠ ak) :
  (Tree.threadedBody ak d.name d.params d.body n).1.Free x
    ↔ (∃ y, d.body.Free y ∧ x = (Renaming.under (some (d.name, d.own n)) d.params).name y)
      ∨ x = nameOf "k" (n + 1)
  := by
  have hbody : ∀ y ∈ d.body.names, Tree.Predates n y := fun y hy =>
    hnames y (List.mem_cons_of_mem _ (List.mem_append_right _ hy))
  have hown : ∀ old new, Renaming.under (some (d.name, d.own n)) d.params = some (old, new) →
      new = d.own n := by
    intro old new hr
    cases (Option.filter_eq_some_iff.mp hr).1
    rfl
  have hsurface := Renaming.surface_tree hd (Renaming.under (some (d.name, d.own n)) d.params)
  have hkeeps := @Tree.keepsFree_of_surface ak _ hsurface
    (some (.var (nameOf "k" (n + 1)))) (n + 2) ?_ ?_ x hx
  · rw [Tree.threadedBody, ← own, hkeeps, Tree.freeIn_var, Tree.free_tree hd]
    intro old new hr hnew
    rw [hown old new hr] at hnew
    exact hbody _ hnew d.name n (le_refl n) rfl
  · intro y hy
    obtain hy | ⟨old, hr⟩ := Tree.mem_names_of_tree hd hy
    · exact (hbody y hy).mono (by omega)
    · rw [hown old y hr]
      exact Tree.predates_nameOf d.name (by omega)
  · intro y _ hfree
    rw [Tree.freeIn_var.mp hfree]
    exact Tree.predates_nameOf "k" (by omega)

/-- On a way down a converted definition each of its numbers is used at most once. -/
theorem spends_threaded {d : Definition} (hd : Surface false d.body) {ak : String} {n : Int}
    {xs : List String} (hxs : (d.threaded ak n).Scope xs) :
  Tree.Spends d.toTree.Binds
    (fun i => n ≤ i ∧ i < (Tree.threadedBody ak d.name d.params d.body n).2) xs
  := by
  obtain rfl | ⟨c, hc, ys, hys, rfl⟩ := Tree.scope_iff.mp hxs
  · exact .nil
  cases List.mem_singleton.mp hc
  have hlt := lt_threadedBody ak d n
  have hbinds : ∀ x, (Tree.Binds ((Renaming.under (some (d.name, d.own n)) d.params).tree d.body) x) →
      d.toTree.Binds x := by
    rintro x ⟨zs, hzs, hx⟩
    exact Tree.Binds.of_child List.mem_cons_self ⟨zs, Tree.scope_of_tree hd _ hzs, hx⟩
  have hsurface := Renaming.surface_tree hd (Renaming.under (some (d.name, d.own n)) d.params)
  obtain ⟨ys, zs, rfl, hspends, hzs⟩ := Tree.leadsToContinuation_of_surface hsurface hbinds
    (some (.var (nameOf "k" (n + 1)))) (n + 2) ys hys
  obtain rfl : zs = [] := by
    obtain hzs | ⟨k, hk, hzs⟩ := hzs
    · exact hzs
    · cases hk
      exact Tree.scope_var hzs
  have hparams : Tree.Spends d.toTree.Binds (fun _ => False) d.params := by
    refine .of_source fun x hx => ⟨d.toTree.binders ++ [], .child List.mem_cons_self (.root d.body), ?_⟩
    simpa [toTree, Tree.binders] using hx
  have hk : Tree.Spends d.toTree.Binds (· = n + 1) [nameOf "k" (n + 1)] := .singleton rfl
  have hown : Tree.Spends d.toTree.Binds (· = n) [d.own n] := .singleton rfl
  rw [List.append_nil]
  refine (((hparams.append hk fun i hi => hi.elim).append hown ?_).append hspends ?_).mono ?_
  · rintro i (hi | rfl) hi'
    · exact hi
    · omega
  · rintro i ((hi | rfl) | rfl) ⟨hi', -⟩
    · exact hi
    · omega
    · omega
  · rintro i (((hi | rfl) | rfl) | hi)
    · exact hi.elim
    · exact ⟨by omega, hlt⟩
    · exact ⟨le_refl i, by omega⟩
    · exact ⟨by omega, hi.2⟩

end Definition

/-- A definition with the body that compilation has made of its body: it is given a continuation `k`
and a fresh name `own`. -/
def Definition.recompiled (d : Definition) (k own : String) (body : Tree) : Tree :=
  .definition d.name (d.params ++ [k]) body (some own)

/-- The body, compiled with fresh names whose numbers start at `first` and end before `last`, keeps
the scopes of a definition. -/
structure Definition.KeepsScopes (d : Definition) (ak k own : String) (first last : Int)
    (body : Tree) : Prop where
  /-- The free variables are those of the definition, its own name being replaced. -/
  free (x : String) :
    (body.Free x ∧ x ∉ ak :: k :: d.params)
      ↔ ∃ y, d.body.Free y ∧ y ∉ d.params ∧ x = if y = d.name then own else y
  /-- Every fresh variable is bound. -/
  bound (base : String) (i : Int) (hi : first ≤ i) :
    ¬ (d.recompiled k own body).Free (nameOf base i)
  /-- What is bound is bound in the source too, or it is fresh and no name of the source. -/
  binds (x : String) (hx : (d.recompiled k own body).Binds x) :
    d.toTree.Binds x
      ∨ (x ∉ d.toTree.names ∧ ∃ base i, first ≤ i ∧ i < last ∧ x = nameOf base i)
  /-- No fresh name is bound twice on a way down. -/
  once (xs : List String) (hxs : (d.recompiled k own body).Scope xs) (base : String) (i : Int)
    (hi : first ≤ i) : xs.count (nameOf base i) ≤ 1

/-- A definition that is suspended keeps its scopes if its names predate those of the compiler. -/
theorem keepsScopes_of_suspend {d : Definition} (hd : Surface true d.toTree)
    (hbody : Surface false d.body) {start m n : Int} (hstart : start ≤ m) (hm : m < n)
    (hnames : ∀ x ∈ d.toTree.names, Tree.Predates start x) {base : String} {body : Tree}
    (h : (Tree.threadedBody (nameOf base m) d.name d.params d.body n).1.suspend = .ok body) :
  d.KeepsScopes (nameOf base m) (nameOf "k" (n + 1)) (d.own n) n
    (Tree.threadedBody (nameOf base m) d.name d.params d.body n).2 body.delayed
  := by
  have hlater : ∀ x ∈ d.toTree.names, Tree.Predates n x := fun x hx =>
    (hnames x hx).mono (by omega)
  have hfreeNames : ∀ y, d.body.Free y → y ∈ d.toTree.names := fun y hy =>
    List.mem_cons_of_mem _ (List.mem_append_right _ (Tree.mem_names_of_free hbody hy))
  have hown : ∀ old new, some (d.name, d.own n) = some (old, new) → new ∉ d.params := by
    intro old new heq hnew
    cases heq
    exact hlater _ (List.mem_cons_of_mem _ (List.mem_append_left _ hnew)) d.name n (le_refl n) rfl
  have hname : ∀ y, Renaming.name (some (d.name, d.own n)) y = if y = d.name then d.own n else y := by
    intro y
    simp [Renaming.name]
  have hscope : ∀ xs, (d.recompiled (nameOf "k" (n + 1)) (d.own n) body.delayed).Scope xs →
      Tree.Spends d.toTree.Binds
        (fun i => n ≤ i ∧ i < (Tree.threadedBody (nameOf base m) d.name d.params d.body n).2) xs := by
    intro xs hxs
    have hdefinition : (d.threaded (nameOf base m) n).suspend
        = .ok (d.recompiled (nameOf "k" (n + 1)) (d.own n) body.delayed) := by
      rw [Definition.threaded, Tree.suspend, h]
      rfl
    exact Definition.spends_threaded hbody (Tree.scope_of_suspendsTo ⟨_, hdefinition, .inl rfl⟩ hxs)
  have hfree : ∀ x, (body.delayed.Free x ∧ x ∉ nameOf base m :: nameOf "k" (n + 1) :: d.params)
      ↔ ∃ y, d.body.Free y ∧ y ∉ d.params ∧ x = if y = d.name then d.own n else y := by
    intro x
    rw [Tree.delayed, Tree.free_abstraction, Tree.free_suspend h, and_iff_right List.not_mem_nil]
    have hunder := Tree.exists_name_under hown d.body.Free x
    simp only [hname] at hunder
    constructor
    · rintro ⟨hx, hnot⟩
      simp only [List.mem_cons, not_or] at hnot
      obtain ⟨hak, hk, hparams⟩ := hnot
      obtain hx | hx := (Definition.free_threadedBody hbody hlater hak).mp hx
      · obtain ⟨y, ⟨hy, hfree⟩, hxy⟩ := hunder.mp ⟨hparams, hx⟩
        exact ⟨y, hfree, hy, hxy⟩
      · exact absurd hx hk
    · rintro ⟨y, hfree, hy, hxy⟩
      obtain ⟨hparams, hx⟩ := hunder.mpr ⟨y, ⟨hy, hfree⟩, hxy⟩
      have hne : x ≠ nameOf base m ∧ x ≠ nameOf "k" (n + 1) := by
        split at hxy
        · rw [hxy, Definition.own]
          exact ⟨fun heq => by have := (nameOf_injective heq).2; omega,
            fun heq => by have := (nameOf_injective heq).2; omega⟩
        · rw [hxy]
          exact ⟨hnames y (hfreeNames y hfree) base m hstart,
            hnames y (hfreeNames y hfree) "k" (n + 1) (by omega)⟩
      refine ⟨(Definition.free_threadedBody hbody hlater hne.1).mpr (.inl hx), ?_⟩
      simp only [List.mem_cons, not_or]
      exact ⟨hne.1, hne.2, hparams⟩
  refine ⟨hfree, ?_, ?_, ?_⟩
  · intro base' i hi hx
    obtain ⟨hnot, hx⟩ := Tree.free_definition.mp hx
    simp only [Option.toList_some, List.mem_append, List.mem_singleton, not_or] at hnot
    obtain ⟨⟨hparams, hk⟩, hself⟩ := hnot
    have hak : nameOf base' i ≠ nameOf base m := fun heq => by
      have := (nameOf_injective heq).2
      omega
    obtain ⟨y, hfreeBody, -, hxy⟩ := (hfree _).mp ⟨hx, by simp [hak, hk, hparams]⟩
    split at hxy
    · exact hself hxy
    · exact hlater y (hfreeNames y hfreeBody) base' i hi hxy.symm
  · rintro x ⟨xs, hxs, hx⟩
    refine ((hscope xs hxs).1 x hx).imp_right ?_
    rintro ⟨base', i, ⟨hi, hi'⟩, rfl⟩
    exact ⟨fun hmem => hlater _ hmem base' i hi rfl, base', i, hi, hi', rfl⟩
  · intro xs hxs base' i hi
    refine (hscope xs hxs).2 _ fun hbinds => ?_
    exact hlater _ (Tree.mem_names_of_binds hd hbinds) base' i hi rfl

/-- **Compilation keeps scopes.** A definition that was read and holds no other definition is
converted with any source of names, its continuations are made functions with a helper named earlier
by that source, and it is suspended. If none of its names ends in a number, nor in a negative number
that the source has, this keeps its scopes: the free variables stay, up to its own name, every fresh
variable is bound, no fresh name is one of the source, and none is bound twice on a way down. -/
theorem definition_keepsScopes
    (text : String) (forms : List Tree) (hread : Tree.readAll text = .ok forms)
    (form : Tree) (hform : form ∈ forms) (d : Definition) (hd : form.Contains d.toTree)
    (hflat : d.body.HasNoDefinition) (hnumbered : ∀ x ∈ d.toTree.names, ¬ isNumbered x)
    (names : NameSource)
    (hnegative : ∀ x ∈ d.toTree.names, ∀ base i, names.start ≤ i → i < 0 → x ≠ nameOf base i)
    (base : String) (m : Int) (hstart : names.start ≤ m) (hm : m < names.next) :
  ∃ converted names' abstracted body, d.toTree.convertDefinition names = .ok (converted, names')
    ∧ converted.abstractK (nameOf base m) = .ok abstracted
    ∧ abstracted.suspend = .ok (d.recompiled (nameOf "k" (names.next + 1)) (d.own names.next) body)
    ∧ d.KeepsScopes (nameOf base m) (nameOf "k" (names.next + 1)) (d.own names.next)
        names.next names'.next body
  := by
  obtain ⟨start, n⟩ := names
  have hd : Surface true d.toTree := (surface_of_readAll hread hform).of_contains hd
  have hbody : Surface false d.body := by
    obtain _ | _ | _ | _ | _ | _ | ⟨_, _, _, hbody⟩ | _ := hd
    exact hbody.of_not_holdsDefinition (hbody.holdsDefinition_eq_false_iff.mpr hflat)
  have hnames : ∀ x ∈ d.toTree.names, Tree.Predates start x := by
    intro x hx base' i hi
    by_cases hneg : i < 0
    · exact hnegative x hx base' i hi hneg
    · exact ne_nameOf (hnumbered x hx) base' (by omega)
  obtain ⟨u, hu, habstracted⟩ := @Tree.convertDefinition_eq (nameOf base m) d.name d.params d.body
    none hbody start n
  obtain ⟨-, htail⟩ := @Tree.shapes_of_surface (nameOf base m) _ (Renaming.surface_tree hbody
    (Renaming.under (some (d.name, nameOf d.name n)) d.params))
  obtain ⟨body, hsuspended, -⟩ := htail (.var (nameOf "k" (n + 1))) (n + 2) (.var _)
  refine ⟨u, _, _, body.delayed, hu, habstracted, ?_, ?_⟩
  · rw [Tree.suspend, Tree.threadedBody, hsuspended]
    rfl
  · exact keepsScopes_of_suspend hd hbody hstart hm hnames hsuspended

/-- A definition whose name is shadowed inside it. -/
def shadowed : Definition :=
  ⟨"f", ["x"], .conditional .serious (.application (.var "f") [.var "x"])
    (.abstraction ["f"] (.application (.var "f") [.operation .plus [.var "x", .var "y"]]))
    (.application (.var "f") [.var "y"])⟩

/-- A definition whose name is shadowed inside it keeps its scopes, also with negative numbers. -/
theorem definition_keepsScopes_shadowed :
  Tree.readAll "(defn f (x) (if (f x) (fn (f) (f (+ x y))) (f y)))" = .ok [shadowed.toTree]
    ∧ ∃ converted names' abstracted body,
      shadowed.toTree.convertDefinition ⟨-5, -2⟩ = .ok (converted, names')
        ∧ converted.abstractK (nameOf "apply_k" (-5)) = .ok abstracted
        ∧ abstracted.suspend = .ok (shadowed.recompiled (nameOf "k" (-1)) (shadowed.own (-2)) body)
        ∧ shadowed.KeepsScopes (nameOf "apply_k" (-5)) (nameOf "k" (-1)) (shadowed.own (-2))
            (-2) names'.next body
  := by
  have hread : Tree.readAll "(defn f (x) (if (f x) (fn (f) (f (+ x y))) (f y)))"
      = .ok [shadowed.toTree] := by
    cbv
  have hlowLine : ∀ x ∈ shadowed.toTree.names, '_' ∉ x.toList := by
    decide
  refine ⟨hread, definition_keepsScopes _ _ hread _ List.mem_cons_self shadowed .refl ?_ (by decide)
    ⟨-5, -2⟩ ?_ "apply_k" (-5) (by decide) (by decide)⟩
  · obtain _ | _ | _ | _ | _ | _ | ⟨_, _, _, hbody⟩ | _ := surface_of_readAll hread List.mem_cons_self
    exact hbody.holdsDefinition_eq_false_iff.mp rfl
  · intro x hx base i _ _ heq
    apply hlowLine x hx
    rw [heq, toList_nameOf]
    simp

/-- A definition that refers to a variable as a negative number would name it. -/
def mistakable : Definition :=
  ⟨"f", [], .var "k__-1"⟩

/-- With negative numbers a variable of the source can be taken for the continuation. -/
theorem definition_loses_variable :
  Tree.readAll "(defn f () k__-1)" = .ok [mistakable.toTree] ∧ mistakable.body.HasNoDefinition
    ∧ (∀ x ∈ mistakable.toTree.names, ¬ isNumbered x)
    ∧ ∃ converted names' abstracted body,
      mistakable.toTree.convertDefinition ⟨-3, -2⟩ = .ok (converted, names')
        ∧ converted.abstractK (nameOf "apply_k" (-3)) = .ok abstracted
        ∧ abstracted.suspend
          = .ok (mistakable.recompiled (nameOf "k" (-1)) (mistakable.own (-2)) body)
        ∧ mistakable.body.Free "k__-1"
        ∧ ¬ (mistakable.recompiled (nameOf "k" (-1)) (mistakable.own (-2)) body).Free "k__-1"
        ∧ ¬ mistakable.KeepsScopes (nameOf "apply_k" (-3)) (nameOf "k" (-1)) (mistakable.own (-2))
            (-2) names'.next body
  := by
  refine ⟨by cbv, ?_, by decide, _, _, _, _, rfl, rfl, rfl, .var, ?_, ?_⟩
  · exact (@Surface.var true "k__-1").holdsDefinition_eq_false_iff.mp rfl
  · intro h
    exact (Tree.free_definition.mp h).1 (by decide)
  · intro h
    obtain ⟨-, hnot⟩ := (h.free "k__-1").mpr ⟨"k__-1", .var, List.not_mem_nil, by decide⟩
    exact hnot (by decide)

end Springboard
