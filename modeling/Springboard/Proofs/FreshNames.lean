import Mathlib.Data.List.Basic
import Springboard.Emission.Identifier
import Springboard.NameSource

/-!
# Fresh names and their identifiers

A fresh name is a base, two low lines and a number, and both the base and the number can be read
off it. Making it an identifier changes at most the base. So names with different numbers stay
different, and none of them becomes the identifier of a name that does not end in a number.
-/

namespace Springboard

open NameSource

/-! ### Numerals -/

/-- The characters of the number of a fresh name. -/
def numeral (n : Int) : List Char :=
  (if n < 0 then ['-'] else []) ++ Nat.toDigits 10 n.natAbs

/-- The characters of a fresh name. -/
theorem toList_nameOf (base : String) (n : Int) :
  (nameOf base n).toList = base.toList ++ '_' :: '_' :: numeral n
  := by
  have hmark : ("__" : String).toList = ['_', '_'] := rfl
  unfold nameOf numeral
  split <;> simp [String.toList_append, hmark]

/-- A number that is not negative is written in digits. -/
theorem isDigit_of_mem_numeral {n : Int} (hn : 0 ≤ n) {c : Char} (hc : c ∈ numeral n) :
  c.isDigit
  := by
  have hsign : ¬ n < 0 := by omega
  rw [numeral, if_neg hsign, List.nil_append] at hc
  exact Nat.isDigit_of_mem_toDigits (by decide) (by decide) hc

/-- No low line stands in a number. -/
theorem lowLine_notMem_numeral (n : Int) : '_' ∉ numeral n := by
  unfold numeral
  split <;> simp [Nat.underscore_not_in_toDigits]

/-- A number has at least one digit. -/
theorem numeral_ne_nil (n : Int) : numeral n ≠ [] := by
  simp [numeral, Nat.toDigits_ne_nil]

/-- A natural number can be read off its digits. -/
theorem toDigits_injective {m n : Nat} (h : Nat.toDigits 10 m = Nat.toDigits 10 n) : m = n := by
  have hread := congrArg (fun digits => Nat.ofDigitChars 10 digits 0) h
  simpa using hread

/-- No sign stands among digits. -/
theorem sign_notMem_toDigits (n : Nat) : '-' ∉ Nat.toDigits 10 n := by
  intro h
  have hdigit := Nat.isDigit_of_mem_toDigits (by decide) (by decide) h
  contradiction

/-- A number can be read off its characters. -/
theorem numeral_injective {m n : Int} (h : numeral m = numeral n) : m = n := by
  unfold numeral at h
  split at h <;> split at h
  · have habs := toDigits_injective (List.append_cancel_left h)
    omega
  · have hsign : '-' ∈ Nat.toDigits 10 n.natAbs := by
      rw [List.nil_append] at h
      rw [← h]
      exact List.mem_append_left _ (List.mem_singleton_self _)
    exact absurd hsign (sign_notMem_toDigits _)
  · have hsign : '-' ∈ Nat.toDigits 10 m.natAbs := by
      rw [List.nil_append] at h
      rw [h]
      exact List.mem_append_left _ (List.mem_singleton_self _)
    exact absurd hsign (sign_notMem_toDigits _)
  · have habs := toDigits_injective (List.append_cancel_left h)
    omega

/-! ### Reading a name -/

/-- The characters behind the last low line, and those before it, can be read off a list. -/
theorem split_lowLine
    {xs xs' ys ys' : List Char} (hys : '_' ∉ ys) (hys' : '_' ∉ ys')
    (h : xs ++ '_' :: ys = xs' ++ '_' :: ys') :
  xs = xs' ∧ ys = ys'
  := by
  have hback := congrArg List.reverse h
  simp only [List.reverse_append, List.reverse_cons, List.append_assoc, List.cons_append,
    List.nil_append] at hback
  have hclear : ∀ {zs : List Char}, '_' ∉ zs → ∀ c ∈ zs.reverse, (c != '_') = true := by
    intro zs hzs c hc
    rw [bne_iff_ne]
    rintro rfl
    exact hzs (List.mem_reverse.mp hc)
  have htake := congrArg (List.takeWhile (· != '_')) hback
  have hdrop := congrArg (List.dropWhile (· != '_')) hback
  rw [List.takeWhile_append_of_pos (hclear hys), List.takeWhile_append_of_pos (hclear hys')] at htake
  rw [List.dropWhile_append_of_pos (hclear hys), List.dropWhile_append_of_pos (hclear hys')] at hdrop
  simp at htake hdrop
  exact ⟨hdrop, htake⟩

/-- Both the base and the number can be read off a fresh name. -/
theorem nameOf_injective {base base' : String} {m n : Int} (h : nameOf base m = nameOf base' n) :
  base = base' ∧ m = n
  := by
  have hchars := congrArg String.toList h
  rw [toList_nameOf, toList_nameOf, List.append_cons, List.append_cons _ '_' ('_' :: numeral n)]
    at hchars
  obtain ⟨hbase, hnumeral⟩ :=
    split_lowLine (lowLine_notMem_numeral m) (lowLine_notMem_numeral n) hchars
  constructor
  · exact String.toList_injective (List.append_cancel_right hbase)
  · exact numeral_injective hnumeral

/-! ### Names that end in a number -/

/-- Whether a name ends in two low lines and at least one decimal digit. -/
def isNumbered (name : String) : Bool :=
  let back := name.toList.reverse
  !(back.takeWhile Char.isDigit).isEmpty && ['_', '_'].isPrefixOf (back.dropWhile Char.isDigit)

/-- Read from its end, a fresh name has the digits of its number, two low lines and its base. -/
theorem reverse_nameOf (base : String) {n : Int} (hn : 0 ≤ n) :
  (nameOf base n).toList.reverse.takeWhile Char.isDigit = (numeral n).reverse
    ∧ (nameOf base n).toList.reverse.dropWhile Char.isDigit = '_' :: '_' :: base.toList.reverse
  := by
  have hdigits : ∀ c ∈ (numeral n).reverse, c.isDigit = true := by
    intro c hc
    exact isDigit_of_mem_numeral hn (List.mem_reverse.mp hc)
  have hback : (nameOf base n).toList.reverse
      = (numeral n).reverse ++ '_' :: '_' :: base.toList.reverse := by
    rw [toList_nameOf]
    simp
  have hstop : Char.isDigit '_' = false := rfl
  rw [hback, List.takeWhile_append_of_pos hdigits, List.dropWhile_append_of_pos hdigits]
  simp [hstop]

/-- A fresh name ends in a number. -/
theorem isNumbered_nameOf (base : String) {n : Int} (hn : 0 ≤ n) :
  isNumbered (nameOf base n)
  := by
  obtain ⟨hdigits, hrest⟩ := reverse_nameOf base hn
  simp [isNumbered, hdigits, hrest, numeral_ne_nil]

/-- A name that does not end in a number is no fresh name. -/
theorem ne_nameOf {name : String} (h : ¬ isNumbered name) (base : String) {n : Int} (hn : 0 ≤ n) :
  name ≠ nameOf base n
  := by
  rintro rfl
  exact h (isNumbered_nameOf base hn)

/-! ### Identifiers -/

/-- A character of a class, found by the run it lies in. -/
theorem contains_of_mem
    {runs : Text.Ranges} {run : Nat × Nat} (hrun : run ∈ runs) {c : Char}
    (h : run.1 ≤ c.toNat ∧ c.toNat ≤ run.2) :
  runs.contains c
  := by
  unfold Text.Ranges.contains
  rw [List.any_eq_true]
  use run, hrun
  simpa using h

/-- A digit may stand inside an identifier. -/
theorem isContinue_of_isDigit {c : Char} (hc : c.isDigit) : Text.isContinue c := by
  have hrange : 0x30 ≤ c.toNat ∧ c.toNat ≤ 0x39 := by
    rw [Char.isDigit, Bool.and_eq_true, decide_eq_true_iff, decide_eq_true_iff] at hc
    exact hc
  have hextend : Text.extendRuns.contains c := contains_of_mem (.head _) hrange
  rw [Text.isContinue, hextend, Bool.or_true]

/-- A small letter may start an identifier. -/
theorem isStart_of_isLower {c : Char} (hc : c.isLower) : Text.isStart c := by
  have hrange : 0x61 ≤ c.toNat ∧ c.toNat ≤ 0x7A := by
    have hbounds : (decide (c.val ≥ 97) && decide (c.val ≤ 122)) = true := hc
    rw [Bool.and_eq_true, decide_eq_true_iff, decide_eq_true_iff] at hbounds
    exact hbounds
  exact contains_of_mem (.tail _ (.tail _ (.head _))) hrange

/-- The low line may start an identifier. -/
theorem isStart_lowLine : Text.isStart '_' :=
  contains_of_mem (.tail _ (.head _)) (by decide)

/-- A starting character may stand inside an identifier. -/
theorem isContinue_of_isStart {c : Char} (hc : Text.isStart c) : Text.isContinue c := by
  rw [Text.isContinue, hc, Bool.true_or]

/-- A character is spelled as itself, or with a low line. -/
theorem spelling_eq (c : Char) : spelling c = [c] ∨ '_' ∈ spelling c := by
  unfold spelling
  split <;> simp

/-- Small letters, digits and the low line are spelled as themselves. -/
theorem spelling_eq_self {c : Char} (hc : c.isLower ∨ c.isDigit ∨ c = '_') :
  spelling c = [c]
  := by
  unfold spelling
  split
  case h_11 => rfl
  all_goals exact absurd hc (by decide)

/-- A character that may stand in an identifier is written as itself, and any other with a low
line. -/
theorem codeSpelling_eq (c : Char) : codeSpelling c = [c] ∨ '_' ∈ codeSpelling c := by
  unfold codeSpelling
  split <;> simp

/-- A list whose characters are all written as themselves is not changed. -/
theorem flatMap_eq_self {f : Char → List Char} {cs : List Char} (h : ∀ c ∈ cs, f c = [c]) :
  cs.flatMap f = cs
  := by
  induction cs with
  | nil => rfl
  | cons c cs ih =>
    rw [List.flatMap_cons, h c List.mem_cons_self, ih fun c hc => h c (List.mem_cons_of_mem _ hc)]
    rfl

/-- A number behind two low lines stays when the characters are written out. -/
theorem flatMap_numeral
    {f : Char → List Char} (hf : ∀ c, c.isDigit ∨ c = '_' → f c = [c]) (cs : List Char)
    {n : Int} (hn : 0 ≤ n) :
  (cs ++ '_' :: '_' :: numeral n).flatMap f = cs.flatMap f ++ '_' :: '_' :: numeral n
  := by
  rw [List.flatMap_append]
  congr 1
  apply flatMap_eq_self
  intro c hc
  apply hf
  rcases List.mem_cons.mp hc with rfl | hc
  · right
    rfl
  · rcases List.mem_cons.mp hc with rfl | hc
    · right
      rfl
    · left
      exact isDigit_of_mem_numeral hn hc

/-- A number behind two low lines stays when an identifier is made. -/
theorem legalize_numeral (cs : List Char) {n : Int} (hn : 0 ≤ n) :
  ∃ cs', legalize (cs ++ '_' :: '_' :: numeral n) = cs' ++ '_' :: '_' :: numeral n
  := by
  have hcode : ∀ c : Char, c.isDigit ∨ c = '_' → codeSpelling c = [c] := by
    rintro c (hc | rfl)
    · rw [codeSpelling, isContinue_of_isDigit hc, if_pos rfl]
    · rw [codeSpelling, isContinue_of_isStart isStart_lowLine, if_pos rfl]
  unfold legalize
  split
  · exact ⟨cs, rfl⟩
  · simp only [flatMap_numeral hcode cs hn]
    split
    · exact ⟨_, rfl⟩
    · exact ⟨'_' :: cs.flatMap codeSpelling, rfl⟩

/-- No reserved word ends in a number. -/
theorem unreserve_of_isNumbered {ident : String} (h : isNumbered ident) :
  unreserve ident = ident
  := by
  have hwords : ∀ word ∈ reservedWords, isNumbered word = false := by decide
  unfold unreserve
  rw [if_neg]
  intro hmem
  rw [hwords ident (List.contains_iff_mem.mp hmem)] at h
  contradiction

/-- Making a fresh name an identifier changes at most its base. -/
theorem mangle_nameOf (base : String) {n : Int} (hn : 0 ≤ n) :
  ∃ base', mangle (nameOf base n) = nameOf base' n
  := by
  have hspelling : ∀ c : Char, c.isDigit ∨ c = '_' → spelling c = [c] := by
    intro c hc
    exact spelling_eq_self (.inr hc)
  obtain ⟨cs, hcs⟩ := legalize_numeral (base.toList.flatMap spelling) hn
  have hname : String.ofList (cs ++ '_' :: '_' :: numeral n) = nameOf (String.ofList cs) n := by
    apply String.toList_injective
    rw [String.toList_ofList, toList_nameOf, String.toList_ofList]
  use String.ofList cs
  rw [mangle, toList_nameOf, flatMap_numeral hspelling _ hn, hcs, hname,
    unreserve_of_isNumbered (isNumbered_nameOf _ hn)]

/-- The identifier of a fresh name ends in a number. -/
theorem isNumbered_mangle_nameOf (base : String) {n : Int} (hn : 0 ≤ n) :
  isNumbered (mangle (nameOf base n))
  := by
  obtain ⟨base', h⟩ := mangle_nameOf base hn
  rw [h]
  exact isNumbered_nameOf base' hn

/-- Fresh names with one identifier have one number. -/
theorem number_of_mangle_eq
    {base base' : String} {m n : Int} (hm : 0 ≤ m) (hn : 0 ≤ n)
    (h : mangle (nameOf base m) = mangle (nameOf base' n)) :
  m = n
  := by
  obtain ⟨b, hb⟩ := mangle_nameOf base hm
  obtain ⟨b', hb'⟩ := mangle_nameOf base' hn
  rw [hb, hb'] at h
  exact (nameOf_injective h).2

/-- Whether a text is made of small letters and low lines, and starts with a letter. -/
def isWord (text : String) : Bool :=
  match text.toList with
  | [] => false
  | c :: rest => c.isLower && rest.all fun c => c.isLower || c == '_'

/-- A fresh name whose base is a word is an identifier already. -/
theorem mangle_nameOf_of_isWord {base : String} (hbase : isWord base) {n : Int} (hn : 0 ≤ n) :
  mangle (nameOf base n) = nameOf base n
  := by
  unfold isWord at hbase
  split at hbase
  · contradiction
  · rename_i c rest hchars
    rw [Bool.and_eq_true, List.all_eq_true] at hbase
    obtain ⟨hc, hrest⟩ := hbase
    have hclass : ∀ d ∈ rest ++ '_' :: '_' :: numeral n, d.isLower ∨ d.isDigit ∨ d = '_' := by
      intro d hd
      rw [List.mem_append, List.mem_cons, List.mem_cons] at hd
      rcases hd with hd | rfl | rfl | hd
      · rcases Bool.or_eq_true_iff.mp (hrest d hd) with h | h
        · exact .inl h
        · exact .inr (.inr (beq_iff_eq.mp h))
      · exact .inr (.inr rfl)
      · exact .inr (.inr rfl)
      · exact .inr (.inl (isDigit_of_mem_numeral hn hd))
    have hname : (nameOf base n).toList = c :: (rest ++ '_' :: '_' :: numeral n) := by
      rw [toList_nameOf, hchars, List.cons_append]
    have hspelling : (nameOf base n).toList.flatMap spelling = (nameOf base n).toList := by
      apply flatMap_eq_self
      rw [hname]
      intro d hd
      rcases List.mem_cons.mp hd with rfl | hd
      · exact spelling_eq_self (.inl hc)
      · exact spelling_eq_self (hclass d hd)
    have hident : Text.isIdentifier (nameOf base n).toList := by
      rw [hname, Text.isIdentifier, isStart_of_isLower hc, Bool.true_and, List.all_eq_true]
      intro d hd
      rcases hclass d hd with h | h | rfl
      · exact isContinue_of_isStart (isStart_of_isLower h)
      · exact isContinue_of_isDigit h
      · exact isContinue_of_isStart isStart_lowLine
    rw [mangle, hspelling, legalize, if_pos hident, String.ofList_toList,
      unreserve_of_isNumbered (isNumbered_nameOf base hn)]

/-- Writing out characters adds low lines, unless it changes nothing. -/
theorem flatMap_eq_self_of_lowLine_notMem
    {f : Char → List Char} (hf : ∀ c, f c = [c] ∨ '_' ∈ f c) {cs : List Char}
    (h : '_' ∉ cs.flatMap f) :
  cs.flatMap f = cs
  := by
  apply flatMap_eq_self
  intro c hc
  rcases hf c with hself | hmem
  · exact hself
  · exact absurd (List.mem_flatMap.mpr ⟨c, hc, hmem⟩) h

/-- A name whose identifier has no low line is its own identifier. -/
theorem eq_of_mangle_eq {name ident : String} (h : mangle name = ident)
    (hident : '_' ∉ ident.toList) :
  name = ident
  := by
  have hlegal : String.ofList (legalize (name.toList.flatMap spelling)) = ident := by
    unfold mangle unreserve at h
    split at h
    · rw [← h, String.toList_append] at hident
      exact absurd (List.mem_append_right _ List.mem_cons_self) hident
    · exact h
  have hchars : legalize (name.toList.flatMap spelling) = ident.toList := by
    rw [← hlegal, String.toList_ofList]
  have hplain : name.toList.flatMap spelling = ident.toList := by
    unfold legalize at hchars
    split at hchars
    · exact hchars
    · rename_i hnot
      rw [← hchars] at hident
      simp only at hident
      split at hident
      · rename_i hcode
        rw [flatMap_eq_self_of_lowLine_notMem codeSpelling_eq hident] at hcode
        exact absurd hcode hnot
      · exact absurd List.mem_cons_self hident
  rw [← hplain] at hident
  rw [flatMap_eq_self_of_lowLine_notMem spelling_eq hident] at hplain
  exact String.toList_injective hplain

end Springboard
