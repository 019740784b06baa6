import Covenant.Grammar.Listing
import Covenant.Proofs.Decimal.Integer
import Covenant.Proofs.Grammar.Actions
import Covenant.Proofs.Grammar.Trees
import Covenant.Proofs.Table

/-!
The names of a listing, and the tables that lead back from them.

* `mangle_injective`: rule names are told apart in lower case.
* `label_eq_iff`: a label tells its rule and its index.
* `mem_terminals_namesOf_iff`, `mem_helpers_namesOf_iff`: terminals and helper rules are those of
  the symbols that occur, each once.
* `terminal_eq_iff`, `name_eq_iff`: symbols share them iff they are the same.
* `nodup_namesIn`: no name is given twice.
* `exists_bind`: each parameter of a checked rule is bound in each alternative, a reference to the
  first symbol that refers to its rule, and a position to itself.
* `exists_tables`: a complete set has tables, which lead from every label to its alternative and
  from the name of every helper rule to its symbol.
* `names_distinct`: the names of a listing are told apart, and each leads back to what it was made
  for.
-/

namespace Covenant

namespace Listing

/-! ### Rule names in lower case -/

/-- The rule name that characters in lower case stand for. -/
def unmangle : List Char → List Char
  | [] => []
  | '_' :: c :: cs =>
    (if c = '_' then '_' else if c = '0' then '.' else if c = '1' then '$' else c.toUpper)
      :: unmangle cs
  | c :: cs => c :: unmangle cs

/-- A capital letter comes back from its small one, which no other code uses. -/
theorem toLower_of_isUpper {c : Char} (h : c.isUpper = true) :
    (c.toLower ≠ '_' ∧ c.toLower ≠ '0' ∧ c.toLower ≠ '1') ∧ c.toLower.toUpper = c := by
  have hall : ∀ n < 91, (Char.ofNat n).isUpper = true →
      ((Char.ofNat n).toLower ≠ '_' ∧ (Char.ofNat n).toLower ≠ '0' ∧
        (Char.ofNat n).toLower ≠ '1') ∧ (Char.ofNat n).toLower.toUpper = Char.ofNat n := by
    decide
  have hlt : c.toNat < 91 := by
    simp only [Char.isUpper, decide_eq_true_eq] at h
    have hle : c.val.toNat ≤ 90 := h.2
    exact Nat.lt_succ_of_le hle
  have hc := hall c.toNat hlt
  rw [Char.ofNat_toNat] at hc
  exact hc h

/-- One character is recovered from its code, whatever follows. -/
theorem unmangle_mangleChar (c : Char) (rest : List Char) :
    unmangle (mangleChar c ++ rest) = c :: unmangle rest := by
  unfold mangleChar
  split
  · rename_i hc
    rw [hc]
    rfl
  rename_i hscore
  split
  · rename_i hupper
    obtain ⟨⟨hscore, hzero, hone⟩, hback⟩ := toLower_of_isUpper hupper
    simp [unmangle, hscore, hzero, hone, hback]
  split
  · rename_i hc
    rw [hc]
    rfl
  split
  · rename_i hc
    rw [hc]
    rfl
  · rw [List.singleton_append, unmangle]
    exact fun _ _ h => absurd h hscore

/-- A name is recovered from its mangled form. -/
theorem unmangle_flatMap (cs : List Char) : unmangle (cs.flatMap mangleChar) = cs := by
  induction cs with
  | nil => rfl
  | cons c cs ih => rw [List.flatMap_cons, unmangle_mangleChar, ih]

theorem toList_mangle (name : String) :
    (mangle name).toList = 'r' :: '_' :: name.toList.flatMap mangleChar :=
  String.toList_ofList

/-- **Rule names are told apart** in lower case. -/
theorem mangle_injective : Function.Injective mangle := by
  intro name other h
  have hcodes := congrArg String.toList h
  rw [toList_mangle, toList_mangle, List.cons.injEq, List.cons.injEq] at hcodes
  have hback := congrArg unmangle hcodes.2.2
  rw [unmangle_flatMap, unmangle_flatMap] at hback
  exact String.toList_injective hback

/-! ### Numbered names -/

theorem toList_toString (n : Nat) : (toString n).toList = Nat.toDigits 10 n := by
  simp

theorem toDigits_injective {m n : Nat} (h : Nat.toDigits 10 m = Nat.toDigits 10 n) : m = n := by
  rw [← Text.digitsValue_toDigits m, h, Text.digitsValue_toDigits]

theorem toList_label (rule : String) (index : Nat) :
    (label rule index).toList = 'a' :: (Nat.toDigits 10 index ++ '_' :: (mangle rule).toList) := by
  simp [label]

/-- **A label tells its rule and its index.** -/
theorem label_eq_iff {rule other : String} {i j : Nat} :
    label rule i = label other j ↔ rule = other ∧ i = j := by
  constructor
  · intro h
    have hchars := congrArg String.toList h
    rw [toList_label, toList_label, List.cons.injEq] at hchars
    -- the digits end at the underscore
    have hspan : ∀ n (cs : List Char), (Nat.toDigits 10 n ++ '_' :: cs).span Char.isDigit =
        (Nat.toDigits 10 n, '_' :: cs) := by
      intro n cs
      rw [List.span_eq_takeWhile_dropWhile,
        List.takeWhile_append_of_pos fun c hc => Text.isDigit_of_mem_toDigits hc,
        List.dropWhile_append_of_pos fun c hc => Text.isDigit_of_mem_toDigits hc]
      simp [Char.isDigit]
    have hspans := congrArg (List.span Char.isDigit) hchars.2
    rw [hspan, hspan, Prod.mk.injEq, List.cons.injEq] at hspans
    exact ⟨mangle_injective (String.toList_injective hspans.2.2), toDigits_injective hspans.1⟩
  · rintro ⟨rfl, rfl⟩
    rfl

/-! ### Terminals and helper rules -/

section

variable {α : Type} [DecidableEq α]

/-- A list with one more member at the end, if it is new. -/
def addNew (as : List α) (a : α) : List α :=
  if a ∈ as then as else as ++ [a]

/-- What is collected without repetition: what was there and what was met. -/
theorem mem_foldl_addNew_iff {as bs : List α} {a : α} :
    a ∈ bs.foldl addNew as ↔ a ∈ as ∨ a ∈ bs := by
  induction bs generalizing as with
  | nil => simp
  | cons b bs ih =>
    rw [List.foldl_cons, ih, addNew]
    split
    · rename_i hb
      rw [List.mem_cons]
      exact ⟨Or.imp_right .inr, fun h => h.elim .inl fun h => h.elim (fun h => .inl (h ▸ hb)) .inr⟩
    · rw [List.mem_append, List.mem_singleton, List.mem_cons, or_assoc]

/-- Collecting this way repeats nothing. -/
theorem nodup_foldl_addNew {as bs : List α} (h : as.Nodup) : (bs.foldl addNew as).Nodup := by
  induction bs generalizing as with
  | nil => exact h
  | cons b bs ih =>
    rw [List.foldl_cons]
    refine ih ?_
    unfold addNew
    split
    · exact h
    · rename_i hb
      refine List.nodup_append.mpr ⟨h, List.nodup_singleton b, fun a ha c hc hac => hb ?_⟩
      rwa [← List.mem_singleton.mp hc, ← hac]

end

namespace Names

variable {n : Names} {x y : Symbol}

/-- **The first use of a symbol** notes its terminal and its helper rule. -/
theorem terminals_use : (n.use x).terminals =
    if x.kind = .rule then n.terminals else addNew n.terminals x.single := by
  by_cases hkind : x.kind = .rule <;> by_cases hone : x.cardinality = .one <;>
    by_cases hnew : x.single ∈ n.terminals <;> by_cases hhelper : x ∈ n.helpers <;>
    simp [use, addTerminal, addHelper, addNew, hkind, hone, hnew, hhelper]

/-- Using a symbol makes a helper for it exactly if it repeats or may be absent. -/
theorem helpers_use : (n.use x).helpers =
    if x.cardinality = .one then n.helpers else addNew n.helpers x := by
  by_cases hkind : x.kind = .rule <;> by_cases hone : x.cardinality = .one <;>
    by_cases hnew : x.single ∈ n.terminals <;> by_cases hhelper : x ∈ n.helpers <;>
    simp [use, addTerminal, addHelper, addNew, hkind, hone, hnew, hhelper]

/-- **All terminals of symbols**, in order of first use. -/
theorem terminals_foldl_use (xs : List Symbol) : (xs.foldl use n).terminals =
    ((xs.filter fun x => x.kind != .rule).map Symbol.single).foldl addNew n.terminals := by
  induction xs generalizing n with
  | nil => rfl
  | cons x xs ih =>
    rw [List.foldl_cons, ih, terminals_use]
    by_cases hkind : x.kind = .rule <;> simp [hkind]

/-- **All helper rules of symbols**, in order of first use. -/
theorem helpers_foldl_use (xs : List Symbol) : (xs.foldl use n).helpers =
    (xs.filter fun x => x.cardinality != .one).foldl addNew n.helpers := by
  induction xs generalizing n with
  | nil => rfl
  | cons x xs ih =>
    rw [List.foldl_cons, ih, helpers_use]
    by_cases hone : x.cardinality = .one <;> simp [hone]

end Names

variable {s : RuleSet} {x y : Symbol}

/-- The symbols of a rule set's alternatives are those that occur. -/
theorem mem_symbols_iff :
    x ∈ (s.rules.flatMap fun r => r.alternatives.flatten) ↔ s.Occurs x := by
  simp [RuleSet.Occurs, List.mem_flatMap, List.mem_flatten]

/-- **The terminals of a listing** are the literals and patterns that occur. -/
theorem mem_terminals_namesOf_iff : y ∈ (namesOf s).terminals ↔
    ∃ x, s.Occurs x ∧ x.kind ≠ .rule ∧ y = x.single := by
  rw [namesOf, Names.terminals_foldl_use, mem_foldl_addNew_iff]
  simp only [List.not_mem_nil, false_or, List.mem_map, List.mem_filter, mem_symbols_iff,
    bne_iff_ne, and_assoc, @eq_comm _ y]

/-- **The helper rules of a listing** are those of the optional and repeated symbols that
occur. -/
theorem mem_helpers_namesOf_iff :
    x ∈ (namesOf s).helpers ↔ s.Occurs x ∧ x.cardinality ≠ .one := by
  rw [namesOf, Names.helpers_foldl_use, mem_foldl_addNew_iff]
  simp only [List.not_mem_nil, false_or, List.mem_filter, mem_symbols_iff, bne_iff_ne]

theorem nodup_terminals_namesOf : (namesOf s).terminals.Nodup := by
  rw [namesOf, Names.terminals_foldl_use]
  exact nodup_foldl_addNew List.nodup_nil

theorem nodup_helpers_namesOf : (namesOf s).helpers.Nodup := by
  rw [namesOf, Names.helpers_foldl_use]
  exact nodup_foldl_addNew List.nodup_nil

/-! ### Names of symbols -/

theorem toString_injective {i j : Nat} (h : toString i = toString j) : i = j := by
  have hdigits := congrArg String.toList h
  rw [toList_toString, toList_toString] at hdigits
  exact toDigits_injective hdigits

namespace Names

variable {n : Names}

theorem toList_terminal (n : Names) (x : Symbol) : (n.terminal x).toList =
    (if x.kind = .literal then ['L', 'I', 'T'] else ['P', 'A', 'T'])
      ++ Nat.toDigits 10 (n.terminals.idxOf x.single) := by
  unfold terminal
  split <;> simp

theorem name_helper (n : Names) (hone : x.cardinality ≠ .one) :
    n.name x = "h_" ++ toString (n.helpers.idxOf x) := by
  rw [name, if_neg hone]

/-- **Literals and patterns share a terminal** iff they are of one kind and have the same
text. -/
theorem terminal_eq_iff (hx : x.single ∈ n.terminals) :
    n.terminal x = n.terminal y ↔ x.kind = y.kind ∧ x.value = y.value := by
  constructor
  · intro h
    have hchars := congrArg (List.drop 3 ∘ String.toList) h
    simp only [Function.comp_apply, toList_terminal] at hchars
    have hindex : n.terminals.idxOf x.single = n.terminals.idxOf y.single := by
      refine toDigits_injective ?_
      split at hchars <;> split at hchars <;> exact hchars
    have hsingle : x.single = y.single := (List.idxOf_inj hx).mp hindex
    obtain ⟨hkind, hvalue, -⟩ := Symbol.mk.inj hsingle
    exact ⟨hkind, hvalue⟩
  · rintro ⟨hkind, hvalue⟩
    rw [terminal, terminal, hkind, Symbol.single, Symbol.single, hkind, hvalue]

/-- **Optional and repeated symbols share a helper rule** iff they are the same. -/
theorem name_eq_iff (hx : x ∈ n.helpers) (hxone : x.cardinality ≠ .one)
    (hyone : y.cardinality ≠ .one) : n.name x = n.name y ↔ x = y := by
  constructor
  · intro h
    rw [name_helper n hxone, name_helper n hyone, String.append_right_inj] at h
    exact (List.idxOf_inj hx).mp (toString_injective h)
  · rintro rfl
    rfl

end Names

/-! ### All names -/

/-- **The names of a listing**: of its rules, of their alternatives, of helper rules and of
terminals. -/
def namesIn (s : RuleSet) : List String :=
  s.rules.map (fun r => mangle r.name)
    ++ s.rules.flatMap (fun r => (List.range r.alternatives.length).map (label r.name))
    ++ (namesOf s).helpers.map (namesOf s).name
    ++ (namesOf s).terminals.map (namesOf s).terminal

theorem single_of_mem_terminals (h : x ∈ (namesOf s).terminals) : x.single = x := by
  obtain ⟨y, -, -, rfl⟩ := mem_terminals_namesOf_iff.mp h
  rfl

/-- No two alternatives of a rule set have one label. -/
theorem nodup_labels (hnames : s.names.Nodup) :
    (s.rules.flatMap fun r => (List.range r.alternatives.length).map (label r.name)).Nodup := by
  refine List.nodup_flatMap.mpr ⟨fun r _ => ?_, ?_⟩
  · exact List.nodup_range.map fun i j h => (label_eq_iff.mp h).2
  · have hpairs : s.rules.Pairwise fun r other => r.name ≠ other.name :=
      List.pairwise_map.mp hnames
    refine hpairs.imp fun hne => ?_
    rintro name hr hother
    obtain ⟨i, _, rfl⟩ := List.mem_map.mp hr
    obtain ⟨j, _, h⟩ := List.mem_map.mp hother
    exact hne (label_eq_iff.mp h).1.symm

/-- No two helpers have one name. -/
theorem nodup_helperNames : ((namesOf s).helpers.map (namesOf s).name).Nodup :=
  List.Nodup.map_on (fun _ hx _ hy h =>
    (Names.name_eq_iff hx (mem_helpers_namesOf_iff.mp hx).2 (mem_helpers_namesOf_iff.mp hy).2).mp h)
    nodup_helpers_namesOf

/-- No two terminals have one name. -/
theorem nodup_terminalNames : ((namesOf s).terminals.map (namesOf s).terminal).Nodup := by
  refine List.Nodup.map_on (fun x hx y hy h => ?_) nodup_terminals_namesOf
  have hxone := single_of_mem_terminals hx
  have hyone := single_of_mem_terminals hy
  obtain ⟨hkind, hvalue⟩ := (Names.terminal_eq_iff (hxone.symm ▸ hx)).mp h
  rw [← hxone, ← hyone, Symbol.single, Symbol.single, hkind, hvalue]

def initial (name : String) : Option Char :=
  name.toList.head?

/-- The name of a rule begins with an `r`, ... -/
theorem initial_mangle (name : String) : initial (mangle name) = some 'r' := by
  rw [initial, toList_mangle]
  rfl

/-- ... a label with an `a`, ... -/
theorem initial_label (rule : String) (index : Nat) : initial (label rule index) = some 'a' := by
  rw [initial, toList_label]
  rfl

/-- ... a helper with an `h`, ... -/
theorem initial_helper {n : Names} (hone : x.cardinality ≠ .one) :
    initial (n.name x) = some 'h' := by
  rw [initial, Names.name_helper n hone, String.toList_append]
  rfl

/-- ... and a terminal with a capital: the four kinds of names never meet. -/
theorem initial_terminal (n : Names) (x : Symbol) :
    initial (n.terminal x) = some 'L' ∨ initial (n.terminal x) = some 'P' := by
  rw [initial, Names.toList_terminal]
  split
  · exact .inl rfl
  · exact .inr rfl

/-- **No name is given twice.** -/
theorem nodup_namesIn (hnames : s.names.Nodup) : (namesIn s).Nodup := by
  have hrules : ∀ name ∈ s.rules.map (fun r => mangle r.name), initial name = some 'r' := by
    intro name h
    obtain ⟨r, _, rfl⟩ := List.mem_map.mp h
    exact initial_mangle _
  have hlabels : ∀ name ∈ s.rules.flatMap (fun r =>
      (List.range r.alternatives.length).map (label r.name)), initial name = some 'a' := by
    intro name h
    obtain ⟨r, _, h⟩ := List.mem_flatMap.mp h
    obtain ⟨i, _, rfl⟩ := List.mem_map.mp h
    exact initial_label _ _
  have hhelpers : ∀ name ∈ (namesOf s).helpers.map (namesOf s).name, initial name = some 'h' := by
    intro name h
    obtain ⟨x, hx, rfl⟩ := List.mem_map.mp h
    exact initial_helper (mem_helpers_namesOf_iff.mp hx).2
  have hterminals : ∀ name ∈ (namesOf s).terminals.map (namesOf s).terminal,
      initial name = some 'L' ∨ initial name = some 'P' := by
    intro name h
    obtain ⟨x, _, rfl⟩ := List.mem_map.mp h
    exact initial_terminal _ _
  have hmangled : (s.rules.map fun r => mangle r.name).Nodup := by
    have hmap := hnames.map mangle_injective
    rwa [RuleSet.names, List.map_map] at hmap
  refine List.nodup_append.mpr ⟨List.nodup_append.mpr ⟨List.nodup_append.mpr
    ⟨hmangled, nodup_labels hnames, ?_⟩, nodup_helperNames, ?_⟩, nodup_terminalNames, ?_⟩
  · rintro name hrule _ hlabel rfl
    cases (hrules _ hrule).symm.trans (hlabels _ hlabel)
  · rintro name hname _ hhelper rfl
    rcases List.mem_append.mp hname with hrule | hlabel
    · cases (hrules _ hrule).symm.trans (hhelpers _ hhelper)
    · cases (hlabels _ hlabel).symm.trans (hhelpers _ hhelper)
  · rintro name hname _ hterminal rfl
    have hinitial : initial name = some 'r' ∨ initial name = some 'a' ∨ initial name = some 'h' := by
      rcases List.mem_append.mp hname with hname | hhelper
      · exact (List.mem_append.mp hname).imp (hrules _) fun h => .inl (hlabels _ h)
      · exact .inr (.inr (hhelpers _ hhelper))
    have hother := hterminals _ hterminal
    rcases hinitial with h | h | h <;> simp [h] at hother

/-- **Every symbol of a complete set is written by a name that is given.** -/
theorem name_mem_namesIn (hcheck : s.check = .ok ()) (hx : s.Occurs x) :
    (namesOf s).name x ∈ namesIn s := by
  unfold namesIn
  by_cases hone : x.cardinality = .one
  · rw [Names.name, if_pos hone, Names.base]
    split
    · rename_i hkind
      obtain ⟨r, hr, a, ha, hxa⟩ := hx
      have hreference : x.value ∈ r.references := Rule.mem_references.mpr ⟨a, ha, x, hxa, hkind, rfl⟩
      obtain ⟨target, htarget⟩ := RuleSet.exists_of_references hcheck hr hreference
      have hname : target.name = x.value := by simpa using List.find?_some htarget
      simp only [List.mem_append, List.mem_map]
      exact .inl (.inl (.inl ⟨target, List.mem_of_find?_eq_some htarget, by rw [hname]⟩))
    · rename_i hkind
      have hterminal : x.single ∈ (namesOf s).terminals :=
        mem_terminals_namesOf_iff.mpr ⟨x, hx, hkind, rfl⟩
      simp only [List.mem_append, List.mem_map]
      exact .inr ⟨x.single, hterminal, rfl⟩
  · simp only [List.mem_append, List.mem_map]
    exact .inl (.inr ⟨x, mem_helpers_namesOf_iff.mpr ⟨hx, hone⟩, rfl⟩)

variable {r : Rule} {symbols : List Symbol} {source : ParamSource}

/-! ### Bound parameters -/

/-- **A position holds the first symbol that refers to a rule.** -/
def IsFirst (symbols : List Symbol) (rule : String) (k : Nat) : Prop :=
  (∃ x, symbols[k]? = some x ∧ x.refersTo rule = true) ∧
    ∀ j < k, ∀ x, symbols[j]? = some x → x.refersTo rule = false

/-- **What a parameter is bound to**: a constant to itself, a reference to the position of the first
symbol that refers to its rule, and a position to itself, inside the alternative. -/
def Resolves (symbols : List Symbol) : ParamSource → Binding → Prop
  | .const text, b => b = .const text
  | .ref rule, b => ∃ k, b = .position k ∧ IsFirst symbols rule k
  | .index position, b => ∃ k : Nat, b = .position k ∧ position = k ∧ k < symbols.length

theorem isFirst_of_findIdx {rule : String} {k : Nat}
    (h : symbols.findIdx? (·.refersTo rule) = some k) : IsFirst symbols rule k := by
  obtain ⟨hk, hrefers, hbefore⟩ := List.findIdx?_eq_some_iff_getElem.mp h
  refine ⟨⟨symbols[k], List.getElem?_eq_getElem hk, hrefers⟩, fun j hj x hx => ?_⟩
  obtain ⟨_, rfl⟩ := List.getElem?_eq_some_iff.mp hx
  simpa using hbefore j hj

/-- **Each parameter of a checked rule is bound** in each alternative. -/
theorem exists_bind (h : RuleSet.sourceFault? r source = none) (hsymbols : symbols ∈ r.alternatives) :
    ∃ b, bind? symbols source = some b ∧ Resolves symbols source b := by
  cases source with
  | const text => exact ⟨_, rfl, rfl⟩
  | ref rule =>
    obtain ⟨k, hk⟩ : ∃ k, symbols.findIdx? (·.refersTo rule) = some k := by
      rw [← Option.isSome_iff_exists, List.findIdx?_isSome]
      exact RuleSet.refersTo_of_sourceFault h hsymbols
    exact ⟨.position k, by rw [bind?, hk]; rfl, k, rfl, isFirst_of_findIdx hk⟩
  | index position =>
    obtain ⟨hle, hlt⟩ := RuleSet.lt_of_sourceFault h hsymbols
    obtain ⟨k, rfl⟩ := Int.eq_ofNat_of_zero_le hle
    exact ⟨.position k, rfl, k, rfl, rfl, by omega⟩

/-- The parameters of a rule's action, bound in an alternative; what cannot be bound is an empty
text. -/
def bound (r : Rule) (symbols : List Symbol) : List (String × Binding) :=
  (paramsOf r).map fun p => (p.key, (bind? symbols p.source).getD (.const ""))

theorem sourceFault_of_mem (hcheck : s.check = .ok ()) (hr : r ∈ s.rules) {p : ActionParam}
    (hp : p ∈ paramsOf r) : RuleSet.sourceFault? r p.source = none := by
  unfold paramsOf at hp
  cases ha : r.action with
  | none => simp [ha] at hp
  | some a => exact RuleSet.sourceFault_of_check hcheck hr ha p (by simpa [ha] using hp)

/-- **All parameters of a rule of a complete set are bound.** -/
theorem bound_spec (hcheck : s.check = .ok ()) (hr : r ∈ s.rules) (hsymbols : symbols ∈ r.alternatives) :
    List.Forall₂ (fun p e => e.1 = p.key ∧ bind? symbols p.source = some e.2 ∧
      Resolves symbols p.source e.2) (paramsOf r) (bound r symbols) := by
  rw [bound, List.forall₂_map_right_iff]
  refine List.forall₂_same.mpr fun p hp => ?_
  obtain ⟨b, hb, hresolves⟩ := exists_bind (sourceFault_of_mem hcheck hr hp) hsymbols
  rw [hb, Option.getD_some]
  exact ⟨rfl, rfl, hresolves⟩

/-- In a checked rule set every parameter of an action finds its child. -/
theorem bindAll_eq (hcheck : s.check = .ok ()) (hr : r ∈ s.rules)
    (hsymbols : symbols ∈ r.alternatives) : bindAll r symbols = .ok (bound r symbols) := by
  refine Outcome.mapM_eq_ok_map fun p hp => ?_
  obtain ⟨b, hb, -⟩ := exists_bind (sourceFault_of_mem hcheck hr hp) hsymbols
  rw [hb]
  rfl

/-! ### Tables -/

/-- The alternatives of a rule under their labels. -/
def entries (r : Rule) : List (String × Alternative) :=
  r.alternatives.zipIdx.map fun (symbols, q) => (label r.name q, ⟨r, q, bound r symbols⟩)

/-- The labels and the bound alternatives of a checked rule. -/
theorem entriesOf_eq (hcheck : s.check = .ok ()) (hr : r ∈ s.rules) :
    entriesOf r = .ok (entries r) := by
  refine Outcome.mapM_eq_ok_map ?_
  rintro ⟨symbols, q⟩ hmem
  have hsymbols : symbols ∈ r.alternatives := List.fst_mem_of_mem_zipIdx hmem
  dsimp only
  rw [bindAll_eq hcheck hr hsymbols]
  rfl

theorem names_entries (rules : List Rule) : Table.names (rules.flatMap entries) =
    rules.flatMap fun r => (List.range r.alternatives.length).map (label r.name) := by
  rw [Table.names, List.map_flatMap]
  congr 1
  funext r
  rw [entries, List.map_map, List.range_eq_range', ← List.zipIdx_map_snd, List.map_map]
  rfl

/-- **What tables of a rule set tell**: the alternative of every label, and the symbol of every
helper rule. -/
structure Tells (s : RuleSet) (t : Tables) : Prop where
  helper : ∀ x, s.Occurs x → x.cardinality ≠ .one → t.helpers.find? ((namesOf s).name x) = some x
  unhelped : ∀ rule q, t.helpers.find? (label rule q) = none
  alternative : ∀ r ∈ s.rules, ∀ q symbols, r.alternatives[q]? = some symbols →
    t.alternatives.find? (label r.name q) = some ⟨r, q, bound r symbols⟩

/-- **A complete set has tables.** -/
theorem exists_tables (hnames : s.names.Nodup) (hcheck : s.check = .ok ()) :
    ∃ t, tables s = .ok t ∧ Tells s t := by
  have hentries : s.rules.mapM entriesOf = .ok (s.rules.map entries) :=
    Outcome.mapM_eq_ok_map fun r hr => entriesOf_eq hcheck hr
  have hlabels : (Table.names (s.rules.flatMap entries)).Nodup := by
    rw [names_entries]
    exact nodup_labels hnames
  have hhelpers : (Table.names ((namesOf s).helpers.map fun x => ((namesOf s).name x, x))).Nodup := by
    rw [Table.names, List.map_map]
    exact nodup_helperNames
  refine ⟨⟨.ofList (s.rules.flatMap entries),
    .ofList ((namesOf s).helpers.map fun x => ((namesOf s).name x, x))⟩, ?_, ?_, ?_, ?_⟩
  · rw [tables, hcheck, List.flatMap_def]
    simp only [bind, Except.bind, hentries]
    rfl
  · intro x hx hone
    rw [Table.ofList_eq_self hhelpers, Table.find_eq_some_iff hhelpers]
    exact List.mem_map.mpr ⟨x, mem_helpers_namesOf_iff.mpr ⟨hx, hone⟩, rfl⟩
  · intro rule q
    rw [Table.ofList_eq_self hhelpers, Table.find_eq_none_iff, Table.names, List.map_map]
    intro hmem
    obtain ⟨x, hx, hname⟩ := List.mem_map.mp hmem
    have hinitial := initial_helper (n := namesOf s) (mem_helpers_namesOf_iff.mp hx).2
    rw [show (namesOf s).name x = label rule q from hname, initial_label] at hinitial
    cases hinitial
  · intro r hr q symbols hq
    rw [Table.ofList_eq_self hlabels, Table.find_eq_some_iff hlabels]
    refine List.mem_flatMap.mpr ⟨r, hr, List.mem_map.mpr ⟨(symbols, q), ?_, rfl⟩⟩
    exact List.mk_mem_zipIdx_iff_getElem?.mpr hq

/-! ### Names that are told apart -/

/-- **No names of a listing collide.** Rule names are written by a code that tells them apart. The
listing of a complete set has a name of its own for every rule, every alternative, every helper rule
and every terminal, and writes every symbol by one of them; the tables lead from the label of an
alternative to that alternative and from the name of a helper rule to its symbol; literals and
patterns share a terminal iff they are of one kind and have the same text, and optional and repeated
symbols share a helper rule iff they are the same. -/
theorem names_distinct (hnames : s.names.Nodup) (hcheck : s.check = .ok ()) :
    Function.Injective mangle ∧ (namesIn s).Nodup ∧
    (∀ x, s.Occurs x → (namesOf s).name x ∈ namesIn s) ∧
    (∃ t, tables s = .ok t ∧
      (∀ r ∈ s.rules, ∀ q < r.alternatives.length, t.helpers.find? (label r.name q) = none ∧
        ∃ a, t.alternatives.find? (label r.name q) = some a ∧ a.rule = r ∧ a.index = q) ∧
      ∀ x, s.Occurs x → x.cardinality ≠ .one → t.helpers.find? ((namesOf s).name x) = some x) ∧
    (∀ x y, s.Occurs x → s.Occurs y → x.kind ≠ .rule → y.kind ≠ .rule →
      ((namesOf s).terminal x = (namesOf s).terminal y ↔ x.kind = y.kind ∧ x.value = y.value)) ∧
    ∀ x y, s.Occurs x → s.Occurs y → x.cardinality ≠ .one → y.cardinality ≠ .one →
      ((namesOf s).name x = (namesOf s).name y ↔ x = y) := by
  refine ⟨mangle_injective, nodup_namesIn hnames, fun x => name_mem_namesIn hcheck, ?_, ?_, ?_⟩
  · obtain ⟨t, ht, htells⟩ := exists_tables hnames hcheck
    refine ⟨t, ht, fun r hr q hq => ⟨htells.unhelped r.name q, ?_⟩, htells.helper⟩
    exact ⟨_, htells.alternative r hr q _ (List.getElem?_eq_getElem hq), rfl, rfl⟩
  · intro x y hx _ hkind _
    exact Names.terminal_eq_iff (mem_terminals_namesOf_iff.mpr ⟨x, hx, hkind, rfl⟩)
  · intro x y hx _ hxone hyone
    exact Names.name_eq_iff (mem_helpers_namesOf_iff.mpr ⟨hx, hxone⟩) hxone hyone

/-- Orders of any number of items, which may have a count. -/
def order : RuleSet :=
  { start := some "order"
    rules :=
      [{ name := "order"
         alternatives := [[.rule "count" .optional, .literal ":", .rule "Item" .many]]
         action := some ⟨"object", [⟨"$class", .const "Order"⟩, ⟨"count", .ref "count"⟩,
           ⟨"items", .index 2⟩]⟩ },
       { name := "count", alternatives := [[.pattern "[0-9]+"]], action := some ⟨"integer", []⟩ },
       { name := "Item", alternatives := [[.literal "a"], [.literal "b"]] }] }

/-- The helper rules of an order are told apart, and lead back to their symbols. -/
theorem names_distinct_order : order.names.Nodup ∧ order.check = .ok () ∧
    (namesIn order).Nodup ∧ ∃ t, tables order = .ok t ∧
      t.helpers.find? "h_0" = some (.rule "count" .optional) ∧
      t.helpers.find? "h_1" = some (.rule "Item" .many) := by
  have hnames : order.names.Nodup := by decide
  have hcheck : order.check = .ok () := by rfl
  obtain ⟨-, hnodup, -, ⟨t, ht, -, hhelpers⟩, -⟩ := names_distinct hnames hcheck
  have hcount : order.Occurs (.rule "count" .optional) :=
    ⟨_, List.mem_cons_self, _, List.mem_cons_self, List.mem_cons_self⟩
  have hitem : order.Occurs (.rule "Item" .many) :=
    ⟨_, List.mem_cons_self, _, List.mem_cons_self, by decide⟩
  exact ⟨hnames, hcheck, hnodup, t, ht, hhelpers _ hcount (by decide), hhelpers _ hitem (by decide)⟩

end Listing

end Covenant
