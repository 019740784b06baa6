import Covenant.Proofs.Outcome
import Covenant.Schema.Validation
import Covenant.Template.Registry

/-!
Faults that do not tell where they were found.

* `Outcome.FailsWith`: what holds of every fault that a result may fail with, with one lemma for
  each way to put results together.
* `Fault.Unplaced`: a fault that names no place in a text, unless it was found in grammar source.
* `Catalog.failsWith_rules`, `Registry.failsWith_readSource`: making the rules of types fails in
  no other way, and neither does reading grammar source.
* `Derivation.failsWith_evaluate`, `Catalog.failsWith_checkData`: nor does working out a value, nor
  checking it.
-/

namespace Covenant

namespace Outcome

variable {α β : Type} {P : Fault → Prop}

/-- A result is there, or fails with such a fault. -/
def FailsWith (P : Fault → Prop) (o : Outcome α) : Prop :=
  ∀ f, o = .error f → P f

theorem failsWith_ok (a : α) : FailsWith P (.ok a) :=
  fun _ h => nomatch h

theorem failsWith_error {f : Fault} (h : P f) : FailsWith P (.error f : Outcome α) :=
  fun _ hf => Except.error.inj hf ▸ h

/-- Two steps in a row fail as the clause allows when each of them does; the second is only asked
about the values the first can give. -/
theorem FailsWith.bind {o : Outcome α} {k : α → Outcome β} (ho : o.FailsWith P)
    (hk : ∀ a, o = .ok a → (k a).FailsWith P) : (o >>= k).FailsWith P := by
  intro f h
  rcases bind_eq_error.mp h with h | ⟨a, ha, h⟩
  · exact ho f h
  · exact hk a ha f h

theorem FailsWith.map {o : Outcome α} (ho : o.FailsWith P) (g : α → β) :
    FailsWith P (o.map g : Outcome β) :=
  fun f h => ho f (map_eq_error.mp h)

/-- A step taken for every element of a list fails as the single step does. -/
theorem FailsWith.mapM {as : List α} {k : α → Outcome β} (hk : ∀ a, (k a).FailsWith P) :
    (as.mapM k).FailsWith P := by
  intro f h
  obtain ⟨a, -, ha⟩ := exists_of_mapM_error h
  exact hk a f ha

/-- A fold fails as its step does. -/
theorem FailsWith.foldlM {as : List α} {k : β → α → Outcome β} (hk : ∀ b a, (k b a).FailsWith P)
    (b : β) : (as.foldlM k b).FailsWith P := by
  induction as generalizing b with
  | nil => exact failsWith_ok b
  | cons a as ih => exact (hk b a).bind fun b' _ => ih b'

theorem failsWith_filterAuxM {k : α → Outcome Bool} (hk : ∀ a, (k a).FailsWith P)
    (as kept : List α) : FailsWith P (List.filterAuxM k as kept) := by
  induction as generalizing kept with
  | nil => exact failsWith_ok kept
  | cons a as ih => exact (hk a).bind fun _ _ => ih _

/-- A filter whose test can fail fails as the test does. -/
theorem FailsWith.filterM {as : List α} {k : α → Outcome Bool} (hk : ∀ a, (k a).FailsWith P) :
    (as.filterM k).FailsWith P :=
  (failsWith_filterAuxM hk as []).bind fun _ _ => failsWith_ok _

end Outcome

open Outcome

/-! ### Faults without a place -/

namespace Fault

/-- **A fault that tells no place in a text** that was read, or is about to be. Where one names a
place it was found in grammar source, and it is not about a character that was not expected. -/
structure Unplaced (f : Fault) : Prop where
  span : f.span = none ∨ ∃ x, f.cause = .grammar x
  character : ∀ c expected, f.cause ≠ .reading (.unexpectedCharacter c expected)

/-- A misfit without a span tells no place. -/
theorem unplaced_structural (x : Structure) (file : Option String) :
    Unplaced { cause := .structural x, file } :=
  ⟨.inl rfl, fun _ _ h => nomatch h⟩

/-- Faults of grammars carry no place: the cause names a rule, not a span of text. -/
theorem unplaced_of_grammar {f : Fault} {x : Grammar} (h : f.cause = .grammar x) : f.Unplaced :=
  ⟨.inr ⟨x, h⟩, fun _ _ hc => nomatch h.symm.trans hc⟩

end Fault

open Fault

section

variable {α : Type}

/-- Failing for a cause that is not a character. -/
theorem failsWith_fail {cause : Fault.Cause}
    (h : ∀ c expected, cause ≠ .reading (.unexpectedCharacter c expected)) :
    (fail cause : Outcome α).FailsWith Unplaced :=
  failsWith_error ⟨.inl rfl, h⟩

/-- An undefined outcome is a fault without a place. -/
theorem failsWith_undefined : (fail .undefined : Outcome α).FailsWith Unplaced :=
  failsWith_fail fun _ _ h => nomatch h

theorem failsWith_model (x : Fault.Model) : (fail (.model x) : Outcome α).FailsWith Unplaced :=
  failsWith_fail fun _ _ h => nomatch h

theorem failsWith_format (x : Fault.Format) : (fail (.format x) : Outcome α).FailsWith Unplaced :=
  failsWith_fail fun _ _ h => nomatch h

theorem failsWith_grammar (x : Fault.Grammar) :
    (fail (.grammar x) : Outcome α).FailsWith Unplaced :=
  failsWith_fail fun _ _ h => nomatch h

theorem failsWith_ofOption (o : Option α) : (Outcome.ofOption o).FailsWith Unplaced := by
  cases o with
  | none => exact failsWith_undefined
  | some a => exact failsWith_ok a

end

/-! ### Formats -/

/-- A date format that is refused is refused without a place. -/
theorem DateFormat.failsWith_ofString (format : String) :
    (DateFormat.ofString format).FailsWith Unplaced := by
  unfold DateFormat.ofString
  split
  · exact failsWith_format _
  · split
    · exact failsWith_format _
    · split
      · exact failsWith_ok _
      · exact failsWith_format _

/-- An amount format that is refused is refused without a place. -/
theorem AmountFormat.failsWith_ofString (format : String) :
    (AmountFormat.ofString format).FailsWith Unplaced := by
  unfold AmountFormat.ofString
  split
  · exact failsWith_format _
  · split
    · exact failsWith_format _
    · exact failsWith_ok _

/-- A monetary format that is refused is refused without a place. -/
theorem MonetaryFormat.failsWith_ofString (format : String) :
    (MonetaryFormat.ofString format).FailsWith Unplaced := by
  refine (AmountFormat.failsWith_ofString format).bind fun _ _ => ?_
  simp only
  split
  · exact failsWith_ok _
  · exact failsWith_format _

/-- Reading a date never says where in the document the date stood. -/
theorem DateTime.failsWith_read (text format : String) (clock : Option Int) (zone : Zone) :
    (DateTime.read text format clock zone).FailsWith Unplaced := by
  refine (DateFormat.failsWith_ofString format).bind fun f _ => ?_
  split
  · exact failsWith_fail fun _ _ h => nomatch h
  · simp only
    split
    · exact failsWith_fail fun _ _ h => nomatch h
    · split
      · exact failsWith_fail fun _ _ h => nomatch h
      · split
        · exact failsWith_undefined
        · exact failsWith_ok _

/-- Reading an amount never says where in the document the amount stood. -/
theorem Amount.failsWith_read (text format : String) :
    (Amount.read text format).FailsWith Unplaced := by
  refine (AmountFormat.failsWith_ofString format).bind fun f _ => ?_
  split
  · exact failsWith_fail fun _ _ h => nomatch h
  · exact failsWith_ofOption _

/-- Reading a monetary amount never says where in the document it stood. -/
theorem Monetary.failsWith_read (text format : String) :
    (Monetary.read text format).FailsWith Unplaced := by
  refine (MonetaryFormat.failsWith_ofString format).bind fun f _ => ?_
  split
  · exact failsWith_fail fun _ _ h => nomatch h
  · exact (failsWith_ofOption _).bind fun _ _ => failsWith_ok _

/-! ### Sets of rules -/

namespace RuleSet

theorem failsWith_add (s : RuleSet) (r : Rule) : (s.add r).FailsWith Unplaced := by
  unfold add
  split
  · exact failsWith_grammar _
  · exact failsWith_ok _

theorem failsWith_get (s : RuleSet) (name : String) : (s.get name).FailsWith Unplaced := by
  unfold get
  split
  · exact failsWith_ok _
  · exact failsWith_grammar _

theorem failsWith_check (s : RuleSet) : s.check.FailsWith Unplaced := by
  unfold check
  split
  · exact failsWith_grammar _
  · exact failsWith_ok _

/-- Printing a rule set fails, if at all, on a name, never at a place. -/
theorem failsWith_write (s : RuleSet) : s.write.FailsWith Unplaced :=
  (failsWith_check s).bind fun _ _ => failsWith_ok _

/-- The fault a batch of rules stops at is one of adding a single rule. -/
theorem unplaced_of_addAll {s : RuleSet} {skip : Bool} {rules : List Rule} {f : Fault}
    (h : (s.addAll skip rules).2 = some f) : f.Unplaced := by
  induction rules generalizing s with
  | nil => cases h
  | cons r rules ih =>
    rw [addAll] at h
    split at h
    · exact ih h
    · split at h
      · exact ih h
      · rename_i f' hadd
        cases h
        exact failsWith_add s r _ hadd

end RuleSet

/-! ### Types -/

namespace Resolve

theorem failsWith_chainFrom (types : Table SchemaType) (fqn : String) (fuel : Nat)
    (chain : List String) (current : Option String) :
    (chainFrom types fqn fuel chain current).FailsWith Unplaced := by
  induction fuel generalizing chain current with
  | zero =>
    cases current with
    | none => exact failsWith_ok _
    | some current => exact failsWith_undefined
  | succ fuel ih =>
    cases current with
    | none => exact failsWith_ok _
    | some current =>
      rw [chainFrom]
      split
      · exact failsWith_model _
      · split
        · exact ih _ _
        · exact failsWith_undefined

/-- A broken chain of super types is reported by the type's name alone. -/
theorem failsWith_chain (types : Table SchemaType) (fqn : String) :
    (chain types fqn).FailsWith Unplaced := by
  unfold chain
  split
  · exact failsWith_chainFrom _ _ _ _ _
  · exact failsWith_undefined

end Resolve

namespace Catalog

variable (c : Catalog)

theorem failsWith_get (fqn : String) : (c.get fqn).FailsWith Unplaced := by
  unfold get
  split
  · exact failsWith_ok _
  · exact failsWith_model _

/-- Asking for the concrete subtypes of an unknown type is reported by its name. -/
theorem failsWith_concreteSubtypes (base : String) :
    (c.concreteSubtypes base).FailsWith Unplaced := by
  refine (failsWith_get c base).bind fun _ _ => FailsWith.filterM fun d => ?_
  split
  · exact failsWith_ok _
  · exact (Resolve.failsWith_chain _ _).map _

/-- A model without exactly one template type is reported without a place. -/
theorem failsWith_templateType (kind : TemplateKind) :
    (c.templateType kind).FailsWith Unplaced := by
  refine (failsWith_concreteSubtypes c _).bind fun found _ => ?_
  split
  · exact failsWith_model _
  · exact failsWith_ok _
  · exact failsWith_model _

/-- The walk over the types a type mentions fails as the step that lists a type's neighbours does.
-/
theorem failsWith_explore {next : SchemaType → Outcome (List String)}
    (hnext : ∀ d, (next d).FailsWith Unplaced) (fuel : Nat) (seen : List SchemaType)
    (pending : List String) : (c.explore next fuel seen pending).FailsWith Unplaced := by
  induction fuel generalizing seen pending with
  | zero => exact failsWith_ok _
  | succ fuel ih =>
    cases pending with
    | nil => exact failsWith_ok _
    | cons fqn pending =>
      rw [explore]
      split
      · exact ih _ _
      · exact (failsWith_get c fqn).bind fun d _ => (hnext d).bind fun _ _ => ih _ _

/-- Collecting the types whose values can stand in a text gives faults of the model only. -/
theorem failsWith_textTypes (fqn : String) : (c.textTypes fqn).FailsWith Unplaced := by
  refine failsWith_explore c (fun d => ?_) _ _ _
  dsimp only
  split
  · exact (failsWith_concreteSubtypes c _).bind fun _ _ => failsWith_ok _
  · exact failsWith_ok _

/-- The rules of one type: what fails is a look-up in the model. -/
theorem failsWith_rulesOf (d : SchemaType) : (c.rulesOf d).FailsWith Unplaced := by
  unfold rulesOf
  split
  · exact failsWith_ok _
  · split
    · exact (((MonetaryFormat.failsWith_ofString _).bind fun _ _ => failsWith_ok _ :
        (Monetary.rule Monetary.defaultFormat).FailsWith Unplaced)).bind fun _ _ => failsWith_ok _
    · split
      · refine FailsWith.map ((failsWith_concreteSubtypes c _).bind fun subtypes _ => ?_) _
        split
        · exact failsWith_model _
        · exact failsWith_ok _
      · exact failsWith_ok _

theorem failsWith_addNew (s : RuleSet) (rules : List Rule) :
    (addNew s rules).FailsWith Unplaced := by
  unfold addNew
  split
  · exact failsWith_ok _
  · rename_i f hadd
    exact failsWith_error (RuleSet.unplaced_of_addAll (congrArg Prod.snd hadd))

/-- The rules of the primitives fail on a default format that is refused. -/
theorem failsWith_primitiveRules (s : Settings) : (primitiveRules s).FailsWith Unplaced := by
  have hdates : (dateRules s).FailsWith Unplaced :=
    ((DateFormat.failsWith_ofString _).bind fun _ _ => failsWith_ok _ :
      (DateTime.rule s.dateFormat).FailsWith Unplaced).bind fun _ _ => failsWith_ok _
  exact hdates.bind fun _ _ => failsWith_ok _

/-- **Making the rules of types** fails without telling a place. -/
theorem failsWith_rules (s : Settings) (root : String) : (c.rules s root).FailsWith Unplaced :=
  (failsWith_primitiveRules s).bind fun _ _ =>
    (FailsWith.foldlM RuleSet.failsWith_add _).bind fun _ _ =>
      (failsWith_textTypes c root).bind fun _ _ =>
        FailsWith.foldlM (fun set d => (failsWith_rulesOf c d).bind fun rules _ =>
          failsWith_addNew set rules) _

/-- **Checking data** fails without telling a place. -/
theorem failsWith_checkData (v : Value) (type : Option String) :
    (c.checkData v type).FailsWith Unplaced := by
  have hviolations : ∀ fqn, (c.violations fqn v).FailsWith Unplaced := fun fqn =>
    (failsWith_explore c (fun _ => failsWith_ok _) _ _ _).bind fun _ _ => failsWith_ok _
  have hvalidate : (c.validate v type).FailsWith Unplaced := by
    unfold validate
    split
    · exact hviolations _
    · refine FailsWith.bind ?_ fun named _ => ?_
      · unfold namedType
        split
        · exact failsWith_ok _
        · exact failsWith_undefined
        · exact failsWith_undefined
        · exact failsWith_ok _
      · split
        · exact hviolations _
        · exact failsWith_ok _
  refine hvalidate.bind fun found _ => ?_
  unfold accept
  split
  · exact failsWith_ok _
  · exact failsWith_fail fun _ _ h => nomatch h

end Catalog

/-! ### Grammar source -/

namespace Source

variable {cause : Fault.Cause}

/-- A literal that cannot be decoded is a fault of the grammar, or has no meaning. -/
def IsCause (cause : Fault.Cause) : Prop :=
  cause = .undefined ∨ ∃ x, cause = .grammar x

/-- A literal of a written rule is refused for one of the decoder's causes. -/
theorem isCause_decodeLiteral {s : String} (h : decodeLiteral s = .error cause) :
    IsCause cause := by
  unfold decodeLiteral at h
  split at h
  · cases h
  · cases h
    exact .inl rfl
  · cases h
    exact .inr ⟨_, rfl⟩

/-- A symbol of a written rule is refused for one of the decoder's causes. -/
theorem isCause_decodeSymbol {w : WrittenSymbol} (h : w.decode = .error cause) : IsCause cause := by
  unfold WrittenSymbol.decode at h
  split at h
  · exact isCause_decodeLiteral (map_eq_error.mp h)
  · cases h

/-- A parameter of a written rule is refused for one of the decoder's causes. -/
theorem isCause_decodeParam {p : String × WrittenSource} (h : decodeParam p = .error cause) :
    IsCause cause := by
  obtain ⟨key, source⟩ := p
  cases source with
  | name s => cases h
  | number n => cases h
  | literal s => exact isCause_decodeLiteral (map_eq_error.mp h)

/-- Symbols that cannot be decoded hold one that cannot be. -/
theorem isCause_decodeSymbols {ws : List WrittenSymbol}
    (h : ws.mapM WrittenSymbol.decode = .error cause) : IsCause cause := by
  obtain ⟨w, -, hw⟩ := exists_of_mapM_error h
  exact isCause_decodeSymbol hw

/-- **A line that cannot be decoded** has a literal that cannot be. -/
theorem isCause_decodeLine {l : Line} (h : l.decode = .error cause) : IsCause cause := by
  cases l with
  | blank => cases h
  | start name => cases h
  | expressions => cases h
  | rule name left alternatives action comment =>
    rcases bind_eq_error.mp h with h | ⟨_, -, h⟩
    · obtain ⟨symbols, -, hsymbols⟩ := exists_of_mapM_error h
      exact isCause_decodeSymbols hsymbols
    · rcases bind_eq_error.mp h with h | ⟨_, -, h⟩
      · cases action with
        | none => cases h
        | some a =>
          rcases bind_eq_error.mp h with h | ⟨_, -, h⟩
          · rcases bind_eq_error.mp h with h | ⟨_, -, h⟩
            · obtain ⟨p, -, hp⟩ := exists_of_mapM_error h
              exact isCause_decodeParam hp
            · cases h
          · cases h
      · cases h

/-- Rules that cannot be added are at fault. -/
theorem grammar_of_addItems {items : List Item} {s : RuleSet} {left : Nat}
    (h : items.foldlM addItem s = .error (cause, left)) : ∃ x, cause = .grammar x := by
  induction items generalizing s with
  | nil => cases h
  | cons i items ih =>
    rcases bind_eq_error.mp h with h | ⟨_, -, h⟩
    · cases i with
      | start name => cases h
      | expressions => cases h
      | rule r left =>
        rw [addItem] at h
        split at h
        · cases h
          exact ⟨_, rfl⟩
        · cases h
    · exact ih h

end Source

namespace RuleSet

/-- **Reading grammar source** fails for a fault of the grammar, or without telling a place. -/
theorem failsWith_read (source : String) (file : Option String) :
    (RuleSet.read source file).FailsWith Unplaced := by
  unfold RuleSet.read
  dsimp only
  split
  · exact failsWith_error (unplaced_of_grammar rfl)
  · split
    · rename_i hdecode
      obtain ⟨l, -, hl⟩ := exists_of_mapM_error hdecode
      rcases Source.isCause_decodeLine hl with rfl | ⟨x, rfl⟩
      · exact failsWith_error ⟨.inl rfl, fun _ _ h => nomatch h⟩
      · exact failsWith_error (unplaced_of_grammar rfl)
    · split
      · rename_i hadd
        obtain ⟨x, rfl⟩ := Source.grammar_of_addItems hadd
        exact failsWith_error (unplaced_of_grammar rfl)
      · split
        · exact failsWith_error (unplaced_of_grammar rfl)
        · exact failsWith_ok _

end RuleSet

/-- Grammar source that has no grammar tells no place in another text. -/
theorem Registry.failsWith_readSource (file source : String) :
    (Registry.readSource file source).FailsWith Unplaced := by
  refine (RuleSet.failsWith_read source (some file)).bind fun rules _ => ?_
  refine (RuleSet.failsWith_check rules).bind fun _ _ => ?_
  split
  · exact failsWith_ok _
  · exact failsWith_grammar _

/-! ### Values -/

namespace Action

theorem failsWith_argument (args : Table Value) (key : String) :
    (argument args key).FailsWith Unplaced :=
  failsWith_ofOption _

/-- An action without its format argument fails without a place. -/
theorem failsWith_formatArgument (args : Table Value) :
    (formatArgument args).FailsWith Unplaced := by
  refine (failsWith_argument args _).bind fun v _ => ?_
  split
  · exact failsWith_ok _
  · exact failsWith_undefined

theorem failsWith_dateFormatArgument (args : Table Value) :
    (dateFormatArgument args).FailsWith Unplaced := by
  refine (failsWith_argument args _).bind fun v _ => ?_
  split
  · exact failsWith_ok _
  · split
    · exact failsWith_undefined
    · exact failsWith_ok _

/-- A literal that is no JSON text is refused without a place. -/
theorem failsWith_readJson (v : Value) : (readJson v).FailsWith Unplaced := by
  unfold readJson
  split
  · split
    · exact failsWith_ok _
    · refine failsWith_fail fun _ _ h => ?_
      split at h <;> cases h
  · exact failsWith_undefined

theorem failsWith_concat (args : Table Value) : (concat args).FailsWith Unplaced := by
  refine (failsWith_argument args _).bind fun _ _ => ?_
  dsimp only
  split
  · exact (failsWith_ofOption _).bind fun _ _ => failsWith_ok _
  · exact failsWith_ok _

/-- Every named action fails without a place, whatever values and arguments it is given. -/
theorem failsWith_run (name : String) (values : List Value) (args : Table Value)
    (ctx : ReadingContext) : (run name values args ctx).FailsWith Unplaced := by
  unfold run
  split
  · exact failsWith_readJson _
  · exact (failsWith_ofOption _).map _
  · exact (failsWith_ofOption _).map _
  · exact failsWith_ok _
  · exact failsWith_ok _
  · exact failsWith_ok _
  · exact failsWith_ok _
  · exact failsWith_ok _
  · exact (failsWith_argument _ _).map _
  · exact failsWith_concat _
  · exact failsWith_ok _
  · exact (failsWith_dateFormatArgument _).bind fun _ _ => (DateTime.failsWith_read _ _ _ _).map _
  · exact (failsWith_formatArgument _).bind fun _ _ => (Amount.failsWith_read _ _).map _
  · exact (failsWith_formatArgument _).bind fun _ _ => Monetary.failsWith_read _ _
  · exact failsWith_grammar _

end Action

/-- Applying a rule's action fails without a place; the place is added by the reader. -/
theorem Rule.failsWith_apply (r : Rule) (ctx : ReadingContext) (alternative : List Symbol)
    (values : List Value) : (r.apply ctx alternative values).FailsWith Unplaced := by
  unfold Rule.apply
  split
  · exact failsWith_ok _
  · refine (FailsWith.mapM fun p => FailsWith.map ?_ _).bind fun _ _ => Action.failsWith_run _ _ _ _
    unfold Action.bind
    split
    · exact failsWith_ok _
    · exact failsWith_ofOption _
    · exact failsWith_ofOption _

namespace Derivation

mutual

/-- **Working out a value** fails without telling a place. -/
theorem failsWith_evaluate (s : RuleSet) (ctx : ReadingContext) :
    ∀ d, (evaluate s ctx d).FailsWith Unplaced
  | .token _ => failsWith_ok _
  | .absent => failsWith_ok _
  | .many ds => (failsWith_evaluateAll s ctx ds).map _
  | .node _ _ ds => (failsWith_evaluateAll s ctx ds).bind fun _ _ =>
      (RuleSet.failsWith_get s _).bind fun _ _ => Rule.failsWith_apply _ _ _ _

/-- Evaluation over a derivation, by induction on it: only the actions can fail. -/
theorem failsWith_evaluateAll (s : RuleSet) (ctx : ReadingContext) :
    ∀ ds, (evaluateAll s ctx ds).FailsWith Unplaced
  | [] => failsWith_ok _
  | d :: ds => (failsWith_evaluate s ctx d).bind fun _ _ =>
      (failsWith_evaluateAll s ctx ds).bind fun _ _ => failsWith_ok _

end

end Derivation

end Covenant
