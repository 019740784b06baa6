import Covenant.Proofs.Markup.Steps
import Covenant.Proofs.Schema.Names
import Covenant.Proofs.Source.Steady
import Covenant.Proofs.Text.Basic

/-!
The source of generated rules.

* `isName_qualified`, `isName_formatRuleName`: the names of types and of formats are names
  of source.
* `Formatted.steady_rule`: the rule of a format is steady unless the format separates
  digits by a line feed.
* `Catalog.steady_rules`: so are the rules of types whose names have no line feed.
-/

namespace Covenant

open Source

/-! ### Names -/

namespace Source

theorem IsName.append {s t : String} (hs : IsName s)
    (ht : ∀ c ∈ t.toList, isNamePart c = true) : IsName (s ++ t) := by
  obtain ⟨c, cs, hlist, hc, hcs⟩ := hs
  refine ⟨c, cs ++ t.toList, by simp [hlist], hc, fun d hd => ?_⟩
  rcases List.mem_append.mp hd with hd | hd
  · exact hcs d hd
  · exact ht d hd

theorem IsName.isNamePart {s : String} (hs : IsName s) : ∀ c ∈ s.toList, isNamePart c = true := by
  obtain ⟨c, cs, hlist, hc, hcs⟩ := hs
  rw [hlist]
  intro d hd
  rcases List.mem_cons.mp hd with rfl | hd
  · simp [Source.isNamePart, hc]
  · exact hcs d hd

def testName : List Char → Bool
  | [] => false
  | c :: cs => isNameStart c && cs.all Source.isNamePart

theorem testName_iff {s : String} : testName s.toList = true ↔ IsName s := by
  unfold IsName
  cases s.toList with
  | nil => simp [testName]
  | cons c cs => simp [testName]

instance (s : String) : Decidable (IsName s) :=
  decidable_of_iff _ testName_iff

theorem isBlank_of_isNameStart {c : Char} (h : isNameStart c = true) : Text.isBlank c = false := by
  have hall : ∀ n, n < 128 → isNameStart (Char.ofNat n) = true →
      Text.isBlank (Char.ofNat n) = false := by decide
  have hlt : c.toNat < 128 := by
    simp only [isNameStart, Char.isAlpha, Char.isUpper, Char.isLower, Bool.or_eq_true,
      Bool.and_eq_true, decide_eq_true_eq, ge_iff_le, UInt32.le_iff_toNat_le, beq_iff_eq] at h
    have hnat : c.toNat = c.val.toNat := rfl
    have hZ : 'Z'.val.toNat = 90 := rfl
    have hz : 'z'.val.toNat = 122 := rfl
    rcases h with ((⟨_, h⟩ | ⟨_, h⟩) | rfl) | rfl
    · omega
    · omega
    · decide
    · decide
  have hnat := hall c.toNat hlt
  rw [Char.ofNat_toNat] at hnat
  exact hnat h

/-- A text that begins with a name has words. -/
theorem IsName.words_ne_nil {s : String} (hs : IsName s) (t : String) : Text.words (s ++ t) ≠ [] := by
  obtain ⟨c, cs, hlist, hc, _⟩ := hs
  rw [Text.words, Ne, List.map_eq_nil_iff]
  exact Text.splitRuns_ne_nil (.inr ⟨c, by simp [hlist], isBlank_of_isNameStart hc⟩)

theorem isNamePart_of_isDigit {c : Char} (h : c.isDigit = true) : isNamePart c = true := by
  simp [isNamePart, h]

/-- A name with a number behind it. -/
theorem IsName.append_toString {s : String} (hs : IsName s) (n : Nat) :
    IsName (s ++ toString n) :=
  hs.append fun _ hc => isNamePart_of_isDigit (Text.isDigit_of_mem_toDigits (by simpa using hc))

end Source

theorem isNameStart_of_isIdentifier {c : Char} {cs : List Char}
    (h : isIdentifier (c :: cs) = true) : isNameStart c = true := by
  simp only [isIdentifier, Bool.and_eq_true] at h
  simp only [isNameStart, Bool.or_eq_true] at h ⊢
  exact .inl h.1

theorem isNamePart_of_isIdentifier {cs : List Char} (h : isIdentifier cs = true) {c : Char}
    (hc : c ∈ cs) : isNamePart c = true := by
  rcases char_of_isIdentifier h hc with hc | rfl
  · simp only [Char.isAlphanum, Bool.or_eq_true] at hc
    simp only [isNamePart, isNameStart, Bool.or_eq_true]
    tauto
  · rfl

theorem withoutLineFeed_eq {cs : List Char} (h : '\n' ∉ cs) : Text.withoutLineFeed cs = cs :=
  Text.withoutLineFeed_eq_self fun hlast => h (List.mem_of_getLast? hlast)

/-- **A name without a line feed** is a name of source. -/
theorem isName_of_isName {s : String} (h : isName s = true) (hline : '\n' ∉ s.toList) :
    IsName s := by
  rw [isName, withoutLineFeed_eq hline] at h
  cases hs : s.toList with
  | nil => simp [hs, isIdentifier] at h
  | cons c cs =>
    rw [hs] at h
    exact ⟨c, cs, hs, isNameStart_of_isIdentifier h,
      fun d hd => isNamePart_of_isIdentifier h (by simp [hd])⟩

/-- A dotted name without a line feed is a name of source. -/
theorem isName_of_isDottedName {s : String} (h : isDottedName s = true)
    (hline : '\n' ∉ s.toList) : IsName s := by
  rw [isDottedName, withoutLineFeed_eq hline, List.all_eq_true] at h
  cases hs : s.toList with
  | nil =>
    rw [hs] at h
    exact absurd (h [] (by simp [Text.splitAt])) (by decide)
  | cons c cs =>
    rw [hs] at h
    obtain ⟨piece, pieces, _, hsplit⟩ := Text.splitAt_cons '.' c cs
    have hdot : c ≠ '.' := by
      rintro rfl
      rw [if_pos rfl] at hsplit
      exact absurd (h [] (by simp [hsplit])) (by decide)
    rw [if_neg hdot] at hsplit
    have hstart : isNameStart c = true :=
      isNameStart_of_isIdentifier (h (c :: piece) (by rw [hsplit]; exact List.mem_cons_self))
    refine ⟨c, cs, hs, hstart, fun d hd => ?_⟩
    rcases Text.mem_splitAt '.' (List.mem_cons_of_mem c hd) with rfl | ⟨p, hp, hd⟩
    · rfl
    · exact isNamePart_of_isIdentifier (h p hp) hd

theorem isName_qualified {ns name : String} (hns : IsName ns) (hname : IsName name) :
    IsName (ns ++ "." ++ name) := by
  refine (hns.append fun c hc => ?_).append hname.isNamePart
  obtain rfl : c = '.' := by simpa using hc
  rfl

/-! ### Names of formats -/

/-- The name of the rule of a format is a name of source. -/
theorem isName_formatRuleName {type : String} (htype : IsName type) (format : String) :
    IsName (formatRuleName type format) := by
  refine (htype.append ?_).append ?_
  · intro c hc
    obtain rfl : c = '_' := by simpa using hc
    rfl
  · intro c hc
    rw [String.toList_ofList] at hc
    have hdigest : c ∈ (Digest.ofString format).toList := List.mem_of_mem_take hc
    have hdigit := Digest.isAlphanum_of_mem hdigest
    simp only [Char.isAlphanum, Bool.or_eq_true] at hdigit
    rcases hdigit with h | h <;> simp [isNamePart, isNameStart, h]

/-! ### Rules of formats -/

def Symbol.Steady (x : Symbol) : Prop :=
  x.kind = .pattern → x.value ≠ "" ∧ Slashed.Steady x.value.toList

theorem steady_literal (text : String) (c : Cardinality) : (Symbol.literal text c).Steady :=
  fun h => by cases h

theorem steady_reference (name : String) (c : Cardinality) : (Symbol.rule name c).Steady :=
  fun h => by cases h

theorem steady_formatRule {type action : String} (htype : IsName type) (haction : IsName action)
    (format : String) {symbols : List Symbol} (hsymbols : ∀ x ∈ symbols, x.Steady) :
    (formatRule type action format symbols).Steady := by
  refine ⟨isName_formatRuleName htype format, ?_, ?_, ?_⟩
  · intro a ha
    cases ha
    refine ⟨haction, fun p hp => ?_⟩
    rw [List.mem_singleton.mp hp]
    change IsName "format"
    decide
  · intro a ha x hx
    rw [List.mem_singleton.mp ha] at hx
    exact hsymbols x hx
  · intro c hc
    cases hc
    rw [String.append_assoc]
    exact .inr (htype.words_ne_nil _)

theorem DateField.steady_regex (f : DateField) : f.regex ≠ "" ∧ Slashed.Steady f.regex.toList := by
  refine ⟨?_, Slashed.steady_of_isSteady ?_⟩ <;> cases f <;> decide

theorem DateTime.steady_rule {format : String} {r : Rule} (h : DateTime.rule format = .ok r) :
    r.Steady := by
  obtain ⟨f, _, h⟩ := Outcome.bind_eq_ok.mp h
  cases h
  refine steady_formatRule (by decide) (by decide) format fun x hx => ?_
  obtain ⟨t, _, rfl⟩ := List.mem_map.mp hx
  cases t with
  | field f => exact fun _ => f.steady_regex
  | literal cs => exact steady_literal _ _

/-- An amount format that separates digits by a line feed. -/
def AmountFormat.BreaksLine (f : AmountFormat) : Prop :=
  f.thousands = some '\n' ∨ f.decimal = some '\n'

theorem steady_escapeRegex {c : Char} (hline : c ≠ '\n') : Slashed.Steady (escapeRegex c) := by
  unfold escapeRegex
  split
  · rename_i hspecial
    refine .pair ?_ hline .nil
    rintro rfl
    exact absurd hspecial (by decide)
  · rename_i hplain
    refine .plain ?_ hline ?_ .nil <;>
    · rintro rfl
      exact absurd (by decide) hplain

theorem steady_digits (n : Nat) : Slashed.Steady (toString n).toList := by
  refine Slashed.steady_of_plain fun c hc => ?_
  have hdigit : c.isDigit = true := Text.isDigit_of_mem_toDigits (by simpa using hc)
  refine ⟨?_, ?_, ?_⟩ <;>
  · rintro rfl
    exact absurd hdigit (by decide)

/-- **The pattern of a number is steady** unless digits are separated by a line feed. -/
theorem AmountFormat.steady_number {f : AmountFormat} (hf : ¬ f.BreaksLine) : f.number.Steady := by
  refine fun _ => ⟨fun h => ?_, ?_⟩
  · have hlength := congrArg String.length h
    simp [number, Symbol.pattern, regex] at hlength
  · simp only [number, Symbol.pattern, regex, String.toList_append]
    refine ((Slashed.steady_of_isSteady (by decide)).append ?_).append ?_
    · cases hthousands : f.thousands with
      | none => exact Slashed.steady_of_isSteady (by decide)
      | some c =>
        have hc : c ≠ '\n' := fun h => hf (.inl (h ▸ hthousands))
        simp only [String.toList_append, String.toList_ofList]
        exact ((Slashed.steady_of_isSteady (by decide)).append (steady_escapeRegex hc)).append
          (Slashed.steady_of_isSteady (by decide))
    · cases hdecimal : f.decimal with
      | none => exact .nil
      | some c =>
        have hc : c ≠ '\n' := fun h => hf (.inr (h ▸ hdecimal))
        simp only [String.toList_append, String.toList_ofList]
        exact (((steady_escapeRegex hc).append (Slashed.steady_of_isSteady (by decide))).append
          (steady_digits _)).append (Slashed.steady_of_isSteady (by decide))

theorem AmountFormat.steady_affix (cs : List Char) : ∀ x ∈ AmountFormat.affix cs, x.Steady := by
  intro x hx
  unfold AmountFormat.affix at hx
  split at hx
  · cases hx
  · rw [List.mem_singleton.mp hx]
    exact steady_literal _ _

/-- A format of numbers that separates digits by a line feed. -/
def Formatted.BreaksLine (k : Formatted) (format : String) : Prop :=
  k ≠ .date ∧ ∃ f, AmountFormat.ofString format = .ok f ∧ f.BreaksLine

/-- **The rule of a format is steady** unless the format separates digits by a line
feed. -/
theorem Formatted.steady_rule {k : Formatted} {format : String} (hline : ¬ k.BreaksLine format)
    {r : Rule} (h : k.rule format = .ok r) : r.Steady := by
  cases k with
  | date => exact DateTime.steady_rule h
  | amount =>
    obtain ⟨f, hf, h⟩ := Outcome.bind_eq_ok.mp h
    cases h
    have hnumber : f.number.Steady :=
      AmountFormat.steady_number fun hbreak => hline ⟨by simp, f, hf, hbreak⟩
    refine steady_formatRule (by decide) (by decide) format fun x hx => ?_
    rcases List.mem_append.mp hx with hx | hx
    · rcases List.mem_append.mp hx with hx | hx
      · exact AmountFormat.steady_affix _ x hx
      · exact List.mem_singleton.mp hx ▸ hnumber
    · exact AmountFormat.steady_affix _ x hx
  | monetary =>
    obtain ⟨m, hm, h⟩ := Outcome.bind_eq_ok.mp h
    cases h
    obtain ⟨f, hf, hm⟩ := Outcome.bind_eq_ok.mp hm
    have hamount : m.amount = f := by
      simp only at hm
      split at hm
      · cases hm
        rfl
      · cases hm
    have hnumber : m.amount.number.Steady :=
      AmountFormat.steady_number fun hbreak => hline ⟨by simp, f, hf, hamount ▸ hbreak⟩
    refine steady_formatRule (by decide) (by decide) format fun x hx => ?_
    obtain ⟨p, _, rfl⟩ := List.mem_map.mp hx
    cases p with
    | literal cs => exact steady_literal _ _
    | currency =>
      refine fun _ => ⟨?_, Slashed.steady_of_isSteady ?_⟩ <;>
      · simp only [MonetaryFormat.symbol, Symbol.pattern]
        cases m.style <;> decide
    | amount => exact hnumber

/-! ### Rules of types -/

/-- A model file whose names have no line feed. -/
structure ModelFile.OneLine (m : ModelFile) : Prop where
  ns : '\n' ∉ m.ns.toList
  types : ∀ d ∈ m.declarations, '\n' ∉ d.name.toList
  properties : ∀ d ∈ m.declarations, ∀ p ∈ d.properties, '\n' ∉ p.name.toList

/-- A type whose name and whose properties have names of source. -/
structure SchemaType.Named (d : SchemaType) : Prop where
  fqn : IsName d.fqn
  properties : ∀ p ∈ d.properties, IsName p.name

/-- **The types of a catalog have names of source** if no name in its files has a line
feed. -/
theorem Catalog.Built.named_types {c : Catalog} (hc : c.Built)
    (hlines : ∀ f ∈ c.files, f.model.OneLine) : ∀ e ∈ c.types, e.2.Named := by
  intro e he
  have hdeclares := hc.declared e he
  constructor
  · obtain ⟨f, hf, t, ht, hfqn, _⟩ := hdeclares.type
    rw [hfqn]
    exact isName_qualified (isName_of_isDottedName (hc.named f hf).ns (hlines f hf).ns)
      (isName_of_isName ((hc.named f hf).types t ht) ((hlines f hf).types t ht))
  · intro p hp
    obtain ⟨f, hf, t, ht, q, hq, hname⟩ := hdeclares.properties p hp
    rw [← hname]
    exact isName_of_isName ((hc.named f hf).properties t ht q hq).1
      ((hlines f hf).properties t ht q hq)

theorem steady_patternRule {name regex action : String} (hname : IsName name)
    (haction : IsName action) (hregex : regex ≠ "") (hsteady : Slashed.Steady regex.toList) :
    (patternRule name regex action).Steady := by
  refine ⟨hname, ?_, ?_, ?_⟩
  · intro a ha
    cases ha
    exact ⟨haction, by simp⟩
  · intro a ha x hx
    rw [List.mem_singleton.mp ha] at hx
    rw [List.mem_singleton.mp hx]
    exact fun _ => ⟨hregex, hsteady⟩
  · intro c hc
    cases hc
    exact .inr (hname.words_ne_nil _)

/-- A rule that passes on the value of one other rule. -/
theorem steady_of_reference {r : Rule} {x : String} {card : Cardinality} (hname : IsName r.name)
    (halternatives : r.alternatives = [[.rule x card]]) (haction : r.action = none)
    {s t : String} (hs : IsName s) (hcomment : r.comment = some (s ++ t)) : r.Steady := by
  refine ⟨hname, by simp [haction], ?_, ?_⟩
  · intro a ha y hy
    rw [halternatives] at ha
    rw [List.mem_singleton.mp ha] at hy
    rw [List.mem_singleton.mp hy]
    exact steady_reference _ _
  · intro c hc
    rw [hcomment] at hc
    cases hc
    exact .inr (hs.words_ne_nil t)

theorem PrimitiveRule.steady {s : Settings} {r : Rule} (h : PrimitiveRule s r) : r.Steady := by
  cases h with
  | @pattern T regex action t ht hpattern =>
    have hall : ∀ e ∈ Primitive.names, ∀ p ∈ e.2.pattern?,
        IsName e.1 ∧ IsName p.2 ∧ p.1 ≠ "" ∧ Slashed.isSteady p.1.toList = true := by decide
    obtain ⟨hname, haction, hregex, hsteady⟩ := hall (T, t) ht (regex, action) hpattern
    exact steady_patternRule hname haction hregex (Slashed.steady_of_isSteady hsteady)
  | format hw => exact DateTime.steady_rule hw
  | date =>
    have hname : IsName "DateTime" := by decide
    have hcomment : "DateTime value, default format " ++ s.dateFormat
        = "DateTime" ++ (" value, default format " ++ s.dateFormat) := by
      rw [← String.append_assoc]
      rfl
    exact steady_of_reference hname rfl rfl hname (congrArg some hcomment)
  | any =>
    exact steady_patternRule (by decide) (by decide) (by decide)
      (Slashed.steady_of_isSteady (by decide))

/-- A rule of the name of a type. -/
theorem steady_ruleOf {d : SchemaType} (hd : IsName d.fqn) {alternatives : List (List Symbol)}
    {action : Option Action} (halternatives : ∀ a ∈ alternatives, ∀ x ∈ a, x.Steady)
    (haction : ∀ a, action = some a → IsName a.name ∧ ∀ p ∈ a.params, IsName p.key) :
    (d.ruleOf alternatives action).Steady := by
  refine ⟨hd, haction, halternatives, ?_⟩
  intro c hc
  cases hc
  have hwords := hd.words_ne_nil ""
  rw [String.append_empty] at hwords
  exact .inr hwords

theorem steady_conceptRule {d : SchemaType} (hd : d.Named) : d.conceptRule.Steady := by
  refine steady_ruleOf hd.fqn ?_ ?_
  · intro a ha x hx
    rw [List.mem_singleton.mp ha] at hx
    split at hx
    · exact List.mem_singleton.mp hx ▸ steady_literal _ _
    · rcases Catalog.mem_intersperse hx with rfl | hx
      · exact steady_literal _ _
      · obtain ⟨p, _, rfl⟩ := List.mem_map.mp hx
        exact steady_reference _ _
  · intro a ha
    cases ha
    have hobject : IsName "object" := by decide
    have hclass : IsName classKey := by decide
    refine ⟨hobject, fun p hp => ?_⟩
    rcases List.mem_cons.mp hp with rfl | hp
    · exact hclass
    · obtain ⟨⟨q, i⟩, hq, rfl⟩ := List.mem_map.mp hp
      exact hd.properties q (List.fst_mem_of_mem_zipIdx hq)

/-- **The rules of a type** whose names are names of source. -/
theorem Catalog.steady_rulesOf {c : Catalog} {d : SchemaType} (hd : d.Named) {rs : List Rule}
    (h : c.rulesOf d = .ok rs) : ∀ r ∈ rs, r.Steady := by
  unfold rulesOf at h
  split at h
  · cases h
    intro r hr
    rw [List.mem_singleton.mp hr]
    refine steady_ruleOf hd.fqn ?_ ?_
    · intro a ha x hx
      obtain ⟨v, _, rfl⟩ := List.mem_map.mp ha
      exact List.mem_singleton.mp hx ▸ steady_literal _ _
    · intro a ha
      cases ha
      exact ⟨by decide, by simp⟩
  · split at h
    · obtain ⟨w, hw, h⟩ := Outcome.bind_eq_ok.mp h
      cases h
      intro r hr
      rcases List.mem_pair.mp hr with rfl | rfl
      · refine Formatted.steady_rule (k := .monetary) ?_ hw
        rintro ⟨_, f, hf, hbreak⟩
        have hdefault : AmountFormat.ofString Monetary.defaultFormat
            = .ok ⟨[], [' ', 'C', 'C', 'C'], some ',', some '.', 2⟩ := rfl
        cases hdefault.symm.trans hf
        rcases hbreak with hbreak | hbreak <;> exact absurd hbreak (by decide)
      · exact steady_of_reference hd.fqn rfl rfl hd.fqn (congrArg some String.append_assoc)
    · split at h
      · obtain ⟨r, hr, rfl⟩ := Outcome.map_eq_ok.mp h
        obtain ⟨subtypes, _, hr⟩ := Outcome.bind_eq_ok.mp hr
        intro q hq
        rw [List.mem_singleton.mp hq]
        split at hr
        · cases hr
        · cases hr
          refine steady_ruleOf hd.fqn ?_ (by simp)
          intro a ha x hx
          obtain ⟨t, _, rfl⟩ := List.mem_map.mp ha
          exact List.mem_singleton.mp hx ▸ steady_reference _ _
      · cases h
        intro r hr
        exact List.mem_singleton.mp hr ▸ steady_conceptRule hd

/-- **The rules that go with a type are steady** if no name in the files has a line
feed. -/
theorem Catalog.steady_rules {c : Catalog} (hc : c.Built)
    (hlines : ∀ f ∈ c.files, f.model.OneLine) {s : Settings} {root : String} {set : RuleSet}
    (h : c.rules s root = .ok set) : ∀ r ∈ set.rules, r.Steady := by
  intro r hr
  rcases cases_of_mem_rules hc.sound.types h hr with hr | ⟨d, rs, hd, hrs, hr⟩
  · exact hr.steady
  · obtain ⟨e, he, rfl⟩ := (mem_of_find_fqn hc.sound.types hd).1
    exact steady_rulesOf (hc.named_types hlines e he) hrs r hr

end Covenant
