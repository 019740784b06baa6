import Covenant.Proofs.Source.Scanning
import Covenant.Proofs.Text.Words

/-!
The tokens of a written rule set.

* `Rule.Writable`: what a rule has to be like to be written: its names are names of
  grammar source, and its patterns can stand between slashes.
* `scans_text`: the source of a rule set of writable rules is scanned as the tokens
  that stand for its lines, one after the other.
-/

namespace Covenant

open Source

namespace Symbol

def Writable (s : Symbol) : Prop :=
  match s.kind with
  | .rule => IsName s.value
  | .literal => True
  | .pattern => s.value ≠ "" ∧ Slashed.Enclosable s.value.toList

/-- The token of a written symbol without its cardinality. -/
def token (s : Symbol) : Token :=
  match s.kind with
  | .rule => .name s.value
  | .literal => .literal (JsonText.literal false s.value)
  | .pattern => .pattern (Slashed.encode s.value.toList)

def tokens (s : Symbol) : List Token :=
  match s.cardinality with
  | .one => [s.token]
  | c => [s.token, .mark c]

theorem tokens_ne_nil (s : Symbol) : s.tokens ≠ [] := by
  unfold tokens
  split <;> simp

end Symbol

namespace ParamSource

def Writable : ParamSource → Prop
  | .const _ => True
  | .ref rule => IsName rule
  | .index position => 0 ≤ position

def token : ParamSource → Token
  | .const text => .literal (JsonText.literal false text)
  | .ref rule => .name rule
  | .index position => .number position.toNat

end ParamSource

def ActionParam.tokens (p : ActionParam) : List Token :=
  [.name p.key, .equals, p.source.token]

/-- An action that can be written. -/
structure Action.Writable (a : Action) : Prop where
  name : IsName a.name
  keys : ∀ p ∈ a.params, IsName p.key
  sources : ∀ p ∈ a.params, p.source.Writable

def Action.tokens (a : Action) : List Token :=
  .actionStart :: .name a.name :: (a.params.flatMap ActionParam.tokens ++ [.actionEnd])

/-- A comment on one line as source holds it; a comment without words is left out. -/
def writtenComment? (comment : Option String) : Option String :=
  (comment.map writeComment).filter fun c => c != ""

namespace Rule

/-- A rule that can be written. -/
structure Writable (r : Rule) : Prop where
  name : IsName r.name
  nonempty : r.alternatives ≠ []
  symbols : ∀ a ∈ r.alternatives, a ≠ [] ∧ ∀ s ∈ a, s.Writable
  action : ∀ a, r.action = some a → a.Writable
  comment : ∀ c, r.comment = some c → c = "" ∨ Text.words c ≠ []

def alternativeTokens (r : Rule) : List Token :=
  [Token.bar].intercalate (r.alternatives.map (·.flatMap Symbol.tokens))

/-- The written action behind a space, if there is one. -/
def actionText (r : Rule) : String :=
  match r.action with
  | some a => " " ++ a.write
  | none => ""

/-- The written comment behind its mark, if there is one. -/
def commentText (r : Rule) : String :=
  match r.comment with
  | some c => if c.isEmpty then "" else " # " ++ writeComment c
  | none => ""

theorem write_eq (r : Rule) : r.write = r.name ++ " -> "
    ++ " | ".intercalate (r.alternatives.map writeAlternative) ++ r.actionText
    ++ r.commentText :=
  rfl

/-- The tokens of the written action, if there is one. -/
def actionTokens (r : Rule) : List Token :=
  (r.action.map Action.tokens).getD []

/-- The token of the written comment, if there is one. -/
def commentTokens (r : Rule) : List Token :=
  ((writtenComment? r.comment).map fun c => Token.comment (" " ++ c)).toList

def tokens (r : Rule) : List Token :=
  .name r.name :: .arrow :: (r.alternativeTokens ++ r.actionTokens ++ r.commentTokens)

end Rule

namespace Source

/-! ### Symbols -/

/-- A rest of a text that goes on with a space or a line feed. -/
def Stops (rest : List Char) : Prop :=
  ∃ c cs, rest = c :: cs ∧ (c = ' ' ∨ c = '\n')

theorem stops_space (cs : List Char) : Stops (' ' :: cs) :=
  ⟨' ', cs, rfl, .inl rfl⟩

theorem stops_newline (cs : List Char) : Stops ('\n' :: cs) :=
  ⟨'\n', cs, rfl, .inr rfl⟩

theorem Stops.ends_name {rest : List Char} (h : Stops rest) : Ends isNamePart rest := by
  obtain ⟨c, cs, rfl, rfl | rfl⟩ := h <;> intro d ds heq <;> cases heq <;> decide

theorem Stops.ends_digit {rest : List Char} (h : Stops rest) : Ends Char.isDigit rest := by
  obtain ⟨c, cs, rfl, rfl | rfl⟩ := h <;> intro d ds heq <;> cases heq <;> decide

theorem ends_name_cons {c : Char} (hc : isNamePart c = false) (cs : List Char) :
    Ends isNamePart (c :: cs) := by
  intro d ds heq
  cases heq
  exact hc

/-- The body of a symbol is scanned where its mark or the end of the symbol follows. -/
theorem scans_symbolBody {s : Symbol} (hs : s.Writable) {rest : List Char}
    (hrest : Ends isNamePart rest) : Scans (s.body.toList ++ rest) [s.token] rest := by
  unfold Symbol.Writable at hs
  unfold Symbol.body Symbol.token
  cases hk : s.kind with
  | rule =>
    rw [hk] at hs
    exact scans_name hs hrest
  | literal => exact scans_literal s.value rest
  | pattern =>
    rw [hk] at hs
    have hne : s.value.toList ≠ [] := fun h => hs.1 (String.toList_eq_nil_iff.mp h)
    simpa using scans_pattern hs.2 hne rest

/-- **A written symbol is scanned as its tokens.** -/
theorem scans_symbol {s : Symbol} (hs : s.Writable) {rest : List Char} (hrest : Stops rest) :
    Scans (s.write.toList ++ rest) s.tokens rest := by
  unfold Symbol.tokens Symbol.write
  rw [String.toList_append, List.append_assoc]
  cases hc : s.cardinality with
  | one => exact scans_symbolBody hs hrest.ends_name
  | optional =>
    have hend : Ends isNamePart ('?' :: rest) := ends_name_cons (by decide) rest
    exact (scans_symbolBody hs hend).append (scans_of_next (by decide) rfl (by simp))
  | many =>
    have hend : Ends isNamePart ('*' :: rest) := ends_name_cons (by decide) rest
    exact (scans_symbolBody hs hend).append (scans_of_next (by decide) rfl (by simp))

/-! ### Sequences -/

theorem Scans.gap_of_ne_nil {cs rest : List Char} {ts : List Token} (hts : ts ≠ [])
    (h : Scans cs ts rest) : Scans (' ' :: cs) ts rest := by
  cases ts with
  | nil => exact absurd rfl hts
  | cons t ts => exact h.gap

section Sequences

variable {α : Type} {text : α → List Char} {tokens : α → List Token}

/-- **Texts with spaces between them** are scanned one after the other. -/
theorem scans_spaced {xs : List α} (hne : ∀ x ∈ xs, tokens x ≠ [])
    (hscans : ∀ x ∈ xs, ∀ rest, Stops rest → Scans (text x ++ rest) (tokens x) rest)
    {rest : List Char} (hrest : Stops rest) :
    Scans ([' '].intercalate (xs.map text) ++ rest) (xs.flatMap tokens) rest := by
  induction xs with
  | nil => exact .refl rest
  | cons x xs ih =>
    have ih := ih (fun y hy => hne y (by simp [hy])) fun y hy => hscans y (by simp [hy])
    cases xs with
    | nil => simpa using hscans x (by simp) rest hrest
    | cons y ys =>
      rw [List.map_cons, List.map_cons, List.intercalate_cons_cons, List.flatMap_cons,
        List.append_assoc, List.append_assoc]
      refine (hscans x (by simp) _ (stops_space _)).append ?_
      exact Scans.gap_of_ne_nil (by simp [hne y (by simp)]) ih

/-- **Texts with bars between them** are scanned with the bars between their tokens. -/
theorem scans_barred {xs : List α} (hne : ∀ x ∈ xs, tokens x ≠ [])
    (hscans : ∀ x ∈ xs, ∀ rest, Stops rest → Scans (text x ++ rest) (tokens x) rest)
    {rest : List Char} (hrest : Stops rest) :
    Scans ([' ', '|', ' '].intercalate (xs.map text) ++ rest)
      ([Token.bar].intercalate (xs.map tokens)) rest := by
  induction xs with
  | nil => exact .refl rest
  | cons x xs ih =>
    have ih := ih (fun y hy => hne y (by simp [hy])) fun y hy => hscans y (by simp [hy])
    cases xs with
    | nil => simpa using hscans x (by simp) rest hrest
    | cons y ys =>
      have hy : [Token.bar].intercalate ((y :: ys).map tokens) ≠ [] := by
        cases ys <;> simp [hne y (by simp), List.intercalate_cons_cons]
      rw [List.map_cons, List.map_cons, List.intercalate_cons_cons, List.map_cons, List.map_cons,
        List.intercalate_cons_cons, List.append_assoc, List.append_assoc, List.append_assoc]
      refine (hscans x (by simp) _ (stops_space _)).append ?_
      exact (scans_bar _).gap.append (Scans.gap_of_ne_nil hy ih)

end Sequences

/-! ### Rules -/

/-- **A written alternative is scanned as the tokens of its symbols.** -/
theorem scans_alternative {a : List Symbol} (ha : ∀ s ∈ a, s.Writable) {rest : List Char}
    (hrest : Stops rest) :
    Scans ((writeAlternative a).toList ++ rest) (a.flatMap Symbol.tokens) rest := by
  rw [writeAlternative, String.toList_intercalate, List.map_map]
  exact scans_spaced (fun s _ => s.tokens_ne_nil)
    (fun s hs rest hrest => scans_symbol (ha s hs) hrest) hrest

/-- **The written alternatives are scanned with bars between them.** -/
theorem scans_alternatives {r : Rule} (hr : r.Writable) {rest : List Char} (hrest : Stops rest) :
    Scans ((" | ".intercalate (r.alternatives.map writeAlternative)).toList ++ rest)
      r.alternativeTokens rest := by
  rw [String.toList_intercalate, List.map_map]
  refine scans_barred (fun a ha => ?_)
    (fun a ha rest hrest => scans_alternative (hr.symbols a ha).2 hrest) hrest
  cases a with
  | nil => exact absurd rfl (hr.symbols [] ha).1
  | cons s a => simp [s.tokens_ne_nil]

/-- **A written parameter is scanned as its key, an equals sign and its source.** -/
theorem scans_param {p : ActionParam} (hkey : IsName p.key) (hsource : p.source.Writable)
    {rest : List Char} (hrest : Stops rest) :
    Scans (p.write.toList ++ rest) p.tokens rest := by
  have hvalue : Scans (p.source.write.toList ++ rest) [p.source.token] rest := by
    cases hs : p.source with
    | const text => exact scans_literal text rest
    | ref rule =>
      rw [hs] at hsource
      exact scans_name hsource hrest.ends_name
    | index position =>
      rw [hs] at hsource
      obtain ⟨n, rfl⟩ := Int.eq_ofNat_of_zero_le hsource
      have hlist : (ParamSource.write (.index n)).toList = Nat.toDigits 10 n :=
        Text.toList_toString_ofNat n
      rw [hlist]
      exact scans_number n hrest.ends_digit
  have hequals : Ends isNamePart ('=' :: (p.source.write.toList ++ rest)) :=
    ends_name_cons (by decide) _
  have hlist : p.write.toList ++ rest = p.key.toList ++ '=' :: (p.source.write.toList ++ rest) := by
    simp [ActionParam.write]
  rw [hlist]
  exact (scans_name hkey hequals).append ((scans_equals _).append hvalue)

/-- **A written action is scanned as its name and its parameters between its marks.** -/
theorem scans_action {a : Action} (ha : a.Writable) (rest : List Char) :
    Scans (a.write.toList ++ rest) a.tokens rest := by
  have hlist : a.write.toList ++ rest = '\x7b' :: '%' :: ' ' ::
      ([' '].intercalate (((a.name.toList, [Token.name a.name]) :: a.params.map fun p =>
        (p.write.toList, p.tokens)).map Prod.fst) ++ ' ' :: '%' :: '\x7d' :: rest) := by
    simp [Action.write, String.toList_intercalate, Function.comp_def]
  have htokens : a.tokens = [.actionStart] ++
      (((a.name.toList, [Token.name a.name]) :: a.params.map fun p =>
        (p.write.toList, p.tokens)).flatMap Prod.snd ++ [.actionEnd]) := by
    simp [Action.tokens, List.flatMap_map]
  rw [hlist, htokens]
  refine (scans_actionStart _).append ?_
  refine Scans.gap_of_ne_nil (by simp) (Scans.append ?_ (scans_actionEnd rest).gap)
  refine scans_spaced ?_ ?_ (stops_space _)
  · intro x hx
    rcases List.mem_cons.mp hx with rfl | hx
    · simp
    · obtain ⟨p, _, rfl⟩ := List.mem_map.mp hx
      simp [ActionParam.tokens]
  · intro x hx rest hrest
    rcases List.mem_cons.mp hx with rfl | hx
    · exact scans_name ha.name hrest.ends_name
    · obtain ⟨p, hp, rfl⟩ := List.mem_map.mp hx
      exact scans_param (ha.keys p hp) (ha.sources p hp) hrest

/-- The written action or nothing, in front of a rest. -/
theorem scans_actionPart {r : Rule} (hr : r.Writable) (rest : List Char) :
    Scans (r.actionText.toList ++ rest) r.actionTokens rest := by
  unfold Rule.actionText Rule.actionTokens
  cases ha : r.action with
  | none => exact .refl rest
  | some a =>
    have hscan := scans_action (hr.action a ha) rest
    simpa using hscan.gap_of_ne_nil (by simp [Action.tokens])

theorem isRun_words {c : String} : ∀ w ∈ Text.words c, Text.IsRun Text.isBlank w.toList :=
  fun _ => Text.isRun_of_mem_words

theorem notMem_writeComment (c : String) : '\n' ∉ (writeComment c).toList :=
  Text.newline_notMem_joined isRun_words

theorem writtenComment_some {c : String} (h : Text.words c ≠ []) :
    writtenComment? (some c) = some (writeComment c) := by
  have hne : writeComment c ≠ "" := Text.joined_ne_empty h isRun_words
  simp [writtenComment?, Option.filter, hne]

theorem writtenComment_empty : writtenComment? (some "") = none := by
  decide

/-- The written comment or nothing, up to the end of the line. -/
theorem scans_commentPart {r : Rule} (hr : r.Writable) (rest : List Char) :
    Scans (r.commentText.toList ++ '\n' :: rest) r.commentTokens ('\n' :: rest) := by
  unfold Rule.commentText Rule.commentTokens
  cases hc : r.comment with
  | none => exact .refl _
  | some c =>
    by_cases hempty : c = ""
    · subst hempty
      rw [writtenComment_empty]
      exact .refl _
    · have hwords : Text.words c ≠ [] := (hr.comment c hc).resolve_left hempty
      have hline : '\n' ∉ (" " ++ writeComment c).toList := by
        rw [String.toList_append]
        simpa using notMem_writeComment c
      have hlist : (" # " ++ writeComment c).toList ++ '\n' :: rest
          = ' ' :: '#' :: ((" " ++ writeComment c).toList ++ '\n' :: rest) := by
        simp
      have hscan := scans_comment hline rest
      rw [String.ofList_toList] at hscan
      rw [writtenComment_some hwords]
      simpa [hempty, hlist] using hscan.gap

theorem stops_actionPart (r : Rule) {rest : List Char} (h : Stops rest) :
    Stops (r.actionText.toList ++ rest) := by
  unfold Rule.actionText
  cases r.action with
  | none => exact h
  | some a => simpa using stops_space _

theorem stops_commentPart (r : Rule) (rest : List Char) :
    Stops (r.commentText.toList ++ '\n' :: rest) := by
  unfold Rule.commentText
  cases r.comment with
  | none => exact stops_newline rest
  | some c =>
    by_cases hempty : c = ""
    · simpa [hempty] using stops_newline rest
    · simpa [hempty] using stops_space _

theorem alternativeTokens_ne_nil {r : Rule} (hr : r.Writable) : r.alternativeTokens ≠ [] := by
  obtain ⟨hne, hall⟩ := hr.nonempty, hr.symbols
  unfold Rule.alternativeTokens
  cases halts : r.alternatives with
  | nil => exact absurd halts hne
  | cons a as =>
    have ha := (hall a (by simp [halts])).1
    cases a with
    | nil => exact absurd rfl ha
    | cons s a => cases as <;> simp [s.tokens_ne_nil, List.intercalate_cons_cons]

/-- **A written rule is scanned as its tokens**, up to the end of its line. -/
theorem scans_rule {r : Rule} (hr : r.Writable) (rest : List Char) :
    Scans (r.write.toList ++ '\n' :: rest) r.tokens ('\n' :: rest) := by
  have hcomment := scans_commentPart hr rest
  have haction := scans_actionPart hr (r.commentText.toList ++ '\n' :: rest)
  have halternatives := scans_alternatives hr (stops_actionPart r (stops_commentPart r rest))
  have hbody := (halternatives.append haction).append hcomment
  have harrow := (scans_arrow _).gap.append
    (hbody.gap_of_ne_nil (by simp [alternativeTokens_ne_nil hr]))
  have hname := (scans_name hr.name (stops_space _).ends_name).append harrow
  rw [Rule.write_eq, Rule.tokens]
  simpa using hname

end Source

namespace RuleSet

/-- A rule set that can be written, each of whose rules has a name of its own. -/
structure Writable (s : RuleSet) : Prop where
  names : s.names.Nodup
  rules : ∀ r ∈ s.rules, r.Writable

/-- The tokens of a written rule set that starts at `start`. -/
def tokens (s : RuleSet) (start : String) : List Token :=
  [.comment " clausegram grammar", .newline, .startMark, .name start, .newline]
    ++ (if s.expressions then [.expressionsMark, .newline] else [])
    ++ s.rules.flatMap fun r => r.tokens ++ [.newline]

theorem scans_rules {rs : List Rule} (hrs : ∀ r ∈ rs, r.Writable) :
    Scans (rs.flatMap fun r => r.write.toList ++ ['\n'])
      (rs.flatMap fun r => r.tokens ++ [.newline]) [] := by
  induction rs with
  | nil => exact .refl []
  | cons r rs ih =>
    have hrule := scans_rule (hrs r (by simp)) (rs.flatMap fun r => r.write.toList ++ ['\n'])
    have hrest := (scans_newline _).append (ih fun q hq => hrs q (by simp [hq]))
    simpa using hrule.append hrest

/-- **The source of a rule set is scanned as the tokens of its lines.** -/
theorem scans_text {s : RuleSet} (hs : s.Writable) {start : String} (hstart : IsName start) :
    Scans (s.text start).toList (s.tokens start) [] := by
  have hrules := scans_rules hs.rules
  have hexpressions : Scans ((if s.expressions then "@expressions\n" else "").toList
        ++ s.rules.flatMap fun r => r.write.toList ++ ['\n'])
      ((if s.expressions then [.expressionsMark, .newline] else [])
        ++ s.rules.flatMap fun r => r.tokens ++ [.newline]) [] := by
    cases s.expressions with
    | false => simpa using hrules
    | true =>
      have hmark := (scans_expressionsMark _).append ((scans_newline _).append hrules)
      simpa using hmark
  have hname := (scans_name hstart (stops_newline _).ends_name).append
    ((scans_newline _).append hexpressions)
  have hline := (scans_newline _).append ((scans_startMark _).append hname.gap)
  have hblank : '\n' ∉ " clausegram grammar".toList := by decide
  have hall := (scans_comment hblank _).append hline
  unfold text tokens
  simpa [String.toList_join, List.flatMap_map] using hall

end RuleSet

end Covenant
