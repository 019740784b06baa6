import Covenant.Grammar.Source.Reader
import Covenant.Proofs.Source.Tokens

/-!
The lines that the tokens of a written rule set are read as.

* `readLine_tokens`: the tokens of a written rule are read as that rule, with its
  literals and patterns as they are written.
* `readLines_tokens`: the lines of a written rule set are read one by one, however its
  tokens are placed.
-/

namespace Covenant

open Source

namespace Symbol

/-- The symbol as the lines of source hold it: a pattern is read back already, a
literal is not. -/
def written (s : Symbol) : WrittenSymbol :=
  match s.kind with
  | .rule => ⟨.rule, s.value, s.cardinality⟩
  | .literal => ⟨.literal, JsonText.literal false s.value, s.cardinality⟩
  | .pattern =>
    ⟨.pattern, String.ofList (Slashed.decode (Slashed.encode s.value.toList)), s.cardinality⟩

theorem symbolOf_token (s : Symbol) :
    symbolOf? s.token = some (s.written.kind, s.written.text) := by
  unfold token written
  cases s.kind <;> rfl

theorem cardinality_written (s : Symbol) : s.written.cardinality = s.cardinality := by
  unfold written
  cases s.kind <;> rfl

end Symbol

def ActionParam.written (p : ActionParam) : String × WrittenSource :=
  match p.source with
  | .const text => (p.key, .literal (JsonText.literal false text))
  | .ref rule => (p.key, .name rule)
  | .index position => (p.key, .number position.toNat)

def Action.written (a : Action) : WrittenAction :=
  ⟨a.name, a.params.map ActionParam.written⟩

/-- The line of a rule whose name is at the place `left`. -/
def Rule.line (r : Rule) (left : Nat) : Line :=
  .rule r.name left (r.alternatives.map (·.map Symbol.written)) (r.action.map Action.written)
    (writtenComment? r.comment)

namespace Source

/-! ### Alternatives -/

/-- Placed tokens that do not begin with a token of a kind. -/
def StartsNot (p : Token → Bool) (ts : List Placed) : Prop :=
  ∀ t us, ts = t :: us → p t.token = false

def isSymbolPart : Token → Bool
  | .name _ | .literal _ | .pattern _ | .mark _ => true
  | _ => false

def isAlternativePart : Token → Bool
  | .bar => true
  | t => isSymbolPart t

theorem StartsNot.mono {p q : Token → Bool} {ts : List Placed}
    (h : ∀ t, p t = true → q t = true) (hts : StartsNot q ts) : StartsNot p ts := by
  intro t us heq
  have hq := hts t us heq
  by_contra hp
  rw [h _ (by simpa using hp)] at hq
  exact absurd hq (by decide)

theorem symbolOf_eq_none {t : Token} (h : isSymbolPart t = false) : symbolOf? t = none := by
  cases t <;> simp_all [isSymbolPart, symbolOf?]

theorem readSymbols_stop {ts : List Placed} (h : StartsNot isSymbolPart ts) :
    readSymbols ts = ([], ts) := by
  cases ts with
  | nil => rw [readSymbols]
  | cons t ts => simp only [readSymbols, symbolOf_eq_none (h t ts rfl)]

theorem readSymbols_one {t : Placed} {kind : SymbolKind} {text : String}
    (h : symbolOf? t.token = some (kind, text)) {ts : List Placed}
    (hts : ∀ c left us, ts ≠ ⟨.mark c, left⟩ :: us) :
    readSymbols (t :: ts) = (⟨kind, text, .one⟩ :: (readSymbols ts).1, (readSymbols ts).2) := by
  rw [readSymbols]
  simp only [h]

theorem readSymbols_marked {t : Placed} {kind : SymbolKind} {text : String}
    (h : symbolOf? t.token = some (kind, text)) (c : Cardinality) (left : Nat)
    (ts : List Placed) :
    readSymbols (t :: ⟨.mark c, left⟩ :: ts) =
      (⟨kind, text, c⟩ :: (readSymbols ts).1, (readSymbols ts).2) := by
  rw [readSymbols]
  simp only [h]

theorem token_ne_mark (s : Symbol) (c : Cardinality) : s.token ≠ .mark c := by
  unfold Symbol.token
  cases s.kind <;> simp

/-- The tokens of a symbol begin with the token of its body. -/
theorem tokens_eq_cons (s : Symbol) : ∃ ts, s.tokens = s.token :: ts := by
  unfold Symbol.tokens
  cases s.cardinality <;> exact ⟨_, rfl⟩

theorem written_eq (s : Symbol) :
    s.written = ⟨s.written.kind, s.written.text, s.cardinality⟩ := by
  rw [← s.cardinality_written]

/-- The tokens of a symbol in front of tokens that begin with no mark. -/
theorem readSymbols_symbol {s : Symbol} {ws vs : List Placed}
    (hws : ws.map Placed.token = s.tokens) (hvs : ∀ c left us, vs ≠ ⟨.mark c, left⟩ :: us) :
    readSymbols (ws ++ vs) = (s.written :: (readSymbols vs).1, (readSymbols vs).2) := by
  have hsymbol := s.symbolOf_token
  unfold Symbol.tokens at hws
  rw [written_eq]
  cases hc : s.cardinality with
  | one =>
    rw [hc] at hws
    obtain ⟨w, rfl, hw⟩ := List.map_eq_singleton_iff.mp hws
    rw [← hw] at hsymbol
    exact readSymbols_one hsymbol hvs
  | optional =>
    rw [hc] at hws
    obtain ⟨w, ws', rfl, hw, hws'⟩ := List.map_eq_cons_iff.mp hws
    obtain ⟨⟨m, left⟩, rfl, hm⟩ := List.map_eq_singleton_iff.mp hws'
    cases hm
    rw [← hw] at hsymbol
    exact readSymbols_marked hsymbol .optional left vs
  | many =>
    rw [hc] at hws
    obtain ⟨w, ws', rfl, hw, hws'⟩ := List.map_eq_cons_iff.mp hws
    obtain ⟨⟨m, left⟩, rfl, hm⟩ := List.map_eq_singleton_iff.mp hws'
    cases hm
    rw [← hw] at hsymbol
    exact readSymbols_marked hsymbol .many left vs

/-- **The tokens of symbols are read as those symbols**, up to a token that is no part
of one. -/
theorem readSymbols_tokens {a : List Symbol} {ts us : List Placed}
    (hts : ts.map Placed.token = a.flatMap Symbol.tokens) (hus : StartsNot isSymbolPart us) :
    readSymbols (ts ++ us) = (a.map Symbol.written, us) := by
  induction a generalizing ts with
  | nil =>
    rw [List.map_eq_nil_iff.mp hts]
    exact readSymbols_stop hus
  | cons s a ih =>
    rw [List.flatMap_cons] at hts
    obtain ⟨ws, vs, rfl, hws, hvs⟩ := List.map_eq_append_iff.mp hts
    have hmark : ∀ c left ds, vs ++ us ≠ ⟨.mark c, left⟩ :: ds := by
      intro c left ds heq
      cases vs with
      | nil => exact absurd (hus _ ds heq) (by simp [isSymbolPart])
      | cons v vs =>
        obtain ⟨rfl, -⟩ := List.cons_eq_cons.mp heq
        cases a with
        | nil => cases hvs
        | cons s' a =>
          obtain ⟨tail, htail⟩ := tokens_eq_cons s'
          rw [List.flatMap_cons, htail] at hvs
          exact token_ne_mark s' c (List.cons_eq_cons.mp hvs).1.symm
    rw [List.append_assoc, readSymbols_symbol hws hmark, ih hvs]
    rfl

theorem readAlternatives_last {stop : Nat} {ts us : List Placed} {w : WrittenSymbol}
    {ws : List WrittenSymbol} (h : readSymbols ts = (w :: ws, us))
    (hus : ∀ left ds, us ≠ ⟨.bar, left⟩ :: ds) :
    readAlternatives stop ts = .ok ([w :: ws], us) := by
  rw [readAlternatives]
  split
  · rename_i heq
    rw [h] at heq
    cases heq
  · rename_i heq
    rw [h] at heq
    cases heq
    exact absurd rfl (hus _ _)
  · rename_i heq
    rw [h] at heq
    cases heq
    rfl

theorem readAlternatives_bar {stop left : Nat} {ts us : List Placed} {w : WrittenSymbol}
    {ws : List WrittenSymbol} (h : readSymbols ts = (w :: ws, ⟨.bar, left⟩ :: us)) :
    readAlternatives stop ts =
      (readAlternatives stop us).map fun r => ((w :: ws) :: r.1, r.2) := by
  rw [readAlternatives]
  split
  · rename_i heq
    rw [h] at heq
    cases heq
  · rename_i heq
    rw [h] at heq
    cases heq
    rfl
  · rename_i hbar heq
    rw [h] at heq
    cases heq
    exact absurd rfl (hbar _ _)

/-- **The tokens of alternatives are read as those alternatives**, up to a token that
neither is a bar nor a part of a symbol. -/
theorem readAlternatives_tokens {stop : Nat} {as : List (List Symbol)} {ts us : List Placed}
    (hne : as ≠ []) (has : ∀ a ∈ as, a ≠ [])
    (hts : ts.map Placed.token = [Token.bar].intercalate (as.map (·.flatMap Symbol.tokens)))
    (hus : StartsNot isAlternativePart us) :
    readAlternatives stop (ts ++ us) = .ok (as.map (·.map Symbol.written), us) := by
  have hsymbols : StartsNot isSymbolPart us :=
    hus.mono fun t ht => by cases t <;> simp_all [isSymbolPart, isAlternativePart]
  have hbar : ∀ left ds, us ≠ ⟨.bar, left⟩ :: ds := by
    intro left ds heq
    exact absurd (hus _ ds heq) (by simp [isAlternativePart])
  induction as generalizing ts with
  | nil => exact absurd rfl hne
  | cons a as ih =>
    have ha : a.map Symbol.written ≠ [] := by simpa using has a (by simp)
    obtain ⟨w, rest, hw⟩ := List.exists_cons_of_ne_nil ha
    cases as with
    | nil =>
      have hread := readSymbols_tokens (by simpa using hts) hsymbols
      rw [hw] at hread
      rw [readAlternatives_last hread hbar, List.map_singleton, hw]
    | cons b as =>
      rw [List.map_cons, List.map_cons, List.intercalate_cons_cons, List.append_assoc,
        List.singleton_append] at hts
      obtain ⟨ws, vs, rfl, hws, hvs⟩ := List.map_eq_append_iff.mp hts
      obtain ⟨⟨t, left⟩, ds, rfl, ht, hds⟩ := List.map_eq_cons_iff.mp hvs
      cases ht
      have hbarred : StartsNot isSymbolPart (⟨.bar, left⟩ :: (ds ++ us)) := by
        intro t es heq
        cases heq
        rfl
      have hread := readSymbols_tokens hws hbarred
      rw [hw] at hread
      rw [List.append_assoc, List.cons_append, readAlternatives_bar hread,
        ih (by simp) (fun c hc => has c (by simp [hc])) hds, ← hw]
      rfl

/-! ### Actions and comments -/

/-- **The tokens of parameters are read as those parameters**, up to the closing mark of
their action. -/
theorem readParams_tokens {stop : Nat} {ps : List ActionParam} {ts us : List Placed}
    (hts : ts.map Placed.token = ps.flatMap ActionParam.tokens ++ [.actionEnd]) :
    readParams stop (ts ++ us) = .ok (ps.map ActionParam.written, us) := by
  induction ps generalizing ts with
  | nil =>
    obtain ⟨⟨t, left⟩, rfl, ht⟩ := List.map_eq_singleton_iff.mp hts
    cases ht
    simp [readParams]
  | cons p ps ih =>
    simp only [List.flatMap_cons, ActionParam.tokens, List.cons_append, List.nil_append] at hts
    obtain ⟨⟨key, _⟩, _, rfl, hkey, hts⟩ := List.map_eq_cons_iff.mp hts
    obtain ⟨⟨sign, _⟩, _, rfl, hsign, hts⟩ := List.map_eq_cons_iff.mp hts
    obtain ⟨⟨value, _⟩, ds, rfl, hvalue, hds⟩ := List.map_eq_cons_iff.mp hts
    cases hkey
    cases hsign
    have ih := ih hds
    rw [List.map_cons, ActionParam.written]
    cases hp : p.source with
    | const text =>
      rw [hp] at hvalue
      cases hvalue
      simp [readParams, ih, Except.map]
    | ref rule =>
      rw [hp] at hvalue
      cases hvalue
      simp [readParams, ih, Except.map]
    | index position =>
      rw [hp] at hvalue
      cases hvalue
      simp [readParams, ih, Except.map]

/-- **The tokens of an action, or none, are read as that action.** -/
theorem readAction_tokens {stop : Nat} {r : Rule} {ts us : List Placed}
    (hts : ts.map Placed.token = r.actionTokens)
    (hus : ∀ left ds, us ≠ ⟨.actionStart, left⟩ :: ds) :
    readAction stop (ts ++ us) = .ok (r.action.map Action.written, us) := by
  unfold Rule.actionTokens at hts
  cases ha : r.action with
  | none =>
    rw [ha] at hts
    rw [List.map_eq_nil_iff.mp hts]
    cases us with
    | nil => rfl
    | cons u us =>
      obtain ⟨t, left⟩ := u
      cases t <;> first
        | exact absurd rfl (hus left us)
        | rfl
  | some a =>
    rw [ha] at hts
    simp only [Option.map_some, Option.getD_some, Action.tokens] at hts
    obtain ⟨⟨mark, _⟩, _, rfl, hmark, hts⟩ := List.map_eq_cons_iff.mp hts
    obtain ⟨⟨name, _⟩, ds, rfl, hname, hds⟩ := List.map_eq_cons_iff.mp hts
    cases hmark
    cases hname
    simp [readAction, readParams_tokens hds, Except.map, Action.written]

/-- A comment that is written is not empty, and trimming takes the space in front. -/
theorem strip_writtenComment {comment : Option String} {c : String}
    (h : writtenComment? comment = some c) : c ≠ "" ∧ Text.strip (" " ++ c) = c := by
  obtain ⟨hc, hne⟩ := Option.filter_eq_some_iff.mp h
  obtain ⟨text, _, rfl⟩ := Option.map_eq_some_iff.mp hc
  have hwords : Text.words text ≠ [] := by
    intro hnil
    rw [writeComment, hnil] at hne
    exact absurd hne (by decide)
  exact ⟨Text.joined_ne_empty hwords isRun_words, Text.strip_lead_joined hwords isRun_words⟩

/-- **The token of a comment, or none, is read as that comment.** -/
theorem readComment_tokens {stop : Nat} {r : Rule} {ts : List Placed}
    (hts : ts.map Placed.token = r.commentTokens) :
    readComment stop ts = .ok (writtenComment? r.comment) := by
  unfold Rule.commentTokens at hts
  cases hc : writtenComment? r.comment with
  | none =>
    rw [hc] at hts
    rw [List.map_eq_nil_iff.mp hts]
    rfl
  | some c =>
    obtain ⟨hne, hstrip⟩ := strip_writtenComment hc
    rw [hc] at hts
    obtain ⟨⟨t, _⟩, rfl, ht⟩ := List.map_eq_singleton_iff.mp hts
    cases ht
    simp [readComment, hstrip, hne]

/-! ### Lines -/

theorem startsNot_comment {r : Rule} {ts : List Placed}
    (hts : ts.map Placed.token = r.commentTokens) :
    StartsNot isAlternativePart ts ∧ ∀ left ds, ts ≠ ⟨.actionStart, left⟩ :: ds := by
  unfold Rule.commentTokens at hts
  cases hc : writtenComment? r.comment with
  | none =>
    rw [hc] at hts
    rw [List.map_eq_nil_iff.mp hts]
    exact ⟨fun _ _ heq => (List.cons_ne_nil _ _ heq.symm).elim,
      fun _ _ heq => (List.cons_ne_nil _ _ heq.symm).elim⟩
  | some c =>
    rw [hc] at hts
    obtain ⟨⟨t, _⟩, rfl, ht⟩ := List.map_eq_singleton_iff.mp hts
    cases ht
    refine ⟨fun _ _ heq => ?_, fun _ _ heq => by cases heq⟩
    cases heq
    rfl

theorem startsNot_action {r : Rule} {ts us : List Placed}
    (hts : ts.map Placed.token = r.actionTokens) (hus : StartsNot isAlternativePart us) :
    StartsNot isAlternativePart (ts ++ us) := by
  unfold Rule.actionTokens at hts
  cases ha : r.action with
  | none =>
    rw [ha] at hts
    rw [List.map_eq_nil_iff.mp hts]
    exact hus
  | some a =>
    rw [ha] at hts
    obtain ⟨⟨mark, _⟩, _, rfl, hmark, _⟩ := List.map_eq_cons_iff.mp hts
    cases hmark
    intro t ds heq
    cases heq
    rfl

/-- **The tokens of a written rule are read as its line.** -/
theorem readLine_tokens {r : Rule} (hr : r.Writable) {stop : Nat} {ts : List Placed}
    (hts : ts.map Placed.token = r.tokens) : ∃ left, readLine stop ts = .ok (r.line left) := by
  unfold Rule.tokens at hts
  obtain ⟨⟨name, left⟩, _, rfl, hname, hts⟩ := List.map_eq_cons_iff.mp hts
  obtain ⟨⟨sign, _⟩, _, rfl, hsign, hts⟩ := List.map_eq_cons_iff.mp hts
  obtain ⟨_, cs, rfl, hts, hcs⟩ := List.map_eq_append_iff.mp hts
  obtain ⟨ws, vs, rfl, hws, hvs⟩ := List.map_eq_append_iff.mp hts
  cases hname
  cases hsign
  obtain ⟨hstart, haction⟩ := startsNot_comment hcs
  have halternatives := @readAlternatives_tokens stop _ _ _ hr.nonempty
    (fun a ha => (hr.symbols a ha).1) hws (startsNot_action hvs hstart)
  refine ⟨left, ?_⟩
  rw [List.append_assoc, readLine, halternatives]
  simp only [bind, Except.bind, readAction_tokens hvs haction, readComment_tokens hcs]
  rfl

/-! ### All lines -/

theorem readLines_line {line ts : List Placed} (hts : ∀ t ∈ ts, t.token ≠ .newline)
    (left : Nat) (us : List Placed) :
    readLines line (ts ++ ⟨.newline, left⟩ :: us) = (do
      let l ← readLine left (line ++ ts)
      let ls ← readLines [] us
      return l :: ls) := by
  induction ts generalizing line with
  | nil => simp [readLines]
  | cons t ts ih =>
    have ht : t.token ≠ .newline := hts t (by simp)
    rw [List.cons_append, readLines, if_neg ht, ih fun u hu => hts u (by simp [hu])]
    simp

/-- Tokens up to a line break are a line of their own, which may depend on places. -/
theorem exists_readLines (xs : List Token) (line : Nat → Line) {ts : List Placed} {ys : List Token}
    (hts : ts.map Placed.token = xs ++ .newline :: ys) (hxs : .newline ∉ xs)
    (hline : ∀ stop ws, ws.map Placed.token = xs →
      ∃ left, readLine stop ws = .ok (line left)) :
    ∃ left us, us.map Placed.token = ys ∧
      readLines [] ts = (readLines [] us).map fun ls => line left :: ls := by
  obtain ⟨ws, vs, rfl, hws, hvs⟩ := List.map_eq_append_iff.mp hts
  obtain ⟨⟨t, stop⟩, us, rfl, ht, hus⟩ := List.map_eq_cons_iff.mp hvs
  cases ht
  have hnewline : ∀ w ∈ ws, w.token ≠ .newline := by
    intro w hw heq
    exact hxs (hws ▸ List.mem_map.mpr ⟨w, hw, heq⟩)
  obtain ⟨left, hleft⟩ := hline stop ws hws
  refine ⟨left, us, hus, ?_⟩
  rw [readLines_line hnewline, List.nil_append, hleft]
  cases readLines [] us <;> rfl

theorem newline_notMem_tokens (s : Symbol) : Token.newline ∉ s.tokens := by
  unfold Symbol.tokens Symbol.token
  cases s.kind <;> cases s.cardinality <;> simp

theorem newline_notMem_rule (r : Rule) : Token.newline ∉ r.tokens := by
  have halternatives : Token.newline ∉ r.alternativeTokens := by
    intro h
    rcases Text.mem_intercalate h with h | ⟨w, hw, hmem⟩
    · cases h
    · obtain ⟨a, _, rfl⟩ := List.mem_map.mp hw
      obtain ⟨s, _, hs⟩ := List.mem_flatMap.mp hmem
      exact newline_notMem_tokens s hs
  have haction : Token.newline ∉ r.actionTokens := by
    unfold Rule.actionTokens
    cases r.action with
    | none => simp
    | some a =>
      simp only [Option.map_some, Option.getD_some, Action.tokens, List.mem_cons, reduceCtorEq,
        List.mem_append, List.not_mem_nil, or_false, false_or]
      intro h
      obtain ⟨p, _, hp⟩ := List.mem_flatMap.mp h
      cases hs : p.source <;> simp [ActionParam.tokens, ParamSource.token, hs] at hp
  have hcomment : Token.newline ∉ r.commentTokens := by
    unfold Rule.commentTokens
    cases writtenComment? r.comment <;> simp
  simp [Rule.tokens, halternatives, haction, hcomment]

/-- **The tokens of written rules are read as their lines, in order.** -/
theorem readLines_rules {rs : List Rule} (hrs : ∀ r ∈ rs, r.Writable) {ts : List Placed}
    (hts : ts.map Placed.token = rs.flatMap fun r => r.tokens ++ [.newline]) :
    ∃ lefts, lefts.length = rs.length ∧
      readLines [] ts = .ok (List.zipWith Rule.line rs lefts) := by
  induction rs generalizing ts with
  | nil =>
    rw [List.map_eq_nil_iff.mp hts]
    exact ⟨[], rfl, rfl⟩
  | cons r rs ih =>
    rw [List.flatMap_cons, List.append_assoc, List.singleton_append] at hts
    obtain ⟨left, us, hus, hline⟩ := exists_readLines r.tokens r.line hts
      (newline_notMem_rule r) fun stop ws hws => readLine_tokens (hrs r (by simp)) hws
    obtain ⟨lefts, hlength, hlefts⟩ := ih (fun q hq => hrs q (by simp [hq])) hus
    refine ⟨left :: lefts, by simp [hlength], ?_⟩
    rw [hline, hlefts]
    rfl

theorem readLine_comment {stop : Nat} {c : String} {ws : List Placed}
    (hws : ws.map Placed.token = [.comment c]) : readLine stop ws = .ok .blank := by
  obtain ⟨⟨t, _⟩, rfl, ht⟩ := List.map_eq_singleton_iff.mp hws
  cases ht
  rfl

theorem readLine_start {stop : Nat} {start : String} {ws : List Placed}
    (hws : ws.map Placed.token = [.startMark, .name start]) :
    readLine stop ws = .ok (.start start) := by
  obtain ⟨⟨mark, _⟩, _, rfl, hmark, hws⟩ := List.map_eq_cons_iff.mp hws
  obtain ⟨⟨name, _⟩, rfl, hname⟩ := List.map_eq_singleton_iff.mp hws
  cases hmark
  cases hname
  rfl

theorem readLine_expressions {stop : Nat} {ws : List Placed}
    (hws : ws.map Placed.token = [.expressionsMark]) :
    readLine stop ws = .ok .expressions := by
  obtain ⟨⟨t, _⟩, rfl, ht⟩ := List.map_eq_singleton_iff.mp hws
  cases ht
  rfl

end Source

namespace RuleSet

/-- **The source of a rule set is read line by line**: a comment, the directives and
the rules. -/
theorem readLines_tokens {s : RuleSet} (hs : s.Writable) {start : String} {ts : List Placed}
    (hts : ts.map Placed.token = s.tokens start) :
    ∃ lefts, lefts.length = s.rules.length ∧
      readLines [] ts = .ok ([.blank, .start start]
        ++ (if s.expressions then [.expressions] else [])
        ++ List.zipWith Rule.line s.rules lefts) := by
  have hrules : ∀ {us : List Placed}, us.map Placed.token = (if s.expressions then
        [.expressionsMark, .newline] else []) ++ s.rules.flatMap (fun r => r.tokens ++ [.newline]) →
      ∃ lefts, lefts.length = s.rules.length ∧ readLines [] us =
        .ok ((if s.expressions then [.expressions] else [])
          ++ List.zipWith Rule.line s.rules lefts) := by
    intro us hus
    cases hexp : s.expressions with
    | false =>
      rw [hexp] at hus
      exact readLines_rules hs.rules hus
    | true =>
      rw [hexp] at hus
      obtain ⟨_, vs, hvs, hline⟩ := exists_readLines [.expressionsMark]
        (fun _ => .expressions) hus (by simp) fun _ _ hws => ⟨0, readLine_expressions hws⟩
      obtain ⟨lefts, hlength, hlefts⟩ := readLines_rules hs.rules hvs
      exact ⟨lefts, hlength, by rw [hline, hlefts]; rfl⟩
  rw [tokens, List.append_assoc] at hts
  obtain ⟨_, us, hus, hblank⟩ := exists_readLines [.comment _] (fun _ => .blank)
    hts (by simp) fun _ _ hws => ⟨0, readLine_comment hws⟩
  obtain ⟨_, vs, hvs, hstart⟩ := exists_readLines [.startMark, .name start]
    (fun _ => .start start) hus (by simp) fun _ _ hws => ⟨0, readLine_start hws⟩
  obtain ⟨lefts, hlength, hlefts⟩ := hrules hvs
  refine ⟨lefts, hlength, ?_⟩
  rw [hblank, hstart, hlefts]
  rfl

end RuleSet

end Covenant
