import Covenant.Proofs.Grammar.RuleSet
import Covenant.Proofs.Outcome
import Covenant.Proofs.Source.Lines

/-!
What a written rule set is read back as.

* `RuleSet.canonical`: the rule set that source holds. Patterns are those that are read
  from between slashes, and comments have their words on one line.
* `RuleSet.read_text`: reading the source of a writable rule set gives its canonical
  form.
* `RuleSet.text_canonical`: the canonical form has the same source.
-/

namespace Covenant

open Source

namespace Symbol

def canonical (s : Symbol) : Symbol :=
  match s.kind with
  | .pattern => { s with value := String.ofList (Slashed.decode (Slashed.encode s.value.toList)) }
  | _ => s

@[simp] theorem kind_canonical (s : Symbol) : s.canonical.kind = s.kind := by
  unfold canonical
  split <;> rfl

theorem canonical_rule {s : Symbol} (h : s.kind = .rule) : s.canonical = s := by
  rw [canonical, h]

@[simp] theorem refersTo_canonical (s : Symbol) (name : String) :
    s.canonical.refersTo name = s.refersTo name := by
  unfold refersTo
  by_cases h : s.kind = .rule
  · rw [canonical_rule h]
  · have hkind : (s.kind == .rule) = false := beq_false_of_ne h
    rw [kind_canonical, hkind, Bool.false_and, Bool.false_and]

/-- **The canonical symbol is written the same.** -/
theorem write_canonical (s : Symbol) : s.canonical.write = s.write := by
  unfold write body canonical
  cases hk : s.kind with
  | rule => simp [hk]
  | literal => simp [hk]
  | pattern => simp [Slashed.encode_decode_encode]

theorem decode_written (s : Symbol) : s.written.decode = .ok s.canonical := by
  obtain ⟨kind, value, cardinality⟩ := s
  cases kind with
  | rule => rfl
  | literal => simp [written, WrittenSymbol.decode, decodeLiteral, Json.read_literal, canonical,
      Except.map, literal]
  | pattern => rfl

end Symbol

theorem decodeParam_written {p : ActionParam} (hp : p.source.Writable) :
    decodeParam p.written = .ok p := by
  obtain ⟨key, source⟩ := p
  cases source with
  | const text => simp [ActionParam.written, decodeParam, decodeLiteral, Json.read_literal,
      Except.map]
  | ref rule => rfl
  | index position =>
    obtain ⟨n, rfl⟩ := Int.eq_ofNat_of_zero_le hp
    rfl

theorem Action.decode_written {a : Action} (ha : a.Writable) : a.written.decode = .ok a := by
  have hparams : a.written.params.mapM decodeParam = .ok a.params := by
    rw [Outcome.mapM_eq_ok_iff, Action.written, List.forall₂_map_left_iff]
    exact List.forall₂_same.mpr fun p hp => decodeParam_written (ha.sources p hp)
  unfold WrittenAction.decode
  rw [hparams]
  rfl

/-! ### Comments -/

theorem words_writeComment (c : String) : Text.words (writeComment c) = Text.words c :=
  Text.words_joined isRun_words

theorem writeComment_writeComment (c : String) :
    writeComment (writeComment c) = writeComment c := by
  rw [writeComment, words_writeComment, writeComment]

namespace Rule

def canonical (r : Rule) : Rule :=
  { r with
    alternatives := r.alternatives.map (·.map Symbol.canonical)
    comment := writtenComment? r.comment
    origin := .template }

theorem commentText_canonical {r : Rule} (hr : r.Writable) :
    r.canonical.commentText = r.commentText := by
  unfold commentText canonical
  cases hc : r.comment with
  | none => rfl
  | some c =>
    by_cases hempty : c = ""
    · subst hempty
      rw [writtenComment_empty]
      rfl
    · have hwords : Text.words c ≠ [] := (hr.comment c hc).resolve_left hempty
      have hne : writeComment c ≠ "" := Text.joined_ne_empty hwords isRun_words
      rw [writtenComment_some hwords]
      simp [hempty, hne, writeComment_writeComment]

/-- **The canonical rule is written the same.** -/
theorem write_canonical {r : Rule} (hr : r.Writable) : r.canonical.write = r.write := by
  have halternatives : r.canonical.alternatives.map writeAlternative
      = r.alternatives.map writeAlternative := by
    simp only [canonical, List.map_map]
    refine List.map_congr_left fun a _ => ?_
    simp [writeAlternative, Function.comp_def, Symbol.write_canonical]
  rw [write_eq, write_eq, halternatives, commentText_canonical hr]
  rfl

/-- **The line of a rule says the canonical rule.** -/
theorem decode_line {r : Rule} (hr : r.Writable) (left : Nat) :
    (r.line left).decode = .ok (some (.rule r.canonical left)) := by
  have halternatives : (r.alternatives.map (·.map Symbol.written)).mapM
      (·.mapM WrittenSymbol.decode) = .ok (r.alternatives.map (·.map Symbol.canonical)) := by
    rw [Outcome.mapM_eq_ok_iff, List.forall₂_map_left_iff, List.forall₂_map_right_iff]
    refine List.forall₂_same.mpr fun a _ => ?_
    rw [Outcome.mapM_eq_ok_iff, List.forall₂_map_left_iff, List.forall₂_map_right_iff]
    exact List.forall₂_same.mpr fun s _ => s.decode_written
  have haction : (r.action.map Action.written).mapM WrittenAction.decode = .ok r.action := by
    cases ha : r.action with
    | none => rfl
    | some a => simp [Option.mapM, Action.decode_written (hr.action a ha), Functor.map,
        Except.map]
  unfold line Line.decode
  simp only [halternatives, haction, bind, Except.bind]
  rfl

end Rule

namespace RuleSet

def canonical (s : RuleSet) : RuleSet :=
  { s with rules := s.rules.map Rule.canonical }

/-- **The canonical rule set has the same source.** -/
theorem text_canonical {s : RuleSet} (hs : s.Writable) (start : String) :
    s.canonical.text start = s.text start := by
  have hrules : s.canonical.rules.map (fun r => r.write ++ "\n")
      = s.rules.map fun r => r.write ++ "\n" := by
    rw [canonical, List.map_map]
    exact List.map_congr_left fun r hr => by simp [Rule.write_canonical (hs.rules r hr)]
  unfold text
  rw [hrules]
  rfl

/-! ### Completeness -/

theorem has_canonical (s : RuleSet) (name : String) : s.canonical.has name = s.has name := by
  simp [has, canonical, Function.comp_def, Rule.canonical]

theorem references_canonical (r : Rule) : r.canonical.references = r.references := by
  unfold Rule.references Rule.canonical
  simp only [List.filterMap_flatten, List.map_map]
  congr 1
  refine List.map_congr_left fun a _ => ?_
  simp only [Function.comp_apply, List.filterMap_map]
  refine List.filterMap_congr fun s _ => ?_
  by_cases hk : s.kind = .rule
  · simp [Symbol.canonical_rule hk]
  · simp [hk]

theorem sourceFault_canonical (r : Rule) (p : ParamSource) :
    sourceFault? r.canonical p = sourceFault? r p := by
  cases p <;> simp [sourceFault?, Rule.canonical, Function.comp_def, List.all_map, List.any_map]

/-- **The canonical rule set is complete when the rule set is.** -/
theorem fault_canonical (s : RuleSet) : s.canonical.fault? = s.fault? := by
  have hrule : ∀ r, s.canonical.ruleFault? r.canonical = s.ruleFault? r := by
    intro r
    unfold ruleFault?
    simp only [references_canonical, has_canonical, sourceFault_canonical]
    rfl
  have hrules : s.canonical.rules.findSome? s.canonical.ruleFault?
      = s.rules.findSome? s.ruleFault? := by
    rw [show s.canonical.rules = s.rules.map Rule.canonical from rfl, List.findSome?_map]
    exact congrArg (fun f => s.rules.findSome? f) (funext hrule)
  unfold fault?
  simp only [has_canonical, hrules]
  rfl

/-! ### Reading a written rule set -/

theorem filled_canonical {r : Rule} (hr : r.Writable) : r.canonical.Filled := by
  refine ⟨by simpa [Rule.canonical] using hr.nonempty, ?_⟩
  intro a ha
  obtain ⟨b, hb, rfl⟩ := List.mem_map.mp ha
  simpa using (hr.symbols b hb).1

/-- Rules with names of their own are collected in order. -/
theorem foldlM_rules {s : RuleSet} {rs : List Rule} {lefts : List Nat}
    (hnames : (s.names ++ rs.map Rule.name).Nodup) (hrs : ∀ r ∈ rs, r.Filled)
    (hlength : lefts.length = rs.length) :
    (List.zipWith Source.Item.rule rs lefts).foldlM addItem s
      = .ok { s with rules := s.rules ++ rs } := by
  induction rs generalizing s lefts with
  | nil => simp [pure, Except.pure]
  | cons r rs ih =>
    cases lefts with
    | nil => cases hlength
    | cons left lefts =>
      rw [List.map_cons] at hnames
      have hfresh : r.name ∉ s.names := by
        intro hmem
        exact (List.nodup_append.mp hnames).2.2 _ hmem _ (by simp) rfl
      have hobstacle : s.obstacle? r = none :=
        obstacle_eq_none_iff.mpr ⟨hfresh, hrs r (by simp)⟩
      have hstep : addItem s (.rule r left) = .ok { s with rules := s.rules ++ [r] } := by
        simp only [addItem, hobstacle]
      have hnames' : (RuleSet.names { s with rules := s.rules ++ [r] } ++ rs.map Rule.name).Nodup := by
        simpa [names] using hnames
      rw [List.zipWith_cons_cons, List.foldlM_cons, hstep]
      simp only [bind, Except.bind]
      rw [ih hnames' (fun q hq => hrs q (by simp [hq])) (by simpa using hlength)]
      simp

theorem isName_start {s : RuleSet} (hs : s.Writable) {start : String}
    (hstart : s.start = some start) (hcheck : s.fault? = none) : IsName start := by
  unfold fault? at hcheck
  rw [hstart] at hcheck
  simp only at hcheck
  split at hcheck
  · rename_i hhas
    obtain ⟨r, hr, hname⟩ := List.mem_map.mp (has_iff.mp hhas)
    exact hname ▸ (hs.rules r hr).name
  · cases hcheck

theorem getLast_append {cs ds : List Char} {c : Char} (hcs : cs.getLast? = some c)
    (hds : ds = [] ∨ ds.getLast? = some c) : (cs ++ ds).getLast? = some c := by
  rcases hds with rfl | hds
  · simpa using hcs
  · rw [List.getLast?_append, hds]
    rfl

theorem getLast_rules (rs : List Rule) :
    rs.flatMap (fun r => r.write.toList ++ ['\n']) = [] ∨
      (rs.flatMap fun r => r.write.toList ++ ['\n']).getLast? = some '\n' := by
  induction rs with
  | nil => exact .inl rfl
  | cons r rs ih => exact .inr (getLast_append (by simp) ih)

/-- Source ends with a line break as it is written. -/
theorem endLine_text (s : RuleSet) (start : String) :
    endLine (s.text start).toList = (s.text start).toList := by
  have hrules : (s.rules.map fun r => r.write ++ "\n").flatMap String.toList
      = s.rules.flatMap fun r => r.write.toList ++ ['\n'] := by
    simp [List.flatMap_map]
  have hstart : ("# clausegram grammar\n@start " ++ start ++ "\n").toList.getLast? = some '\n' := by
    rw [String.toList_append, show "\n".toList = ['\n'] from rfl, List.getLast?_concat]
  have hexpressions : (if s.expressions then "@expressions\n" else "").toList = [] ∨
      (if s.expressions then "@expressions\n" else "").toList.getLast? = some '\n' := by
    cases s.expressions with
    | false => exact .inl (by simp)
    | true => exact .inr (by simp)
  have hlist : (s.text start).toList = ("# clausegram grammar\n@start " ++ start ++ "\n").toList
      ++ (if s.expressions then "@expressions\n" else "").toList
      ++ s.rules.flatMap fun r => r.write.toList ++ ['\n'] := by
    unfold text
    simp only [String.toList_append, String.toList_join, hrules]
  have hlast : (s.text start).toList.getLast? = some '\n' := by
    rw [hlist]
    exact getLast_append (getLast_append hstart hexpressions) (getLast_rules s.rules)
  rw [endLine, if_pos hlast]

/-- The lines of rules say their canonical forms. -/
theorem mapM_decode {rs : List Rule} (hrs : ∀ r ∈ rs, r.Writable) (lefts : List Nat) :
    (List.zipWith Rule.line rs lefts).mapM Line.decode
      = .ok ((List.zipWith Source.Item.rule (rs.map Rule.canonical) lefts).map some) := by
  induction rs generalizing lefts with
  | nil => rfl
  | cons r rs ih =>
    cases lefts with
    | nil => rfl
    | cons left lefts =>
      have hr := Rule.decode_line (hrs r (by simp)) left
      rw [List.zipWith_cons_cons, List.mapM_cons, hr, ih fun q hq => hrs q (by simp [hq])]
      rfl

/-- **Reading the source of a writable rule set gives its canonical form.** -/
theorem read_text {s : RuleSet} (hs : s.Writable) {start : String}
    (hstart : s.start = some start) (hcheck : s.fault? = none) (file : Option String) :
    read (s.text start) file = .ok s.canonical := by
  have hscans := scans_text hs (isName_start hs hstart hcheck)
  have htokens := map_token_tokens hscans rfl
    (show (s.text start).toList.length < (s.text start).toList.length + 1 by omega)
  obtain ⟨lefts, hlength, hlines⟩ := readLines_tokens hs htokens
  have hrules := mapM_decode hs.rules lefts
  have hcanonical : (List.zipWith Source.Item.rule s.canonical.rules lefts).foldlM addItem
        { start := some start, expressions := s.expressions } = .ok s.canonical := by
    have hnames : (names { start := some start, expressions := s.expressions }
        ++ s.canonical.rules.map Rule.name).Nodup := by
      simpa [names, canonical, Rule.canonical, Function.comp_def] using hs.names
    have hfilled : ∀ r ∈ s.canonical.rules, r.Filled := by
      intro r hr
      obtain ⟨q, hq, rfl⟩ := List.mem_map.mp hr
      exact filled_canonical (hs.rules q hq)
    rw [foldlM_rules hnames hfilled (by simpa [canonical] using hlength)]
    simp [canonical, ← hstart]
  unfold read
  rw [endLine_text]
  simp only [hlines]
  have hitems : ([Line.blank, .start start] ++ (if s.expressions then [Line.expressions] else [])
        ++ List.zipWith Rule.line s.rules lefts).mapM Line.decode
      = .ok ([none, some (Source.Item.start start)]
        ++ (if s.expressions then [some Source.Item.expressions] else [])
        ++ (List.zipWith Source.Item.rule s.canonical.rules lefts).map some) := by
    cases s.expressions <;>
      simp [Line.decode, hrules, canonical, bind, Except.bind, pure, Except.pure]
  have hcollect : (([none, some (Source.Item.start start)]
        ++ (if s.expressions then [some Source.Item.expressions] else [])
        ++ (List.zipWith Source.Item.rule s.canonical.rules lefts).map some).filterMap id).foldlM addItem {}
      = (.ok s.canonical : Except (Fault.Cause × Nat) RuleSet) := by
    rw [List.filterMap_append, List.filterMap_map, Function.id_comp, List.filterMap_some,
      ← hcanonical]
    cases s.expressions <;> simp [addItem, bind, Except.bind]
  simp only [hitems, hcollect, fault_canonical, hcheck]

end RuleSet

end Covenant
