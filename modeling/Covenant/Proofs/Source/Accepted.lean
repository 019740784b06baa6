import Covenant.Proofs.Source.Canonical

/-!
Rule sets that are read from source.

* `RuleSet.Writable.of_complete`: a complete set whose names and patterns can stand in
  source can be written.
* `RuleSet.writable_read`: every rule set that is read from source can be written. Its
  names are names of tokens, its patterns stood between slashes, and a comment without
  words is no comment.
* `RuleSet.source_roundTrip`: a complete rule set of printable rules is written, read
  back in canonical form, and written the same again; so is every text that is
  accepted as grammar source.
-/

namespace Covenant

open Source

namespace Source

/-! ### Tokens -/

def Token.Sound : Token → Prop
  | .name s => IsName s
  | .pattern body => body ≠ [] ∧ Slashed.paired body = true ∧ '\n' ∉ body
  | _ => True

theorem isName_takeWhile {c : Char} (hc : isNameStart c = true) (cs : List Char) :
    IsName (String.ofList (c :: cs.takeWhile isNamePart)) :=
  ⟨c, cs.takeWhile isNamePart, by simp, hc, fun _ hd => List.mem_takeWhile_imp hd⟩

theorem sound_nextToken (cs : List Char) : (nextToken cs).1.Sound := by
  unfold nextToken
  split
  case h_11 rest =>
    split <;> trivial
  case h_12 rest =>
    split <;> trivial
  case h_13 rest =>
    split
    · trivial
    · rename_i body rest' hne hbody
      obtain ⟨_, hpaired, hline⟩ := quotedBody_eq_some hbody
      exact ⟨fun hnil => hne (by rw [hnil]) , hpaired, hline⟩
    · trivial
  case h_14 c rest _ _ _ _ _ _ _ _ _ _ _ _ _ =>
    split
    · rename_i hc
      exact isName_takeWhile hc rest
    · split <;> trivial
  all_goals trivial

theorem sound_tokens (fuel : Nat) (cs : List Char) : ∀ t ∈ tokens fuel cs, t.token.Sound := by
  induction fuel generalizing cs with
  | zero => simp [tokens]
  | succ fuel ih =>
    intro t ht
    rw [tokens] at ht
    split at ht
    · cases ht
    · rcases List.mem_cons.mp ht with rfl | ht
      · exact sound_nextToken _
      · exact ih _ t ht

/-! ### Lines -/

def WrittenSymbol.Sound (w : WrittenSymbol) : Prop :=
  match w.kind with
  | .rule => IsName w.text
  | .literal => True
  | .pattern => w.text ≠ "" ∧ Slashed.Enclosable w.text.toList

def SoundParam : String × WrittenSource → Prop
  | (key, .name s) => IsName key ∧ IsName s
  | (key, _) => IsName key

/-- What reading promises of a written action. -/
structure WrittenAction.Sound (a : WrittenAction) : Prop where
  name : IsName a.name
  params : ∀ p ∈ a.params, SoundParam p

def Line.Sound : Line → Prop
  | .rule name _ alternatives action comment =>
    IsName name ∧ (∀ a ∈ alternatives, ∀ w ∈ a, w.Sound) ∧ (∀ a, action = some a → a.Sound)
      ∧ ∀ c, comment = some c → Text.words c ≠ []
  | _ => True

theorem sound_symbolOf {t : Token} (ht : t.Sound) {kind : SymbolKind} {text : String}
    (h : symbolOf? t = some (kind, text)) (c : Cardinality) :
    WrittenSymbol.Sound ⟨kind, text, c⟩ := by
  cases t <;> simp only [symbolOf?, Option.some.injEq, Prod.mk.injEq, reduceCtorEq] at h
  case name s =>
    obtain ⟨rfl, rfl⟩ := h
    exact ht
  case literal s =>
    obtain ⟨rfl, rfl⟩ := h
    trivial
  case pattern body =>
    obtain ⟨rfl, rfl⟩ := h
    obtain ⟨hne, hpaired, hline⟩ := ht
    refine ⟨?_, by simpa using Slashed.enclosable_decode hpaired hline⟩
    intro hempty
    have hdecode := congrArg String.toList hempty
    exact Slashed.decode_ne_nil hne (by simpa using hdecode)

theorem readSymbols_sound {ts : List Placed} (hts : ∀ t ∈ ts, t.token.Sound) :
    (∀ w ∈ (readSymbols ts).1, w.Sound) ∧ (readSymbols ts).2 ⊆ ts := by
  fun_induction readSymbols ts with
  | case1 => simp
  | case2 t ts h => simp
  | case3 t kind text h c left ts rest us heq ih =>
    obtain ⟨hsound, hsub⟩ := ih fun u hu => hts u (by simp [hu])
    rw [heq] at hsound hsub
    refine ⟨?_, fun u hu => by simp [hsub hu]⟩
    intro w hw
    rcases List.mem_cons.mp hw with rfl | hw
    · exact sound_symbolOf (hts t (by simp)) h c
    · exact hsound w hw
  | case4 t kind text h ts hmark rest us heq ih =>
    obtain ⟨hsound, hsub⟩ := ih fun u hu => hts u (by simp [hu])
    rw [heq] at hsound hsub
    refine ⟨?_, fun u hu => by simp [hsub hu]⟩
    intro w hw
    rcases List.mem_cons.mp hw with rfl | hw
    · exact sound_symbolOf (hts t (by simp)) h .one
    · exact hsound w hw

theorem readAlternatives_sound {stop : Nat} {ts us : List Placed}
    {as : List (List WrittenSymbol)} (hts : ∀ t ∈ ts, t.token.Sound)
    (h : readAlternatives stop ts = .ok (as, us)) :
    (∀ a ∈ as, ∀ w ∈ a, w.Sound) ∧ us ⊆ ts := by
  fun_induction readAlternatives stop ts generalizing as us with
  | case1 => cases h
  | case2 ts symbols left rest _ heq _ ih =>
    obtain ⟨hsymbols, hsub⟩ := readSymbols_sound hts
    rw [heq] at hsymbols hsub
    obtain ⟨⟨bs, vs⟩, hread, hpair⟩ := Outcome.map_eq_ok.mp h
    cases hpair
    obtain ⟨hrest, hvs⟩ := ih (fun u hu => hts u (hsub (by simp [hu]))) hread
    refine ⟨?_, fun u hu => hsub (by simp [hvs hu])⟩
    intro a ha
    rcases List.mem_cons.mp ha with rfl | ha
    · exact hsymbols
    · exact hrest a ha
  | case3 ts symbols rest _ _ heq =>
    obtain ⟨hsymbols, hsub⟩ := readSymbols_sound hts
    rw [heq] at hsymbols hsub
    cases h
    exact ⟨by simpa using hsymbols, hsub⟩

/-- A sound parameter in front of others that are read soundly. -/
theorem soundParams_cons {x : Partial (List (String × WrittenSource))} {ts ds us : List Placed}
    {p : String × WrittenSource} {ps : List (String × WrittenSource)} (hp : SoundParam p)
    (hx : ∀ {qs vs}, x = .ok (qs, vs) → (∀ q ∈ qs, SoundParam q) ∧ vs ⊆ ts) (hts : ts ⊆ ds)
    (h : x.map (fun r => (p :: r.1, r.2)) = .ok (ps, us)) :
    (∀ q ∈ ps, SoundParam q) ∧ us ⊆ ds := by
  obtain ⟨⟨qs, vs⟩, hread, hpair⟩ := Outcome.map_eq_ok.mp h
  cases hpair
  obtain ⟨hqs, hvs⟩ := hx hread
  refine ⟨?_, fun u hu => hts (hvs hu)⟩
  intro q hq
  rcases List.mem_cons.mp hq with rfl | hq
  · exact hp
  · exact hqs q hq

theorem readParams_sound {stop : Nat} {ts us : List Placed} {ps : List (String × WrittenSource)}
    (hts : ∀ t ∈ ts, t.token.Sound) (h : readParams stop ts = .ok (ps, us)) :
    (∀ p ∈ ps, SoundParam p) ∧ us ⊆ ts := by
  fun_induction readParams stop ts generalizing ps us with
  | case1 left ts =>
    cases h
    simp
  | case2 key left _ s left' ts ih =>
    have hkey : IsName key := hts ⟨.name key, left⟩ (by simp)
    have hvalue : IsName s := hts ⟨.name s, left'⟩ (by simp)
    exact soundParams_cons (p := (key, .name s)) ⟨hkey, hvalue⟩
      (ih fun u hu => hts u (by simp [hu])) (fun u hu => by simp [hu]) h
  | case3 key left _ s _ ts ih =>
    have hkey : IsName key := hts ⟨.name key, left⟩ (by simp)
    exact soundParams_cons (p := (key, .literal s)) hkey
      (ih fun u hu => hts u (by simp [hu])) (fun u hu => by simp [hu]) h
  | case4 key left _ n _ ts ih =>
    have hkey : IsName key := hts ⟨.name key, left⟩ (by simp)
    exact soundParams_cons (p := (key, .number n)) hkey
      (ih fun u hu => hts u (by simp [hu])) (fun u hu => by simp [hu]) h
  | case5 => cases h
  | case6 => cases h
  | case7 => cases h

theorem readAction_sound {stop : Nat} {ts us : List Placed} {action : Option WrittenAction}
    (hts : ∀ t ∈ ts, t.token.Sound) (h : readAction stop ts = .ok (action, us)) :
    (∀ a, action = some a → a.Sound) ∧ us ⊆ ts := by
  unfold readAction at h
  split at h
  · rename_i name left ts
    obtain ⟨⟨ps, vs⟩, hread, hpair⟩ := Outcome.map_eq_ok.mp h
    cases hpair
    obtain ⟨hparams, hvs⟩ := readParams_sound (fun u hu => hts u (by simp [hu])) hread
    refine ⟨?_, fun u hu => by simp [hvs hu]⟩
    intro a ha
    cases ha
    exact ⟨hts ⟨.name name, left⟩ (by simp), hparams⟩
  · cases h
  · cases h
    exact ⟨by simp, fun u hu => hu⟩

theorem readComment_sound {stop : Nat} {ts : List Placed} {comment : Option String}
    (h : readComment stop ts = .ok comment) : ∀ c, comment = some c → Text.words c ≠ [] := by
  unfold readComment at h
  split at h
  · cases h
    simp
  · rename_i s _
    cases h
    intro c hc
    by_cases hempty : Text.strip s = ""
    · simp [hempty] at hc
    · simp only [String.isEmpty_iff, hempty, if_false, Option.some.injEq] at hc
      exact hc ▸ Text.words_strip_ne_nil hempty
  · cases h
  · cases h

/-- **A line that is read has the names and patterns of its tokens.** -/
theorem readLine_sound {stop : Nat} {ts : List Placed} {line : Line}
    (hts : ∀ t ∈ ts, t.token.Sound) (h : readLine stop ts = .ok line) : line.Sound := by
  unfold readLine at h
  split at h
  case h_9 name left _ ts =>
    obtain ⟨⟨as, us⟩, has, h⟩ := Outcome.bind_eq_ok.mp h
    obtain ⟨⟨action, vs⟩, haction, h⟩ := Outcome.bind_eq_ok.mp h
    obtain ⟨comment, hcomment, h⟩ := Outcome.bind_eq_ok.mp h
    cases h
    obtain ⟨hsymbols, hus⟩ := readAlternatives_sound (fun u hu => hts u (by simp [hu])) has
    obtain ⟨hparams, _⟩ := readAction_sound (fun u hu => hts u (by simp [hus hu])) haction
    exact ⟨hts ⟨.name name, left⟩ (by simp), hsymbols, hparams, readComment_sound hcomment⟩
  all_goals
    cases h
    try trivial

theorem readLines_sound {line ts : List Placed} {lines : List Line}
    (hline : ∀ t ∈ line, t.token.Sound) (hts : ∀ t ∈ ts, t.token.Sound)
    (h : readLines line ts = .ok lines) : ∀ l ∈ lines, l.Sound := by
  induction ts generalizing line lines with
  | nil =>
    rw [readLines] at h
    split at h
    · cases h
      simp
    · obtain ⟨l, hl, heq⟩ := Outcome.map_eq_ok.mp h
      cases heq
      simpa using readLine_sound hline hl
  | cons t ts ih =>
    rw [readLines] at h
    have hrest : ∀ u ∈ ts, u.token.Sound := fun u hu => hts u (by simp [hu])
    split at h
    · obtain ⟨l, hl, h⟩ := Outcome.bind_eq_ok.mp h
      obtain ⟨ls, hls, h⟩ := Outcome.bind_eq_ok.mp h
      cases h
      intro k hk
      rcases List.mem_cons.mp hk with rfl | hk
      · exact readLine_sound hline hl
      · exact ih (by simp) hrest hls k hk
    · refine ih ?_ hrest h
      intro u hu
      rcases List.mem_append.mp hu with hu | hu
      · exact hline u hu
      · simp only [List.mem_singleton] at hu
        exact hu ▸ hts t (by simp)

end Source

/-! ### Rules -/

/-- A rule whose own names are names of grammar source, whose patterns can stand between
slashes, and whose comment is not blank. -/
structure Rule.Printable (r : Rule) : Prop where
  name : IsName r.name
  action : ∀ a, r.action = some a → IsName a.name ∧ ∀ p ∈ a.params, IsName p.key
  patterns : ∀ a ∈ r.alternatives, ∀ s ∈ a, s.kind = .pattern →
    s.value ≠ "" ∧ Slashed.Enclosable s.value.toList
  comment : ∀ c, r.comment = some c → c = "" ∨ Text.words c ≠ []

namespace Source

theorem decodeSymbol_sound {w : WrittenSymbol} {s : Symbol} (hw : w.Sound)
    (h : w.decode = .ok s) (hkind : s.kind = .pattern) :
    s.value ≠ "" ∧ Slashed.Enclosable s.value.toList := by
  unfold WrittenSymbol.decode at h
  split at h
  · obtain ⟨t, _, rfl⟩ := Outcome.map_eq_ok.mp h
    cases hkind
  · cases h
    rw [WrittenSymbol.Sound, show w.kind = .pattern from hkind] at hw
    exact hw

theorem decodeParam_sound {w : String × WrittenSource} {p : ActionParam} (hw : SoundParam w)
    (h : decodeParam w = .ok p) : IsName p.key := by
  obtain ⟨key, source⟩ := w
  cases source with
  | name s =>
    cases h
    exact hw.1
  | literal s =>
    obtain ⟨t, _, rfl⟩ := Outcome.map_eq_ok.mp h
    exact hw
  | number n =>
    cases h
    exact hw

theorem decodeAction_sound {w : WrittenAction} {a : Action} (hw : w.Sound)
    (h : w.decode = .ok a) : IsName a.name ∧ ∀ p ∈ a.params, IsName p.key := by
  obtain ⟨params, hparams, heq⟩ := Outcome.bind_eq_ok.mp h
  cases heq
  refine ⟨hw.name, fun p hp => ?_⟩
  obtain ⟨q, hq, hdecode⟩ := Outcome.exists_of_mem_mapM hparams hp
  exact decodeParam_sound (hw.params q hq) hdecode

/-- **A sound line that says a rule says a printable one.** -/
theorem decodeLine_sound {l : Line} {r : Rule} {left : Nat} (hl : l.Sound)
    (h : l.decode = .ok (some (.rule r left))) : r.Printable := by
  cases l with
  | blank => cases h
  | start name => cases h
  | expressions => cases h
  | rule name left' alternatives action comment =>
    obtain ⟨hname, hsymbols, hactions, hcomment⟩ := hl
    obtain ⟨as, has, h⟩ := Outcome.bind_eq_ok.mp h
    obtain ⟨action', haction, h⟩ := Outcome.bind_eq_ok.mp h
    cases h
    refine ⟨hname, ?_, ?_, fun c hc => .inr (hcomment c hc)⟩
    · intro a ha
      cases action with
      | none =>
        cases haction
        cases ha
      | some w =>
        obtain ⟨b, hb, heq⟩ := Outcome.map_eq_ok.mp haction
        subst heq
        cases ha
        exact decodeAction_sound (hactions w rfl) hb
    · intro a ha s hs hkind
      obtain ⟨ws, hws, hdecode⟩ := Outcome.exists_of_mem_mapM has ha
      obtain ⟨w, hw, hsymbol⟩ := Outcome.exists_of_mem_mapM hdecode hs
      exact decodeSymbol_sound (hsymbols ws hws w hw) hsymbol hkind

end Source

namespace RuleSet

/-- The sources of parameters that a complete set asks for can be written. -/
theorem writable_of_sourceFault {r : Rule} (hr : r.Filled)
    (hrefs : ∀ name ∈ r.references, IsName name) {p : ParamSource}
    (h : sourceFault? r p = none) : p.Writable := by
  obtain ⟨a, as, halternatives⟩ := List.exists_cons_of_ne_nil hr.1
  cases p with
  | const text => trivial
  | ref target =>
    obtain ⟨s, hs, hrefers⟩ := List.any_eq_true.mp
      (refersTo_of_sourceFault h (halternatives ▸ List.mem_cons_self))
    simp only [Symbol.refersTo, Bool.and_eq_true, beq_iff_eq] at hrefers
    refine hrefs target (List.mem_filterMap.mpr ⟨s, ?_, by simp [hrefers]⟩)
    exact List.mem_flatten.mpr ⟨a, by simp [halternatives], hs⟩
  | index position =>
    exact (lt_of_sourceFault h (halternatives ▸ List.mem_cons_self)).1

theorem isName_of_reference {s : RuleSet} (hprint : ∀ r ∈ s.rules, r.Printable) {r : Rule}
    (h : s.ruleFault? r = none) : ∀ name ∈ r.references, IsName name := by
  intro name hname
  have hhas := (ruleFault_eq_none_iff.mp h).1 name hname
  obtain ⟨q, hq, rfl⟩ := List.mem_map.mp (has_iff.mp hhas)
  exact (hprint q hq).name

/-- **A complete set of printable rules can be written**: what its rules refer to are
rules of the set, so it has names that are printable. -/
theorem Writable.of_complete {s : RuleSet} (hs : s.WellFormed)
    (hprint : ∀ r ∈ s.rules, r.Printable) (h : s.fault? = none) : s.Writable := by
  refine ⟨hs.names, fun r hr => ?_⟩
  have hfault := ruleFault_of_fault h hr
  have hrefs := isName_of_reference hprint hfault
  have hr' := hprint r hr
  refine ⟨hr'.name, (hs.filled r hr).1, ?_, ?_, hr'.comment⟩
  · intro a ha
    refine ⟨(hs.filled r hr).2 a ha, fun x hx => ?_⟩
    unfold Symbol.Writable
    cases hk : x.kind with
    | rule =>
      refine hrefs x.value (List.mem_filterMap.mpr ⟨x, ?_, by simp [hk]⟩)
      exact List.mem_flatten.mpr ⟨a, ha, hx⟩
    | literal => trivial
    | pattern => exact hr'.patterns a ha x hx hk
  · intro a ha
    obtain ⟨hname, hkeys⟩ := hr'.action a ha
    refine ⟨hname, hkeys, fun p hp => ?_⟩
    exact writable_of_sourceFault (hs.filled r hr) hrefs
      ((ruleFault_eq_none_iff.mp hfault).2 a ha p hp)

/-! ### Whole texts -/

/-- **What one line says keeps a set well formed and its rules printable.** -/
theorem addItem_printable {s t : RuleSet} {i : Source.Item} (hs : s.WellFormed)
    (hprint : ∀ r ∈ s.rules, r.Printable)
    (hi : ∀ r left, i = Source.Item.rule r left → r.Printable) (h : addItem s i = .ok t) :
    t.WellFormed ∧ ∀ r ∈ t.rules, r.Printable := by
  cases i with
  | start name =>
    cases h
    exact ⟨⟨hs.names, hs.filled⟩, hprint⟩
  | expressions =>
    cases h
    exact ⟨⟨hs.names, hs.filled⟩, hprint⟩
  | rule r left =>
    simp only [addItem] at h
    split at h
    · cases h
    · rename_i hobstacle
      obtain ⟨hname, hfilled⟩ := obstacle_eq_none_iff.mp hobstacle
      cases h
      refine ⟨hs.append hname hfilled, fun q hq => ?_⟩
      rcases List.mem_append.mp hq with hq | hq
      · exact hprint q hq
      · simp only [List.mem_singleton] at hq
        exact hq ▸ hi r left rfl

theorem foldlM_printable {s t : RuleSet} {items : List Source.Item} (hs : s.WellFormed)
    (hprint : ∀ r ∈ s.rules, r.Printable)
    (hitems : ∀ r left, Source.Item.rule r left ∈ items → r.Printable)
    (h : items.foldlM addItem s = .ok t) : t.WellFormed ∧ ∀ r ∈ t.rules, r.Printable := by
  induction items generalizing s with
  | nil =>
    cases h
    exact ⟨hs, hprint⟩
  | cons i items ih =>
    rw [List.foldlM_cons] at h
    obtain ⟨u, hu, h⟩ := Outcome.bind_eq_ok.mp h
    obtain ⟨hwell, hall⟩ := addItem_printable hs hprint
      (fun r left heq => hitems r left (by simp [heq])) hu
    exact ih hwell hall (fun r left hmem => hitems r left (by simp [hmem])) h

/-- **Every rule set that is read from source is complete and can be written.** -/
theorem writable_read {source : String} {file : Option String} {s : RuleSet}
    (h : read source file = .ok s) : s.Writable ∧ s.fault? = none := by
  unfold read at h
  simp only at h
  split at h
  · cases h
  rename_i lines hlines
  split at h
  · cases h
  rename_i items hitems
  split at h
  · cases h
  rename_i t hfold
  split at h
  · cases h
  rename_i hfault
  cases h
  have hsound := readLines_sound (by simp) (sound_tokens _ _) hlines
  have hrules : ∀ r left, Source.Item.rule r left ∈ items.filterMap id → r.Printable := by
    intro r left hmem
    obtain ⟨i, hi, heq⟩ := List.mem_filterMap.mp hmem
    cases heq
    obtain ⟨l, hl, hdecode⟩ := Outcome.exists_of_mem_mapM hitems hi
    exact decodeLine_sound (hsound l hl) hdecode
  obtain ⟨hwell, hprint⟩ := foldlM_printable wellFormed_empty (by simp) hrules hfold
  exact ⟨.of_complete hwell hprint hfault, hfault⟩

/-! ### The round trip -/

theorem write_eq_ok {s : RuleSet} (h : s.fault? = none) :
    ∃ start, s.start = some start ∧ s.write = .ok (s.text start) := by
  cases hstart : s.start with
  | none => simp [fault?, hstart] at h
  | some start =>
    refine ⟨start, rfl, ?_⟩
    rw [write, check_eq_ok_iff.mpr h]
    simp [hstart, bind, Except.bind, pure, Except.pure]

/-- A writable, complete rule set is read back, and written the same again. -/
theorem roundTrip_of_writable {s : RuleSet} (hs : s.Writable) (h : s.fault? = none)
    (file : Option String) :
    ∃ text, s.write = .ok text ∧ read text file = .ok s.canonical
      ∧ s.canonical.write = .ok text := by
  obtain ⟨start, hstart, hwrite⟩ := write_eq_ok h
  refine ⟨s.text start, hwrite, read_text hs hstart h file, ?_⟩
  obtain ⟨start', hstart', hwrite'⟩ := write_eq_ok (s := s.canonical) (by rw [fault_canonical, h])
  have heq : start' = start := by
    have hsome : some start' = some start := by rw [← hstart', ← hstart]; rfl
    exact Option.some.inj hsome
  rw [hwrite', heq, text_canonical hs]

/-- **Grammar source goes round.** Every complete rule set whose names are names of
source, whose patterns can stand between slashes and whose comments are not blank is
written, and its source is read as its canonical form: the same start, expressions,
names, symbols, literals, cardinalities, actions and parameters, with each pattern as
it is read from between its slashes and each comment on one line. Writing that form
gives the same text. In particular every text that is read is, once written, read and
written without a change. -/
theorem source_roundTrip :
    (∀ (s : RuleSet) (file : Option String), s.WellFormed → s.check = .ok () →
      (∀ r ∈ s.rules, r.Printable) →
      ∃ text, s.write = .ok text ∧ read text file = .ok s.canonical
        ∧ s.canonical.write = .ok text) ∧
    (∀ (source : String) (file : Option String) (s : RuleSet), read source file = .ok s →
      ∃ text, s.write = .ok text ∧ ∃ t, read text file = .ok t ∧ t.write = .ok text) := by
  constructor
  · intro s file hs hcheck hprint
    have hfault := check_eq_ok_iff.mp hcheck
    exact roundTrip_of_writable (.of_complete hs hprint hfault) hfault file
  · intro source file s h
    obtain ⟨hs, hfault⟩ := writable_read h
    obtain ⟨text, hwrite, hread, hagain⟩ := roundTrip_of_writable hs hfault file
    exact ⟨text, hwrite, s.canonical, hread, hagain⟩

/-- A rule set with quotes, a mark of a comment and a line break in a literal, a slash in a
pattern, and a comment on two lines. -/
def quotation : RuleSet :=
  { start := some "rule"
    rules :=
      [{ name := "rule"
         alternatives := [[.literal "\"#\n", .rule "word" .many], [.pattern "a/b", .rule "word"]]
         action := some { name := "concat", params := [⟨"first", .ref "word"⟩, ⟨"rest", .index 0⟩] }
         comment := some "a\nquotation" },
       { name := "word", alternatives := [[.pattern "[a-z]+"]] }] }

theorem source_roundTrip_quotation :
    (∃ text, quotation.write = .ok text ∧ read text none = .ok quotation.canonical
        ∧ quotation.canonical.write = .ok text)
      ∧ ∃ source s, read source none = .ok s
        ∧ ∃ text, s.write = .ok text ∧ ∃ t, read text none = .ok t ∧ t.write = .ok text := by
  have hwell : quotation.WellFormed := ⟨by decide, by
    simp [quotation, Rule.Filled]⟩
  have hname : Source.IsName "rule" := ⟨'r', ['u', 'l', 'e'], by simp, by decide, List.all_eq_true.mp (by decide)⟩
  have hword : Source.IsName "word" := ⟨'w', ['o', 'r', 'd'], by simp, by decide, List.all_eq_true.mp (by decide)⟩
  have hconcat : Source.IsName "concat" := ⟨'c', ['o', 'n', 'c', 'a', 't'], by simp, by decide, List.all_eq_true.mp (by decide)⟩
  have hfirst : Source.IsName "first" := ⟨'f', ['i', 'r', 's', 't'], by simp, by decide, List.all_eq_true.mp (by decide)⟩
  have hrest : Source.IsName "rest" := ⟨'r', ['e', 's', 't'], by simp, by decide, List.all_eq_true.mp (by decide)⟩
  have hslash : Slashed.Enclosable ['a', '/', 'b'] := ⟨by decide, by decide⟩
  have hletters : Slashed.Enclosable ['[', 'a', '-', 'z', ']', '+'] := ⟨by decide, by decide⟩
  have hprint : ∀ r ∈ quotation.rules, r.Printable := by
    intro r hr
    simp only [quotation, List.mem_cons, List.not_mem_nil, or_false] at hr
    rcases hr with rfl | rfl
    · refine ⟨hname, ?_, ?_, ?_⟩
      · intro a ha
        cases ha
        refine ⟨hconcat, fun p hp => ?_⟩
        simp only [List.mem_cons, List.not_mem_nil, or_false] at hp
        rcases hp with rfl | rfl
        · exact hfirst
        · exact hrest
      · simp [Symbol.rule, Symbol.literal, Symbol.pattern, hslash]
      · intro c hc
        cases hc
        exact .inr (by decide)
    · exact ⟨hword, by simp, by simp [Symbol.pattern, hletters], by simp⟩
  obtain ⟨text, hwrite, hread, hagain⟩ := source_roundTrip.1 quotation none hwell rfl hprint
  exact ⟨⟨text, hwrite, hread, hagain⟩, text, quotation.canonical, hread,
    source_roundTrip.2 text none quotation.canonical hread⟩

end RuleSet

end Covenant
