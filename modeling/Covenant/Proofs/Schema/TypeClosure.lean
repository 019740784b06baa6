import Covenant.Proofs.Schema.TypedRules

/-!
The rules that go with a type, as a whole.

* `Catalog.Explores`: looking for the types that a type leads to, one name after the other, for
  as long as names wait. `Catalog.explores_textTypes`: this ends, also where types lead back to
  each other.
* `Catalog.Needs`: the types that a type needs the rules of.
* `Catalog.Reached.rules_closed`: there is one rule for each of them, and what rules refer to is
  there or is the type itself; or there are none, since one of them would be a choice between
  nothing.
-/

namespace Covenant

theorem not_dotted_primitiveRuleNames {s : Settings} {x : String}
    (h : x ∈ primitiveRuleNames s) : '.' ∉ x.toList := by
  simp only [primitiveRuleNames, anyRule, List.mem_cons, List.not_mem_nil, or_false] at h
  rcases h with rfl | rfl | rfl | rfl | rfl | rfl | rfl | rfl
  case inr.inr.inr.inr.inr.inl => exact not_dotted_formatRuleName (by decide) _
  all_goals decide

namespace Catalog

variable {c : Catalog}

/-! ### Looking for types -/

/-- Looking for types from the names that wait, one after the other: a type that was seen is
passed over, and what a new type leads to waits behind the names that do already. -/
inductive Explores (c : Catalog) (succ : SchemaType → List String) :
    List SchemaType → List String → List SchemaType → Prop where
  | done (seen : List SchemaType) : Explores c succ seen [] seen
  | skip {seen found : List SchemaType} {fqn : String} {pending : List String}
      (hseen : fqn ∈ seen.map (·.fqn)) (h : Explores c succ seen pending found) :
      Explores c succ seen (fqn :: pending) found
  | expand {seen found : List SchemaType} {fqn : String} {pending : List String} {d : SchemaType}
      (hnew : fqn ∉ seen.map (·.fqn)) (hd : c.types.find? fqn = some d)
      (h : Explores c succ (seen ++ [d]) (pending ++ succ d) found) :
      Explores c succ seen (fqn :: pending) found

/-- **The steps that are allowed are all that it takes.** The induction is on them: a name that
was seen takes one of them, and a new type pays for the names that it adds. -/
theorem explores_of_explore {next : SchemaType → Outcome (List String)}
    {succ : SchemaType → List String} (hc : Resolved c.types)
    (hnext : ∀ d, (∃ e ∈ c.types, e.2 = d) → next d = .ok (succ d))
    (hlength : ∀ d, (succ d).length ≤ d.properties.length + c.types.length) {steps : Nat}
    {seen found : List SchemaType} {pending : List String}
    (hsteps : pending.length + c.remaining seen ≤ steps)
    (h : c.explore next steps seen pending = .ok found) : Explores c succ seen pending found := by
  induction steps generalizing seen pending with
  | zero =>
    obtain rfl : pending = [] := List.length_eq_zero_iff.mp (by omega)
    cases h
    exact .done _
  | succ steps ih =>
    cases pending with
    | nil =>
      cases h
      exact .done _
    | cons fqn pending =>
      rw [List.length_cons] at hsteps
      rw [explore] at h
      split at h
      · rename_i hseen
        refine .skip ?_ (ih (by omega) h)
        simpa [List.any_eq_true] using hseen
      · rename_i hnew
        have hnew' : fqn ∉ seen.map (·.fqn) := by simpa [List.any_eq_true] using hnew
        obtain ⟨d, hd, h⟩ := Outcome.bind_eq_ok.mp h
        obtain ⟨ys, hys, h⟩ := Outcome.bind_eq_ok.mp h
        have hfind := get_eq_ok_iff.mp hd
        obtain ⟨hmem, hfqn⟩ := mem_of_find_fqn hc hfind
        obtain rfl : succ d = ys := Except.ok.inj ((hnext d hmem).symm.trans hys)
        have hpaid := remaining_append (Table.mem_of_find hfind) hfqn hnew'
        have hadded := hlength d
        refine .expand hnew' hfind (ih ?_ h)
        rw [List.length_append]
        omega

/-- **Looking for the types that a type leads to ends.** -/
theorem explores_textTypes (hc : Resolved c.types) {root : String} (hroot : root ∈ c.types.names) :
    ∃ types, c.textTypes root = .ok types ∧ c.Explores c.successors [] [root] types := by
  obtain ⟨types, htypes, _⟩ := textTypes_spec hc hroot
  refine ⟨types, htypes, explores_of_explore hc (fun d hd => textNext_eq hc hd)
    c.length_successors ?_ htypes⟩
  rw [← remaining_nil, List.length_singleton]
  omega

/-! ### Rules -/

/-- A type whose rules go with another: steps lead to it from the other, along properties that
are not relationships and from abstract types to their concrete subtypes. -/
structure Needs (c : Catalog) (root : String) (d : SchemaType) : Prop where
  declared : c.types.find? d.fqn = some d
  reached : Relation.ReflTransGen c.Leads root d.fqn
  fqn_ne : d.fqn ≠ root

/-- **The rules of a type are named after it**: a rule that goes with another type and has its
name is one of its own. -/
theorem Reached.mem_rulesOf (hc : c.Reached) {s : Settings} {root : String} {set : RuleSet}
    (hroot : root ∈ c.types.names) (h : c.rules s root = .ok set) {d : SchemaType}
    (hd : c.types.find? d.fqn = some d) {r : Rule} (hr : r ∈ set.rules) (hname : r.name = d.fqn) :
    ∃ rs, c.rulesOf d = .ok rs ∧ r ∈ rs := by
  obtain ⟨_, base, types, hbase, htypes, hmem⟩ := mem_rules h
  obtain ⟨types', htypes', hreach⟩ := textTypes_spec hc.sound.types hroot
  obtain rfl : types = types' := Except.ok.inj (htypes.symm.trans htypes')
  have hdot : '.' ∈ r.name.toList := hname ▸ hc.dotted (Table.mem_names_of_find hd)
  rcases hmem r hr with hr | ⟨e, he, rs, hrs, hr⟩
  · have hprimitive : r.name ∈ primitiveRuleNames s := by
      obtain ⟨w, hw⟩ : ∃ w, DateTime.rule s.dateFormat = .ok w := by
        obtain ⟨dates, hdates, _⟩ := Outcome.bind_eq_ok.mp hbase
        obtain ⟨w, hw, _⟩ := Outcome.bind_eq_ok.mp hdates
        exact ⟨w, hw⟩
      obtain ⟨base', hbase', hnames, _⟩ := primitiveRules_spec hw
      obtain rfl : base = base' := Except.ok.inj (hbase.symm.trans hbase')
      exact hnames ▸ List.mem_map_of_mem hr
    exact absurd hdot (not_dotted_primitiveRuleNames hprimitive)
  · rcases name_of_rulesOf hrs hr with heq | heq
    · have he' := ((hreach e).mp he).1
      rw [← heq, hname, hd] at he'
      obtain rfl := Option.some.inj he'
      exact ⟨rs, hrs, hr⟩
    · exact absurd (heq ▸ hdot) (not_dotted_formatRuleName (by decide) _)

/-- The names of rules that are names of types are those of the types that are needed. -/
theorem Reached.typeRule_fqn_iff (hc : c.Reached) {s : Settings} {root : String} {d : SchemaType}
    (hd : c.types.find? d.fqn = some d) : c.TypeRule s root d.fqn ↔ c.Needs root d := by
  have hdot : '.' ∈ d.fqn.toList := hc.dotted (Table.mem_names_of_find hd)
  constructor
  · rintro (hprimitive | ⟨e, he, hreached, hne, hmem⟩)
    · exact absurd hdot (not_dotted_primitiveRuleNames hprimitive)
    · have hfqn : d.fqn = e.fqn := by
        unfold ownRuleNames at hmem
        split at hmem
        · rcases List.mem_pair.mp hmem with hformat | hfqn
          · exact absurd (hformat ▸ hdot) (not_dotted_formatRuleName (by decide) _)
          · exact hfqn
        · exact List.mem_singleton.mp hmem
      exact ⟨hd, hfqn ▸ hreached, hfqn ▸ hne⟩
  · rintro ⟨_, hreached, hne⟩
    exact .inr ⟨d, hd, hreached, hne, fqn_mem_ownRuleNames d⟩

/-- Where there are rules, none of the types that are needed is a choice between nothing. -/
theorem not_childless_of_rules (hc : Resolved c.types) {s : Settings} {root : String} {set : RuleSet}
    (hroot : root ∈ c.types.names) (h : c.rules s root = .ok set) {d : SchemaType}
    (hd : c.Needs root d) : ¬ c.Childless d := by
  intro hchildless
  obtain ⟨types, htypes, hreach⟩ := textTypes_spec hc hroot
  obtain ⟨base, _, h⟩ := Outcome.bind_eq_ok.mp h
  obtain ⟨first, _, h⟩ := Outcome.bind_eq_ok.mp h
  obtain ⟨types', htypes', h⟩ := Outcome.bind_eq_ok.mp h
  obtain rfl : types = types' := Except.ok.inj (htypes.symm.trans htypes')
  have hmem : d ∈ types.filter fun d => d.fqn != root :=
    List.mem_filter.mpr ⟨(hreach d).mpr ⟨hd.declared, hd.reached⟩, by simpa using hd.fqn_ne⟩
  obtain ⟨t, t', hstep⟩ := Outcome.exists_of_mem_foldlM h hmem
  obtain ⟨rs, hrs, _⟩ := Outcome.bind_eq_ok.mp hstep
  have hnone := hchildless.rulesOf hc (mem_of_find_fqn hc hd.declared).1
  cases hrs.symm.trans hnone

/-- **The rules that go with a type are closed up to the type itself.** In every catalog that
adding files leads to, with a default format of dates that can be read: looking for the types that
a declared type leads to ends. If one of them would be a choice between no types, this is what is
reported. Otherwise there are rules, whose references are to each other or to the type itself, and
there is exactly one of the name of each type that is needed, which is its own, and none of the
name of any other declared type. -/
theorem Reached.rules_closed (hc : c.Reached) {root : String} (hroot : c.has root = true)
    {s : Settings} {format : DateFormat} (hformat : DateFormat.ofString s.dateFormat = .ok format) :
    (∃ types, c.textTypes root = .ok types ∧ c.Explores c.successors [] [root] types) ∧
    ((∃ d, c.Needs root d ∧ c.Childless d ∧ c.rules s root = .fail (.model (.noSubtypes d.fqn))) ∨
      ∃ set, c.rules s root = .ok set ∧ (∀ d, c.Needs root d → ¬ c.Childless d) ∧
        (∀ r ∈ set.rules, ∀ x ∈ r.references, x ∈ set.names ∨ x = root) ∧
        (∀ d, c.Needs root d → set.names.count d.fqn = 1 ∧
          ∀ r ∈ set.rules, r.name = d.fqn → ∃ rs, c.rulesOf d = .ok rs ∧ r ∈ rs) ∧
        ∀ d, c.types.find? d.fqn = some d → ¬ c.Needs root d → d.fqn ∉ set.names) := by
  have hresolved := hc.sound.types
  have hnames := Table.has_iff.mp hroot
  have hdate : ∃ w, DateTime.rule s.dateFormat = .ok w := by
    rw [DateTime.rule, hformat]
    exact ⟨_, rfl⟩
  obtain ⟨w, hw⟩ := hdate
  refine ⟨explores_textTypes hresolved hnames, ?_⟩
  rcases rules_cases hresolved hw hnames with
    ⟨set, hset, hwell, htype, hclosed⟩ | ⟨d, hfail, hfind, hreached, hne, hchildless⟩
  · refine .inr ⟨set, hset, fun d hd => not_childless_of_rules hresolved hnames hset hd,
      fun r hr x hx => ?_, fun d hd => ⟨?_, fun r hr hname => ?_⟩, fun d hd hother hmem => ?_⟩
    · exact ((hclosed r hr).references x hx).imp_right fun hroot => hroot.1
    · exact List.count_eq_one_of_mem hwell.names
        ((htype _).mpr ((hc.typeRule_fqn_iff hd.declared).mpr hd))
    · exact hc.mem_rulesOf hnames hset hd.declared hr hname
    · exact hother ((hc.typeRule_fqn_iff hd).mp ((htype _).mp hmem))
  · exact .inl ⟨d, ⟨hfind, hreached, hne⟩, hchildless, hfail⟩

end Catalog

/-! ### A model of books -/

namespace Bookshelf

/-- A model of books, whose chapters know their book, and of proofs, which have remarks of no
kind. -/
def model : ModelFile where
  ns := "shelf"
  declarations :=
    [{ kind := .concept, name := "Book", properties := [{ name := "parts", type := "Part", array := true }] },
     { kind := .concept, name := "Part", abstract := true
       properties := [{ name := "title", type := "String" }] },
     { kind := .concept, name := "Chapter", extends? := some "Part"
       properties :=
        [{ name := "book", type := "Book", optional := true },
         { name := "parts", type := "Part", array := true }] },
     { kind := .concept, name := "Remark", abstract := true },
     { kind := .concept, name := "Proof", properties := [{ name := "remark", type := "Remark" }] }]

def catalog : Catalog :=
  (Catalog.system.add model.toValue).2

theorem leads_of_any {x y : String}
    (h : (catalog.types.find? x).any (fun d => (catalog.successors d).contains y) = true) :
    catalog.Leads x y := by
  obtain ⟨d, hd, hy⟩ := (Option.any_eq_true _ _).mp h
  exact ⟨d, hd, List.contains_iff_mem.mp hy⟩

/-- **The rules of a book** are those of its parts, among them that of chapters, which leads back to
the book. Proofs have no rules: there is no remark. -/
theorem rules_book : catalog.Reached ∧
    (∃ format, DateFormat.ofString ({} : Settings).dateFormat = .ok format) ∧
    catalog.has "shelf.Book" = true ∧ catalog.has "shelf.Proof" = true ∧
    (∃ set, catalog.rules {} "shelf.Book" = .ok set ∧ set.names.count "shelf.Chapter" = 1 ∧
      "shelf.Book" ∉ set.names ∧ (∃ r ∈ set.rules, "shelf.Book" ∈ r.references) ∧
      ∀ r ∈ set.rules, ∀ x ∈ r.references, x ∈ set.names ∨ x = "shelf.Book") ∧
    ∃ d, catalog.rules {} "shelf.Proof" = .fail (.model (.noSubtypes d.fqn)) ∧
      catalog.Childless d := by
  have hc : catalog.Reached := .add .system _ _
  have hformat : ∃ format, DateFormat.ofString ({} : Settings).dateFormat = .ok format := ⟨_, rfl⟩
  obtain ⟨format, hformat⟩ := hformat
  have hbook : catalog.has "shelf.Book" = true := by decide +kernel
  have hproof : catalog.has "shelf.Proof" = true := by decide +kernel
  have hreach : Relation.ReflTransGen catalog.Leads "shelf.Book" "shelf.Chapter" :=
    .tail (.single (leads_of_any (y := "shelf.Part") (by decide +kernel)))
      (leads_of_any (by decide +kernel))
  have hback : ((catalog.rules {} "shelf.Book").toOption.any fun set =>
      set.rules.any fun r => r.references.contains "shelf.Book") = true := by decide +kernel
  have hnone : (catalog.rules {} "shelf.Proof").isOk = false := by decide +kernel
  refine ⟨hc, ⟨format, hformat⟩, hbook, hproof, ?_, ?_⟩
  · obtain ⟨set, hset, hany⟩ := Outcome.exists_of_any hback
    obtain ⟨-, ⟨d, -, -, hfail⟩ | ⟨set', hset', -, hclosed, hneeded, hother⟩⟩ :=
      hc.rules_closed hbook hformat
    · cases hset.symm.trans hfail
    obtain rfl : set = set' := Except.ok.inj (hset.symm.trans hset')
    have hfind : ∀ {x}, x ∈ catalog.types.names → ∃ d, catalog.types.find? d.fqn = some d ∧ d.fqn = x := by
      intro x hx
      obtain ⟨d, hd⟩ := Table.exists_find hx
      obtain ⟨_, rfl⟩ := Catalog.mem_of_find_fqn hc.sound.types hd
      exact ⟨d, hd, rfl⟩
    obtain ⟨chapter, hchapter, hname⟩ := hfind (x := "shelf.Chapter") (by decide +kernel)
    obtain ⟨book, hfindBook, hnameBook⟩ := hfind (Table.has_iff.mp hbook)
    have hneeds : catalog.Needs "shelf.Book" chapter := ⟨hchapter, hname ▸ hreach, by simp [hname]⟩
    refine ⟨set, hset, hname ▸ (hneeded chapter hneeds).1,
      hnameBook ▸ hother book hfindBook fun h => h.fqn_ne hnameBook, ?_, hclosed⟩
    simpa [List.any_eq_true] using hany
  · obtain ⟨-, ⟨d, -, hchildless, hfail⟩ | ⟨set, hset, -⟩⟩ := hc.rules_closed hproof hformat
    · exact ⟨d, hfail, hchildless⟩
    · rw [hset] at hnone
      cases hnone

end Bookshelf

end Covenant
