import Covenant.Proofs.Markup.Evaluation
import Covenant.Proofs.Markup.Issued

/-!
The identifiers of what is read from a text.

* `Lays`: the objects that a template lays out in a value, with the places where they stand and
  the levels that they are of.
* `Lays.levelRead`: each of them has been read by the rule of its level.
* `Compiler.identifiers_eq_iff`: so two of them have the same identifier exactly if they are of
  the same level.
-/

namespace Covenant.Markup

/-! ### Objects of a template -/

/-- The name of the level that lays out a value of a block, which depends on the index for a
list. -/
def BlockKind.stem (kind : BlockKind) (field : String) (index : Option Nat) : String :=
  match kind, index with
  | .list _, some 0 => field ++ "First"
  | _, _ => field

/-- A value of a property: its only one, or an item of its list by the index. -/
inductive Valued (p : Property) : Value → Option Nat → Value → Prop where
  | single {v : Value} (harray : p.array = false) : Valued p v none v
  | item {items : List Value} {i : Nat} {v : Value} (harray : p.array = true)
      (hv : items[i]? = some v) : Valued p (.list items) (some i) v

/-- **The objects that a level lays out in its value**: the value itself, and what the blocks of
the level lay out in the values of their properties. Each one stands at a place, given by
properties and indices, and is of a site. Of the nodes that bind a property only the first one
counts, and none does for the identifier, which is not read from the text. -/
inductive Lays (c : Compiler) : SchemaType → List String → List Node → Value →
    List (String × Option Nat) → Site → Value → Prop where
  | here {d : SchemaType} {way : List String} {nodes : List Node} {v : Value} :
      Lays c d way nodes v [] ⟨d, way⟩ v
  | block {d e : SchemaType} {way : List String} {nodes nested : List Node} {v w u x : Value}
      {kind : BlockKind} {field : String} {place : Text.Position} {p : Property}
      {index : Option Nat} {path : List (String × Option Nat)} {site : Site}
      (hn : nodes.find? (fun n => n.field? == some field) = some (.block kind field nested place))
      (hkey : d.identifier? ≠ some field) (hp : d.property? field = some p)
      (he : c.catalog.types.find? p.type = some e) (hw : v.get? field = some w)
      (hu : Valued p w index u)
      (h : Lays c e (kind.stem field index :: way) nested u path site x) :
      Lays c d way nodes v ((field, index) :: path) site x

section

variable {c : Compiler} {d : SchemaType} {way : List String} {nodes : List Node} {v x : Value}
  {path : List (String × Option Nat)} {site : Site}

/-- The sites of each level of a block are among those of the block. -/
theorem levelSites_subset {e : SchemaType} {kind : BlockKind} {field : String}
    {nested : List Node} {place : Text.Position} {p : Property} (hp : d.property? field = some p)
    (he : c.catalog.types.find? p.type = some e) (index : Option Nat) :
    Compiler.levelSites (c.sitesIn nested) e (kind.stem field index :: way) ⊆
      c.sitesOf (.block kind field nested place) d way := by
  cases kind with
  | list style =>
    rw [Compiler.sitesOf_list style hp he]
    match index with
    | some 0 => exact List.subset_append_left _ _
    | some (_ + 1) => exact List.subset_append_right _ _
    | none => exact List.subset_append_right _ _
  | _ =>
    rw [Compiler.sitesOf_nested (by simp) hp he]
    exact List.Subset.refl _

/-- An object whose type has an identifier is of one of the sites of the level. -/
theorem Lays.mem_sites (h : Lays c d way nodes v path site x) {key : String}
    (hkey : site.type.identifier? = some key) :
    site ∈ Compiler.levelSites (c.sitesIn nodes) d way := by
  induction h with
  | here => exact List.mem_append_right _ (Site.mem_identified hkey)
  | block hn _ hp he _ _ _ ih =>
    exact List.mem_append_left _ (Compiler.sitesOf_subset (List.mem_of_find?_eq_some hn) _ _
      (levelSites_subset hp he _ (ih hkey)))

end

/-! ### How objects are read -/

section

variable {c : Compiler} {set : RuleSet} {ctx : ReadingContext} {d : SchemaType} {stem : String}
  {nodes : List Node} {v w u : Value} {field : String} {p : Property}

/-- **A value has been read for a level**, perhaps with a text in front of it: the level has its
rules, and the value comes from the rule of the level. -/
structure LevelRead (c : Compiler) (set : RuleSet) (ctx : ReadingContext) (d : SchemaType)
    (stem : String) (nodes : List Node) (v : Value) : Prop where
  found : c.catalog.types.find? d.fqn = some d
  ruled : ∃ start led, lead start nodes = .ok led ∧ RuledLevel c set d stem led
  reads : ∃ cs, Reads set ctx (.rule stem) cs v

/-- **The entry of a property** has been read by the rule of the first node that binds it. -/
theorem LevelRead.entry (hc : c.catalog.Built) (h : LevelRead c set ctx d stem nodes v)
    (hp : d.property? field = some p) (hkey : d.identifier? ≠ some field) {n : Node}
    (hn : nodes.find? (fun n => n.field? == some field) = some n)
    (hw : v.get? field = some w) :
    w.isNull = false ∧ ∃ name cs, Ruled c set d name n ∧ Reads set ctx (.rule name) cs w := by
  have hkeys := hc.nodup_keys h.found
  obtain ⟨start, led, hled, hruled⟩ := h.ruled
  obtain ⟨_, e, he, hv⟩ := h.reads
  obtain ⟨id, hrule⟩ := hruled.level.rule
  obtain ⟨es, hes, rfl, hparts⟩ := level_value hkeys hrule he hv
  have hname : p.name = field := by simpa using List.find?_some hp
  obtain ⟨hnull, ⟨rfl, _⟩ | ⟨hkey', _⟩ | ⟨_, _, hbound⟩⟩ := (find_levelFields hkeys id _).mp hw
  · exact absurd (List.mem_map.mpr ⟨p, Compiler.mem_of_property hp, hname⟩)
      (List.nodup_cons.mp hkeys).1
  · exact absurd hkey' hkey
  · rw [boundValue_map, Option.map_eq_some_iff] at hbound
    obtain ⟨y, hy, rfl⟩ := hbound
    obtain rfl : y.1.2 = n := by
      rw [find_read hled hes, hy] at hn
      exact Option.some.inj hn
    have hmem := List.mem_of_find?_eq_some hy
    obtain ⟨cs, e', hd, _, hvalue⟩ := hparts y hmem
    exact ⟨hnull, y.1.1, cs, hruled.nodes y.1 (hes ▸ List.mem_map_of_mem hmem), e', hd, hvalue⟩

/-- The values of a property have been read by the rule that its node refers to. -/
theorem Valued.reads {index : Option Nat} (h : Valued p w index u) {target : String}
    {cs : List Char} (hread : Reads set ctx (.rule target p.cardinality) cs w)
    (hnull : w.isNull = false) : ∃ cs, Reads set ctx (.rule target) cs u := by
  obtain ⟨e, he, hw⟩ := hread
  rcases Catalog.derives_cardinality he hw with ⟨harray, _, ds, vs, hds, rfl, hvs, rfl⟩ |
    ⟨_, _, _, rfl⟩ | ⟨harray, hd⟩
  · cases h with
    | single h =>
      rw [harray] at h
      cases h
    | item _ hu =>
      obtain ⟨cs, e', _, hread⟩ := exists_of_derivesAll_replicate hds hvs (List.mem_of_getElem? hu)
      exact ⟨cs, e', hread⟩
  · cases hnull
  · cases h with
    | single => exact ⟨cs, e, hd, hw⟩
    | item h =>
      rw [harray] at h
      cases h

/-- The items of a list have been read by the rule for the first one or for the others. -/
theorem Valued.reads_item {index : Option Nat} (h : Valued p w index u) (harray : p.array = true)
    {style : ListStyle} {name comment : String} {cs : List Char}
    (hrule : set.Holds (itemsRule name (field ++ "First") field comment))
    (hread : Reads set ctx (.rule name) cs w) :
    ∃ cs, Reads set ctx (.rule ((BlockKind.list style).stem field index)) cs u := by
  obtain ⟨e, he, hw⟩ := hread
  obtain ⟨_, _, rfl, ⟨_, x, hx, _, hfirst⟩, hlater⟩ := items_read (first_ne field) hrule he hw
  cases h with
  | single h =>
    rw [harray] at h
    cases h
  | @item _ i _ _ hu =>
    cases i with
    | zero =>
      cases hu
      exact ⟨_, x, hx, hfirst⟩
    | succ i =>
      obtain ⟨cs, x', hx', _, hread⟩ := hlater _ (List.mem_of_getElem? hu)
      exact ⟨cs, x', hx', hread⟩

/-- **What a block lays out** has been read by the rule of the level for it. -/
theorem LevelRead.block (hc : c.catalog.Built) (h : LevelRead c set ctx d stem nodes v)
    {kind : BlockKind} {nested : List Node} {place : Text.Position} {e : SchemaType}
    {index : Option Nat}
    (hn : nodes.find? (fun n => n.field? == some field) = some (.block kind field nested place))
    (hkey : d.identifier? ≠ some field) (hp : d.property? field = some p)
    (he : c.catalog.types.find? p.type = some e) (hw : v.get? field = some w)
    (hu : Valued p w index u) : LevelRead c set ctx e (kind.stem field index) nested u := by
  obtain ⟨hnull, name, cs, hruled, hread⟩ := h.entry hc hp hkey hn hw
  obtain ⟨_, hfqn⟩ := Catalog.mem_of_find_fqn hc.sound.types he
  have hfound : c.catalog.types.find? e.fqn = some e := hfqn ▸ he
  cases hruled with
  | nested hkind hp' he' hrule hlevel hnodes =>
    cases hp.symm.trans hp'
    cases he.symm.trans he'.found
    have hstem : kind.stem field index = field := by
      cases kind with
      | list style => exact absurd rfl (hkind style)
      | _ => rfl
    obtain ⟨x, hx, hvalue⟩ := hread
    obtain ⟨x', hx', _, hvalue'⟩ := reference_value hrule hx hvalue
    rw [hstem]
    exact ⟨hfound, ⟨"", nested, rfl, hlevel, hnodes⟩, hu.reads ⟨x', hx', hvalue'⟩ hnull⟩
  | list hp' harray he' hrule hfirst hlater hfirstLevel hlaterLevel hfirsts hlaters =>
    cases hp.symm.trans hp'
    cases he.symm.trans he'.found
    refine ⟨hfound, ?_, hu.reads_item harray hrule hread⟩
    match index with
    | some 0 => exact ⟨_, _, hfirst, hfirstLevel, hfirsts⟩
    | some (_ + 1) => exact ⟨_, _, hlater, hlaterLevel, hlaters⟩
    | none => exact ⟨_, _, hlater, hlaterLevel, hlaters⟩

/-- **Every object of a template** has been read by the rule of its level. -/
theorem Lays.levelRead (hc : c.catalog.Built) {way : List String} {x : Value}
    {path : List (String × Option Nat)} {site : Site} (h : Lays c d way nodes v path site x)
    (hread : LevelRead c set ctx d (way.headD topStem) nodes v) :
    ∃ nodes', LevelRead c set ctx site.type site.stem nodes' x := by
  induction h with
  | @here _ _ nodes => exact ⟨nodes, hread⟩
  | block hn hkey hp he hw hu _ ih => exact ih (hread.block hc hn hkey hp he hw hu)

/-- **The identifier of an object** is the constant of the rule of its level. -/
theorem LevelRead.identifier (hc : c.catalog.Built) (h : LevelRead c set ctx d stem nodes v)
    {key : String} (hkey : d.identifier? = some key) :
    ∃ r id, set.Holds r ∧ r.name = stem ∧ r.token? = some id ∧ v.get? key = some (.text id) := by
  have hkeys := hc.nodup_keys h.found
  obtain ⟨_, _, _, hruled⟩ := h.ruled
  obtain ⟨_, e, he, hv⟩ := h.reads
  obtain ⟨id, hrule⟩ := hruled.level.rule
  obtain ⟨es, _, rfl, _⟩ := level_value hkeys hrule he hv
  refine ⟨_, id, hrule, rfl, ?_, (find_levelFields hkeys id _).mpr ⟨rfl, .inr (.inl ⟨hkey, rfl⟩)⟩⟩
  simp [Rule.token?, levelRule, levelArguments, hkey]

end

/-! ### Whole templates -/

namespace Compiler

variable {c : Compiler} {d : SchemaType} {nodes : List Node} {issued : Nat} {set : RuleSet}
  {ctx : ReadingContext} {cs : List Char} {e : Derivation} {v x y : Value}
  {path path' : List (String × Option Nat)} {site site' : Site} {key key' : String}

/-- **The objects of a site** have the identifier that was drawn for it. -/
theorem identifier_of_lays (hc : c.catalog.Built) (hd : c.catalog.types.find? d.fqn = some d)
    (hset : (c.compile nodes d issued).1 = .ok set) (h : Derives set (.rule topStem) cs e)
    (hv : e.evaluate set ctx = .ok v) (hx : Lays c d [topStem] nodes v path site x)
    (hkey : site.type.identifier? = some key) :
    ∃ i, (c.sites nodes d)[i]? = some site ∧
      x.get? key = some (.text (c.identifier (issued + i))) := by
  have hruled := (joined_of_compile hc hd hset).2.1
  have htop : LevelRead c set ctx d topStem nodes v :=
    ⟨hd, ⟨"", nodes, rfl, hruled⟩, cs, e, h, hv⟩
  obtain ⟨nodes', hread⟩ := hx.levelRead hc htop
  obtain ⟨r, id, hr, hname, htoken, hid⟩ := hread.identifier hc hkey
  obtain ⟨i, hi⟩ := List.mem_iff_getElem?.mp (hx.mem_sites hkey)
  obtain ⟨r', hr', hname', htoken'⟩ := (drawn_of_compile hc hd hset).rules i site hi
  obtain rfl : r = r' := by
    rw [RuleSet.Holds, hname, ← hname'] at hr
    exact Option.some.inj (hr.symm.trans hr')
  obtain rfl : id = c.identifier (issued + i) := Option.some.inj (htoken.symm.trans htoken')
  exact ⟨i, hi, hid⟩

/-- **Identifiers are unique among levels.** Where no identifier is drawn twice, every object that
a template lays out in what is read from a text has one of those that were drawn for the template,
if its type has an identifier; and two of them have the same exactly if they are of the same level.
So the identifiers are pairwise distinct but for the objects of one level: the items of a list
behind the first one, and the values that a clause lays out of an array. -/
theorem identifiers_eq_iff (hc : c.catalog.Built) (hidentifier : Function.Injective c.identifier)
    (hd : c.catalog.types.find? d.fqn = some d) (hset : (c.compile nodes d issued).1 = .ok set)
    (h : Derives set (.rule topStem) cs e) (hv : e.evaluate set ctx = .ok v)
    (hx : Lays c d [topStem] nodes v path site x) (hkey : site.type.identifier? = some key)
    (hy : Lays c d [topStem] nodes v path' site' y) (hkey' : site'.type.identifier? = some key') :
    ∃ i j, (issued ≤ i ∧ i < (c.compile nodes d issued).2) ∧
      (issued ≤ j ∧ j < (c.compile nodes d issued).2) ∧
      x.get? key = some (.text (c.identifier i)) ∧ y.get? key' = some (.text (c.identifier j)) ∧
      (c.identifier i = c.identifier j ↔ site.way = site'.way) := by
  obtain ⟨i, hi, hid⟩ := identifier_of_lays hc hd hset h hv hx hkey
  obtain ⟨j, hj, hid'⟩ := identifier_of_lays hc hd hset h hv hy hkey'
  have hdrawn := drawn_of_compile hc hd hset
  have hissued : ∀ {k site}, (c.sites nodes d)[k]? = some site →
      issued ≤ issued + k ∧ issued + k < (c.compile nodes d issued).2 := fun hk =>
    ⟨Nat.le_add_right _ _,
      (Nat.add_lt_add_left (List.getElem?_eq_some_iff.mp hk).1 _).trans_eq hdrawn.issued.symm⟩
  refine ⟨_, _, hissued hi, hissued hj, hid, hid', fun hsame => ?_, fun hway => ?_⟩
  · obtain rfl : i = j := Nat.add_left_cancel (hidentifier hsame)
    rw [Option.some.inj (hi.symm.trans hj)]
  · have hstem : site.stem = site'.stem := by rw [Site.stem, hway, Site.stem]
    rw [hdrawn.site_unique hidentifier hi hj hstem]

end Compiler

/-! ### Loads of crates -/

namespace Depot

/-- A model of loads, which consist of crates. -/
def model : ModelFile where
  ns := "depot"
  declarations :=
    [{ kind := .asset, name := "Crate"
       properties := [{ name := "code", type := "String", identifier := true },
         { name := "label", type := "String" }] },
     { kind := .concept, name := "Load"
       properties := [{ name := "crates", type := "Crate", array := true }] }]

/-- The rules of templates for loads. Identifiers are numbered. -/
def compiler : Compiler where
  catalog := (Catalog.system.add model.toValue).2
  identifier := fun i => "id-" ++ toString (i + 1)

/-- Something with a code that identifies it and a label. -/
def crate : SchemaType where
  fqn := "depot.Crate"
  ns := "depot"
  name := "Crate"
  kind := .asset
  properties :=
    [{ name := "code", typeName := "String", type := "String", identifier := true },
     { name := "label", typeName := "String", type := "String" }]

def load : SchemaType where
  fqn := "depot.Load"
  ns := "depot"
  name := "Load"
  kind := .concept
  properties := [{ name := "crates", typeName := "Crate", type := "depot.Crate", array := true }]

def crateNodes : List Node :=
  [.binding "label" none ⟨1, 20⟩]

def loadNodes : List Node :=
  [.block (.list .bullets) "crates" crateNodes ⟨1, 10⟩]

theorem built : compiler.catalog.Built :=
  .add .system _ _

theorem find_types : compiler.catalog.types.find? crate.fqn = some crate ∧
    compiler.catalog.types.find? load.fqn = some load := by
  decide +kernel

theorem injective_identifier : Function.Injective compiler.identifier := by
  intro i j h
  have hindex : toString (i + 1) = toString (j + 1) := by
    simpa [compiler, String.ext_iff] using h
  have hnum := Nat.repr_injective hindex
  omega

/-- What stands for a crate in its level: a text in front, and the label. -/
def crateParts (stem start : String) : List (String × Node) :=
  [(stem ++ "0", .text start false ⟨1, 18⟩), (stem ++ "1", .binding "label" none ⟨1, 20⟩)]

def crateRules (stem start id : String) : List Rule :=
  [Compiler.textRule start (stem ++ "0"),
    referenceRule (stem ++ "1") "String" "depot.Crate.label" .one,
    levelRule crate stem id (crateParts stem start)]

def loadRules : List Rule :=
  [patternRule "String" "\"(?:[^\"\\\\]|\\\\.)*\"" "string",
    itemsRule "rule0" "cratesFirst" "crates" "depot.Load.crates",
    levelRule load "rule" "" (numbered "rule" loadNodes)]

theorem holds_rules : ∃ set, (compiler.compile loadNodes load 0).1 = .ok set ∧
    ∀ r ∈ loadRules ++ crateRules "cratesFirst" "- " "id-1" ++ crateRules "crates" "\n- " "id-2",
      set.find? r.name = some r := by
  have htest : ((compiler.compile loadNodes load 0).1.toOption.any fun set =>
      decide (∀ r ∈ loadRules ++ crateRules "cratesFirst" "- " "id-1" ++
        crateRules "crates" "\n- " "id-2", set.find? r.name = some r)) = true := by
    decide +kernel
  obtain ⟨set, hset, hrules⟩ := Outcome.exists_of_any htest
  exact ⟨set, hset, of_decide_eq_true hrules⟩

def crateOf (id label : String) : Value :=
  .object [(classKey, .text crate.fqn), ("code", .text id), ("label", .text label)]

def crateText (start label : String) : List Char :=
  start.toList ++ (JsonText.literal false label).toList

theorem reads_crate {set : RuleSet}
    (hstring : set.Holds (patternRule "String" "\"(?:[^\"\\\\]|\\\\.)*\"" "string"))
    {stem start id : String} (hrules : ∀ r ∈ crateRules stem start id, set.Holds r)
    (label : String) :
    Reads set {} (.rule stem) (crateText start label) (crateOf id label) := by
  simp only [crateRules, List.forall_mem_cons] at hrules
  obtain ⟨htext, hreference, hlevel, -⟩ := hrules
  have hlabel : Reads set {} (.rule "String") (JsonText.literal false label).toList (.text label) :=
    Catalog.reads_patternRule hstring (Symbol.accepts_string label) (by
      rw [String.ofList_toList]
      simp [Action.run, Action.first, Action.readJson, Json.read_literal])
  have happly := @apply_levelRule {} crate (by decide) stem id
    [((stem ++ "0", .text start false ⟨1, 18⟩), .text start),
      ((stem ++ "1", .binding "label" none ⟨1, 20⟩), .text label)] (by simp)
  exact reads_rule (q := 0) hlevel rfl
    (readsAll_cons (reads_textRule htext)
      (readsAll_singleton (reads_reference hreference hlabel))) happly

/-- A load of three crates, of which the last two have the same code. -/
def threeCrates : Value :=
  .object [(classKey, .text load.fqn),
    ("crates", .list [crateOf "id-1" "oak", crateOf "id-2" "elm", crateOf "id-2" "ash"])]

def threeText : List Char :=
  crateText "- " "oak" ++ [crateText "\n- " "elm", crateText "\n- " "ash"].flatten

/-- The load is read from its text. -/
theorem reads_three : ∃ set e, (compiler.compile loadNodes load 0).1 = .ok set ∧
    Derives set (.rule topStem) threeText e ∧ e.evaluate set {} = .ok threeCrates := by
  obtain ⟨set, hset, hrules⟩ := holds_rules
  simp only [List.forall_mem_append] at hrules
  obtain ⟨⟨hload, hfirst⟩, hlater⟩ := hrules
  simp only [loadRules, List.forall_mem_cons] at hload
  obtain ⟨hstring, hlist, hlevel, -⟩ := hload
  have hcrates : Reads set {} (.rule "rule0") threeText (.list _) :=
    reads_items (by decide) hlist (reads_crate hstring hfirst "oak")
      (.cons (reads_crate hstring hlater "elm") (.cons (reads_crate hstring hlater "ash") .nil))
  obtain ⟨e, he, hv⟩ : Reads set {} (.rule topStem) threeText threeCrates :=
    reads_rule (q := 0) hlevel rfl (readsAll_singleton hcrates) rfl
  exact ⟨set, e, hset, he, hv⟩

/-- The crates of the load are objects of its template. -/
theorem lays_crate {i : Nat} {v : Value} (hv : [crateOf "id-1" "oak", crateOf "id-2" "elm",
      crateOf "id-2" "ash"][i]? = some v) :
    Lays compiler load [topStem] loadNodes threeCrates [("crates", some i)]
      ⟨crate, [(BlockKind.list .bullets).stem "crates" (some i), topStem]⟩ v :=
  .block rfl (by decide) rfl find_types.1 rfl (.item rfl hv) .here

/-- The first two crates have codes of their own. -/
theorem first_identifiers : ∃ set e, compiler.catalog.Built ∧
    Function.Injective compiler.identifier ∧ compiler.catalog.types.find? load.fqn = some load ∧
    (compiler.compile loadNodes load 0).1 = .ok set ∧
    Derives set (.rule topStem) threeText e ∧ e.evaluate set {} = .ok threeCrates ∧
    Lays compiler load [topStem] loadNodes threeCrates [("crates", some 0)]
      ⟨crate, ["cratesFirst", topStem]⟩ (crateOf "id-1" "oak") ∧
    Lays compiler load [topStem] loadNodes threeCrates [("crates", some 1)]
      ⟨crate, ["crates", topStem]⟩ (crateOf "id-2" "elm") ∧ crate.identifier? = some "code" ∧
    ∃ i j, (0 ≤ i ∧ i < (compiler.compile loadNodes load 0).2) ∧
      (0 ≤ j ∧ j < (compiler.compile loadNodes load 0).2) ∧
      (crateOf "id-1" "oak").get? "code" = some (.text (compiler.identifier i)) ∧
      (crateOf "id-2" "elm").get? "code" = some (.text (compiler.identifier j)) ∧
      (compiler.identifier i = compiler.identifier j ↔
        ["cratesFirst", topStem] = ["crates", topStem]) := by
  obtain ⟨set, e, hset, he, hv⟩ := reads_three
  have hoak := @lays_crate 0 _ rfl
  have helm := @lays_crate 1 _ rfl
  exact ⟨set, e, built, injective_identifier, find_types.2, hset, he, hv, hoak, helm, rfl,
    Compiler.identifiers_eq_iff built injective_identifier find_types.2 hset he hv hoak rfl helm rfl⟩

/-- **The crates behind the first one have the same code**, wherever they stand in the list. -/
theorem same_identifiers : Function.Injective compiler.identifier ∧
    ∃ set e, (compiler.compile loadNodes load 0).1 = .ok set ∧
      Derives set (.rule topStem) threeText e ∧ e.evaluate set {} = .ok threeCrates ∧
      ∃ path path' site site' x y, path ≠ path' ∧
        Lays compiler load [topStem] loadNodes threeCrates path site x ∧
        Lays compiler load [topStem] loadNodes threeCrates path' site' y ∧
        site.type.identifier? = some "code" ∧ site'.type.identifier? = some "code" ∧
        x.get? "code" = some (.text "id-2") ∧ y.get? "code" = some (.text "id-2") := by
  obtain ⟨set, e, hset, he, hv⟩ := reads_three
  exact ⟨injective_identifier, set, e, hset, he, hv, _, _, _, _, _, _, by simp,
    @lays_crate 1 _ rfl, @lays_crate 2 _ rfl, rfl, rfl, rfl, rfl⟩

end Depot

end Covenant.Markup
