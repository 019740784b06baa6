import Covenant.Package.Metadata
import Covenant.Proofs.Value.Canonical

/-!
What the identity of a template sees.

* `Metadata.Alike`, `Metadata.Keyed`: metadata that differ in nothing but the order of keys and
  of samples, and metadata in which each key occurs once.
* `sortModels_alike_iff`, `sortScripts_eq_iff`: models and scripts in order, whatever the order
  they come in.
* `contents_alike_iff`: contents are alike iff their parts are.
* `canonical_contents_iff`: so the digested texts are the same iff models, markup, scripts and
  metadata are.
-/

namespace Covenant

namespace Value

variable {v w : Value} {vs ws : List Value} {fs gs : List (String × Value)} {key : String}

/-! ### Values alike, by their form -/

@[simp] theorem alike_text_iff {s t : String} : Alike (.text s) (.text t) ↔ s = t := by
  constructor
  · intro h
    cases h
    rfl
  · rintro rfl
    exact .text s

@[simp] theorem alike_bool_iff {b c : Bool} : Alike (.bool b) (.bool c) ↔ b = c := by
  constructor
  · intro h
    cases h
    rfl
  · rintro rfl
    exact .bool b

@[simp] theorem alike_ofText_iff {s t : Option String} :
    Alike (.ofText? s) (.ofText? t) ↔ s = t := by
  constructor
  · intro h
    cases s <;> cases t <;> first | rfl | cases h
    rfl
  · rintro rfl
    exact Alike.refl _

theorem alike_list_iff : Alike (.list vs) (.list ws) ↔ List.Forall₂ Alike vs ws := by
  rw [← alikeItems_iff]
  constructor
  · intro h
    cases h with
    | list items => exact items
  · exact .list

@[simp] theorem alikeFields_nil : AlikeFields [] [] := .nil

@[simp] theorem alikeFields_cons_iff :
    AlikeFields ((key, v) :: fs) ((key, w) :: gs) ↔ Alike v w ∧ AlikeFields fs gs := by
  constructor
  · intro h
    cases h with
    | cons _ first rest => exact ⟨first, rest⟩
  · exact fun h => .cons key h.1 h.2

/-- Entries with the same different keys in the same order are the same if they are the same in
any order. -/
theorem eq_of_perm_names (hnodup : (Table.names fs).Nodup) (hnames : Table.names fs = Table.names gs)
    (h : fs.Perm gs) : fs = gs := by
  induction fs generalizing gs with
  | nil => exact h.nil_eq
  | cons e fs ih =>
    cases gs with
    | nil => cases hnames
    | cons f gs =>
      obtain ⟨hkey, hrest⟩ := List.cons.inj hnames
      obtain rfl : e = f :=
        List.inj_on_of_nodup_map hnodup List.mem_cons_self (h.mem_iff.mpr List.mem_cons_self) hkey
      rw [ih (List.nodup_cons.mp hnodup).2 hrest h.cons_inv]

/-- **Objects with the same keys in the same order** are alike iff their entries are. -/
theorem alike_object_iff (hnodup : (Table.names fs).Nodup)
    (hnames : Table.names fs = Table.names gs) :
    Alike (.object fs) (.object gs) ↔ AlikeFields fs gs := by
  constructor
  · intro h
    cases h with
    | @object _ _ hs fields order =>
      have hkeys := fields.names
      rwa [← eq_of_perm_names (hkeys ▸ hnodup) (hkeys.symm.trans hnames) order]
  · exact fun h => .object h (List.Perm.refl _)

end Value

namespace Package

open Value

/-! ### Models -/

variable {models models' : List Value} {markup markup' : Option String} {scripts scripts' : List Script}
  {logic logic' : Option (List Script)} {m m' : Metadata}

/-- Lists of well-keyed values are alike exactly if their canonical texts are equal. -/
theorem forall₂_alike_iff {vs ws : List Value} (h : ∀ v ∈ vs, v.Keyed) :
    List.Forall₂ Alike vs ws ↔ vs.map Json.canonical = ws.map Json.canonical := by
  induction vs generalizing ws with
  | nil => cases ws <;> simp
  | cons v vs ih =>
    obtain ⟨hv, hvs⟩ := List.forall_mem_cons.mp h
    cases ws with
    | nil => simp
    | cons w ws =>
      rw [List.forall₂_cons, List.map_cons, List.map_cons, List.cons.injEq, ih hvs,
        Json.canonical_eq_iff hv]

/-- The models are alike up to their order exactly if their canonical texts are a rearrangement of
each other. -/
theorem rel_alike_iff (h : ∀ v ∈ models, v.Keyed) :
    Multiset.Rel Alike models models' ↔
      (models.map Json.canonical).Perm (models'.map Json.canonical) := by
  rw [← Multiset.coe_eq_coe, ← Multiset.map_coe, ← Multiset.map_coe, ← Multiset.rel_eq,
    Multiset.rel_map]
  constructor
  · exact fun hrel => hrel.mono fun v hv w _ halike => (Json.canonical_eq_iff (h v hv)).mpr halike
  · exact fun hrel => hrel.mono fun v _ w _ hsame => Json.alike_of_canonical hsame

/-- Texts in order are the same iff the texts are, in any order. -/
theorem mergeSort_eq_iff {ss ts : List String} :
    ss.mergeSort (· ≤ ·) = ts.mergeSort (· ≤ ·) ↔ ss.Perm ts := by
  have hsorted : ∀ us : List String, (us.mergeSort (· ≤ ·)).Pairwise (· ≤ ·) := fun us =>
    us.pairwise_mergeSort' (· ≤ ·)
  constructor
  · intro h
    exact (ss.mergeSort_perm _).symm.trans (h ▸ ts.mergeSort_perm _)
  · intro h
    refine List.Perm.eq_of_pairwise (fun a b _ _ => le_antisymm) (hsorted ss) (hsorted ts) ?_
    exact (ss.mergeSort_perm _).trans (h.trans (ts.mergeSort_perm _).symm)

/-- **Models in order** are alike iff the models are, in any order. -/
theorem sortModels_alike_iff (h : ∀ v ∈ models, v.Keyed) :
    List.Forall₂ Alike (sortModels models) (sortModels models') ↔
      Multiset.Rel Alike models models' := by
  have hsorted : ∀ ms : List Value, (sortModels ms).map Json.canonical =
      (ms.map Json.canonical).mergeSort (· ≤ ·) := by
    intro ms
    apply List.map_mergeSort
    exact fun _ _ _ _ => rfl
  have hkeyed : ∀ v ∈ sortModels models, v.Keyed := fun v hv =>
    h v ((List.mergeSort_perm models _).mem_iff.mp hv)
  rw [forall₂_alike_iff hkeyed, hsorted, hsorted, mergeSort_eq_iff, rel_alike_iff h]

/-! ### Scripts -/

/-- Sorting loses no script and adds none. -/
theorem sortScripts_perm (scripts : List Script) : (sortScripts scripts).Perm scripts :=
  List.mergeSort_perm scripts _

/-- **Scripts in order** are the same iff the scripts are, in any order. -/
theorem sortScripts_eq_iff (h : (scripts.map Script.identifier).Nodup) :
    sortScripts scripts = sortScripts scripts' ↔ scripts.Perm scripts' := by
  constructor
  · intro hsame
    exact (sortScripts_perm scripts).symm.trans (hsame ▸ sortScripts_perm scripts')
  · exact mergeSort_key_eq_of_perm h

theorem Language.name_injective : Function.Injective Language.name := by
  intro l l' h
  cases l <;> cases l' <;> simp_all [Language.name]

/-- The kind of a template is known by its name. -/
theorem kindName_injective : Function.Injective TemplateKind.name := by
  intro k k' h
  cases k <;> cases k' <;> simp_all [TemplateKind.name]

/-- The serialized form of a script loses nothing. -/
theorem toValue_alike_iff {s t : Script} : Alike s.toValue t.toValue ↔ s = t := by
  rw [Script.toValue, Script.toValue, alike_object_iff (by simp [Table.names]) (by rfl)]
  simp only [alikeFields_cons_iff, alike_text_iff, alikeFields_nil, and_true,
    Language.name_injective.eq_iff]
  cases s
  cases t
  simp

/-- Nor does that of a list of scripts. -/
theorem scripts_alike_iff :
    List.Forall₂ Alike (scripts.map Script.toValue) (scripts'.map Script.toValue) ↔
      scripts = scripts' := by
  rw [List.forall₂_map_left_iff, List.forall₂_map_right_iff]
  simp only [toValue_alike_iff, List.forall₂_eq_eq_eq]

/-- The scripts of contents, or that they were left out. -/
theorem logic_alike_iff (h : ∀ ss ∈ logic, (ss.map Script.identifier).Nodup) :
    Alike (.ofOption (logic.map fun ss => .list ((sortScripts ss).map Script.toValue)))
        (.ofOption (logic'.map fun ss => .list ((sortScripts ss).map Script.toValue))) ↔
      Option.Rel List.Perm logic logic' := by
  cases logic with
  | none =>
    cases logic' with
    | none => exact iff_of_true .null .none
    | some ss' => exact iff_of_false nofun nofun
  | some ss =>
    cases logic' with
    | none => exact iff_of_false nofun nofun
    | some ss' =>
      have hsame : Alike (.list ((sortScripts ss).map Script.toValue))
          (.list ((sortScripts ss').map Script.toValue)) ↔ ss.Perm ss' := by
        rw [alike_list_iff, scripts_alike_iff, sortScripts_eq_iff (h ss rfl)]
      refine hsame.trans ⟨.some, ?_⟩
      rintro ⟨hperm⟩
      exact hperm

/-! ### Metadata -/

/-- Metadata that differ in nothing but the order of keys, and that of samples. -/
structure Metadata.Alike (m m' : Metadata) : Prop where
  name : m.info.name = m'.info.name
  version : m.info.version = m'.info.version
  description : m.info.description = m'.info.description
  keywords : List.Forall₂ Value.Alike m.info.keywords m'.info.keywords
  kind : m.info.profile.kind = m'.info.profile.kind
  runtime : m.info.profile.runtime = m'.info.profile.runtime
  readme : m.readme = m'.readme
  samples : m.samples.Perm m'.samples
  request : Value.Alike (.ofOption m.request) (.ofOption m'.request)
  response : Value.Alike (.ofOption m.response) (.ofOption m'.response)

/-- Metadata in which each key occurs once. -/
structure Metadata.Keyed (m : Metadata) : Prop where
  keywords : ∀ v ∈ m.info.keywords, v.Keyed
  samples : m.samples.names.Nodup
  request : (Value.ofOption m.request).Keyed
  response : (Value.ofOption m.response).Keyed

theorem eq_of_alike_texts {samples : Table String} {gs : List (String × Value)}
    (h : AlikeFields (samples.map fun e => (e.1, .text e.2)) gs) :
    samples.map (fun e => (e.1, .text e.2)) = gs := by
  induction samples generalizing gs with
  | nil =>
    cases h
    rfl
  | cons e samples ih =>
    cases h with
    | cons key first rest =>
      cases first
      rw [List.map_cons, ih rest]

/-- Samples are alike in their serialized form up to their order only. -/
theorem samples_alike_iff {samples samples' : Table String} :
    Value.Alike (samplesValue samples) (samplesValue samples') ↔ samples.Perm samples' := by
  have hinjective : Function.Injective fun e : String × String => (e.1, Value.text e.2) := by
    intro e f h
    simp only [Prod.mk.injEq, Value.text.injEq] at h
    exact Prod.ext h.1 h.2
  rw [← List.map_perm_map_iff hinjective]
  constructor
  · intro h
    cases h with
    | object fields order => exact eq_of_alike_texts fields ▸ order
  · exact fun h => .object (AlikeFields.refl _) h

/-- The serialized form of the metadata loses no more than `Alike` says. -/
theorem metadata_alike_iff : Value.Alike m.contents m'.contents ↔ m.Alike m' := by
  rw [Metadata.contents, Metadata.contents, alike_object_iff (by simp [Table.names]) (by rfl)]
  simp only [alikeFields_cons_iff, alike_text_iff, alikeFields_nil, and_true, alike_ofText_iff,
    alike_list_iff, samples_alike_iff, kindName_injective.eq_iff,
    (Option.map_injective Language.name_injective).eq_iff]
  constructor
  · rintro ⟨h₁, h₂, h₃, h₄, h₅, h₆, h₇, h₈, h₉, h₁₀⟩
    exact ⟨h₁, h₂, h₃, h₄, h₅, h₆, h₇, h₈, h₉, h₁₀⟩
  · rintro ⟨h₁, h₂, h₃, h₄, h₅, h₆, h₇, h₈, h₉, h₁₀⟩
    exact ⟨h₁, h₂, h₃, h₄, h₅, h₆, h₇, h₈, h₉, h₁₀⟩

/-! ### Contents -/

/-- **Contents** are alike iff models, markup, scripts and metadata are. -/
theorem contents_alike_iff (hmodels : ∀ v ∈ models, v.Keyed)
    (hlogic : ∀ ss ∈ logic, (ss.map Script.identifier).Nodup) :
    Value.Alike (contents models markup logic m) (contents models' markup' logic' m') ↔
      Multiset.Rel Value.Alike models models' ∧ markup = markup' ∧
        Option.Rel List.Perm logic logic' ∧ m.Alike m' := by
  rw [contents, contents, alike_object_iff (by simp [Table.names]) (by rfl)]
  simp only [alikeFields_cons_iff, alikeFields_nil, and_true, alike_ofText_iff, alike_bool_iff,
    alike_list_iff, sortModels_alike_iff hmodels, logic_alike_iff hlogic, metadata_alike_iff]
  have homitted : Option.Rel List.Perm logic logic' → logic.isNone = logic'.isNone := by
    rintro (_ | _) <;> rfl
  constructor
  · rintro ⟨h₁, h₂, h₃, -, h₄⟩
    exact ⟨h₁, h₂, h₃, h₄⟩
  · rintro ⟨h₁, h₂, h₃, h₄⟩
    exact ⟨h₁, h₂, h₃, homitted h₃, h₄⟩

theorem keyed_samplesValue {samples : Table String} (h : samples.names.Nodup) :
    (samplesValue samples).Keyed := by
  rw [samplesValue, Keyed]
  refine ⟨by rwa [Table.names, List.map_map], keyedFields_iff.mpr ?_⟩
  intro e he
  obtain ⟨sample, -, rfl⟩ := List.mem_map.mp he
  simp [Keyed]

theorem keyed_ofText (s : Option String) : (Value.ofText? s).Keyed := by
  cases s <;> simp [Value.ofText?, Keyed]

/-- The serialized metadata has no key twice. -/
theorem keyed_metadata (hm : m.Keyed) : m.contents.Keyed := by
  rw [Metadata.contents, Keyed]
  refine ⟨by simp [Table.names], ?_⟩
  simp only [KeyedFields, and_true]
  simp [Keyed, keyedItems_iff.mpr hm.keywords, keyed_ofText, keyed_samplesValue hm.samples, hm.request,
    hm.response]

/-- The serialized scripts have no key twice. -/
theorem keyed_scripts (logic : Option (List Script)) :
    (Value.ofOption (logic.map fun ss => .list ((sortScripts ss).map Script.toValue))).Keyed := by
  cases logic with
  | none => simp [Value.ofOption, Keyed]
  | some ss =>
    rw [Option.map_some, Value.ofOption, Keyed, keyedItems_iff]
    intro v hv
    obtain ⟨s, -, rfl⟩ := List.mem_map.mp hv
    simp [Script.toValue, Keyed, KeyedFields, Table.names]

/-- **Contents** have each key once if models and metadata do. -/
theorem keyed_contents (hmodels : ∀ v ∈ models, v.Keyed) (hm : m.Keyed) :
    (contents models markup logic m).Keyed := by
  have hsorted : KeyedItems (sortModels models) := keyedItems_iff.mpr fun v hv =>
    hmodels v ((List.mergeSort_perm models _).mem_iff.mp hv)
  rw [contents, Keyed]
  refine ⟨by simp [Table.names], ?_⟩
  simp only [KeyedFields, and_true]
  exact ⟨by simpa [Keyed] using hsorted, keyed_ofText markup, keyed_scripts logic, by simp [Keyed],
    keyed_metadata hm⟩

/-- **The digested texts** are the same iff models, markup, scripts and metadata are. -/
theorem canonical_contents_iff (hmodels : ∀ v ∈ models, v.Keyed)
    (hlogic : ∀ ss ∈ logic, (ss.map Script.identifier).Nodup) (hm : m.Keyed) :
    Json.canonical (contents models markup logic m) =
        Json.canonical (contents models' markup' logic' m') ↔
      Multiset.Rel Value.Alike models models' ∧ markup = markup' ∧
        Option.Rel List.Perm logic logic' ∧ m.Alike m' := by
  rw [Json.canonical_eq_iff (keyed_contents hmodels hm), contents_alike_iff hmodels hlogic]

/-- Models and scripts that are the same in any order do not change what is digested. -/
theorem canonical_contents_perm (hmodels : ∀ v ∈ models, v.Keyed)
    (hlogic : ∀ ss ∈ logic, (ss.map Script.identifier).Nodup) (hm : m.Keyed)
    (hperm : models.Perm models') (hsame : Option.Rel List.Perm logic logic') :
    Json.canonical (contents models markup logic m) =
      Json.canonical (contents models' markup logic' m) := by
  have hrefl : m.Alike m :=
    ⟨rfl, rfl, rfl, List.forall₂_same.mpr fun v _ => Alike.refl v, rfl, rfl, rfl, List.Perm.refl _,
      Alike.refl _, Alike.refl _⟩
  rw [canonical_contents_iff hmodels hlogic hm]
  refine ⟨?_, rfl, hsame, hrefl⟩
  rw [← Multiset.coe_eq_coe.mpr hperm]
  exact Multiset.rel_refl_of_refl_on fun v _ => Alike.refl v

/-- **The identity of a template sees all of its contents and nothing else.** Values have the same
canonical text iff they differ in nothing but the order of keys. What is digested of two templates
is the same iff the models are the same values in any order, the markup is the same, the scripts
were left out of both or are the same in any order, and the metadata are the same; so the order of
models and of scripts does not matter. A value that is read has each key once, scripts have
different paths, and it is enough that one side is of this kind. -/
theorem identity_spec :
    (∀ v w : Value, v.Keyed → (Json.canonical v = Json.canonical w ↔ v.Alike w)) ∧
      ∀ (models models' : List Value) (markup markup' : Option String)
        (logic logic' : Option (List Script)) (m m' : Metadata), (∀ v ∈ models, v.Keyed) →
        (∀ ss ∈ logic, (ss.map Script.identifier).Nodup) → m.Keyed →
        (Json.canonical (contents models markup logic m) =
            Json.canonical (contents models' markup' logic' m') ↔
          Multiset.Rel Value.Alike models models' ∧ markup = markup' ∧
            Option.Rel List.Perm logic logic' ∧ m.Alike m') ∧
        (models.Perm models' → Option.Rel List.Perm logic logic' →
          Json.canonical (contents models markup logic m) =
            Json.canonical (contents models' markup logic' m)) :=
  ⟨fun _ _ hv => Json.canonical_eq_iff hv, fun _ _ _ _ _ _ _ _ hmodels hlogic hm =>
    ⟨canonical_contents_iff hmodels hlogic hm, canonical_contents_perm hmodels hlogic hm⟩⟩

/-! ### Two packages that differ in order -/

namespace Shuffled

def model : Value := .object [("namespace", .text "shuffled"), ("declarations", .list [])]

/-- The same model with its keys in the other order. -/
def turned : Value := .object [("declarations", .list []), ("namespace", .text "shuffled")]

def first : Script := ⟨"logic/first.js", .javascript, "1"⟩

def second : Script := ⟨"logic/second.js", .javascript, "2"⟩

def metadata (readme : Option String) : Metadata :=
  { info := { name := "shuffled", version := "1.0.0" }, readme := readme }

theorem keyed_model : model.Keyed := by
  simp [model, Value.Keyed, Value.KeyedFields, Value.KeyedItems, Table.names]

theorem keyed_metadata (readme : Option String) : (metadata readme).Keyed := by
  refine ⟨nofun, List.nodup_nil, ?_, ?_⟩ <;> simp [metadata, Value.ofOption, Value.Keyed]

theorem model_turned : model.Alike turned :=
  .object (Value.AlikeFields.refl _) (List.Perm.swap _ _ _)

theorem nodup_scripts :
    ∀ ss ∈ some [first, second], (ss.map Script.identifier).Nodup := by
  simp [first, second]

/-- A readme is seen; the order of keys and that of scripts are not. -/
theorem identity_shuffled :
    Json.canonical model = Json.canonical turned ∧
      Json.canonical (contents [model] none (some [first, second]) (metadata none)) =
        Json.canonical (contents [model] none (some [second, first]) (metadata none)) ∧
      Json.canonical (contents [model] none (some [first, second]) (metadata none)) ≠
        Json.canonical (contents [turned] none (some [second, first]) (metadata (some "Read me."))) := by
  have hmodels : ∀ v ∈ [model], v.Keyed := by simpa using keyed_model
  refine ⟨(identity_spec.1 _ _ keyed_model).mpr model_turned, ?_, ?_⟩
  · exact (identity_spec.2 _ [model] none none _ _ _ (metadata none) hmodels nodup_scripts
      (keyed_metadata none)).2 (List.Perm.refl _) (.some (List.Perm.swap _ _ _))
  · intro h
    have hsame := (identity_spec.2 _ _ _ _ _ _ _ _ hmodels nodup_scripts (keyed_metadata none)).1.mp h
    exact absurd hsame.2.2.2.readme (by simp [metadata])

end Shuffled

end Package

end Covenant
