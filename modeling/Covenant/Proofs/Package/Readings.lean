import Covenant.Package.Metadata
import Covenant.Proofs.Value.Shape

/-!
Metadata that is read back.

* `Shape.items_text`, `Shape.entries_text`: lists and tables of texts are read as they are.
* `Package.Info.read_toValue`: a description is read back from its value.
* `Package.Metadata.read_partsValue_iff`: when the parts of a package make up metadata, and
  which.
-/

namespace Covenant

namespace Shape

/-! ### Texts -/

theorem itemsFrom_text (texts : List String) (i : Nat) :
    itemsFrom text i (texts.map Value.text) = .ok texts := by
  induction texts generalizing i with
  | nil => rfl
  | cons t texts ih =>
    rw [List.map_cons, itemsFrom, ih]
    rfl

/-- A list of texts is read as it is. -/
theorem items_text (texts : List String) : items text (.list (texts.map Value.text)) = .ok texts :=
  itemsFrom_text texts 0

/-- A table of texts is read as it is. -/
theorem entries_text (t : Table String) :
    entries text (.object (t.map fun e => (e.1, Value.text e.2))) = .ok t := by
  induction t with
  | nil => rfl
  | cons e t ih =>
    rw [List.map_cons, entries, entriesOf]
    rw [entries] at ih
    rw [ih]
    rfl

/-! ### Values that may be missing -/

theorem orNull_text (t : Option String) : orNull text (.ofText? t) = .ok t := by
  cases t <;> rfl

/-- A value that is there, and is not null. -/
def present : Option Value → Option Value
  | some v => if v.isNull then none else some v
  | none => none

/-- A value that is an object, or null, or missing. -/
def MaybeObject (v : Option Value) : Prop :=
  ∀ w, v = some w → w.isNull = true ∨ w.isObject = true

theorem orNull_dictionary_iff {v w : Option Value} :
    orNull dictionary (.ofOption v) = .ok w ↔ MaybeObject v ∧ w = present v := by
  cases v with
  | none =>
    refine ⟨fun h => ⟨fun _ h => (nomatch h), (Except.ok.inj h).symm⟩, ?_⟩
    rintro ⟨_, rfl⟩
    rfl
  | some v =>
    cases v with
    | null =>
      refine ⟨fun h => ⟨fun _ h => .inl (by cases h; rfl), (Except.ok.inj h).symm⟩, ?_⟩
      rintro ⟨_, rfl⟩
      rfl
    | object fs =>
      refine ⟨fun h => ⟨fun _ h => .inr (by cases h; rfl), (Except.ok.inj h).symm⟩, ?_⟩
      rintro ⟨_, rfl⟩
      rfl
    | _ =>
      refine iff_of_false (fun h => by cases h) fun h => ?_
      rcases h.1 _ rfl with h | h <;> cases h

theorem present_present (v : Option Value) : present (present v) = present v := by
  cases v with
  | none => rfl
  | some v => cases hnull : v.isNull <;> simp [present, hnull]

theorem maybeObject_present {v : Option Value} (h : MaybeObject v) : MaybeObject (present v) := by
  cases v with
  | none => exact h
  | some v => cases hnull : v.isNull <;> simp_all [present, MaybeObject]

end Shape

namespace Package

open Shape

/-! ### Descriptions -/

theorem Profile.read_toValue (p : Profile) : Profile.read p.toValue = .ok p := by
  obtain ⟨kind, runtime, logicOmitted⟩ := p
  cases kind <;> cases runtime <;> cases logicOmitted <;> first | rfl | (rename_i l; cases l <;> rfl)

/-- A description that can be read: it has a name, a version and texts as keywords. -/
structure Info.Valid (i : Info) : Prop where
  name : (Text.strip i.name).isEmpty = false
  version : (Text.strip i.version).isEmpty = false
  keywords : ∃ texts : List String, i.keywords = texts.map Value.text

theorem nonblank_eq_ok {v : Value} {s : String} :
    nonblank v = .ok s ↔ v = .text s ∧ (Text.strip s).isEmpty = false := by
  rw [nonblank, refuse_eq_ok]
  cases v with
  | text t =>
    simp only [text, Except.ok.injEq, Value.text.injEq]
    constructor
    · rintro ⟨rfl, h⟩
      exact ⟨rfl, by simpa using h⟩
    · rintro ⟨rfl, h⟩
      exact ⟨rfl, by simp [h]⟩
  | _ => simp [text, Checked.fail]

/-- What has been read can be read. -/
theorem Info.valid_of_read {v : Value} {i : Info} (h : Info.read v = .ok i) : i.Valid := by
  obtain ⟨fs, _, h⟩ := Outcome.bind_eq_ok.mp h
  obtain ⟨_, hparts₄, profile, _, rfl⟩ := join_eq_ok.mp h
  obtain ⟨_, hparts₃, keywords, hkeywords, rfl⟩ := join_eq_ok.mp hparts₄
  obtain ⟨_, hparts₂, description, _, rfl⟩ := join_eq_ok.mp hparts₃
  obtain ⟨_, hparts₁, version, hversion, rfl⟩ := join_eq_ok.mp hparts₂
  obtain ⟨_, hparts, name, hname, rfl⟩ := join_eq_ok.mp hparts₁
  cases hparts
  obtain ⟨_, _, hname⟩ := field_eq_ok hname
  obtain ⟨_, _, hversion⟩ := field_eq_ok hversion
  refine ⟨(nonblank_eq_ok.mp hname).2, (nonblank_eq_ok.mp hversion).2, ?_⟩
  rcases fieldOr_eq_ok hkeywords with rfl | ⟨v, hv⟩
  · exact ⟨[], rfl⟩
  · obtain ⟨texts, _, rfl⟩ := Outcome.map_eq_ok.mp hv
    exact ⟨texts, rfl⟩

/-- **A description is read back** from its value. -/
theorem Info.read_toValue {i : Info} (h : i.Valid) : Info.read i.toValue = .ok i := by
  obtain ⟨name, version, description, keywords, profile⟩ := i
  obtain ⟨hname, hversion, texts, rfl⟩ := h
  have hnameRead : nonblank (.text name) = .ok name := nonblank_eq_ok.mpr ⟨rfl, hname⟩
  have hversionRead : nonblank (.text version) = .ok version := nonblank_eq_ok.mpr ⟨rfl, hversion⟩
  have hkeywords : (items text (.list (texts.map Value.text))).map (List.map Value.text) =
      .ok (texts.map Value.text) := by
    rw [items_text]
    rfl
  simp [read, toValue, record, Except.bind, field, fieldOr, Table.find?, List.lookup, hnameRead,
    hversionRead, hkeywords, Profile.read_toValue, text, Checked.under, Checked.join,
    Except.mapError]

/-! ### Metadata -/

/-- The parts of a package are read one by one. -/
theorem Metadata.read_partsValue (package readme samples request response : Value) :
    Metadata.read (partsValue package readme samples request response) =
      Checked.join (Checked.join (Checked.join (Checked.join (Checked.join (.ok Metadata.mk)
        (Checked.under "package" (Info.read package)))
        (Checked.under "readme" (orNull text readme)))
        (Checked.under "samples" (readSamples samples)))
        (Checked.under "request" (orNull dictionary request)))
        (Checked.under "response" (orNull dictionary response)) := by
  simp [Metadata.read, partsValue, record, Except.bind, field, fieldOr, Table.find?, List.lookup]

/-- **The parts of a package make up metadata** if the samples are not refused and the request
and the response are objects or missing. -/
theorem Metadata.read_partsValue_iff {info : Info} (hinfo : info.Valid) {readme : Option String}
    {samples : Table String} {request response : Option Value} {m : Metadata} :
    Metadata.read (partsValue info.toValue (.ofText? readme) (samplesValue samples)
        (.ofOption request) (.ofOption response)) = .ok m ↔
      refuseSamples samples = none ∧ MaybeObject request ∧ MaybeObject response ∧
        m = ⟨info, readme, samples, present request, present response⟩ := by
  have hsamples : ∀ s, readSamples (samplesValue samples) = .ok s ↔
      refuseSamples samples = none ∧ s = samples := by
    intro s
    rw [readSamples, refuse_eq_ok, samplesValue, entries_text, Except.ok.injEq]
    constructor
    · rintro ⟨rfl, h⟩
      exact ⟨h, rfl⟩
    · rintro ⟨h, rfl⟩
      exact ⟨rfl, h⟩
  rw [read_partsValue, Info.read_toValue hinfo, orNull_text]
  constructor
  · intro h
    obtain ⟨_, hparts₂, response', hresponse, rfl⟩ := join_eq_ok.mp h
    obtain ⟨_, hparts₁, request', hrequest, rfl⟩ := join_eq_ok.mp hparts₂
    obtain ⟨_, hparts, samples', hsamples', rfl⟩ := join_eq_ok.mp hparts₁
    cases hparts
    obtain ⟨hrefused, rfl⟩ := (hsamples _).mp (under_eq_ok.mp hsamples')
    obtain ⟨hfirst, rfl⟩ := orNull_dictionary_iff.mp (under_eq_ok.mp hrequest)
    obtain ⟨hsecond, rfl⟩ := orNull_dictionary_iff.mp (under_eq_ok.mp hresponse)
    exact ⟨hrefused, hfirst, hsecond, rfl⟩
  · rintro ⟨hrefused, hrequest, hresponse, rfl⟩
    rw [(hsamples samples).mpr ⟨hrefused, rfl⟩, orNull_dictionary_iff.mpr ⟨hrequest, rfl⟩,
      orNull_dictionary_iff.mpr ⟨hresponse, rfl⟩]
    rfl

end Package

end Covenant
