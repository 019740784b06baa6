import Covenant.Document.Rendering
import Covenant.Proofs.Document.Drafted
import Covenant.Proofs.Schema.Values
import Covenant.Proofs.Value.Reading

/-!
Bound texts without their quotes.

* `Drafter.bareDraft`: the draft in which single texts stand as they are, and all else as it is
  written.
* `Drafter.Shown.Quoted`: a text is shown as something in quotes.
* `Drafter.unquote_draft`: to leave out the quotes of a draft gives this one just where no other
  value is shown in quotes: a date, an amount or an enumeration value whose format or spelling puts
  it in quotes is taken for a literal.
-/

namespace Covenant

namespace Document

def InQuotes (s : String) : Prop :=
  2 ≤ s.toList.length ∧ s.toList.head? = some '"' ∧ s.toList.getLast? = some '"'

instance (s : String) : Decidable (InQuotes s) :=
  inferInstanceAs (Decidable (_ ∧ _))

variable {s : String} {v : Value}

/-- **What is read from a text in quotes** is a shorter text. -/
theorem exists_of_read_quotes (hs : InQuotes s) (h : Json.read s = .ok v) :
    ∃ t, v = .text t ∧ t.toList.length < s.toList.length := by
  obtain ⟨cs, hcs⟩ := List.head?_eq_some_iff.mp hs.2.1
  have hchars : Json.readChars ('"' :: cs) = .ok v := by
    rw [Json.read, hcs] at h
    cases hread : Json.readChars ('"' :: cs) with
    | ok w =>
      rw [hread] at h
      exact congrArg Except.ok (Except.ok.inj h)
    | error e =>
      rw [hread] at h
      cases h
  cases hstring : Json.readString cs with
  | error e => cases (Json.readChars_quote_error hstring).symm.trans hchars
  | ok r =>
    obtain ⟨t, rest⟩ := r
    have hlength : t.toList.length < cs.length := by
      unfold Json.readString at hstring
      split at hstring
      · rename_i text rest' hdecode
        obtain ⟨rfl, -⟩ := Prod.mk.inj (Except.ok.inj hstring)
        have := JsonText.decode_progress hdecode
        rw [String.toList_ofList]
        omega
      · cases hstring
      · cases hstring
    refine ⟨t, ?_, by rw [hcs, List.length_cons]; omega⟩
    unfold Json.readChars at hchars
    split at hchars
    · rename_i hmark
      cases hmark
    · rw [Json.skip_quote] at hchars
      simp only [Json.readValue, hstring] at hchars
      obtain ⟨⟨w, rest'⟩, hw, hchars⟩ := Outcome.bind_eq_ok.mp hchars
      cases hw
      split at hchars
      · exact (Except.ok.inj hchars).symm
      · cases hchars

theorem unquotedText_variable : unquotedText .variable (some s) v =
    if v.text?.isSome = true ∧ InQuotes s then
      match Json.read s with
      | .ok w => .ok (some w.plain)
      | .error f => .fail (.json f)
    else .ok (some s) := by
  simp only [unquotedText, Option.getD_some, true_and]
  rfl

/-- **A text keeps its quotes** just if it has none, or shows no text. -/
theorem unquotedText_eq_self_iff :
    unquotedText .variable (some s) v = .ok (some s) ↔ ¬ (v.text?.isSome = true ∧ InQuotes s) := by
  rw [unquotedText_variable]
  split
  · rename_i h
    refine iff_of_false ?_ (not_not_intro h)
    cases hread : Json.read s with
    | error f => exact fun heq => nomatch heq
    | ok w =>
      obtain ⟨t, rfl, hlt⟩ := exists_of_read_quotes h.2 hread
      intro heq
      obtain rfl : t = s := Option.some.inj (Except.ok.inj heq)
      exact Nat.lt_irrefl _ hlt
  · rename_i h
    simp [h]

/-- A literal is put for the text that it tells. -/
theorem unquotedText_literal (t : String) :
    unquotedText .variable (some (JsonText.literal false t)) (.text t) = .ok (some t) := by
  have hquotes : InQuotes (JsonText.literal false t) := by
    have hlast : ('"' :: JsonText.encode false t.toList ++ ['"']).getLast? = some '"' :=
      List.getLast?_concat
    refine ⟨?_, ?_, ?_⟩
    · simp [JsonText.literal]
    · simp [JsonText.literal]
    · rw [JsonText.literal, String.toList_ofList, hlast]
  rw [unquotedText_variable, if_pos ⟨rfl, hquotes⟩, Json.read_literal]
  rfl

/-- To leave out the quotes of a whole document is to leave out those of its children. -/
theorem unquote_ofChildren (ds : List Document) :
    (ofChildren ds).unquote = (unquoteAll ds).map ofChildren := by
  have htext : unquotedText .document none .null = .ok none := rfl
  rw [ofChildren, unquote, htext]
  cases unquoteAll ds <;> rfl

end Document

namespace Drafter

open Document Markup

variable {c : Drafter} {nodes : List Node} {data : Value} {d : SchemaType}

/-- **The single text** that a value of a property is: that of a String, or of a reference. -/
def singleText? (p : Property) (v : Value) : Option String :=
  if p.array = false ∧ (p.relationship = true ∨ p.type = "String") then v.text? else none

/-- A value without quotes: a single text as it is, and any other value as it is written. -/
def bareValue (c : Drafter) (field : String) (format : Option String) : Layout := fun data d => do
  let p ← property d field
  let v ← entry data field
  let written ← c.catalog.writeProperty c.settings p v format
  return [.node .variable (some ((singleText? p v).getD written)) (some field) v
    [("type", .text p.type), ("format", .ofText? format)] []]

/-- **The draft without quotes**: single texts stand in it as they are. -/
def bareDraft (c : Drafter) (nodes : List Node) (data : Value) (type : SchemaType) :
    Outcome Document :=
  (level (c.membersBy c.bareValue nodes) data type).map ofChildren

def Shown.IsSingle (x : Shown) : Prop :=
  (singleText? x.property x.value).isSome = true

/-- What is shown is a text, and is written in quotes. -/
def Shown.Quoted (c : Drafter) (x : Shown) : Prop :=
  x.value.text?.isSome = true ∧ ∃ written,
    c.catalog.writeProperty c.settings x.property x.value x.format = .ok written ∧ InQuotes written

/-- **A single text is written** as its literal. -/
theorem written_of_single {p : Property} {v : Value} {format : Option String} {s written : String}
    (hs : singleText? p v = some s)
    (h : c.catalog.writeProperty c.settings p v format = .ok written) :
    v = .text s ∧ written = JsonText.literal false s := by
  unfold singleText? at hs
  split at hs
  · rename_i hp
    obtain ⟨harray, htype⟩ := hp
    cases v with
    | text t =>
      cases hs
      refine ⟨rfl, ?_⟩
      rw [Catalog.writeProperty_one harray rfl] at h
      unfold Writable.one at h
      split at h
      · exact (Except.ok.inj h).symm
      · rename_i hrelationship
        obtain htype : p.type = "String" := htype.resolve_left hrelationship
        cases format with
        | some f =>
          simp only [Catalog.writeFormatted, htype] at h
          cases h
        | none =>
          simp only [htype] at h
          rw [Catalog.writeAs_primitive (t := .string) rfl] at h
          exact (Except.ok.inj h).symm
    | _ => cases hs
  · cases hs

/-- Documents one after the other are left without their quotes one after the other. -/
theorem unquoteAll_cons_iff {d : Document} {ds es : List Document} :
    unquoteAll (d :: ds) = .ok es ↔
      ∃ e rest, d.unquote = .ok e ∧ unquoteAll ds = .ok rest ∧ es = e :: rest := by
  rw [unquoteAll, Outcome.cons_eq_ok]

theorem unquoteAll_append_iff {ds es ds' es' : List Document} (h : ds.length = es.length) :
    unquoteAll (ds ++ ds') = .ok (es ++ es') ↔ unquoteAll ds = .ok es ∧ unquoteAll ds' = .ok es' := by
  induction ds generalizing es with
  | nil =>
    obtain rfl := List.length_eq_zero_iff.mp h.symm
    exact (and_iff_right rfl).symm
  | cons d ds ih =>
    obtain ⟨e, es, rfl⟩ := List.exists_cons_of_length_eq_add_one h.symm
    have htail := @ih es (Nat.succ.inj h)
    simp only [List.cons_append, unquoteAll_cons_iff, List.cons.injEq]
    constructor
    · rintro ⟨e', rest, he, hrest, rfl, rfl⟩
      obtain ⟨hes, hes'⟩ := htail.mp hrest
      exact ⟨⟨e, es, he, hes, rfl, rfl⟩, hes'⟩
    · rintro ⟨⟨e', rest, he, hrest, rfl, rfl⟩, hes'⟩
      exact ⟨e, es ++ es', he, htail.mpr ⟨hrest, hes'⟩, rfl, rfl⟩

/-- A single node is left without quotes as its text and its children are. -/
theorem unquoteAll_node_iff {kind : DocumentKind} {text text' name : Option String} {value : Value}
    {attributes : Table Value} {children children' : List Document} :
    unquoteAll [.node kind text name value attributes children] =
        .ok [.node kind text' name value attributes children'] ↔
      unquotedText kind text value = .ok text' ∧ unquoteAll children = .ok children' := by
  have hnil : unquoteAll [] = .ok [] := rfl
  simp only [unquoteAll_cons_iff, hnil, unquote, Outcome.bind_eq_ok, pure, Except.pure,
    Except.ok.injEq, List.cons.injEq]
  constructor
  · rintro ⟨e, rest, ⟨text'', htext, children'', hchildren, rfl⟩, rfl, heq, -⟩
    cases heq
    exact ⟨htext, hchildren⟩
  · rintro ⟨htext, hchildren⟩
    exact ⟨_, [], ⟨text', htext, children', hchildren, rfl⟩, rfl, rfl, rfl⟩

/-- To leave out quotes goes through documents, and touches bound values only. -/
theorem congruent_unquote : Congruent fun ds es => unquoteAll ds = .ok es where
  nil := rfl
  append h := unquoteAll_append_iff h
  leaf _ hkind _ _ _ _ := unquoteAll_node_iff.mpr ⟨if_neg fun h => hkind h.1, rfl⟩
  inner hleaf _ _ _ := by
    rw [unquoteAll_node_iff]
    exact and_iff_right (if_neg fun h => nomatch h.2.1)

/-- **A value is laid out without quotes** as its text is, once its quotes are left out. -/
theorem bareValue_follows : ValuesFollow (fun ds es => unquoteAll ds = .ok es)
    (fun x => x.IsSingle ∨ ¬ x.Quoted c) c.boundValue c.bareValue := by
  intro field format data d docs hdocs
  obtain ⟨p, hp, hdocs⟩ := Outcome.bind_eq_ok.mp hdocs
  obtain ⟨v, hv, hdocs⟩ := Outcome.bind_eq_ok.mp hdocs
  obtain ⟨written, hwritten, hdocs⟩ := Outcome.bind_eq_ok.mp hdocs
  cases hdocs
  refine ⟨_, Outcome.bind_eq_ok.mpr ⟨p, hp, Outcome.bind_eq_ok.mpr ⟨v, hv,
    Outcome.bind_eq_ok.mpr ⟨written, hwritten, rfl⟩⟩⟩, rfl, ?_⟩
  have honly : (∀ x, Binds data d field format x → x.IsSingle ∨ ¬ x.Quoted c) ↔
      (singleText? p v).isSome = true ∨ ¬ (v.text?.isSome = true ∧ InQuotes written) := by
    constructor
    · intro h
      refine (h ⟨p, v, format⟩ ⟨hp, hv, rfl⟩).imp_right fun hnot hquoted => hnot ?_
      exact ⟨hquoted.1, written, hwritten, hquoted.2⟩
    · rintro h ⟨p', v', format'⟩ ⟨hp', hv', rfl⟩
      cases hp.symm.trans hp'
      cases hv.symm.trans hv'
      refine h.imp_right fun hnot hquoted => hnot ?_
      obtain ⟨htext, written', hwritten', hquotes⟩ := hquoted
      cases hwritten.symm.trans hwritten'
      exact ⟨htext, hquotes⟩
  rw [honly]
  refine unquoteAll_node_iff.trans ((and_iff_left rfl).trans ?_)
  cases hsingle : singleText? p v with
  | some s =>
    obtain ⟨rfl, rfl⟩ := written_of_single hsingle hwritten
    exact iff_of_true (unquotedText_literal s) (.inl rfl)
  | none =>
    rw [Option.getD_none, unquotedText_eq_self_iff]
    exact (or_iff_right (by simp)).symm

/-- **To leave out the quotes of a draft** succeeds and gives the draft without quotes, just where
no value but a single text is shown in quotes. -/
theorem unquote_draft {doc : Document} (h : c.draft nodes data d = .ok doc) :
    (∃ bare, doc.unquote = .ok bare ∧ c.bareDraft nodes data d = .ok bare) ↔
      ∀ x, c.Shows nodes data d x → x.IsSingle ∨ ¬ x.Quoted c := by
  obtain ⟨ds, hds, rfl⟩ := Outcome.map_eq_ok.mp h
  rw [← membersBy_boundValue] at hds
  obtain ⟨es, hes, -, hrel⟩ := congruent_unquote.level_follows bareValue_follows nodes data d ds hds
  rw [← hrel, bareDraft, hes, unquote_ofChildren]
  constructor
  · rintro ⟨bare, hbare, heq⟩
    obtain ⟨es', hes', rfl⟩ := Outcome.map_eq_ok.mp hbare
    cases heq
    exact hes'
  · intro hds
    exact ⟨ofChildren es, Outcome.map_eq_ok.mpr ⟨es, hds, rfl⟩, rfl⟩

end Drafter

namespace Letter

open Document Drafter

/-- Who writes, and the year. -/
def yearNodes : List Markup.Node :=
  [.binding "by" none ⟨1, 3⟩, .text ", " false ⟨1, 7⟩, .formatted "on" "YYYY" ⟨1, 11⟩]

/-- A name is left without its quotes, and a year as it is. -/
theorem unquote_draft_letter : ∃ doc bare, drafter.draft yearNodes data letter = .ok doc ∧
    doc.write = "\"Ann\", 2024" ∧ doc.unquote = .ok bare ∧
      drafter.bareDraft yearNodes data letter = .ok bare ∧ bare.write = "Ann, 2024" := by
  have htest : ((drafter.draft yearNodes data letter).toOption.any fun doc =>
      doc.write == "\"Ann\", 2024") = true := by
    decide +kernel
  have hbare : ((drafter.bareDraft yearNodes data letter).toOption.any fun bare =>
      bare.write == "Ann, 2024") = true := by
    decide +kernel
  have hyear : ((drafter.catalog.writeProperty drafter.settings
      { name := "on", typeName := "DateTime", type := "DateTime" } (.text "2024-05-01T00:00:00.000Z")
        (some "YYYY")).toOption.any fun written => decide (¬ InQuotes written)) = true := by
    decide +kernel
  obtain ⟨doc, hdoc, hwritten⟩ := Outcome.exists_of_any htest
  obtain ⟨bare, hbare, hwritten'⟩ := Outcome.exists_of_any hbare
  have hshown : ∀ x, drafter.Shows yearNodes data letter x → x.IsSingle ∨ ¬ x.Quoted drafter := by
    rintro ⟨p, v, format⟩ hx
    obtain ⟨n, hn, hx⟩ := shows_iff.mp hx
    simp only [yearNodes, List.mem_cons, List.not_mem_nil, or_false] at hn
    rcases hn with rfl | rfl | rfl
    · obtain ⟨hp, hv, -⟩ := shows_binding_iff.mp hx
      cases hp
      cases hv
      exact .inl rfl
    · exact absurd hx not_shows_text
    · obtain ⟨hp, hv, rfl⟩ := shows_formatted_iff.mp hx
      cases hp
      cases hv
      obtain ⟨written, hwritten, hplain⟩ := Outcome.exists_of_any hyear
      refine .inr ?_
      rintro ⟨-, written', hwritten', hquotes⟩
      cases hwritten.symm.trans hwritten'
      exact of_decide_eq_true hplain hquotes
  obtain ⟨bare', hunquote, hbare'⟩ := (unquote_draft hdoc).mpr hshown
  cases hbare.symm.trans hbare'
  exact ⟨doc, bare, hdoc, eq_of_beq hwritten, hunquote, hbare, eq_of_beq hwritten'⟩

/-- A date whose format puts its day and its year in quotes. -/
def quotedNodes : List Markup.Node :=
  [.formatted "on" "[\"]D[\"] MMMM [\"]YYYY[\"]" ⟨1, 3⟩]

/-- **A date is taken for a literal**, and the quotes of the draft cannot be left out. -/
theorem not_unquoted_date : ∃ doc f, drafter.draft quotedNodes data letter = .ok doc ∧
    doc.write = "\"1\" May \"2024\"" ∧ doc.unquote = .error f := by
  have htest : ((drafter.draft quotedNodes data letter).toOption.any fun doc =>
      doc.write == "\"1\" May \"2024\"" && !doc.unquote.isOk) = true := by
    decide +kernel
  obtain ⟨doc, hdoc, htest⟩ := Outcome.exists_of_any htest
  obtain ⟨hwritten, hfails⟩ := Bool.and_eq_true_iff.mp htest
  cases hunquote : doc.unquote with
  | ok bare =>
    rw [hunquote] at hfails
    cases hfails
  | error f => exact ⟨doc, f, hdoc, eq_of_beq hwritten, hunquote⟩

end Letter

end Covenant
