import Covenant.Proofs.Decimal.Written
import Covenant.Proofs.Template.Packages
import Covenant.Proofs.Text.Literal

/-!
The canonical text of values.

* `Value.Alike`: values that differ in nothing but the order of the keys of objects. A whole
  number and a double are different values.
* `Value.Keyed`: every object has each key once, as in what is read.
* `Json.enclosed_readable`: entries between brackets are told apart if each of them is.
* `Json.chars_readable`: a canonical text is readable, wherever it stands.
* `Json.canonical_eq_iff`: values have the same canonical text iff they are alike.
-/

namespace Covenant

namespace Value

/-! ### Values alike -/

mutual

/-- Values that differ in nothing but the order of keys. -/
inductive Alike : Value → Value → Prop
  | null : Alike .null .null
  | bool (b : Bool) : Alike (.bool b) (.bool b)
  | int (n : Int) : Alike (.int n) (.int n)
  | double (x : Float) : Alike (.double x) (.double x)
  | text (s : String) : Alike (.text s) (.text s)
  | list {vs ws : List Value} (items : AlikeItems vs ws) : Alike (.list vs) (.list ws)
  | object {fs gs hs : List (String × Value)} (fields : AlikeFields fs hs) (order : hs.Perm gs) :
      Alike (.object fs) (.object gs)

/-- Items alike, one by one. -/
inductive AlikeItems : List Value → List Value → Prop
  | nil : AlikeItems [] []
  | cons {v w : Value} {vs ws : List Value} (first : Alike v w) (rest : AlikeItems vs ws) :
      AlikeItems (v :: vs) (w :: ws)

/-- Entries with the same keys and values alike, one by one. -/
inductive AlikeFields : List (String × Value) → List (String × Value) → Prop
  | nil : AlikeFields [] []
  | cons {v w : Value} {fs gs : List (String × Value)} (key : String) (first : Alike v w)
      (rest : AlikeFields fs gs) : AlikeFields ((key, v) :: fs) ((key, w) :: gs)

end

variable {v w : Value} {vs ws : List Value} {fs gs : List (String × Value)}

/-- Lists are alike item by item. -/
theorem alikeItems_iff : AlikeItems vs ws ↔ List.Forall₂ Alike vs ws := by
  induction vs generalizing ws with
  | nil =>
    refine ⟨fun h => ?_, fun h => ?_⟩
    · cases h
      exact .nil
    · cases h
      exact .nil
  | cons v vs ih =>
    refine ⟨fun h => ?_, fun h => ?_⟩
    · cases h with
      | cons first rest => exact .cons first (ih.mp rest)
    · cases h with
      | cons first rest => exact .cons first (ih.mpr rest)

/-- Fields are alike name by name and value by value. -/
theorem alikeFields_iff :
    AlikeFields fs gs ↔ List.Forall₂ (fun e f => e.1 = f.1 ∧ Alike e.2 f.2) fs gs := by
  induction fs generalizing gs with
  | nil =>
    refine ⟨fun h => ?_, fun h => ?_⟩
    · cases h
      exact .nil
    · cases h
      exact .nil
  | cons e fs ih =>
    refine ⟨fun h => ?_, fun h => ?_⟩
    · cases h with
      | cons key first rest => exact .cons ⟨rfl, first⟩ (ih.mp rest)
    · cases h with
      | @cons _ f _ gs first rest =>
        obtain ⟨key, v⟩ := e
        obtain ⟨key', w⟩ := f
        obtain ⟨rfl, first⟩ : key = key' ∧ Alike v w := first
        exact .cons key first (ih.mpr rest)

/-- Alike fields have the same names in the same order. -/
theorem AlikeFields.names (h : AlikeFields fs gs) : Table.names fs = Table.names gs := by
  induction fs generalizing gs with
  | nil =>
    cases h
    rfl
  | cons e fs ih =>
    cases h with
    | cons key first rest => exact congrArg (key :: ·) (ih rest)

mutual

/-- Every value is like itself. -/
theorem Alike.refl : (v : Value) → Alike v v
  | .null => .null
  | .bool b => .bool b
  | .int n => .int n
  | .double x => .double x
  | .text s => .text s
  | .list vs => .list (AlikeItems.refl vs)
  | .object fs => .object (AlikeFields.refl fs) (List.Perm.refl fs)

theorem AlikeItems.refl : (vs : List Value) → AlikeItems vs vs
  | [] => .nil
  | v :: vs => .cons (Alike.refl v) (AlikeItems.refl vs)

theorem AlikeFields.refl : (fs : List (String × Value)) → AlikeFields fs fs
  | [] => .nil
  | (key, v) :: fs => .cons key (Alike.refl v) (AlikeFields.refl fs)

end

/-! ### Each key once -/

mutual

/-- Whether every object in a value has each key once. -/
def Keyed : Value → Prop
  | .list vs => KeyedItems vs
  | .object fs => (Table.names fs).Nodup ∧ KeyedFields fs
  | _ => True

/-- Whether the objects in items have each key once. -/
def KeyedItems : List Value → Prop
  | [] => True
  | v :: vs => v.Keyed ∧ KeyedItems vs

/-- Whether the objects in the values of entries have each key once. -/
def KeyedFields : List (String × Value) → Prop
  | [] => True
  | (_, v) :: fs => v.Keyed ∧ KeyedFields fs

end

theorem keyedItems_iff : KeyedItems vs ↔ ∀ v ∈ vs, v.Keyed := by
  induction vs with
  | nil => simp [KeyedItems]
  | cons v vs ih => rw [KeyedItems, ih, List.forall_mem_cons]

theorem keyedFields_iff : KeyedFields fs ↔ ∀ e ∈ fs, e.2.Keyed := by
  induction fs with
  | nil => simp [KeyedFields]
  | cons e fs ih => rw [KeyedFields, ih, List.forall_mem_cons]

end Value

namespace Json

open Value

def tight : Style :=
  { itemSeparator := ",", keySeparator := ":", ascii := false, sorted := true }

/-! ### Values alike are written alike -/

theorem writeItems_eq_map (st : Style) (depth : Nat) (vs : List Value) :
    st.writeItems depth vs = vs.map (st.write depth) := by
  induction vs with
  | nil => rw [Style.writeItems, List.map_nil]
  | cons v vs ih => rw [Style.writeItems, ih, List.map_cons]

mutual

/-- **Values alike are written alike.** -/
theorem write_of_alike {v w : Value} (hv : v.Keyed) (depth : Nat) :
    Alike v w → tight.write depth v = tight.write depth w
  | .null | .bool _ | .int _ | .double _ | .text _ => rfl
  | .list items => by
    rw [Style.write, Style.write, writeItems_of_alike (by simpa [Keyed] using hv) (depth + 1) items]
  | .object fields order => by
    rw [Keyed] at hv
    have hnames := fields.names ▸ hv.1
    rw [← write_object_perm rfl hnames order depth, Style.write, Style.write,
      writeFields_of_alike hv.2 (depth + 1) fields]

/-- Alike items are written alike, at every depth. -/
theorem writeItems_of_alike {vs ws : List Value} (hvs : KeyedItems vs) (depth : Nat) :
    AlikeItems vs ws → tight.writeItems depth vs = tight.writeItems depth ws
  | .nil => rfl
  | .cons first rest => by
    rw [KeyedItems] at hvs
    rw [Style.writeItems, Style.writeItems, write_of_alike hvs.1 depth first,
      writeItems_of_alike hvs.2 depth rest]

/-- Alike fields are written alike, at every depth. -/
theorem writeFields_of_alike {fs gs : List (String × Value)} (hfs : KeyedFields fs) (depth : Nat) :
    AlikeFields fs gs → tight.writeFields depth fs = tight.writeFields depth gs
  | .nil => rfl
  | .cons key first rest => by
    rw [KeyedFields] at hfs
    rw [Style.writeFields, Style.writeFields, write_of_alike hfs.1 depth first,
      writeFields_of_alike hfs.2 depth rest]

end

/-! ### Entries between brackets -/

/-- Where a value may end: at the end of the text, or before another entry or a closing
bracket. -/
def Ends (cs : List Char) : Prop :=
  ∀ c ∈ cs.head?, c = ',' ∨ c = ']' ∨ c = '\x7d'

theorem ends_nil : Ends [] := nofun

/-- Entries after others, and the closing bracket. -/
def more (closing : Char) : List (List Char) → List Char
  | [] => [closing]
  | e :: es => ',' :: (e ++ more closing es)

def enclosed (opening closing : Char) : List (List Char) → List Char
  | [] => [opening, closing]
  | e :: es => opening :: (e ++ more closing es)

/-- Behind an entry stands a comma or the closing bracket, and neither continues a word. -/
theorem ends_more {closing : Char} (h : closing = ']' ∨ closing = '\x7d') (es : List (List Char))
    (rest : List Char) : Ends (more closing es ++ rest) := by
  cases es <;> simp_all [more, Ends]

/-- The entries of a group, read from the left: the first one, then `more`. -/
theorem intercalate_append (closing : Char) (e : List Char) (es : List (List Char)) :
    [','].intercalate (e :: es) ++ [closing] = e ++ more closing es := by
  induction es generalizing e with
  | nil => simp [more, List.intercalate]
  | cons e' es ih =>
    rw [List.intercalate_cons_cons, List.append_assoc, List.append_assoc, ih, more]
    rfl

/-- A group without line breaks, as characters. -/
theorem toList_group (opening closing : Char) (depth : Nat) (entries : List String) :
    (tight.group (String.singleton opening) (String.singleton closing) depth entries).toList =
      enclosed opening closing (entries.map String.toList) := by
  unfold Style.group
  cases entries with
  | nil => simp [enclosed]
  | cons e es =>
    have hjoin := intercalate_append closing e.toList (es.map String.toList)
    simp [tight, Style.lineBreak, enclosed, String.toList_intercalate, ← hjoin]

section Enclosed

variable {α : Type} {text : α → List Char} {R : α → α → Prop}

/-- Texts that are told apart from others of their kind wherever they end: what begins with two
of them begins with related ones, and the rest is the same. -/
def Readable (text : α → List Char) (R : α → α → Prop) (x : α) : Prop :=
  ∀ y a b, Ends a → Ends b → text x ++ a = text y ++ b → R x y ∧ a = b

/-- The first entry is recovered from a text that begins with it: the next character cannot belong
to it. -/
theorem first_readable {closing : Char} (hclosing : closing = ']' ∨ closing = '\x7d') {x y : α}
    (hx : Readable text R x) {xs ys : List (List Char)} {a b : List Char}
    (h : text x ++ more closing xs ++ a = text y ++ more closing ys ++ b) :
    R x y ∧ more closing xs ++ a = more closing ys ++ b := by
  rw [List.append_assoc, List.append_assoc] at h
  exact hx y _ _ (ends_more hclosing xs a) (ends_more hclosing ys b) h

/-- The remaining entries are recovered one by one. -/
theorem more_readable {closing : Char} (hclosing : closing = ']' ∨ closing = '\x7d') {xs ys : List α}
    (hxs : ∀ x ∈ xs, Readable text R x) {a b : List Char}
    (h : more closing (xs.map text) ++ a = more closing (ys.map text) ++ b) :
    List.Forall₂ R xs ys ∧ a = b := by
  have hcomma : closing ≠ ',' := by rcases hclosing with rfl | rfl <;> decide
  induction xs generalizing ys with
  | nil =>
    cases ys with
    | nil => exact ⟨.nil, by simpa [more] using h⟩
    | cons y ys => exact absurd (List.cons.inj h).1 hcomma
  | cons x xs ih =>
    cases ys with
    | nil => exact absurd (List.cons.inj h).1.symm hcomma
    | cons y ys =>
      obtain ⟨hx, hxs⟩ := List.forall_mem_cons.mp hxs
      obtain ⟨hfirst, hrest⟩ := first_readable hclosing hx (List.cons.inj h).2
      exact (ih hxs hrest).imp_left (.cons hfirst)

/-- **Entries between brackets** are told apart if each of them is. -/
theorem enclosed_readable {opening closing : Char} (hclosing : closing = ']' ∨ closing = '\x7d')
    (htext : ∀ x, ∃ c cs, text x = c :: cs ∧ c ≠ closing) {xs ys : List α}
    (hxs : ∀ x ∈ xs, Readable text R x) {a b : List Char}
    (h : enclosed opening closing (xs.map text) ++ a =
      enclosed opening closing (ys.map text) ++ b) : List.Forall₂ R xs ys ∧ a = b := by
  cases xs with
  | nil =>
    cases ys with
    | nil => exact ⟨.nil, by simpa [enclosed] using h⟩
    | cons y ys =>
      obtain ⟨c, cs, hc, hne⟩ := htext y
      simp only [enclosed, List.map_cons, List.map_nil, hc, List.cons_append, List.cons.injEq] at h
      exact absurd h.2.1.symm hne
  | cons x xs =>
    cases ys with
    | nil =>
      obtain ⟨c, cs, hc, hne⟩ := htext x
      simp only [enclosed, List.map_cons, List.map_nil, hc, List.cons_append, List.cons.injEq] at h
      exact absurd h.2.1 hne
    | cons y ys =>
      obtain ⟨hx, hxs⟩ := List.forall_mem_cons.mp hxs
      obtain ⟨hfirst, hrest⟩ := first_readable hclosing hx (List.cons.inj h).2
      exact (more_readable hclosing hxs hrest).imp_left (.cons hfirst)

end Enclosed

/-! ### Values without parts -/

def chars (depth : Nat) (v : Value) : List Char :=
  (tight.write depth v).toList

/-- Whether a value is a number. -/
def isNumber : Value → Bool
  | .int _ | .double _ => true
  | _ => false

/-- Whether a value is written by a name. -/
def isNamed : Value → Bool
  | .null | .bool _ => true
  | _ => false

/-- The characters of words, none of which is found at the end of a value or at the start of
any other value. -/
def inWord (c : Char) : Bool :=
  !("[]\x7b\x7d\",".toList.contains c)

theorem inWord_of_inDouble {c : Char} (h : Decimal.inDouble c = true) : inWord c = true := by
  have hall : "[]\x7b\x7d\",".toList.all (fun c => !Decimal.inDouble c) = true := by decide
  rw [inWord, Bool.not_eq_true', ← Bool.not_eq_true]
  intro hc
  have := List.all_eq_true.mp hall c (List.contains_iff_mem.mp hc)
  simp [h] at this

/-- The characters of whole numbers. -/
theorem isDigit_or_of_mem_toString {n : Int} {c : Char} (hc : c ∈ (toString n).toList) :
    c.isDigit = true ∨ c = '-' := by
  cases n with
  | ofNat n =>
    rw [Text.toList_toString_ofNat] at hc
    exact .inl (Text.isDigit_of_mem_toDigits hc)
  | negSucc n =>
    rw [Text.toList_toString_negSucc] at hc
    rcases List.mem_cons.mp hc with rfl | hc
    · exact .inr rfl
    · exact .inl (Text.isDigit_of_mem_toDigits hc)

theorem inDouble_of_mem_toString {n : Int} {c : Char} (hc : c ∈ (toString n).toList) :
    Decimal.inDouble c = true := by
  rcases isDigit_or_of_mem_toString hc with hc | rfl
  · simp [Decimal.inDouble, Decimal.inNumeral, hc]
  · decide

/-- Numbers are written with the characters of a decimal number alone. -/
theorem inDouble_of_mem_number {v : Value} (hv : isNumber v = true) {depth : Nat} {c : Char}
    (hc : c ∈ chars depth v) : Decimal.inDouble c = true := by
  cases v with
  | int n =>
    rw [chars, Style.write] at hc
    exact inDouble_of_mem_toString hc
  | double x =>
    rw [chars, Style.write] at hc
    exact Decimal.inDouble_of_mem_write hc
  | _ => cases hv

/-- The named constants are words that have a letter no number is written with. -/
theorem named_spec {v : Value} (hv : isNamed v = true) (depth : Nat) :
    (∀ c ∈ chars depth v, inWord c = true) ∧ ∃ c ∈ chars depth v, Decimal.inDouble c = false := by
  have hname : ∀ cs : List Char, (cs.all inWord && cs.any fun c => !Decimal.inDouble c) = true →
      (∀ c ∈ cs, inWord c = true) ∧ ∃ c ∈ cs, Decimal.inDouble c = false := by
    intro cs hcs
    simpa using hcs
  refine hname _ ?_
  cases v with
  | null =>
    rw [chars, Style.write]
    decide
  | bool b =>
    cases b
    all_goals
      rw [chars, Style.write]
      decide
  | _ => cases hv

/-- Two integers written alike are one integer. -/
theorem toString_injective {m n : Int} (h : toString m = toString n) : m = n :=
  Int.repr_inj.mp h

/-- **Numbers that are written alike** are the same. -/
theorem eq_of_chars_number {v w : Value} (hv : isNumber v = true) (hw : isNumber w = true)
    {m n : Nat} (h : chars m v = chars n w) : v = w := by
  have hmark : ∀ (k : Int) (x : Float),
      (toString k).toList ≠ (Decimal.write "Infinity" "NaN" x).toList := by
    intro k x hsame
    obtain ⟨c, hc, hdigit, hminus⟩ := Decimal.exists_mark x
    rcases isDigit_or_of_mem_toString (hsame ▸ hc) with hc | hc
    · simp [hdigit] at hc
    · exact hminus hc
  cases v with
  | int k =>
    cases w with
    | int l =>
      rw [chars, chars, Style.write, Style.write, String.toList_inj] at h
      rw [toString_injective h]
    | double x =>
      rw [chars, chars, Style.write, Style.write] at h
      exact absurd h (hmark k x)
    | _ => cases hw
  | double x =>
    cases w with
    | int k =>
      rw [chars, chars, Style.write, Style.write] at h
      exact absurd h.symm (hmark k x)
    | double y =>
      rw [chars, chars, Style.write, Style.write, String.toList_inj] at h
      rw [Decimal.write_injective h]
    | _ => cases hw
  | _ => cases hv

/-- The named constants are told apart by their texts. -/
theorem eq_of_chars_named {v w : Value} (hv : isNamed v = true) (hw : isNamed w = true)
    {m n : Nat} (h : chars m v = chars n w) : v = w := by
  have hcases : ∀ u : Value, isNamed u = true → u = .null ∨ u = .bool true ∨ u = .bool false := by
    intro u hu
    cases u with
    | null => exact .inl rfl
    | bool b => cases b <;> simp
    | _ => cases hu
  rcases hcases v hv with rfl | rfl | rfl <;> rcases hcases w hw with rfl | rfl | rfl <;>
    simp [chars, Style.write] at h ⊢

/-- Words: the values that have no parts and are no texts. -/
def isWord (v : Value) : Bool :=
  isNumber v || isNamed v

/-- A word is written without quotes, brackets, commas and colons. -/
theorem inWord_of_mem_chars {v : Value} (hv : isWord v = true) {depth : Nat} {c : Char}
    (hc : c ∈ chars depth v) : inWord c = true := by
  rcases Bool.or_eq_true_iff.mp hv with hv | hv
  · exact inWord_of_inDouble (inDouble_of_mem_number hv hc)
  · exact (named_spec hv depth).1 c hc

/-- **Words that are written alike** are the same. -/
theorem eq_of_chars_word {v w : Value} (hv : isWord v = true) (hw : isWord w = true) {m n : Nat}
    (h : chars m v = chars n w) : v = w := by
  have hdifferent : ∀ {u u' : Value} {m n : Nat}, isNumber u = true → isNamed u' = true →
      chars m u ≠ chars n u' := by
    intro u u' m n hu hu' hsame
    obtain ⟨c, hc, hno⟩ := (named_spec hu' n).2
    cases hno.symm.trans (inDouble_of_mem_number hu (hsame ▸ hc))
  rcases Bool.or_eq_true_iff.mp hv with hv | hv <;> rcases Bool.or_eq_true_iff.mp hw with hw | hw
  · exact eq_of_chars_number hv hw h
  · exact absurd h (hdifferent hv hw)
  · exact absurd h.symm (hdifferent hw hv)
  · exact eq_of_chars_named hv hw h

/-- Text in front of the place where a value ends is the characters of words there. -/
theorem takeWhile_word {cs a : List Char} (hcs : ∀ c ∈ cs, inWord c = true) (ha : Ends a) :
    (cs ++ a).takeWhile inWord = cs := by
  rw [List.takeWhile_append_of_pos hcs]
  cases a with
  | nil => simp
  | cons c a =>
    have hc : inWord c = false := by
      rcases ha c rfl with rfl | rfl | rfl <;> decide
    rw [List.takeWhile_cons_of_neg (by simp [hc]), List.append_nil]

/-! ### Texts -/

theorem toList_literal_append (s : String) (rest : List Char) :
    (JsonText.literal false s).toList ++ rest =
      '"' :: (JsonText.encode false s.toList ++ '"' :: rest) := by
  simp [JsonText.literal]

/-- **Literals** are told apart wherever they stand. -/
theorem literal_readable {s t : String} {a b : List Char}
    (h : (JsonText.literal false s).toList ++ a = (JsonText.literal false t).toList ++ b) :
    s = t ∧ a = b := by
  rw [toList_literal_append, toList_literal_append] at h
  have hdecode := congrArg JsonText.decode (List.cons.inj h).2
  rw [JsonText.decode_encode, JsonText.decode_encode] at hdecode
  obtain ⟨hchars, hrest⟩ := Prod.mk.inj (Except.ok.inj hdecode)
  exact ⟨String.toList_injective hchars, hrest⟩

/-! ### Values -/

def entryChars (depth : Nat) (e : String × Value) : List Char :=
  (JsonText.literal false e.1).toList ++ ':' :: chars depth e.2

def byKey (fs : List (String × Value)) : List (String × Value) :=
  fs.mergeSort fun e f => e.1 ≤ f.1

/-- Sorting by key loses no field and adds none. -/
theorem byKey_perm (fs : List (String × Value)) : (byKey fs).Perm fs :=
  List.mergeSort_perm fs _

theorem chars_list (depth : Nat) (vs : List Value) :
    chars depth (.list vs) = enclosed '[' ']' (vs.map (chars (depth + 1))) := by
  rw [chars, Style.write, writeItems_eq_map]
  exact (toList_group '[' ']' depth _).trans (by rw [List.map_map]; rfl)

theorem chars_object (depth : Nat) (fs : List (String × Value)) :
    chars depth (.object fs) =
      enclosed '\x7b' '\x7d' ((byKey fs).map (entryChars (depth + 1))) := by
  have hsorted : sortFields (tight.writeFields (depth + 1) fs) =
      (byKey fs).map fun e => (e.1, tight.write (depth + 1) e.2) := by
    rw [writeFields_eq_map, sortFields, byKey]
    symm
    apply List.map_mergeSort
    exact fun _ _ _ _ => rfl
  rw [chars, Style.write]
  refine (toList_group '\x7b' '\x7d' depth _).trans ?_
  rw [if_pos (show tight.sorted = true from rfl), hsorted, List.map_map, List.map_map]
  refine congrArg (enclosed '\x7b' '\x7d') (List.map_congr_left fun e _ => ?_)
  simp [entryChars, chars, tight]

/-- The character that the text of a value with parts, or that of a text, begins with. -/
def opening? : Value → Option Char
  | .text _ => some '"'
  | .list _ => some '['
  | .object _ => some '\x7b'
  | _ => none

/-- No word is empty. -/
theorem chars_word_ne_nil {v : Value} (hv : isWord v = true) (depth : Nat) : chars depth v ≠ [] := by
  have hnamed : isNamed v = true → chars depth v ≠ [] := fun h =>
    let ⟨_, hc, _⟩ := (named_spec h depth).2
    List.ne_nil_of_mem hc
  cases v with
  | null | bool b => exact hnamed rfl
  | int n =>
    rw [chars, Style.write]
    cases n with
    | ofNat n =>
      rw [Text.toList_toString_ofNat]
      exact Nat.toDigits_ne_nil
    | negSucc n =>
      rw [Text.toList_toString_negSucc]
      exact List.cons_ne_nil _ _
  | double x =>
    rw [chars, Style.write]
    obtain ⟨c, hc, -⟩ := Decimal.exists_mark x
    exact List.ne_nil_of_mem hc
  | _ => cases hv

theorem exists_enclosed (opening closing : Char) (entries : List (List Char)) :
    ∃ cs, enclosed opening closing entries = opening :: cs := by
  cases entries <;> exact ⟨_, rfl⟩

theorem chars_text (depth : Nat) (s : String) :
    chars depth (.text s) = '"' :: (JsonText.encode false s.toList ++ ['"']) := by
  rw [chars, Style.write, ← toList_literal_append s [], List.append_nil]
  rfl

/-- A value is a word exactly if its text opens with no quote or bracket. -/
theorem isWord_iff {v : Value} : isWord v = true ↔ opening? v = none := by
  cases v <;> simp [isWord, isNumber, isNamed, opening?]

/-- **The first character** tells values apart that are no words. -/
theorem chars_head (depth : Nat) (v : Value) : ∃ c cs, chars depth v = c :: cs ∧
    (opening? v = some c ∧ inWord c = false ∨ opening? v = none ∧ inWord c = true) := by
  cases hopening : opening? v with
  | none =>
    have hv := isWord_iff.mpr hopening
    obtain ⟨c, cs, hcs⟩ := List.exists_cons_of_ne_nil (chars_word_ne_nil hv depth)
    exact ⟨c, cs, hcs, .inr ⟨rfl, inWord_of_mem_chars hv (hcs ▸ List.mem_cons_self)⟩⟩
  | some c =>
    cases v with
    | text s =>
      cases hopening
      exact ⟨'"', _, chars_text depth s, .inl ⟨rfl, by decide⟩⟩
    | list vs =>
      cases hopening
      obtain ⟨cs, hcs⟩ := exists_enclosed '[' ']' (vs.map (chars (depth + 1)))
      exact ⟨'[', cs, (chars_list depth vs).trans hcs, .inl ⟨rfl, by decide⟩⟩
    | object fs =>
      cases hopening
      obtain ⟨cs, hcs⟩ := exists_enclosed '\x7b' '\x7d' ((byKey fs).map (entryChars (depth + 1)))
      exact ⟨'\x7b', cs, (chars_object depth fs).trans hcs, .inl ⟨rfl, by decide⟩⟩
    | _ => cases hopening

/-- No value begins with a bracket that closes a list. -/
theorem chars_head_ne (depth : Nat) (v : Value) : ∃ c cs, chars depth v = c :: cs ∧ c ≠ ']' := by
  obtain ⟨c, cs, hcs, h⟩ := chars_head depth v
  refine ⟨c, cs, hcs, ?_⟩
  rintro rfl
  rcases h with ⟨hopening, -⟩ | ⟨-, hword⟩
  · cases v <;> simp [opening?] at hopening
  · exact absurd hword (by decide)

/-- An entry opens with the quote of its key, so it never looks like the closing brace. -/
theorem entryChars_head (depth : Nat) (e : String × Value) :
    ∃ c cs, entryChars depth e = c :: cs ∧ c ≠ '\x7d' :=
  ⟨'"', _, toList_literal_append e.1 _, by decide⟩

/-- Texts that go on alike begin with values of one kind. -/
theorem opening_eq {v w : Value} {m n : Nat} {a b : List Char}
    (h : chars m v ++ a = chars n w ++ b) : opening? v = opening? w := by
  obtain ⟨c, cs, hc, hv⟩ := chars_head m v
  obtain ⟨d, ds, hd, hw⟩ := chars_head n w
  rw [hc, hd] at h
  obtain rfl : c = d := (List.cons.inj h).1
  rcases hv with ⟨hv, hcv⟩ | ⟨hv, hcv⟩ <;> rcases hw with ⟨hw, hcw⟩ | ⟨hw, hcw⟩
  · rw [hv, hw]
  · cases hcv.symm.trans hcw
  · cases hcv.symm.trans hcw
  · rw [hv, hw]

/-- A word is recovered from a text that begins with it. -/
theorem word_readable {v : Value} (hv : isWord v = true) (depth : Nat) :
    Readable (chars depth) Alike v := by
  intro w a b ha hb h
  have hw : isWord w = true := isWord_iff.mpr ((opening_eq h).symm.trans (isWord_iff.mp hv))
  have hsame : chars depth v = chars depth w := by
    rw [← takeWhile_word (fun c hc => inWord_of_mem_chars hv hc) ha, h,
      takeWhile_word (fun c hc => inWord_of_mem_chars hw hc) hb]
  exact ⟨eq_of_chars_word hv hw hsame ▸ Alike.refl v, List.append_cancel_left (hsame ▸ h)⟩

/-- A string is recovered by its closing quote, the only bare one behind the opening. -/
theorem text_readable (s : String) (depth : Nat) : Readable (chars depth) Alike (.text s) := by
  intro w a b _ _ h
  cases w with
  | text t =>
    rw [chars, chars, Style.write, Style.write] at h
    obtain ⟨rfl, hrest⟩ := literal_readable h
    exact ⟨.text s, hrest⟩
  | _ => cases opening_eq h

/-- A list is recovered when its items are. -/
theorem list_readable {depth : Nat} {vs : List Value}
    (hvs : ∀ v ∈ vs, Readable (chars (depth + 1)) Alike v) :
    Readable (chars depth) Alike (.list vs) := by
  intro w a b _ _ h
  cases w with
  | list ws =>
    rw [chars_list, chars_list] at h
    obtain ⟨hitems, hrest⟩ := enclosed_readable (.inl rfl) (chars_head_ne (depth + 1)) hvs h
    exact ⟨.list (alikeItems_iff.mpr hitems), hrest⟩
  | _ => cases opening_eq h

/-- An entry of an object is recovered: its key first, then its value. -/
theorem entry_readable {depth : Nat} {e : String × Value}
    (he : Readable (chars depth) Alike e.2) :
    Readable (entryChars depth) (fun e f => e.1 = f.1 ∧ Alike e.2 f.2) e := by
  intro f a b ha hb h
  rw [entryChars, entryChars, List.append_assoc, List.append_assoc] at h
  obtain ⟨hkey, hrest⟩ := literal_readable h
  obtain ⟨hvalue, hrest⟩ := he f.2 a b ha hb (List.cons.inj hrest).2
  exact ⟨⟨hkey, hvalue⟩, hrest⟩

/-- An object is recovered, up to the order of its fields, when its values are. -/
theorem object_readable {depth : Nat} {fs : List (String × Value)}
    (hfs : ∀ e ∈ fs, Readable (chars (depth + 1)) Alike e.2) :
    Readable (chars depth) Alike (.object fs) := by
  intro w a b _ _ h
  cases w with
  | object gs =>
    rw [chars_object, chars_object] at h
    have hentries : ∀ e ∈ byKey fs,
        Readable (entryChars (depth + 1)) (fun e f => e.1 = f.1 ∧ Alike e.2 f.2) e :=
      fun e he => entry_readable (hfs e ((byKey_perm fs).mem_iff.mp he))
    obtain ⟨hfields, hrest⟩ := enclosed_readable (.inr rfl) (entryChars_head (depth + 1)) hentries h
    obtain ⟨hs, hfs, hgs⟩ := List.perm_comp_forall₂ (byKey_perm fs).symm hfields
    exact ⟨.object (alikeFields_iff.mpr hfs) (hgs.trans (byKey_perm gs)), hrest⟩
  | _ => cases opening_eq h

mutual

/-- **A canonical text is readable**, wherever it stands. -/
theorem chars_readable (depth : Nat) : (v : Value) → Readable (chars depth) Alike v
  | .null | .bool _ | .int _ | .double _ => word_readable rfl depth
  | .text s => text_readable s depth
  | .list vs => list_readable (items_readable (depth + 1) vs)
  | .object fs => object_readable (fields_readable (depth + 1) fs)

theorem items_readable (depth : Nat) :
    (vs : List Value) → ∀ v ∈ vs, Readable (chars depth) Alike v
  | [] => nofun
  | v :: vs => List.forall_mem_cons.mpr ⟨chars_readable depth v, items_readable depth vs⟩

theorem fields_readable (depth : Nat) :
    (fs : List (String × Value)) → ∀ e ∈ fs, Readable (chars depth) Alike e.2
  | [] => nofun
  | (_, v) :: fs => List.forall_mem_cons.mpr ⟨chars_readable depth v, fields_readable depth fs⟩

end

/-- **Values with the same canonical text** are alike. -/
theorem alike_of_canonical {v w : Value} (h : canonical v = canonical w) : Alike v w := by
  refine (chars_readable 0 v w [] [] ends_nil ends_nil ?_).1
  rw [List.append_nil, List.append_nil]
  exact congrArg String.toList h

/-- **The canonical text** shows everything but the order of keys. -/
theorem canonical_eq_iff {v w : Value} (hv : v.Keyed) : canonical v = canonical w ↔ Alike v w :=
  ⟨alike_of_canonical, fun h => write_of_alike hv 0 h⟩

end Json

end Covenant
