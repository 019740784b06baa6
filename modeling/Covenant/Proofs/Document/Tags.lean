import Covenant.Document.Html
import Covenant.Proofs.Text.Basic

/-!
HTML as it is read: tags with attributes, and characters between them.

* `Html.State`, `Html.step`, `Html.run`: reading one character after the other. A character that
  has a meaning, where it has none, is a stray one.
* `Html.Reads`: characters that are read to their end, as tokens.
* `Html.reads_escape`, `Html.run_value_escape`: what is escaped is read as it was, between tags and
  in the value of an attribute.
* `Html.reads_writeAll`: what is written is read as the tree that it was.
* `Html.Within`: a part of a tree, which is written and read as a part of it.
-/

namespace Covenant.Html

/-! ### Reading -/

/-- A tag as it is read. The name of a tag that closes an element starts with a slash, and that of
a tag which stands alone ends in one. -/
structure Tag where
  name : String
  attributes : List (String × String) := []
deriving DecidableEq, Repr

/-- What is read: a tag, a character between tags, or a character that has a meaning but stands
where it has none. -/
inductive Token where
  | tag (t : Tag)
  | char (c : Char)
  | stray (c : Char)
deriving DecidableEq, Repr

def isSpecial (c : Char) : Bool :=
  c == '&' || c == '<' || c == '>' || c == '\'' || c == '"'

/-- The characters that character references stand for. -/
def references : List (List Char × Char) :=
  [(['a', 'm', 'p'], '&'), (['l', 't'], '<'), (['g', 't'], '>'), (['#', '3', '9'], '\''),
    (['#', '3', '4'], '"')]

/-- Where reading is: between tags, in the name of a tag, behind the name or the value of an
attribute, in the name of an attribute, behind it, in its value, or in a character reference, with
what has been read of them. -/
inductive State where
  | data
  | name (cs : List Char)
  | inside (t : Tag)
  | key (t : Tag) (cs : List Char)
  | equals (t : Tag) (key : String)
  | value (t : Tag) (key : String) (cs : List Char)
  | reference (back : State) (cs : List Char)
deriving DecidableEq, Repr

/-- The character of a reference takes its place where the reference stands. -/
def State.put : State → Char → State × List Token
  | .value t k cs, c => (.value t k (cs ++ [c]), [])
  | s, c => (s, [.char c])

def step : State → Char → State × List Token
  | .data, c =>
    if c = '<' then (.name [], [])
    else if c = '&' then (.reference .data [], [])
    else (.data, [if isSpecial c then .stray c else .char c])
  | .name cs, c =>
    if c = '>' then (.data, [.tag { name := String.ofList cs }])
    else if c = ' ' then (.key { name := String.ofList cs } [], [])
    else if isSpecial c then (.data, [.stray c])
    else (.name (cs ++ [c]), [])
  | .inside t, c =>
    if c = '>' then (.data, [.tag t])
    else if c = ' ' then (.key t [], [])
    else (.data, [.stray c])
  | .key t cs, c =>
    if c = '=' then (.equals t (String.ofList cs), [])
    else if isSpecial c then (.data, [.stray c])
    else (.key t (cs ++ [c]), [])
  | .equals t key, c => if c = '"' then (.value t key [], []) else (.data, [.stray c])
  | .value t key cs, c =>
    if c = '"' then
      (.inside { t with attributes := t.attributes ++ [(key, String.ofList cs)] }, [])
    else if c = '&' then (.reference (.value t key cs) [], [])
    else if isSpecial c then (.value t key cs, [.stray c])
    else (.value t key (cs ++ [c]), [])
  | .reference back cs, c =>
    if c = ';' then
      match references.lookup cs with
      | some c => back.put c
      | none => (back, [.stray '&'])
    else (.reference back (cs ++ [c]), [])

def run : State → List Char → State × List Token
  | s, [] => (s, [])
  | s, c :: cs => ((run (step s c).1 cs).1, (step s c).2 ++ (run (step s c).1 cs).2)

/-- What is read of a text. A tag or a reference that does not end leaves a stray character. -/
def tokens (cs : List Char) : List Token :=
  (run .data cs).2 ++ if (run .data cs).1 = .data then [] else [.stray '<']

def characters (ts : List Token) : List Char :=
  ts.filterMap fun
    | .char c => some c
    | _ => none

def tags (ts : List Token) : List Tag :=
  ts.filterMap fun
    | .tag t => some t
    | _ => none

theorem run_append (s : State) (cs cs' : List Char) : run s (cs ++ cs') =
    ((run (run s cs).1 cs').1, (run s cs).2 ++ (run (run s cs).1 cs').2) := by
  induction cs generalizing s with
  | nil => rfl
  | cons c cs ih => simp only [List.cons_append, run, ih, List.append_assoc]

/-- Reading that leads from one place to another goes on from there. -/
theorem run_append_of_eq {s s' : State} {cs : List Char} {ts : List Token}
    (h : run s cs = (s', ts)) (cs' : List Char) :
    run s (cs ++ cs') = ((run s' cs').1, ts ++ (run s' cs').2) := by
  rw [run_append, h]

/-- Characters that are read to their end as tokens, from between tags to between tags. -/
def Reads (cs : List Char) (ts : List Token) : Prop :=
  run .data cs = (.data, ts)

namespace Reads

variable {cs cs' : List Char} {ts ts' : List Token}

theorem nil : Reads [] [] := rfl

theorem append (h : Reads cs ts) (h' : Reads cs' ts') : Reads (cs ++ cs') (ts ++ ts') := by
  rw [Reads, run_append_of_eq h, show run .data cs' = (.data, ts') from h']

theorem tokens_eq (h : Reads cs ts) : tokens cs = ts := by
  rw [Html.tokens, show run .data cs = (.data, ts) from h, if_pos rfl, List.append_nil]

end Reads

/-! ### Escaped texts -/

/-- References can be told from each other, and from what is around them. -/
theorem references_spec : ∀ e ∈ references, ';' ∉ e.1 ∧ (∀ c ∈ e.1, isSpecial c = false) ∧
    references.lookup e.1 = some e.2 := by
  simp [references, isSpecial, List.lookup]

/-- Every character is itself, or has a reference that stands for it. -/
theorem escapeChar_cases (c : Char) : (isSpecial c = false ∧ (escapeChar c).toList = [c]) ∨
    ∃ cs, (cs, c) ∈ references ∧ (escapeChar c).toList = '&' :: cs ++ [';'] := by
  unfold escapeChar
  split
  · exact .inr ⟨['a', 'm', 'p'], by decide, rfl⟩
  · exact .inr ⟨['l', 't'], by decide, rfl⟩
  · exact .inr ⟨['g', 't'], by decide, rfl⟩
  · exact .inr ⟨['#', '3', '9'], by decide, rfl⟩
  · exact .inr ⟨['#', '3', '4'], by decide, rfl⟩
  · rename_i hamp hlt hgt hquote hquotes
    refine .inl ⟨?_, String.toList_singleton c⟩
    simp only [isSpecial, Bool.or_eq_false_iff, beq_eq_false_iff_ne]
    exact ⟨⟨⟨⟨hamp, hlt⟩, hgt⟩, hquote⟩, hquotes⟩

theorem toList_escape (s : String) :
    (escape s).toList = s.toList.flatMap fun c => (escapeChar c).toList := by
  rw [escape, String.toList_join, List.flatMap_map]

/-- A text of characters without a meaning is written as it is. -/
theorem escape_of_plain {s : String} (h : ∀ c ∈ s.toList, isSpecial c = false) : escape s = s := by
  apply String.toList_injective
  rw [toList_escape]
  refine (List.flatMap_congr fun c hc => ?_).trans (List.flatMap_singleton' s.toList)
  rcases escapeChar_cases c with ⟨_, hc⟩ | ⟨cs, hmem, _⟩
  · exact hc
  · have hspecial : ∀ e ∈ references, isSpecial e.2 = true := by decide
    exact absurd (h c hc) (by rw [hspecial _ hmem]; decide)

/-- The name of a reference is read up to its end. -/
theorem run_reference (back : State) (read : List Char) {cs : List Char} (hcs : ';' ∉ cs) :
    run (.reference back read) cs = (.reference back (read ++ cs), []) := by
  induction cs generalizing read with
  | nil => rw [run, List.append_nil]
  | cons c cs ih =>
    obtain ⟨hc, hcs⟩ := List.ne_and_not_mem_of_not_mem_cons hcs
    rw [run, step, if_neg hc.symm, ih _ hcs, List.append_assoc, List.singleton_append,
      List.nil_append]

/-- Where references may stand, an escaped character is read as the character. -/
theorem run_escapeChar {s : State} (c : Char)
    (hplain : isSpecial c = false → step s c = s.put c)
    (hamp : step s '&' = (.reference s [], [])) : run s (escapeChar c).toList = s.put c := by
  rcases escapeChar_cases c with ⟨hspecial, hc⟩ | ⟨cs, hmem, hc⟩
  · rw [hc, run, run, hplain hspecial, List.append_nil]
  · obtain ⟨hcs, _, hlookup⟩ := references_spec _ hmem
    rw [hc, List.cons_append, run, hamp, run_append_of_eq (run_reference s [] hcs), run, step,
      if_pos rfl, List.nil_append, hlookup, run, List.append_nil, List.nil_append, List.nil_append]

theorem step_data_of_plain {c : Char} (h : isSpecial c = false) :
    step .data c = State.data.put c := by
  have hne : c ≠ '<' ∧ c ≠ '&' := by
    constructor <;> rintro rfl <;> cases h
  rw [step, if_neg hne.1, if_neg hne.2, if_neg (by simp [h]), State.put]
  exact fun _ _ _ h => nomatch h

theorem step_value_of_plain {t : Tag} {key : String} {cs : List Char} {c : Char}
    (h : isSpecial c = false) : step (.value t key cs) c = (State.value t key cs).put c := by
  have hne : c ≠ '"' ∧ c ≠ '&' := by
    constructor <;> rintro rfl <;> cases h
  rw [step, if_neg hne.1, if_neg hne.2, if_neg (by simp [h]), State.put]

/-- **An escaped text is read as the text.** -/
theorem reads_escape (s : String) : Reads (escape s).toList (s.toList.map .char) := by
  rw [toList_escape]
  induction s.toList with
  | nil => exact .nil
  | cons c cs ih =>
    rw [List.flatMap_cons, List.map_cons, ← List.singleton_append]
    exact .append (run_escapeChar c step_data_of_plain rfl) ih

/-- **An escaped value is read as the value.** -/
theorem run_value_escape (t : Tag) (key : String) (read : List Char) (s : String) :
    run (.value t key read) (escape s).toList = (.value t key (read ++ s.toList), []) := by
  rw [toList_escape]
  induction s.toList generalizing read with
  | nil => rw [List.flatMap_nil, run, List.append_nil]
  | cons c cs ih =>
    have hc : run (.value t key read) (escapeChar c).toList = (.value t key (read ++ [c]), []) :=
      run_escapeChar c step_value_of_plain rfl
    rw [List.flatMap_cons, run_append_of_eq hc, ih, List.append_assoc, List.singleton_append,
      List.nil_append]

/-! ### Elements -/

/-- A name of a tag or an attribute: no character that would end it, or start something else. -/
def IsName (s : String) : Prop :=
  ∀ c ∈ s.toList, isSpecial c = false ∧ c ≠ ' ' ∧ c ≠ '='

instance (s : String) : Decidable (IsName s) :=
  inferInstanceAs (Decidable (∀ c ∈ s.toList, _))

theorem IsName.slash {s : String} (h : IsName s) : IsName ("/" ++ s) := by
  intro c hc
  rw [String.toList_append] at hc
  rcases List.mem_append.mp hc with hc | hc
  · obtain rfl : c = '/' := by simpa using hc
    decide
  · exact h c hc

theorem run_name (read : List Char) {cs : List Char}
    (hcs : ∀ c ∈ cs, isSpecial c = false ∧ c ≠ ' ' ∧ c ≠ '=') :
    run (.name read) cs = (.name (read ++ cs), []) := by
  induction cs generalizing read with
  | nil => rw [run, List.append_nil]
  | cons c cs ih =>
    obtain ⟨hspecial, hblank, _⟩ := hcs c List.mem_cons_self
    have hclose : c ≠ '>' := by
      rintro rfl
      cases hspecial
    rw [run, step, if_neg hclose, if_neg hblank, hspecial, if_neg Bool.false_ne_true,
      ih _ fun c hc => hcs c (List.mem_cons_of_mem _ hc), List.append_assoc, List.singleton_append,
      List.nil_append]

theorem run_key (t : Tag) (read : List Char) {cs : List Char}
    (hcs : ∀ c ∈ cs, isSpecial c = false ∧ c ≠ ' ' ∧ c ≠ '=') :
    run (.key t read) cs = (.key t (read ++ cs), []) := by
  induction cs generalizing read with
  | nil => rw [run, List.append_nil]
  | cons c cs ih =>
    obtain ⟨hspecial, _, hequals⟩ := hcs c List.mem_cons_self
    rw [run, step, if_neg hequals, hspecial, if_neg Bool.false_ne_true,
      ih _ fun c hc => hcs c (List.mem_cons_of_mem _ hc), List.append_assoc, List.singleton_append,
      List.nil_append]

/-- One attribute is read as it was. -/
theorem run_attribute (t : Tag) {key : String} (hkey : IsName key) (v : String) :
    run (.inside t) (" " ++ key ++ "=\"" ++ escape v ++ "\"").toList =
      (.inside { t with attributes := t.attributes ++ [(key, v)] }, []) := by
  have hopen : run (.key t key.toList) ("=\"").toList = (.value t key [], []) := by
    simp [run, step]
  have hclose : run (.value t key v.toList) ("\"").toList =
      (.inside { t with attributes := t.attributes ++ [(key, v)] }, []) := by
    simp [run, step]
  have hblank : run (.inside t) (" ").toList = (.key t [], []) := by
    simp [run, step]
  have hname : run (.key t []) key.toList = (.key t key.toList, []) := run_key t [] hkey
  have hvalue : run (.value t key []) (escape v).toList = (.value t key v.toList, []) :=
    run_value_escape t key [] v
  simp only [String.toList_append, List.append_assoc]
  rw [run_append_of_eq hblank, run_append_of_eq hname, run_append_of_eq hopen,
    run_append_of_eq hvalue, hclose]
  rfl

/-- **Attributes are read as they were.** -/
theorem run_writeAttributes (t : Tag) {as : List (String × String)} (has : ∀ a ∈ as, IsName a.1) :
    run (.inside t) (writeAttributes as).toList =
      (.inside { t with attributes := t.attributes ++ as }, []) := by
  induction as generalizing t with
  | nil => simp [writeAttributes, run]
  | cons a as ih =>
    obtain ⟨k, v⟩ := a
    rw [writeAttributes, String.toList_append,
      run_append_of_eq (run_attribute t (has _ List.mem_cons_self) v),
      ih _ fun a ha => has a (List.mem_cons_of_mem _ ha)]
    simp

/-- Behind its name a tag goes on as behind its attributes. -/
theorem run_name_writeAttributes (cs : List Char) (as : List (String × String)) (rest : List Char) :
    run (.name cs) ((writeAttributes as).toList ++ '>' :: rest) =
      run (.inside { name := String.ofList cs }) ((writeAttributes as).toList ++ '>' :: rest) := by
  cases as with
  | nil => simp [writeAttributes, run, step]
  | cons a as =>
    obtain ⟨k, v⟩ := a
    simp [writeAttributes, run, step]

/-- **A tag is read as it was.** -/
theorem reads_tag {name : String} {as : List (String × String)} (hname : IsName name)
    (has : ∀ a ∈ as, IsName a.1) :
    Reads ("<" ++ name ++ writeAttributes as ++ ">").toList [.tag ⟨name, as⟩] := by
  have hopen : run .data ("<").toList = (.name [], []) := by
    simp [run, step]
  have hclose : ∀ t, run (.inside t) ['>'] = (.data, [.tag t]) := fun t => by
    simp [run, step]
  simp only [String.toList_append, List.append_assoc]
  rw [Reads, run_append_of_eq hopen, run_append_of_eq (run_name [] hname), List.nil_append,
    show (">" : String).toList = ['>'] from rfl, run_name_writeAttributes,
    run_append_of_eq (run_writeAttributes _ has), hclose]
  simp

/-- The tag that closes an element is read as one without attributes. -/
theorem reads_closing {name : String} (hname : IsName name) :
    Reads ("<" ++ ("/" ++ name) ++ writeAttributes [] ++ ">").toList [.tag ⟨"/" ++ name, []⟩] :=
  reads_tag hname.slash (by simp)

/-! ### Trees -/

mutual

def treeTokens : Html → List Token
  | .text s => s.toList.map .char
  | .lineBreak => [.tag { name := "br/" }, .char '\n']
  | .element name attributes children =>
    .tag ⟨name, attributes⟩ :: treeTokensAll children ++ [.tag { name := "/" ++ name }]

def treeTokensAll : List Html → List Token
  | [] => []
  | h :: hs => treeTokens h ++ treeTokensAll hs

end

mutual

/-- A tree whose elements and attributes have names. -/
def Named : Html → Prop
  | .text _ => True
  | .lineBreak => True
  | .element name attributes children =>
    IsName name ∧ (∀ a ∈ attributes, IsName a.1) ∧ NamedAll children

/-- Trees whose elements and attributes have names. -/
def NamedAll : List Html → Prop
  | [] => True
  | h :: hs => Named h ∧ NamedAll hs

end

@[simp] theorem writeAll_append (hs hs' : List Html) :
    writeAll (hs ++ hs') = writeAll hs ++ writeAll hs' := by
  induction hs with
  | nil => simp [writeAll]
  | cons h hs ih => rw [List.cons_append, writeAll, writeAll, ih, String.append_assoc]

@[simp] theorem treeTokensAll_append (hs hs' : List Html) :
    treeTokensAll (hs ++ hs') = treeTokensAll hs ++ treeTokensAll hs' := by
  induction hs with
  | nil => rfl
  | cons h hs ih => rw [List.cons_append, treeTokensAll, treeTokensAll, ih, List.append_assoc]

@[simp] theorem namedAll_append (hs hs' : List Html) :
    NamedAll (hs ++ hs') ↔ NamedAll hs ∧ NamedAll hs' := by
  induction hs with
  | nil => simp [NamedAll]
  | cons h hs ih => rw [List.cons_append, NamedAll, NamedAll, ih, and_assoc]

mutual

/-- **What is written of a tree is read as the tree.** -/
theorem reads_write : ∀ h : Html, Named h → Reads h.write.toList (treeTokens h)
  | .text s, _ => by
    rw [write, treeTokens]
    exact reads_escape s
  | .lineBreak, _ => rfl
  | .element name attributes children, hnamed => by
    rw [Named] at hnamed
    obtain ⟨hname, hattributes, hchildren⟩ := hnamed
    have hopen := reads_tag hname hattributes
    have hwrite : (write (.element name attributes children)).toList =
        ("<" ++ name ++ writeAttributes attributes ++ ">").toList ++ (writeAll children).toList ++
          ("<" ++ ("/" ++ name) ++ writeAttributes [] ++ ">").toList := by
      simp [write, writeAttributes]
    rw [hwrite, treeTokens, ← List.singleton_append]
    exact (hopen.append (reads_writeAll children hchildren)).append (reads_closing hname)

/-- **What is written of trees is read as the trees.** -/
theorem reads_writeAll : ∀ hs : List Html, NamedAll hs →
    Reads (writeAll hs).toList (treeTokensAll hs)
  | [], _ => .nil
  | h :: hs, hnamed => by
    rw [NamedAll] at hnamed
    rw [writeAll, String.toList_append, treeTokensAll]
    exact (reads_write h hnamed.1).append (reads_writeAll hs hnamed.2)

end

mutual

theorem stray_not_mem_treeTokens (c : Char) : ∀ h : Html, .stray c ∉ treeTokens h
  | .text s => by simp [treeTokens]
  | .lineBreak => by simp [treeTokens]
  | .element name attributes children => by
    have hchildren := stray_not_mem_treeTokensAll c children
    simp [treeTokens, hchildren]

theorem stray_not_mem_treeTokensAll (c : Char) : ∀ hs : List Html, .stray c ∉ treeTokensAll hs
  | [] => by simp [treeTokensAll]
  | h :: hs => by
    have hhead := stray_not_mem_treeTokens c h
    have htail := stray_not_mem_treeTokensAll c hs
    simp [treeTokensAll, hhead, htail]

end

/-- Trees that stand somewhere in trees. -/
inductive Within (part : List Html) : List Html → Prop where
  | here (before after : List Html) : Within part (before ++ part ++ after)
  | inside (before after : List Html) (name : String) (attributes : List (String × String))
      {children : List Html} (h : Within part children) :
      Within part (before ++ .element name attributes children :: after)

theorem Within.refl (part : List Html) : Within part part := by
  simpa using @Within.here part [] []

/-- What is within a part is within what stands around the part. -/
theorem Within.append {part hs : List Html} (h : Within part hs) (before after : List Html) :
    Within part (before ++ hs ++ after) := by
  cases h with
  | here before' after' =>
    have heq : before ++ (before' ++ part ++ after') ++ after =
        (before ++ before') ++ part ++ (after' ++ after) := by simp
    rw [heq]
    exact .here _ _
  | @inside before' after' name attributes children h =>
    have heq : before ++ (before' ++ .element name attributes children :: after') ++ after =
        (before ++ before') ++ .element name attributes children :: (after' ++ after) := by simp
    rw [heq]
    exact .inside _ _ name attributes h

/-- **A part of trees is written and read as a part of them.** -/
theorem Within.exists_reads {part hs : List Html} (h : Within part hs) (hnamed : NamedAll hs) :
    ∃ before after ts us, (writeAll hs).toList = before ++ (writeAll part).toList ++ after ∧
      Reads before ts ∧ Reads after us ∧ NamedAll part := by
  induction h with
  | here before after =>
    rw [namedAll_append, namedAll_append] at hnamed
    refine ⟨_, _, _, _, ?_, reads_writeAll before hnamed.1.1, reads_writeAll after hnamed.2,
      hnamed.1.2⟩
    simp
  | inside before after name attributes _ ih =>
    rw [namedAll_append, NamedAll, Named] at hnamed
    obtain ⟨hbefore, ⟨hname, hattributes, hchildren⟩, hafter⟩ := hnamed
    obtain ⟨cs, cs', ts, us, hwrite, hts, hus, hpart⟩ := ih hchildren
    refine ⟨_, _, _, _, ?_,
      ((reads_writeAll before hbefore).append (reads_tag hname hattributes)).append hts,
      (hus.append (reads_closing hname)).append (reads_writeAll after hafter), hpart⟩
    simp [writeAll, write, writeAttributes, hwrite]

end Covenant.Html
