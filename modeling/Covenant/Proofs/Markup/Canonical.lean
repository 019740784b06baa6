import Covenant.Proofs.Markup.Unambiguous
import Covenant.Proofs.Text.Literal

/-!
The canonical markup of templates.

* `Node.markup`, `levelMarkup`: nodes and levels of them as markup.
* `Formed`, `FormedLevel`: the nodes and levels that markup can be read as.
* `exists_member`, `exists_chain`: what was written has trees of the nodes it was written from.
* `read_levelMarkup`: a template is read back from its markup, up to the places of its nodes.
-/

namespace Covenant.Markup

/-! ### Writing -/

mutual

/-- A node as markup. With `ascii`, strings are written in ASCII only. -/
def Node.markup (ascii : Bool) : Node → String
  | .text body _ _ => body
  | .binding field _ _ => "\x7b\x7b" ++ field ++ "\x7d\x7d"
  | .formatted field format _ =>
    "\x7b\x7b" ++ field ++ " as " ++ JsonText.literal ascii format ++ "\x7d\x7d"
  | .shown field whenTrue _ =>
    "\x7b\x7b#if " ++ field ++ "\x7d\x7d" ++ whenTrue ++ "\x7b\x7b/if\x7d\x7d"
  | .choice field whenTrue whenFalse _ =>
    "\x7b\x7b#if " ++ field ++ "\x7d\x7d" ++ whenTrue ++ "\x7b\x7belse\x7d\x7d" ++ whenFalse
      ++ "\x7b\x7b/if\x7d\x7d"
  | .block (.list (.joined separator)) field nested _ =>
    "\x7b\x7b#join " ++ field ++ " separator=" ++ JsonText.literal ascii separator ++ "\x7d\x7d"
      ++ levelMarkup ascii nested ++ "\x7b\x7b/join\x7d\x7d"
  | .block kind field nested _ =>
    "\x7b\x7b#" ++ kind.keyword ++ " " ++ field ++ "\x7d\x7d" ++ levelMarkup ascii nested
      ++ "\x7b\x7b/" ++ kind.keyword ++ "\x7d\x7d"
  | .expression body _ => "\x7b\x7b% " ++ body ++ " %\x7d\x7d"
  | .foreign .. => ""

def levelMarkup (ascii : Bool) : List Node → String
  | [] => ""
  | n :: level => n.markup ascii ++ levelMarkup ascii level

end

mutual

def Node.unplaced : Node → Node
  | .text body last _ => .text body last ⟨1, 1⟩
  | .binding field format _ => .binding field format ⟨1, 1⟩
  | .formatted field format _ => .formatted field format ⟨1, 1⟩
  | .shown field whenTrue _ => .shown field whenTrue ⟨1, 1⟩
  | .choice field whenTrue whenFalse _ => .choice field whenTrue whenFalse ⟨1, 1⟩
  | .block kind field nested _ => .block kind field (unplacedLevel nested) ⟨1, 1⟩
  | .expression body _ => .expression body ⟨1, 1⟩
  | .foreign kind field _ _ => .foreign kind field none none

def unplacedLevel : List Node → List Node
  | [] => []
  | n :: level => n.unplaced :: unplacedLevel level

end

/-! ### The form of templates -/

def IsField (field : String) : Prop :=
  ∃ c cs, field.toList = c :: cs ∧ (c.isAlpha || c == '_') = true ∧
    ∀ d ∈ cs, (d.isAlphanum || d == '_') = true

instance (field : String) : Decidable (IsField field) :=
  match h : field.toList with
  | [] => .isFalse fun ⟨_, _, heq, _⟩ => by simp [h] at heq
  | c :: cs =>
    decidable_of_iff ((c.isAlpha || c == '_') = true ∧ cs.all (fun d => d.isAlphanum || d == '_'))
      ⟨fun ⟨hc, hcs⟩ => ⟨c, cs, h, hc, List.all_eq_true.mp hcs⟩, fun ⟨_, _, heq, hc, hcs⟩ => by
        obtain ⟨rfl, rfl⟩ := List.cons.inj (h.symm.trans heq)
        exact ⟨hc, List.all_eq_true.mpr hcs⟩⟩

def IsPlain (body : String) : Prop :=
  ¬ ['{', '{'] <:+: body.toList

instance (body : String) : Decidable (IsPlain body) :=
  inferInstanceAs (Decidable (¬ _))

/-- A text that may be followed by two opening braces. -/
def IsClosed (body : String) : Prop :=
  IsPlain body ∧ body.toList.getLast? ≠ some '{'

instance (body : String) : Decidable (IsClosed body) :=
  inferInstanceAs (Decidable (_ ∧ _))

/-- An expression: without blanks at its ends, and without its closing mark. -/
def IsExpression (body : String) : Prop :=
  body ≠ "" ∧ Text.strip body = body ∧ ¬ ['%', '}', '}'] <:+: body.toList

instance (body : String) : Decidable (IsExpression body) :=
  inferInstanceAs (Decidable (_ ∧ _))

mutual

/-- **A node of the form that markup is read as**, other than a text. -/
inductive Formed : Node → Prop where
  | binding {field : String} {place : Text.Position} (hfield : IsField field) :
      Formed (.binding field none place)
  | formatted {field format : String} {place : Text.Position} (hfield : IsField field) :
      Formed (.formatted field format place)
  | shown {field whenTrue : String} {place : Text.Position} (hfield : IsField field)
      (htrue : IsClosed whenTrue) : Formed (.shown field whenTrue place)
  | choice {field whenTrue whenFalse : String} {place : Text.Position} (hfield : IsField field)
      (htrue : IsClosed whenTrue) (hfalse : IsClosed whenFalse) :
      Formed (.choice field whenTrue whenFalse place)
  | block {kind : BlockKind} {field : String} {nested : List Node} {place : Text.Position}
      (hfield : IsField field) (hnested : FormedLevel false nested) :
      Formed (.block kind field nested place)
  | expression {body : String} {place : Text.Position} (hbody : IsExpression body) :
      Formed (.expression body place)

/-- **A level of the form that markup is read as**: no two texts follow each other, and a text
knows whether it is the last node. Only the last text of a whole template may end in an opening
brace. -/
inductive FormedLevel : Bool → List Node → Prop where
  | nil {whole : Bool} : FormedLevel whole []
  | last {whole : Bool} {body : String} {place : Text.Position} (hne : body ≠ "")
      (hplain : IsPlain body) (hclosed : whole = false → IsClosed body) :
      FormedLevel whole [.text body true place]
  | text {whole : Bool} {body : String} {place : Text.Position} {n : Node} {level : List Node}
      (hne : body ≠ "") (hclosed : IsClosed body) (hn : Formed n)
      (hlevel : FormedLevel whole level) : FormedLevel whole (.text body false place :: n :: level)
  | node {whole : Bool} {n : Node} {level : List Node} (hn : Formed n)
      (hlevel : FormedLevel whole level) : FormedLevel whole (n :: level)

end

/-! ### Tokens -/

section

variable {w rest : List Char}

/-- A run of text ends where the markup goes on. -/
theorem textRun_append (hplain : ¬ ['{', '{'] <:+: w)
    (hrest : rest = [] ∨ (w.getLast? ≠ some '{' ∧ ∃ tail, rest = '{' :: '{' :: tail)) :
    textRun (w ++ rest) = w.length := by
  induction w with
  | nil =>
    rcases hrest with rfl | ⟨-, tail, rfl⟩ <;> rfl
  | cons c w ih =>
    have htail : textRun (w ++ rest) = w.length := by
      refine ih (fun h => hplain (h.trans (List.suffix_cons c w).isInfix)) (hrest.imp_right ?_)
      rintro ⟨hlast, hrest⟩
      refine ⟨fun hw => hlast ?_, hrest⟩
      rw [List.getLast?_cons, hw]
      rfl
    rw [List.cons_append, textRun, htail, List.length_cons]
    rintro tail hc hbraces
    subst hc
    cases w with
    | nil =>
      rcases hrest with rfl | ⟨hlast, -⟩
      · cases hbraces
      · exact hlast rfl
    | cons d w =>
      obtain ⟨rfl, -⟩ := List.cons.inj hbraces
      exact hplain (List.prefix_append ['{', '{'] w).isInfix

/-- A field name ends at the first character that cannot belong to it. -/
theorem nameRun_append {field : String} (hfield : IsField field)
    (hrest : ∀ c tail, rest = c :: tail → (c.isAlphanum || c == '_') = false) :
    nameRun (field.toList ++ rest) = field.toList.length := by
  obtain ⟨c, cs, heq, hc, hcs⟩ := hfield
  rw [heq, List.cons_append, nameRun, if_pos hc, List.takeWhile_append_of_pos hcs]
  cases rest with
  | nil => simp
  | cons d tail => simp [hrest d tail rfl]

/-- The body of an expression ends before its closing mark. -/
theorem expressionRun_append (hw : ¬ ['%', '}', '}'] <:+: w) :
    expressionRun (w ++ ' ' :: '%' :: '}' :: '}' :: rest) = w.length + 1 := by
  induction w with
  | nil => rfl
  | cons c w ih =>
    have htail := ih fun h => hw (h.trans (List.suffix_cons c w).isInfix)
    rw [List.cons_append, expressionRun, htail, List.length_cons]
    rintro tail hc hbraces
    subst hc
    rcases w with _ | ⟨d, _ | ⟨e, w⟩⟩
    · cases hbraces
    · simp at hbraces
    · simp only [List.cons_append, List.cons.injEq] at hbraces
      obtain ⟨rfl, rfl, -⟩ := hbraces
      exact hw (List.prefix_append ['%', '}', '}'] w).isInfix

/-- A blank in front does not make a closing mark. -/
theorem not_closing_cons (hw : ¬ ['%', '}', '}'] <:+: w) : ¬ ['%', '}', '}'] <:+: ' ' :: w := by
  rw [List.infix_cons_iff]
  rintro (hbegins | hinfix)
  · obtain ⟨_, heq⟩ := hbegins
    cases heq
  · exact hw hinfix

/-- Characters around a text that are trimmed. -/
theorem trim_pad {p : Char → Bool} {c : Char} (hc : p c = true) :
    Text.trim p (c :: (w ++ [c])) = Text.trim p w := by
  simp only [Text.trim, Text.trimStart, Text.trimEnd, List.dropWhile_cons, hc, if_true,
    List.dropWhile_append]
  split
  · rename_i hnil
    simp [List.isEmpty_iff.mp hnil]
  · simp [hc]

/-- Blanks around an expression are stripped. -/
theorem strip_blanks {body : String} (hbody : IsExpression body) :
    Text.strip (String.ofList (' ' :: (body.toList ++ [' ']))) = body := by
  rw [Text.strip, String.toList_ofList, trim_pad rfl]
  exact hbody.2.1

/-- A string goes on behind an ordinary character, ... -/
theorem stringRun_plain {c : Char} (hquote : c ≠ '"') (hescape : c ≠ '\\') :
    stringRun? (c :: rest) = (stringRun? rest).map (· + 1) := by
  rw [stringRun?]
  · exact hquote
  · exact fun _ _ h => absurd h hescape
  · exact fun h => absurd h hescape

/-- ... behind an escaped one, ... -/
theorem stringRun_pair {c : Char} (hc : c ≠ '\n') :
    stringRun? ('\\' :: c :: rest) = (stringRun? rest).map (· + 2) := by
  rw [stringRun?, if_neg hc]

/-- ... and behind a coded one. -/
theorem stringRun_escapeUnit (n : Nat) :
    stringRun? (JsonText.escapeUnit n ++ rest) =
      (stringRun? rest).map (· + (JsonText.escapeUnit n).length) := by
  have hdigit : ∀ n < 16, Text.hexDigit n ≠ '"' ∧ Text.hexDigit n ≠ '\\' := by decide
  have hplain : ∀ m (cs : List Char), stringRun? (Text.hexDigit (m % 16) :: cs) =
      (stringRun? cs).map (· + 1) := fun m cs =>
    stringRun_plain (hdigit _ (Nat.mod_lt _ (by decide))).1 (hdigit _ (Nat.mod_lt _ (by decide))).2
  rw [JsonText.escapeUnit, JsonText.hexDigits_four]
  simp only [List.cons_append, List.nil_append]
  rw [stringRun_pair (by decide), hplain, hplain, hplain, hplain]
  cases stringRun? rest <;> rfl

/-- One character of a string. -/
theorem stringRun_escape {ascii : Bool} (c : Char) :
    stringRun? (JsonText.escape ascii c ++ rest) =
      (stringRun? rest).map (· + (JsonText.escape ascii c).length) := by
  have hline : ∀ d, JsonText.unescape? d = some c → d ≠ '\n' := by
    rintro d hd rfl
    cases hd
  rcases JsonText.escape_eq_or ascii c with he | he
  · rcases JsonText.escape_cases c with ⟨d, -, hd, he'⟩ | ⟨-, he'⟩ | ⟨hquote, hescape, -, he'⟩ <;>
      rw [he, he']
    · exact stringRun_pair (hline d hd)
    · exact stringRun_escapeUnit _
    · exact stringRun_plain hquote hescape
  · rw [he, JsonText.escapeUnits]
    split
    · exact stringRun_escapeUnit _
    · rw [List.append_assoc, stringRun_escapeUnit, stringRun_escapeUnit, List.length_append]
      cases stringRun? rest <;> simp [Nat.add_comm, Nat.add_left_comm]

/-- **A string ends at its closing quote.** -/
theorem stringRun_encode {ascii : Bool} (cs : List Char) :
    stringRun? (JsonText.encode ascii cs ++ '"' :: rest) =
      some ((JsonText.encode ascii cs).length + 1) := by
  induction cs with
  | nil => rfl
  | cons c cs ih =>
    rw [JsonText.encode, List.flatMap_cons, List.append_assoc, stringRun_escape]
    rw [show cs.flatMap (JsonText.escape ascii) = JsonText.encode ascii cs from rfl, ih,
      List.length_append]
    simp
    omega

theorem toList_literal {ascii : Bool} (text : String) : (JsonText.literal ascii text).toList =
    '"' :: (JsonText.encode ascii text.toList ++ ['"']) := by
  simp [JsonText.literal]

/-- A string literal reads back as its text. -/
theorem readString_literal {ascii : Bool} (text : String) :
    readString (JsonText.literal ascii text).toList = .ok text := by
  rw [readString, String.ofList_toList, Json.read_literal]

end

/-! ### Members -/

section

variable {cs w rest : List Char} {i : Nat} {field : String}

/-- A token that stands at a position. -/
theorem exists_token_piece {x : Token} (h : cs.drop i = w ++ rest)
    (hlength : x.length (w ++ rest) = w.length) (hne : w ≠ []) :
    ∃ k, cfg.IsPiece cs (.token x) i k (.leaf i w) ∧ cs.drop k = rest := by
  refine ⟨i + w.length, Cfg.isPiece_token_iff.mpr ⟨w.length, ?_, rfl, ?_⟩, ?_⟩
  · have hpos : w.length ≠ 0 := fun hzero => hne (List.eq_nil_of_length_eq_zero hzero)
    simp [cfg, h, hlength, hpos]
  · rw [h, List.take_left]
  · rw [← List.drop_drop, h, List.drop_left]

/-- A mark is read where it is written. -/
theorem exists_mark (m : Mark) (h : cs.drop i = m.text.toList ++ rest) :
    ∃ k, cfg.IsPiece cs (.token (.mark m)) i k (.leaf i m.text.toList) ∧ cs.drop k = rest := by
  refine exists_token_piece h ?_ ?_
  · simp [Token.length, Pattern.dropStart_append, String.length_toList]
  · cases m with
    | blockStart k | blockEnd k => cases k <;> decide
    | _ => decide

/-- A blank is read where no second one follows. -/
theorem exists_blank (h : cs.drop i = ' ' :: rest) (hrest : Token.blanks.length rest = 0) :
    ∃ k, cfg.IsPiece cs (.token .blanks) i k (.leaf i [' ']) ∧ cs.drop k = rest := by
  refine exists_token_piece (w := [' ']) h ?_ (by simp)
  rw [Token.length] at hrest ⊢
  simpa using hrest

/-- A field name is read where it is written. -/
theorem exists_name {c : Char} (hfield : IsField field) (h : cs.drop i = field.toList ++ c :: rest)
    (hc : (c.isAlphanum || c == '_') = false) :
    ∃ k, cfg.IsPiece cs (.token .name) i k (.leaf i field.toList) ∧ cs.drop k = c :: rest := by
  refine exists_token_piece h (nameRun_append hfield ?_) ?_
  · rintro d tail hd
    cases hd
    exact hc
  · obtain ⟨d, ds, heq, -⟩ := hfield
    simp [heq]

/-- A string literal is read where it is written. -/
theorem exists_string {ascii : Bool} {text : String}
    (h : cs.drop i = (JsonText.literal ascii text).toList ++ rest) :
    ∃ k, cfg.IsPiece cs (.token .string) i k (.leaf i (JsonText.literal ascii text).toList) ∧
      cs.drop k = rest := by
  refine exists_token_piece h ?_ (by simp [toList_literal])
  rw [toList_literal, List.cons_append, List.append_assoc, Token.length]
  simp [stringRun_encode]

/-- A text is read up to the next mark. -/
theorem exists_text {body : String} (hne : body ≠ "") (h : cs.drop i = body.toList ++ rest)
    (hrun : textRun (body.toList ++ rest) = body.toList.length) :
    ∃ k, cfg.IsPiece cs (.token .text) i k (.leaf i body.toList) ∧ cs.drop k = rest :=
  exists_token_piece h hrun fun hnil => hne (String.toList_eq_nil_iff.mp hnil)

/-- A text of a conditional. -/
theorem exists_body {body : String} (hbody : IsClosed body)
    (h : cs.drop i = body.toList ++ '{' :: '{' :: rest) :
    ∃ k t, cfg.IsPiece cs (.goal .body) i k t ∧ bodyText t = body ∧
      cs.drop k = '{' :: '{' :: rest := by
  by_cases hne : body = ""
  · subst hne
    exact ⟨i, .node .body 0 [], .node (q := 0) rfl .nil, rfl, h⟩
  · obtain ⟨k, htext, hk⟩ := exists_text hne h (textRun_append hbody.1 (.inr ⟨hbody.2, rest, rfl⟩))
    exact ⟨k, .node .body 1 [_], .node (q := 1) rfl (.cons htext .nil),
      by rw [bodyText, String.ofList_toList], hk⟩

/-- No blanks. -/
theorem gap_nil : cfg.IsPiece cs (.goal .gap) i i (.node .gap 0 []) :=
  .node (q := 0) rfl .nil

/-- A blank in front of a name. -/
theorem exists_blank_name (hfield : IsField field) (h : cs.drop i = ' ' :: (field.toList ++ rest)) :
    ∃ k, cfg.IsPiece cs (.token .blanks) i k (.leaf i [' ']) ∧
      cs.drop k = field.toList ++ rest := by
  obtain ⟨first, tail, hname, hfirst, -⟩ := hfield
  refine exists_blank h ?_
  rw [hname, List.cons_append]
  refine blanks_eq_zero ?_
  by_contra hblank
  rw [Bool.not_eq_false, Bool.or_eq_true, beq_iff_eq, beq_iff_eq] at hblank
  rcases hblank with rfl | rfl <;> exact absurd hfirst (by decide)

/-- The opening of a conditional or of a block. -/
theorem exists_opening (start : Mark) (hfield : IsField field)
    (h : cs.drop i = start.text.toList ++ ' ' :: (field.toList ++ '}' :: '}' :: rest)) :
    ∃ k a b j c d, cfg.ArePieces cs (Phrase.opening start) i k
      [a, b, .leaf j field.toList, c, d] ∧ cs.drop k = rest := by
  obtain ⟨_, hstart, h⟩ := exists_mark start h
  obtain ⟨_, hblanks, h⟩ := exists_blank_name hfield h
  obtain ⟨_, hname, h⟩ := exists_name hfield h rfl
  obtain ⟨_, hclosing, h⟩ := exists_mark .closing h
  exact ⟨_, _, _, _, _, _,
    .cons hstart (.cons hblanks (.cons hname (.cons gap_nil (.cons hclosing .nil)))), h⟩

/-- **A tree is read as a node**, up to places. -/
def ReadsNode (u : Tree Phrase) (n : Node) : Prop :=
  ∀ place separator, ∃ n', nodeOf place separator u = .ok n' ∧ n'.unplaced = n.unplaced

/-- **Trees are read as a level**, up to places. -/
def ReadsLevel (us : List (Tree Phrase)) (level : List Node) : Prop :=
  ∀ place separator, ∃ nodes, us.mapM (nodeOf place separator) = .ok nodes ∧
    unplacedLevel (markLast nodes) = unplacedLevel level

/-- A node is read at a position, up to a rest of the text. -/
def MemberAt (cs : List Char) (i : Nat) (rest : List Char) (n : Node) : Prop :=
  ∃ p k u, p ∈ Phrase.members ∧ cfg.IsPiece cs (.goal p) i k u ∧ cs.drop k = rest ∧ ReadsNode u n

/-- A level is read at a position, up to a rest of the text. -/
def LevelAt (cs : List Char) (i : Nat) (rest : List Char) (level : List Node) : Prop :=
  ∃ k us, Chain cs i k us ∧ cs.drop k = rest ∧ ReadsLevel us level

variable {ascii : Bool} {place : Text.Position}

/-- A binding is read where it is written. -/
theorem memberAt_binding (hfield : IsField field)
    (h : cs.drop i = '{' :: '{' :: (field.toList ++ '}' :: '}' :: rest)) :
    MemberAt cs i rest (.binding field none place) := by
  obtain ⟨_, hopening, h⟩ := exists_mark .opening h
  obtain ⟨_, hname, h⟩ := exists_name hfield h rfl
  obtain ⟨_, hclosing, h⟩ := exists_mark .closing h
  refine ⟨.binding, _, _, by decide, .node (q := 0) rfl (.cons hopening (.cons gap_nil
    (.cons hname (.cons gap_nil (.cons hclosing .nil))))), h, fun place separator => ?_⟩
  exact ⟨_, rfl, by simp [Node.unplaced]⟩

/-- A binding with a format is read where it is written. -/
theorem memberAt_formatted {format : String} (hfield : IsField field)
    (h : cs.drop i = '{' :: '{' :: (field.toList ++ ' ' :: 'a' :: 's' :: ' ' ::
      ((JsonText.literal ascii format).toList ++ '}' :: '}' :: rest))) :
    MemberAt cs i rest (.formatted field format place) := by
  obtain ⟨_, hopening, h⟩ := exists_mark .opening h
  obtain ⟨_, hname, h⟩ := exists_name hfield h rfl
  obtain ⟨_, hblanks, h⟩ := exists_blank h rfl
  obtain ⟨_, has, h⟩ := exists_mark .as h
  obtain ⟨_, hblanks', h⟩ := exists_blank h (by rw [toList_literal]; rfl)
  obtain ⟨_, hstring, h⟩ := exists_string h
  obtain ⟨_, hclosing, h⟩ := exists_mark .closing h
  refine ⟨.formatted, _, _, by decide, .node (q := 0) rfl (.cons hopening (.cons gap_nil
    (.cons hname (.cons hblanks (.cons has (.cons hblanks' (.cons hstring (.cons gap_nil
      (.cons hclosing .nil))))))))), h, fun place separator => ?_⟩
  exact ⟨_, by rw [nodeOf, readString_literal]; rfl, by simp [Node.unplaced]⟩

/-- A conditional is read where it is written. -/
theorem memberAt_shown {whenTrue : String} (hfield : IsField field) (htrue : IsClosed whenTrue)
    (h : cs.drop i = Mark.ifStart.text.toList ++ ' ' :: (field.toList ++ '}' :: '}' ::
      (whenTrue.toList ++ (Mark.ifEnd.text.toList ++ rest)))) :
    MemberAt cs i rest (.shown field whenTrue place) := by
  obtain ⟨_, _, _, _, _, _, hopening, h⟩ := exists_opening .ifStart hfield h
  obtain ⟨_, _, hbody, htext, h⟩ := exists_body htrue h
  obtain ⟨_, hend, h⟩ := exists_mark .ifEnd h
  refine ⟨.shown, _, _, by decide, .node (q := 0) rfl (Cfg.arePieces_append_iff.mpr
    ⟨_, _, _, rfl, hopening, .cons hbody (.cons hend .nil)⟩), h, fun place separator => ?_⟩
  exact ⟨_, rfl, by simp [Node.unplaced, htext]⟩

/-- A conditional with an alternative is read where it is written. -/
theorem memberAt_choice {whenTrue whenFalse : String} (hfield : IsField field)
    (htrue : IsClosed whenTrue) (hfalse : IsClosed whenFalse)
    (h : cs.drop i = Mark.ifStart.text.toList ++ ' ' :: (field.toList ++ '}' :: '}' ::
      (whenTrue.toList ++ (Mark.otherwise.text.toList ++ (whenFalse.toList ++
        (Mark.ifEnd.text.toList ++ rest)))))) :
    MemberAt cs i rest (.choice field whenTrue whenFalse place) := by
  obtain ⟨_, _, _, _, _, _, hopening, h⟩ := exists_opening .ifStart hfield h
  obtain ⟨_, _, hbody, htext, h⟩ := exists_body htrue h
  obtain ⟨_, hotherwise, h⟩ := exists_mark .otherwise h
  obtain ⟨_, _, hbody', htext', h⟩ := exists_body hfalse h
  obtain ⟨_, hend, h⟩ := exists_mark .ifEnd h
  refine ⟨.choice, _, _, by decide, .node (q := 0) rfl (Cfg.arePieces_append_iff.mpr
    ⟨_, _, _, rfl, hopening, .cons hbody (.cons hotherwise (.cons hbody' (.cons hend .nil)))⟩), h,
    fun place separator => ?_⟩
  exact ⟨_, rfl, by simp [Node.unplaced, htext, htext']⟩

/-- The nodes of a level that is read. -/
theorem levelOf_of_readsLevel {us : List (Tree Phrase)} {level : List Node} {k : Nat}
    (hchain : Chain cs i k us) (hreads : ReadsLevel us level) (place : Nat → Text.Position)
    (separator : String) : ∃ nodes, levelOf place separator (levelTree us) = .ok nodes ∧
      unplacedLevel (markLast nodes) = unplacedLevel level := by
  rw [levelOf_levelTree hchain]
  exact hreads place separator

/-- A block is read where it is written, if its level is. -/
theorem memberAt_block {k : Keyword} {kind : BlockKind} {nested : List Node}
    (hkind : ∀ separator, k.block separator = kind) (hfield : IsField field)
    (h : cs.drop i = (Mark.blockStart k).text.toList ++ ' ' :: (field.toList ++ '}' :: '}' ::
      (w ++ ((Mark.blockEnd k).text.toList ++ rest))))
    (hnested : ∀ j, cs.drop j = w ++ ((Mark.blockEnd k).text.toList ++ rest) →
      LevelAt cs j ((Mark.blockEnd k).text.toList ++ rest) nested) :
    MemberAt cs i rest (.block kind field nested place) := by
  obtain ⟨_, _, _, j, _, _, hopening, h⟩ := exists_opening (.blockStart k) hfield h
  obtain ⟨_, us, hchain, h, hreads⟩ := hnested _ h
  obtain ⟨_, hend, h⟩ := exists_mark (.blockEnd k) h
  have hlevel := isPiece_level_iff.mpr ⟨us, rfl, hchain⟩
  refine ⟨.block k, _, _, by cases k <;> decide, .node (q := 0) rfl (Cfg.arePieces_append_iff.mpr
    ⟨_, _, _, rfl, hopening, .cons hlevel (.cons hend .nil)⟩), h, fun place separator => ?_⟩
  obtain ⟨nodes, hnodes, hsame⟩ := levelOf_of_readsLevel hchain hreads place separator
  refine ⟨.block kind field (markLast nodes) (place j), ?_, by simp [Node.unplaced, hsame]⟩
  simp [nodeOf, hnodes, Except.map, hkind]

/-- A joined list is read with its separator. -/
theorem memberAt_joined {separator : String} {nested : List Node} (hfield : IsField field)
    (h : cs.drop i = (Mark.blockStart .join).text.toList ++ ' ' :: (field.toList ++ ' ' ::
      (Mark.separator.text.toList ++ '=' :: ((JsonText.literal ascii separator).toList ++
        '}' :: '}' :: (w ++ ((Mark.blockEnd .join).text.toList ++ rest))))))
    (hnested : ∀ j, cs.drop j = w ++ ((Mark.blockEnd .join).text.toList ++ rest) →
      LevelAt cs j ((Mark.blockEnd .join).text.toList ++ rest) nested) :
    MemberAt cs i rest (.block (.list (.joined separator)) field nested place) := by
  obtain ⟨_, hstart, h⟩ := exists_mark (.blockStart .join) h
  obtain ⟨j, hblanks, h⟩ := exists_blank_name hfield h
  obtain ⟨_, hname, h⟩ := exists_name hfield h rfl
  obtain ⟨_, hblanks', h⟩ := exists_blank h rfl
  obtain ⟨_, hseparator, h⟩ := exists_mark .separator h
  have hmark : Mark.equal.text.toList = ['='] := rfl
  rw [← List.singleton_append, ← hmark] at h
  obtain ⟨_, hequal, h⟩ := exists_mark .equal h
  obtain ⟨_, hstring, h⟩ := exists_string h
  obtain ⟨_, hclosing, h⟩ := exists_mark .closing h
  obtain ⟨_, us, hchain, h, hreads⟩ := hnested _ h
  obtain ⟨_, hend, h⟩ := exists_mark (.blockEnd .join) h
  have hlevel := isPiece_level_iff.mpr ⟨us, rfl, hchain⟩
  refine ⟨.separated, _, _, by decide, .node (q := 0) rfl (.cons hstart (.cons hblanks
    (.cons hname (.cons hblanks' (.cons hseparator (.cons gap_nil (.cons hequal (.cons gap_nil
      (.cons hstring (.cons gap_nil (.cons hclosing (.cons hlevel (.cons hend .nil))))))))))))),
    h, fun place other => ?_⟩
  obtain ⟨nodes, hnodes, hsame⟩ := levelOf_of_readsLevel hchain hreads place other
  refine ⟨.block (.list (.joined separator)) field (markLast nodes) (place j), ?_,
    by simp [Node.unplaced, hsame]⟩
  simp [nodeOf, hnodes, Except.map, Except.bind, readString_literal]

/-- An expression is read where it is written. -/
theorem memberAt_expression {body : String} (hbody : IsExpression body)
    (h : cs.drop i = Mark.expressionStart.text.toList ++ ' ' :: (body.toList ++ ' ' ::
      (Mark.expressionEnd.text.toList ++ rest))) :
    MemberAt cs i rest (.expression body place) := by
  obtain ⟨j, hstart, h⟩ := exists_mark .expressionStart h
  have hrun : Token.expression.length
      ((' ' :: body.toList ++ [' ']) ++ (Mark.expressionEnd.text.toList ++ rest)) =
        (' ' :: body.toList ++ [' ']).length := by
    rw [List.append_assoc, List.length_append]
    exact expressionRun_append (w := ' ' :: body.toList) (not_closing_cons hbody.2.2)
  obtain ⟨_, hexpression, h⟩ := exists_token_piece (w := ' ' :: body.toList ++ [' '])
    (by rw [h, List.append_assoc]; rfl) hrun (by simp)
  obtain ⟨_, hend, h⟩ := exists_mark .expressionEnd h
  refine ⟨.expression, _, _, by decide, .node (q := 0) rfl (.cons hstart (.cons hexpression
    (.cons hend .nil))), h, fun place separator => ?_⟩
  refine ⟨.expression body (place j), ?_, rfl⟩
  rw [nodeOf, List.cons_append, strip_blanks hbody]

end

/-! ### Levels -/

section

variable {cs rest : List Char} {i : Nat} {ascii whole : Bool} {n : Node} {level : List Node}

/-- Only the last node of a level is marked as the last. -/
theorem markLast_cons (h : level ≠ [] ∨ ∀ body last place, n ≠ .text body last place) :
    markLast (n :: level) = n :: markLast level := by
  cases level with
  | nil =>
    cases n with
    | text body last place => exact absurd rfl (h.resolve_left (fun hne => hne rfl) body last place)
    | _ => rfl
  | cons m level =>
    rw [markLast, markLast, List.getLast?_cons_cons]
    split <;> simp

/-- What a node is, its places do not tell. -/
theorem ne_text_of_unplaced {n' : Node} (h : n'.unplaced = n.unplaced)
    (hn : ∀ body last place, n ≠ .text body last place) (body : String) (last : Bool)
    (place : Text.Position) : n' ≠ .text body last place := by
  rintro rfl
  cases n with
  | text body last place => exact hn _ _ _ rfl
  | _ => simp [Node.unplaced] at h

theorem Formed.ne_text (hn : Formed n) (body : String) (last : Bool) (place : Text.Position) :
    n ≠ .text body last place := by
  rintro rfl
  cases hn

/-- A level is read node by node. -/
theorem readsLevel_cons {u : Tree Phrase} {us : List (Tree Phrase)} (hu : ReadsNode u n)
    (hus : ReadsLevel us level) (h : us ≠ [] ∨ ∀ body last place, n ≠ .text body last place) :
    ReadsLevel (u :: us) (n :: level) := by
  intro place separator
  obtain ⟨n', hn', hsame⟩ := hu place separator
  obtain ⟨nodes, hnodes, hrest⟩ := hus place separator
  refine ⟨n' :: nodes, Outcome.mapM_cons_ok.mpr ⟨n', hn', nodes, hnodes, rfl⟩, ?_⟩
  have hlast : nodes ≠ [] ∨ ∀ body last place, n' ≠ .text body last place := by
    refine h.imp (fun hne hnil => hne ?_) (ne_text_of_unplaced hsame)
    exact List.forall₂_nil_right_iff.mp (hnil ▸ Outcome.mapM_eq_ok_iff.mp hnodes)
  rw [markLast_cons hlast, unplacedLevel, unplacedLevel, hsame, hrest]

/-- A node other than a text begins with two opening braces. -/
theorem Formed.exists_braces (hn : Formed n) :
    ∃ tail, (n.markup ascii).toList = '{' :: '{' :: tail := by
  cases hn with
  | @block kind =>
    cases kind with
    | list style => cases style <;> exact ⟨_, by simp [Node.markup]; rfl⟩
    | _ => exact ⟨_, by simp [Node.markup]; rfl⟩
  | _ => exact ⟨_, by simp [Node.markup]; rfl⟩

/-- What may follow a level: nothing if it is the whole template, and two opening braces
otherwise. -/
def Ends (whole : Bool) (rest : List Char) : Prop :=
  if whole then rest = [] else ∃ tail, rest = '{' :: '{' :: tail

/-- A text is read at a position. -/
theorem exists_text_member {body : String} {place : Text.Position} (hne : body ≠ "")
    (h : cs.drop i = body.toList ++ rest)
    (hrun : textRun (body.toList ++ rest) = body.toList.length) :
    MemberAt cs i rest (.text body false place) := by
  obtain ⟨_, htext, h⟩ := exists_text hne h hrun
  exact ⟨.text, _, _, by decide, .node (q := 0) rfl (.cons htext .nil), h,
    fun place separator => ⟨_, rfl, by simp [Node.unplaced]⟩⟩

mutual

/-- **A node is read where its markup stands.** -/
theorem exists_member {n : Node} (hn : Formed n) {cs rest : List Char} {i : Nat}
    (h : cs.drop i = (n.markup ascii).toList ++ rest) : MemberAt cs i rest n :=
  match hn with
  | .binding hfield => memberAt_binding hfield (by simpa [Node.markup] using h)
  | .formatted hfield => memberAt_formatted hfield (by simpa [Node.markup] using h)
  | .shown hfield htrue => memberAt_shown hfield htrue (by simpa [Node.markup, Mark.text] using h)
  | .choice hfield htrue hfalse =>
    memberAt_choice hfield htrue hfalse (by simpa [Node.markup, Mark.text] using h)
  | .expression hbody => memberAt_expression hbody (by simpa [Node.markup, Mark.text] using h)
  | @Formed.block kind _ nested _ hfield hnested => by
    have hlevel : ∀ k j, cs.drop j = (levelMarkup ascii nested).toList ++
        ((Mark.blockEnd k).text.toList ++ rest) →
          LevelAt cs j ((Mark.blockEnd k).text.toList ++ rest) nested := fun k j hj =>
      exists_chain hnested hj (by cases k <;> exact ⟨_, rfl⟩)
    cases kind with
    | clause =>
      exact memberAt_block (fun _ => rfl) hfield
        (by simpa [Node.markup, Mark.text, BlockKind.keyword, Keyword.word] using h)
        (hlevel .clause)
    | within =>
      exact memberAt_block (fun _ => rfl) hfield
        (by simpa [Node.markup, Mark.text, BlockKind.keyword, Keyword.word] using h)
        (hlevel .within)
    | list style =>
      cases style with
      | bullets =>
        exact memberAt_block (fun _ => rfl) hfield
          (by simpa [Node.markup, Mark.text, BlockKind.keyword, ListStyle.keyword,
            Keyword.word] using h)
          (hlevel .ulist)
      | numbers =>
        exact memberAt_block (fun _ => rfl) hfield
          (by simpa [Node.markup, Mark.text, BlockKind.keyword, ListStyle.keyword,
            Keyword.word] using h)
          (hlevel .olist)
      | joined separator =>
        exact memberAt_joined hfield
          (by simpa [Node.markup, Mark.text, Keyword.word] using h) (hlevel .join)

/-- **A level is read where its markup stands.** -/
theorem exists_chain {whole : Bool} {level : List Node} (hlevel : FormedLevel whole level)
    {cs rest : List Char} {i : Nat} (h : cs.drop i = (levelMarkup ascii level).toList ++ rest)
    (hrest : Ends whole rest) : LevelAt cs i rest level :=
  match hlevel with
  | .nil => ⟨i, [], .nil, by simpa [levelMarkup] using h, fun _ _ => ⟨[], rfl, rfl⟩⟩
  | @FormedLevel.last _ body place hne hplain hclosed => by
    have hend : rest = [] ∨
        (body.toList.getLast? ≠ some '{' ∧ ∃ tail, rest = '{' :: '{' :: tail) := by
      cases whole with
      | true => exact .inl hrest
      | false => exact .inr ⟨(hclosed rfl).2, hrest⟩
    simp only [levelMarkup, Node.markup, String.append_empty] at h
    obtain ⟨p, k, u, hp, hu, hk, hreads⟩ : MemberAt cs i rest (.text body false place) :=
      exists_text_member hne h (textRun_append hplain hend)
    refine ⟨k, [u], .single hp hu, hk, fun place' separator => ?_⟩
    obtain ⟨n', hn', hsame⟩ := hreads place' separator
    refine ⟨[n'], Outcome.mapM_cons_ok.mpr ⟨n', hn', [], rfl, rfl⟩, ?_⟩
    cases n' <;> simp_all [markLast, unplacedLevel, Node.unplaced]
  | @FormedLevel.text _ body place n level hne hclosed hn hlevel => by
    rw [levelMarkup, levelMarkup, String.toList_append, String.toList_append, List.append_assoc,
      List.append_assoc] at h
    obtain ⟨tail, hbraces⟩ := hn.exists_braces
    obtain ⟨p, _, u, hp, hu, h, hreads⟩ : MemberAt cs i _ (.text body false place) :=
      exists_text_member hne h
        (textRun_append hclosed.1 (.inr ⟨hclosed.2, _, by rw [hbraces]; rfl⟩))
    obtain ⟨p', _, u', hp', hu', h, hreads'⟩ := exists_member hn h
    obtain ⟨k, us, hus, h, hreads''⟩ := exists_chain hlevel h hrest
    exact ⟨k, u :: u' :: us, .cons hp hu (.cons hp' hu' hus), h, readsLevel_cons hreads
      (readsLevel_cons hreads' hreads'' (.inr hn.ne_text)) (.inl (by simp))⟩
  | .node hn hlevel => by
    rw [levelMarkup, String.toList_append, List.append_assoc] at h
    obtain ⟨p, _, u, hp, hu, h, hreads⟩ := exists_member hn h
    obtain ⟨k, us, hus, h, hreads'⟩ := exists_chain hlevel h hrest
    exact ⟨k, u :: us, .cons hp hu hus, h, readsLevel_cons hreads hreads' (.inr hn.ne_text)⟩

end

/-- **A template is read back from its markup**: reading the markup of a level of the right form
gives that level, up to the places of its nodes, whatever the file and whatever the separator of
joins without their own. -/
theorem read_levelMarkup (ascii : Bool) (h : FormedLevel true level) (file : Option String)
    (separator : String) : ∃ nodes, read (levelMarkup ascii level) file separator = .ok nodes ∧
      unplacedLevel nodes = unplacedLevel level := by
  have hdrop : (levelMarkup ascii level).toList.drop 0 = (levelMarkup ascii level).toList ++ [] :=
    (List.append_nil _).symm
  obtain ⟨k, us, hchain, hk, hreads⟩ := exists_chain h hdrop rfl
  obtain rfl : k = (levelMarkup ascii level).toList.length :=
    Nat.le_antisymm (hchain.stop_le (Nat.zero_le _)) (List.drop_eq_nil_iff.mp hk)
  have htree := isPiece_level_iff.mpr ⟨us, rfl, hchain⟩
  obtain ⟨nodes, hnodes, hsame⟩ := levelOf_of_readsLevel hchain hreads
    (Text.Position.of (levelMarkup ascii level).toList) separator
  refine ⟨markLast nodes, read_eq_ok_iff.mpr
    ⟨levelTree us, fun t => ⟨fun ht => ?_, ?_⟩, nodes, hnodes, rfl⟩, hsame⟩
  · exact tree_unique ht htree
  · rintro rfl
    exact htree

end

/-- A letter with a clause, in which the items of a list are joined. -/
def letter : List Node :=
  [.text "Dear " false ⟨1, 1⟩, .binding "name" none ⟨1, 1⟩,
    .block .clause "offer"
      [.block (.list (.joined " \"or\" ")) "items"
        [.formatted "price" "\x7b0,0.00" ⟨1, 1⟩, .choice "gift" "\x7bfree\x7d" "" ⟨1, 1⟩] ⟨1, 1⟩,
        .text ".\n" true ⟨1, 1⟩] ⟨1, 1⟩,
    .expression "total % 2" ⟨1, 1⟩, .text "\x7b" true ⟨1, 1⟩]

theorem formedLevel_letter : FormedLevel true letter :=
  .text (by decide) (by decide) (.binding (by decide +kernel))
    (.node (.block (by decide +kernel)
      (.node (.block (by decide +kernel)
        (.node (.formatted (by decide +kernel))
          (.node (.choice (by decide +kernel) (by decide) (by decide)) .nil)))
        (.last (by decide) (by decide) fun _ => by decide)))
      (.node (.expression (by decide +kernel))
        (.last (by decide) (by decide) nofun)))

theorem read_levelMarkup_letter : FormedLevel true letter ∧
    ∃ nodes, read (levelMarkup true letter) none ", " = .ok nodes ∧
      unplacedLevel nodes = unplacedLevel letter :=
  ⟨formedLevel_letter, read_levelMarkup true formedLevel_letter none ", "⟩

example : levelMarkup true letter =
    "Dear \x7b\x7bname\x7d\x7d\x7b\x7b#clause offer\x7d\x7d" ++
    "\x7b\x7b#join items separator=\" \\\"or\\\" \"\x7d\x7d" ++
    "\x7b\x7bprice as \"\x7b0,0.00\"\x7d\x7d" ++
    "\x7b\x7b#if gift\x7d\x7d\x7bfree\x7d\x7b\x7belse\x7d\x7d\x7b\x7b/if\x7d\x7d" ++
    "\x7b\x7b/join\x7d\x7d.\n\x7b\x7b/clause\x7d\x7d\x7b\x7b% total % 2 %\x7d\x7d\x7b" := by
  decide +kernel

end Covenant.Markup
