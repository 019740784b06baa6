import Covenant.Proofs.Source.Accepted

/-!
Rules that are read back as they are.

Source holds a pattern between slashes, where a line break cannot stand; a pattern is
read back as it was when it has none and no slash behind a backslash (`Slashed.Steady`).

* `Slashed.decode_encode`: such a pattern is read back unchanged.
* `RuleSet.read_write_steady`: a complete set of rules with such patterns is read back
  with the same start, expressions, names, alternatives and actions.
* `RuleSet.malformed_of_break`: a set whose source begins with a pattern that has a line
  feed behind a backslash is not read back at all.
-/

namespace Covenant

namespace Slashed

/-- A pattern whose backslashes stand in pairs with characters other than slashes and
line feeds, and that has no other line breaks. -/
inductive Steady : List Char → Prop where
  | nil : Steady []
  | pair {c : Char} {cs : List Char} (hslash : c ≠ '/') (hline : c ≠ '\n') (hcs : Steady cs) :
      Steady ('\\' :: c :: cs)
  | plain {c : Char} {cs : List Char} (hpair : c ≠ '\\') (hline : c ≠ '\n') (hreturn : c ≠ '\r')
      (hcs : Steady cs) : Steady (c :: cs)

def isSteady : List Char → Bool
  | [] => true
  | ['\\'] => false
  | '\\' :: c :: cs => c != '/' && c != '\n' && isSteady cs
  | c :: cs => c != '\n' && c != '\r' && isSteady cs

theorem steady_of_isSteady {cs : List Char} (h : isSteady cs = true) : Steady cs := by
  fun_induction isSteady cs with
  | case1 => exact .nil
  | case2 => cases h
  | case3 c cs ih =>
    simp only [Bool.and_eq_true, bne_iff_ne] at h
    exact .pair h.1.1 h.1.2 (ih h.2)
  | case4 c cs hend hpair ih =>
    simp only [Bool.and_eq_true, bne_iff_ne] at h
    refine .plain ?_ h.1.1 h.1.2 (ih h.2)
    rintro rfl
    cases cs with
    | nil => exact hend rfl rfl
    | cons d ds => exact hpair d ds rfl rfl

theorem Steady.append {p q : List Char} (hp : Steady p) (hq : Steady q) : Steady (p ++ q) := by
  induction hp with
  | nil => exact hq
  | pair hslash hline _ ih => exact .pair hslash hline ih
  | plain hpair hline hreturn _ ih => exact .plain hpair hline hreturn ih

theorem steady_of_plain {cs : List Char} (h : ∀ c ∈ cs, c ≠ '\\' ∧ c ≠ '\n' ∧ c ≠ '\r') :
    Steady cs := by
  induction cs with
  | nil => exact .nil
  | cons c cs ih =>
    obtain ⟨hpair, hline, hreturn⟩ := h c (by simp)
    exact .plain hpair hline hreturn (ih fun d hd => h d (by simp [hd]))

/-- **Steady patterns are read back unchanged.** -/
theorem decode_encode {p : List Char} (h : Steady p) : decode (encode p) = p := by
  induction h with
  | nil => rfl
  | pair hslash _ _ ih => rw [encode, decode, if_neg hslash, ih]
  | @plain c cs hpair hline hreturn _ ih =>
    rw [encode_cons_plain hpair, if_neg hline, if_neg hreturn]
    by_cases hslash : c = '/'
    · subst hslash
      rw [if_pos rfl]
      simp [decode, ih]
    · rw [if_neg hslash, List.singleton_append, decode_cons_plain hpair, ih]

theorem Steady.paired {p : List Char} (h : Steady p) : paired p = true := by
  induction h with
  | nil => rfl
  | pair _ _ _ ih => exact ih
  | plain hpair _ _ _ ih => rw [paired_cons_plain hpair, ih]

theorem Steady.enclosable {p : List Char} (h : Steady p) : Enclosable p := by
  refine ⟨h.paired, fun hinfix => ?_⟩
  have hline : '\n' ∈ p := hinfix.subset (by simp)
  clear hinfix
  induction h with
  | nil => cases hline
  | pair _ hne _ ih => simp_all [eq_comm]
  | plain _ hne _ _ ih => simp_all [eq_comm]

end Slashed

/-! ### Rules -/

/-- A rule that source holds as it is: its names are names of source, its patterns are
steady, and its comment is not blank. -/
structure Rule.Steady (r : Rule) : Prop where
  name : Source.IsName r.name
  action : ∀ a, r.action = some a → Source.IsName a.name ∧ ∀ p ∈ a.params, Source.IsName p.key
  patterns : ∀ a ∈ r.alternatives, ∀ x ∈ a, x.kind = .pattern →
    x.value ≠ "" ∧ Slashed.Steady x.value.toList
  comment : ∀ c, r.comment = some c → c = "" ∨ Text.words c ≠ []

theorem Rule.Steady.printable {r : Rule} (h : r.Steady) : r.Printable :=
  ⟨h.name, h.action, fun a ha x hx hk => (h.patterns a ha x hx hk).imp_right fun hp => hp.enclosable,
    h.comment⟩

theorem Rule.Steady.alternatives_canonical {r : Rule} (h : r.Steady) :
    r.canonical.alternatives = r.alternatives := by
  have hsymbol : ∀ a ∈ r.alternatives, ∀ x ∈ a, x.canonical = x := by
    intro a ha x hx
    unfold Symbol.canonical
    split
    · rename_i hkind
      rw [Slashed.decode_encode (h.patterns a ha x hx hkind).2, String.ofList_toList]
    · rfl
  change r.alternatives.map (·.map Symbol.canonical) = r.alternatives
  refine (List.map_congr_left fun a ha => ?_).trans (List.map_id _)
  exact (List.map_congr_left (hsymbol a ha)).trans (List.map_id _)

namespace RuleSet

/-- Two rule sets that differ in comments and origins only. -/
structure Same (s t : RuleSet) : Prop where
  start : s.start = t.start
  expressions : s.expressions = t.expressions
  rules : s.rules.map (fun r => (r.name, r.alternatives, r.action))
    = t.rules.map fun r => (r.name, r.alternatives, r.action)

/-- **A complete set of steady rules is read back as it is**, comments and origins
apart. -/
theorem read_write_steady {s : RuleSet} (hs : s.WellFormed) (hsteady : ∀ r ∈ s.rules, r.Steady)
    (hcheck : s.check = .ok ()) : ∃ text, s.write = .ok text ∧
      ∀ file, ∃ t, read text file = .ok t ∧ t.Same s ∧ t.check = .ok () := by
  have hfault := check_eq_ok_iff.mp hcheck
  have hwritable : s.Writable := .of_complete hs (fun r hr => (hsteady r hr).printable) hfault
  obtain ⟨start, hstart, hwrite⟩ := write_eq_ok hfault
  refine ⟨s.text start, hwrite, fun file => ⟨s.canonical, read_text hwritable hstart hfault file,
    ⟨rfl, rfl, ?_⟩, check_eq_ok_iff.mpr ((fault_canonical s).trans hfault)⟩⟩
  rw [canonical, List.map_map]
  refine List.map_congr_left fun r hr => ?_
  exact Prod.ext rfl (Prod.ext (hsteady r hr).alternatives_canonical rfl)

end RuleSet

/-! ### Patterns that break their line -/

namespace Source

/-- A line feed behind a backslash is written as it is, and so ends a pattern's line. -/
theorem quotedBody_break {p : List Char} (hp : Slashed.Steady p) (q rest : List Char) :
    quotedBody '/' (Slashed.encode (p ++ '\\' :: '\n' :: q) ++ rest) = none := by
  induction hp with
  | nil => simp [Slashed.encode, quotedBody]
  | pair _ hline _ ih =>
    rw [List.cons_append, List.cons_append, Slashed.encode, List.cons_append, List.cons_append,
      quotedBody_pair hline, ih]
    rfl
  | @plain c cs hpair hline hreturn _ ih =>
    rw [List.cons_append, Slashed.encode_cons_plain hpair, if_neg hline, if_neg hreturn]
    by_cases hslash : c = '/'
    · rw [if_pos hslash, List.append_assoc, List.cons_append, List.singleton_append,
        quotedBody_pair (by decide), ih]
      rfl
    · rw [if_neg hslash, List.append_assoc, List.singleton_append,
        quotedBody_plain hpair hslash hline, ih]
      rfl

/-- Where a pattern is not closed on its line, scanning ends. -/
theorem scans_stray {cs : List Char} (h : quotedBody '/' cs = none) :
    Scans ('/' :: cs) [.stray] [] :=
  scans_of_next (by decide) (by rw [nextToken, h]) (by simp)

theorem exists_toList_intercalate (sep x : String) (xs : List String) :
    ∃ rest, (sep.intercalate (x :: xs)).toList = x.toList ++ rest := by
  rw [String.toList_intercalate]
  cases xs with
  | nil => exact ⟨[], by simp⟩
  | cons y ys => exact ⟨_, by rw [List.map_cons, List.map_cons, List.intercalate_cons_cons, List.append_assoc]⟩

/-- The text of a rule whose first symbol is a pattern. -/
theorem exists_toList_write {r : Rule} {x : Symbol} {xs : List Symbol} {as : List (List Symbol)}
    (halternatives : r.alternatives = (x :: xs) :: as) (hkind : x.kind = .pattern) :
    ∃ rest, r.write.toList
      = r.name.toList ++ " -> /".toList ++ (Slashed.encode x.value.toList ++ rest) := by
  obtain ⟨rest, hrest⟩ := exists_toList_intercalate " " x.write (xs.map Symbol.write)
  obtain ⟨rest', hrest'⟩ := exists_toList_intercalate " | " (writeAlternative (x :: xs))
    (as.map writeAlternative)
  rw [Rule.write_eq, halternatives, List.map_cons]
  simp only [String.toList_append, hrest']
  rw [writeAlternative, List.map_cons, hrest, Symbol.write, Symbol.body, hkind]
  simp only [String.toList_append, String.toList_ofList]
  exact ⟨_, by simp; rfl⟩

/-- Scanning the text of a rule set whose first symbol is a pattern that is not closed on its line
ends where the pattern begins. -/
theorem scans_break {s : RuleSet} {start : String} (hstart : IsName start)
    (hexpressions : s.expressions = false) {r : Rule} {rs : List Rule} (hrules : s.rules = r :: rs)
    (hname : IsName r.name) {x : Symbol} {xs : List Symbol} {as : List (List Symbol)}
    (halternatives : r.alternatives = (x :: xs) :: as) (hkind : x.kind = .pattern)
    (hstray : ∀ rest, quotedBody '/' (Slashed.encode x.value.toList ++ rest) = none) :
    ∃ comment, Scans (s.text start).toList [.comment comment, .newline, .startMark, .name start,
      .newline, .name r.name, .arrow, .stray] [] := by
  obtain ⟨rest, hwrite⟩ := exists_toList_write halternatives hkind
  have hscans : ∃ rest, (s.text start).toList
      = '#' :: (" clausegram grammar".toList ++ '\n' :: ("@start".toList ++ ' ' :: (start.toList
        ++ '\n' :: (r.name.toList ++ ' ' :: '-' :: '>' :: ' ' :: '/' ::
          (Slashed.encode x.value.toList ++ rest))))) := by
    refine ⟨rest ++ '\n' :: (rs.map fun r => r.write ++ "\n").flatMap String.toList, ?_⟩
    unfold RuleSet.text
    simp [hexpressions, hrules, String.toList_join, hwrite]
  obtain ⟨rest', htext⟩ := hscans
  have hrule := (scans_name hname (stops_space _).ends_name).append
    ((scans_arrow _).gap.append (scans_stray (hstray rest')).gap)
  have hline := (scans_name hstart (stops_newline _).ends_name).append
    ((scans_newline _).append hrule)
  have hblank : '\n' ∉ " clausegram grammar".toList := by decide
  have hall := (scans_comment hblank _).append ((scans_newline _).append
    ((scans_startMark _).append hline.gap))
  rw [← htext] at hall
  exact ⟨_, hall⟩

/-- A rule that breaks off after its arrow is no line, whatever stands above it. -/
theorem readLines_stray {comment start name : String} {ts : List Placed}
    (h : ts.map Placed.token = [.comment comment, .newline, .startMark, .name start, .newline,
      .name name, .arrow, .stray]) : ∃ left, readLines [] ts = .error left := by
  obtain ⟨_, us, hus, hcomment⟩ := exists_readLines [.comment _] (fun _ => .blank)
    h (by simp) fun _ _ hws => ⟨0, readLine_comment hws⟩
  obtain ⟨_, vs, hvs, hdirective⟩ := exists_readLines [.startMark, .name start]
    (fun _ => .start start) hus (by simp) fun _ _ hws => ⟨0, readLine_start hws⟩
  obtain ⟨⟨_, _⟩, _, rfl, ht, hvs⟩ := List.map_eq_cons_iff.mp hvs
  obtain ⟨⟨_, _⟩, _, rfl, hu, hvs⟩ := List.map_eq_cons_iff.mp hvs
  obtain ⟨⟨_, left⟩, rfl, hv⟩ := List.map_eq_singleton_iff.mp hvs
  cases ht
  cases hu
  cases hv
  have halternatives : readAlternatives 0 [⟨.stray, left⟩] = .error left := by
    rw [readAlternatives]
    rfl
  refine ⟨left, ?_⟩
  rw [hcomment, hdirective]
  simp [readLines, readLine, halternatives, bind, Except.bind, Except.map]

end Source

open Source in
/-- **A pattern with a line feed behind a backslash is not read back**: a rule set whose
first symbol is one has a source that is malformed. -/
theorem RuleSet.malformed_of_break {s : RuleSet} {start : String} (hstart : IsName start)
    (hexpressions : s.expressions = false) {r : Rule} {rs : List Rule} (hrules : s.rules = r :: rs)
    (hname : IsName r.name) {x : Symbol} {xs : List Symbol} {as : List (List Symbol)}
    (halternatives : r.alternatives = (x :: xs) :: as) (hkind : x.kind = .pattern)
    {p q : List Char} (hp : Slashed.Steady p) (hvalue : x.value.toList = p ++ '\\' :: '\n' :: q)
    (file : Option String) :
    ∃ span, read (s.text start) file = .error { cause := .grammar .malformed, file, span } := by
  have hstray : ∀ rest, quotedBody '/' (Slashed.encode x.value.toList ++ rest) = none := by
    rw [hvalue]
    exact fun rest => quotedBody_break hp q rest
  obtain ⟨_, hscans⟩ := scans_break hstart hexpressions hrules hname halternatives hkind hstray
  obtain ⟨left, hleft⟩ := readLines_stray (map_token_tokens hscans rfl (Nat.lt_succ_self _))
  unfold read
  rw [endLine_text]
  simp only [hleft]
  exact ⟨_, rfl⟩

end Covenant
