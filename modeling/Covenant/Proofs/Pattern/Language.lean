import Covenant.Proofs.Grammar.Derives
import Covenant.Proofs.Pattern.Ways

/-!
The texts that a pattern matches.

* `Admits`: a text is matched as a whole, in one way or another, with one lemma for each way
  to build patterns.
* `admits_of_accepts`: a symbol takes texts of its pattern only.
* `admits_of_split`: a text is cut into texts of the patterns.
* `texts?`: the texts of a pattern of characters and ranges, without repetitions;
  `holds_of_texts`: what can be checked of each of these holds of whatever the pattern admits.
-/

namespace Covenant

namespace Pattern

/-- **A text that a pattern matches as a whole**, in one way or another. -/
def Admits (p : Pattern) (cs : List Char) : Prop :=
  cs.length ∈ p.ways cs

variable {p q : Pattern} {s cs : List Char}

/-- The ways in a text are the lengths of those of its beginnings that are matched as a whole. -/
theorem mem_ways_iff {a : Nat} : a ∈ p.ways s ↔ a ≤ s.length ∧ p.Admits (s.take a) := by
  constructor
  · intro h
    have hle := (ways_take p).le h
    refine ⟨hle, ?_⟩
    rw [Admits, List.length_take, Nat.min_eq_left hle, ways_take]
    exact List.mem_filter.mpr ⟨h, by simp⟩
  · rintro ⟨hle, h⟩
    rw [Admits, List.length_take, Nat.min_eq_left hle, ways_take] at h
    exact (List.mem_filter.mp h).1

theorem admits_empty_iff : Pattern.empty.Admits cs ↔ cs = [] := by
  simp [Admits, ways]

theorem admits_single {admitted : Char → Bool} (h : cs.length ∈ single admitted cs) :
    ∃ d, admitted d = true ∧ cs = [d] := by
  cases cs with
  | nil => cases h
  | cons d cs =>
    rw [single] at h
    split at h
    · have hlength := List.mem_singleton.mp h
      exact ⟨d, ‹_›, by simpa using hlength⟩
    · cases h

theorem admits_char_iff {c : Char} : (Pattern.char c).Admits cs ↔ cs = [c] := by
  constructor
  · intro h
    obtain ⟨d, hd, rfl⟩ := admits_single h
    rw [of_decide_eq_true hd]
  · rintro rfl
    simp [Admits, ways, single]

theorem admits_any_iff : Pattern.any.Admits cs ↔ ∃ d, d ≠ '\n' ∧ cs = [d] := by
  constructor
  · intro h
    obtain ⟨d, hd, rfl⟩ := admits_single h
    exact ⟨d, by simpa using hd, rfl⟩
  · rintro ⟨d, hd, rfl⟩
    simp [Admits, ways, single, hd]

theorem admits_oneOf_iff {negated : Bool} {parts : List ClassPart} :
    (Pattern.oneOf negated parts).Admits cs ↔
      ∃ d, (parts.any (·.admits d) != negated) = true ∧ cs = [d] := by
  constructor
  · exact fun h => admits_single h
  · rintro ⟨d, hd, rfl⟩
    simp only [Admits, ways, single, hd]
    simp

/-- Lengths one after the other. -/
theorem mem_flatMap_iff {w : List Char → List Nat} {v : Nat → List Nat} {a : Nat} :
    (a ∈ (w s).flatMap fun b => (v b).map (b + ·)) ↔ ∃ b ∈ w s, ∃ c ∈ v b, b + c = a := by
  simp [List.mem_flatMap]

theorem admits_seq_iff : (Pattern.seq p q).Admits cs ↔
    ∃ front back, cs = front ++ back ∧ p.Admits front ∧ q.Admits back := by
  constructor
  · intro h
    obtain ⟨a, ha, b, hb, hlength⟩ := mem_flatMap_iff.mp h
    obtain ⟨hle, hp⟩ := mem_ways_iff.mp ha
    refine ⟨cs.take a, cs.drop a, (List.take_append_drop a cs).symm, hp, ?_⟩
    rwa [Admits, List.length_drop, show cs.length - a = b by omega]
  · rintro ⟨front, back, rfl, hp, hq⟩
    refine mem_flatMap_iff.mpr ⟨front.length, ?_, back.length, ?_, by simp⟩
    · exact mem_ways_iff.mpr ⟨by simp, by rwa [List.take_left]⟩
    · rwa [List.drop_left]

theorem admits_alt_iff : (Pattern.alt p q).Admits cs ↔ p.Admits cs ∨ q.Admits cs :=
  List.mem_append

/-! ### Repetitions -/

/-- Pieces of a beginning of a text, of some length, that are matched. -/
def Pieces (p : Pattern) (s : List Char) (a : Nat) (pieces : List (List Char)) : Prop :=
  a ≤ s.length ∧ (∀ piece ∈ pieces, p.Admits piece) ∧ pieces.flatten = s.take a

theorem Pieces.cons {a b : Nat} {pieces : List (List Char)} (ha : a ∈ p.ways s)
    (h : Pieces p (s.drop a) b pieces) : Pieces p s (a + b) (s.take a :: pieces) := by
  obtain ⟨hle, hp⟩ := mem_ways_iff.mp ha
  obtain ⟨hle', hall, hflatten⟩ := h
  rw [List.length_drop] at hle'
  refine ⟨by omega, List.forall_mem_cons.mpr ⟨hp, hall⟩, ?_⟩
  rw [List.flatten_cons, hflatten, List.take_add]

theorem pieces_of_roundWays {n a : Nat} (h : a ∈ roundWays p.ways n s) :
    ∃ pieces, Pieces p s a pieces ∧ pieces.length = n := by
  induction n generalizing s a with
  | zero =>
    obtain rfl := List.mem_singleton.mp h
    exact ⟨[], ⟨by omega, by simp, by simp⟩, rfl⟩
  | succ n ih =>
    obtain ⟨b, hb, c, hc, rfl⟩ := mem_flatMap_iff.mp h
    obtain ⟨pieces, hpieces, hlength⟩ := ih hc
    exact ⟨_, hpieces.cons hb, by rw [List.length_cons, hlength]⟩

theorem pieces_of_moreWays {lazy : Bool} {fuel a : Nat} {more : Option Nat}
    (h : a ∈ moreWays p.ways lazy fuel more s) :
    ∃ pieces, Pieces p s a pieces ∧ ∀ m ∈ more, pieces.length ≤ m := by
  have hnil : Pieces p s 0 [] := ⟨by omega, by simp, by simp⟩
  induction fuel generalizing s a more with
  | zero =>
    obtain rfl := List.mem_singleton.mp h
    exact ⟨[], hnil, by simp⟩
  | succ fuel ih =>
    rw [moreWays] at h
    have hcases : a = 0 ∨ more ≠ some 0 ∧ ∃ b ∈ p.ways s, ∃ c ∈
        (if b = 0 then [0] else moreWays p.ways lazy fuel (more.map (· - 1)) (s.drop b)),
          b + c = a := by
      have hmem : a = 0 ∨ a ∈ (if more = some 0 then [] else (p.ways s).flatMap fun b =>
          (if b = 0 then [0] else moreWays p.ways lazy fuel (more.map (· - 1)) (s.drop b)).map
            (b + ·)) := by
        cases lazy <;> simpa [or_comm] using h
      refine hmem.imp_right fun hmem => ?_
      split at hmem
      · cases hmem
      · exact ⟨‹_›, mem_flatMap_iff.mp hmem⟩
    rcases hcases with rfl | ⟨hmore, b, hb, c, hc, rfl⟩
    · exact ⟨[], hnil, by simp⟩
    · have hrest : ∃ pieces, Pieces p (s.drop b) c pieces ∧
          ∀ m ∈ more.map (· - 1), pieces.length ≤ m := by
        split at hc
        · obtain rfl := List.mem_singleton.mp hc
          exact ⟨[], ⟨by omega, by simp, by simp⟩, by simp⟩
        · exact ih hc ⟨by omega, by simp, by simp⟩
      obtain ⟨pieces, hpieces, hlength⟩ := hrest
      refine ⟨_, hpieces.cons hb, fun m hm => ?_⟩
      obtain rfl := Option.mem_def.mp hm
      have hle := hlength (m - 1) rfl
      have hpos : m ≠ 0 := fun hzero => hmore (hzero ▸ rfl)
      rw [List.length_cons]
      omega

/-- **A repetition** matches texts of its pattern one after the other, as many as it asks for. -/
theorem exists_of_admits_rep {least : Nat} {more : Option Nat} {lazy : Bool}
    (h : (Pattern.rep p least more lazy).Admits cs) :
    ∃ pieces : List (List Char), cs = pieces.flatten ∧ (∀ piece ∈ pieces, p.Admits piece) ∧
      least ≤ pieces.length ∧ ∀ m ∈ more, pieces.length ≤ least + m := by
  obtain ⟨a, ha, b, hb, hlength⟩ := mem_flatMap_iff.mp h
  obtain ⟨first, ⟨hle, hfirst, hflatten⟩, rfl⟩ := pieces_of_roundWays ha
  obtain ⟨rest, ⟨_, hrest, hflatten'⟩, hbound⟩ := pieces_of_moreWays hb
  refine ⟨first ++ rest, ?_, List.forall_mem_append.mpr ⟨hfirst, hrest⟩, ?_, fun m hm => ?_⟩
  · rw [List.flatten_append, hflatten, hflatten', ← List.take_add, hlength, List.take_length]
  · rw [List.length_append]
    omega
  · rw [List.length_append]
    have hle := hbound m hm
    omega

/-- **Characters one after the other**, as a repetition of a class matches them. -/
theorem exists_of_admits_class {negated : Bool} {parts : List ClassPart} {least : Nat}
    {more : Option Nat} {lazy : Bool}
    (h : (Pattern.rep (.oneOf negated parts) least more lazy).Admits cs) :
    (∀ c ∈ cs, (parts.any (·.admits c) != negated) = true) ∧ least ≤ cs.length ∧
      ∀ m ∈ more, cs.length ≤ least + m := by
  obtain ⟨pieces, rfl, hpieces, hleast, hmore⟩ := exists_of_admits_rep h
  have hsingle : ∀ piece ∈ pieces, ∃ c, (parts.any (·.admits c) != negated) = true ∧
      piece = [c] := fun piece hpiece => admits_oneOf_iff.mp (hpieces piece hpiece)
  have hlength : pieces.flatten.length = pieces.length := by
    clear hpieces hleast hmore h
    induction pieces with
    | nil => rfl
    | cons piece pieces ih =>
      obtain ⟨⟨c, _, rfl⟩, hrest⟩ := List.forall_mem_cons.mp hsingle
      rw [List.flatten_cons, List.length_append, ih hrest, List.length_singleton, List.length_cons,
        Nat.add_comm]
  refine ⟨fun c hc => ?_, hlength ▸ hleast, hlength ▸ hmore⟩
  obtain ⟨piece, hpiece, hc⟩ := List.mem_flatten.mp hc
  obtain ⟨d, hd, rfl⟩ := hsingle piece hpiece
  exact List.mem_singleton.mp hc ▸ hd

/-! ### Cutting texts -/

/-- **A text is cut** into texts of the patterns. -/
theorem admits_of_split {ps : List Pattern} {pieces : List (List Char)}
    (h : split? ps s = some pieces) :
    List.Forall₂ Admits ps pieces ∧ pieces.flatten = s := by
  induction ps generalizing s pieces with
  | nil =>
    unfold split? at h
    split at h
    · cases h
      exact ⟨.nil, (List.isEmpty_iff.mp ‹_›).symm⟩
    · cases h
  | cons p ps ih =>
    rw [split?, run_eq] at h
    obtain ⟨_, a, _, _, hpiece, _⟩ := List.findSome?_eq_some_iff.mp h
    have ha : a ∈ p.ways s := by simp_all
    obtain ⟨rest, hrest, rfl⟩ := Option.map_eq_some_iff.mp hpiece
    obtain ⟨hall, hflatten⟩ := ih hrest
    rw [Nat.zero_add]
    refine ⟨.cons (mem_ways_iff.mp ha).2 hall, ?_⟩
    rw [List.flatten_cons, hflatten, List.take_append_drop]

end Pattern

/-- **A symbol takes texts of its pattern** only. -/
theorem Symbol.admits_of_accepts {x : Symbol} {cs : List Char} (h : x.Accepts cs) :
    x.toPattern.Admits cs := by
  rw [Symbol.Accepts, Pattern.match_eq] at h
  exact List.mem_of_mem_head? h

/-! ### Patterns of finitely many texts -/

def ClassPart.chars? : ClassPart → Option (List Char)
  | .range low high =>
    some ((List.range (high.toNat + 1 - low.toNat)).map fun i => Char.ofNat (low.toNat + i))
  | _ => none

theorem ClassPart.mem_of_chars {part : ClassPart} {cs : List Char} (h : part.chars? = some cs)
    {c : Char} (hc : part.admits c = true) : c ∈ cs := by
  cases part with
  | range low high =>
    cases h
    obtain ⟨hlow, hhigh⟩ := Bool.and_eq_true_iff.mp hc
    have hlow : low.toNat ≤ c.toNat := of_decide_eq_true hlow
    have hhigh : c.toNat ≤ high.toNat := of_decide_eq_true hhigh
    refine List.mem_map.mpr ⟨c.toNat - low.toNat, List.mem_range.mpr (by omega), ?_⟩
    rw [Nat.add_sub_cancel' hlow, Char.ofNat_toNat]
  | _ => cases h

namespace Pattern

/-- **The texts of a pattern** of characters and ranges. -/
def texts? : Pattern → Option (List (List Char))
  | .empty => some [[]]
  | .char c => some [[c]]
  | .oneOf false parts =>
    if parts.all (·.chars?.isSome) then
      some (parts.flatMap fun part => (part.chars?.getD []).map ([·]))
    else none
  | .seq p q => do
    let xs ← p.texts?
    let ys ← q.texts?
    return xs.flatMap fun x => ys.map (x ++ ·)
  | .alt p q => do
    let xs ← p.texts?
    let ys ← q.texts?
    return xs ++ ys
  | _ => none

variable {p : Pattern} {xs : List (List Char)} {cs : List Char}

/-- **Whatever the pattern admits** is among its texts. -/
theorem mem_of_texts (h : p.texts? = some xs) (hcs : p.Admits cs) : cs ∈ xs := by
  induction p generalizing xs cs with
  | empty =>
    cases h
    exact List.mem_singleton.mpr (admits_empty_iff.mp hcs)
  | char c =>
    cases h
    exact List.mem_singleton.mpr (admits_char_iff.mp hcs)
  | any => cases h
  | oneOf negated parts =>
    cases negated with
    | true => cases h
    | false =>
      obtain ⟨c, hc, rfl⟩ := admits_oneOf_iff.mp hcs
      obtain ⟨part, hpart, hc⟩ := List.any_eq_true.mp (by simpa using hc)
      rw [texts?] at h
      split at h
      · rename_i hall
        cases h
        obtain ⟨ds, hds⟩ := Option.isSome_iff_exists.mp (List.all_eq_true.mp hall part hpart)
        refine List.mem_flatMap.mpr ⟨part, hpart, List.mem_map_of_mem ?_⟩
        rw [hds]
        exact ClassPart.mem_of_chars hds hc
      · cases h
  | seq p q ihp ihq =>
    obtain ⟨xs, hxs, h⟩ := Option.bind_eq_some_iff.mp h
    obtain ⟨ys, hys, h⟩ := Option.bind_eq_some_iff.mp h
    cases h
    obtain ⟨front, back, rfl, hfront, hback⟩ := admits_seq_iff.mp hcs
    exact List.mem_flatMap.mpr ⟨front, ihp hxs hfront, List.mem_map_of_mem (ihq hys hback)⟩
  | alt p q ihp ihq =>
    obtain ⟨xs, hxs, h⟩ := Option.bind_eq_some_iff.mp h
    obtain ⟨ys, hys, h⟩ := Option.bind_eq_some_iff.mp h
    cases h
    exact List.mem_append.mpr ((admits_alt_iff.mp hcs).imp (ihp hxs) (ihq hys))
  | rep => cases h

/-- What is checked of each text of a pattern. -/
theorem holds_of_texts {holds : List Char → Bool} (h : (p.texts?.any (·.all holds)) = true)
    (hcs : p.Admits cs) : holds cs = true := by
  cases htexts : p.texts? with
  | none =>
    rw [htexts] at h
    cases h
  | some xs =>
    rw [htexts] at h
    exact List.all_eq_true.mp h cs (mem_of_texts htexts hcs)

end Pattern

end Covenant
