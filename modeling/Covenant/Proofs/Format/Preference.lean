import Covenant.Proofs.Format.Fields
import Covenant.Proofs.Format.Inverses

/-!
Texts that the symbols of formats take.

* `Pattern.match_of_leads`: a text that is matched in some way is matched so in the preferred way,
  if none of its beginnings is matched.
* `DateField.accepts_of_admits`: fields take every text that they match as a whole.
* `AmountFormat.accepts_of_admits`: so do numbers, since their repetitions end at separators.
-/

namespace Covenant

namespace Pattern

variable {p q : Pattern} {cs : List Char}

/-! ### Preferred matches -/

/-- **A text that is matched as a whole is matched so in the preferred way** if none of its
beginnings is matched. -/
theorem match_of_leads (h : p.Admits cs)
    (hleads : ∀ front, p.Admits front → front <+: cs → front = cs) :
    p.match? cs = some cs.length := by
  obtain ⟨a, as, hways⟩ := List.exists_cons_of_ne_nil (List.ne_nil_of_mem h)
  obtain ⟨hle, ha⟩ := mem_ways_iff.mp (hways ▸ List.mem_cons_self : a ∈ p.ways cs)
  have hwhole := congrArg List.length (hleads _ ha (List.take_prefix a cs))
  rw [List.length_take, Nat.min_eq_left hle] at hwhole
  rw [match_eq, hways, List.head?_cons, hwhole]

theorem match_of_hasWidth (hp : p.HasWidth) (h : p.Admits cs) : p.match? cs = some cs.length := by
  obtain ⟨n, hn⟩ := hp
  exact match_of_leads h fun front hfront hprefix =>
    hprefix.eq_of_length ((hn _ hfront).trans (hn _ h).symm)

theorem run_join {β : Type} {s : List Char} {n : Nat} {k : Next β} :
    (join p (q, [])).1.run s n k = p.run s n fun s n => q.run s n k := by
  rw [join]
  split
  · rename_i hempty
    rw [show q = .empty from hempty]
    rfl
  · rfl

end Pattern

/-! ### Fields of dates -/

/-- **A field takes every text that it matches as a whole.** -/
theorem DateField.accepts_of_admits {f : DateField} {cs : List Char} (h : f.Admits cs) :
    (Symbol.pattern f.regex).Accepts cs := by
  rw [Symbol.Accepts]
  cases hbare : f.bare with
  | false =>
    exact Pattern.match_of_leads h fun front hfront hleads => eq_of_leads hbare hfront h hleads
  | true =>
    cases f with
    | month | day | hour =>
      exact of_decide_eq_true (holds_of_admits
        (fun cs => (Symbol.pattern _).toPattern.match? cs = some cs.length) (by decide +kernel) h)
    | _ => cases hbare

/-! ### Numbers -/

namespace AmountFormat

open Pattern
open Covenant.Symbol (digitPattern run_digits run_width)

variable {f : AmountFormat} {cs : List Char} {n b : Nat} {k : Next Nat}

/-- A separator and digits, as many as are asked for. -/
theorem run_marked {c : Char} {ds rest : List Char} (hds : ∀ d ∈ ds, d.isDigit = true) :
    (Pattern.seq (.char c) (.rep digitPattern ds.length (some 0) false)).run (c :: ds ++ rest) n k =
      k rest (n + (c :: ds).length) := by
  rw [run, List.cons_append, run, if_pos rfl, run_width hds, List.length_cons, Nat.add_assoc,
    Nat.add_comm 1]

theorem admits_marked_iff {c : Char} {width : Nat} :
    (Pattern.seq (.char c) (.rep digitPattern width (some 0) false)).Admits cs ↔
      ∃ ds : List Char, cs = c :: ds ∧ (∀ d ∈ ds, d.isDigit = true) ∧ ds.length = width := by
  rw [admits_seq_iff]
  simp only [admits_char_iff, DateField.admits_width_iff]
  constructor
  · rintro ⟨_, ds, rfl, rfl, hds⟩
    exact ⟨ds, rfl, hds⟩
  · rintro ⟨ds, rfl, hds⟩
    exact ⟨[c], ds, rfl, rfl, hds⟩

/-- A fraction at the end is taken. -/
theorem run_fraction (h : f.fractionPattern.Admits cs) :
    f.fractionPattern.run cs n (fun _ n => some n) = some (n + cs.length) := by
  unfold fractionPattern at h ⊢
  cases hdecimal : f.decimal with
  | none =>
    rw [hdecimal] at h
    rw [admits_empty_iff.mp h]
    rfl
  | some c =>
    rw [hdecimal] at h
    obtain ⟨ds, rfl, hds, hlength⟩ := admits_marked_iff.mp h
    simp only [← hlength]
    have hrun := @run_marked n (fun _ n => some n) c ds [] hds
    rwa [List.append_nil] at hrun

section

variable {c : Char} {fraction : List Char}

/-- Groups of digits begin with their separator. -/
theorem head_groups (h : (Pattern.rep (groupPattern c) 1 none false).Admits cs) :
    ∃ rest, cs = c :: rest := by
  obtain ⟨pieces, rfl, hpieces, hone, -⟩ := exists_of_admits_rep h
  obtain ⟨piece, pieces, rfl⟩ := List.exists_cons_of_length_pos hone
  obtain ⟨ds, rfl, -⟩ := admits_marked_iff.mp (hpieces piece List.mem_cons_self)
  exact ⟨ds ++ pieces.flatten, rfl⟩

/-- Groups of digits are taken up to what has no separator. -/
theorem run_groups (hnone : c ∉ fraction)
    (h : (Pattern.rep (groupPattern c) 1 none false).Admits cs)
    (hk : k fraction (n + cs.length) = some b) :
    (Pattern.rep (groupPattern c) 1 none false).run (cs ++ fraction) n k = some b := by
  obtain ⟨pieces, rfl, hpieces, hone, -⟩ := exists_of_admits_rep h
  have htakes : ∀ piece ∈ pieces, (groupPattern c).Takes piece := by
    intro piece hpiece
    obtain ⟨ds, rfl, hds, hlength⟩ := admits_marked_iff.mp (hpieces piece hpiece)
    refine ⟨List.cons_ne_nil _ _, fun tail n k => ?_⟩
    rw [groupPattern, ← hlength, run_marked hds]
  have hstop : ∀ n, ∀ k : Next Nat, (groupPattern c).run fraction n k = none := by
    intro n k
    cases fraction with
    | nil => rfl
    | cons d fraction =>
      have hne : c ≠ d := by
        rintro rfl
        exact hnone List.mem_cons_self
      simp [groupPattern, run, hne]
  exact run_rep_greedy htakes hone (by simp) hstop hk

/-- **A number in groups is taken** up to what has no separator. -/
theorem run_grouped (hdigit : c.isDigit = false) (hnone : c ∉ fraction)
    (h : (Pattern.seq (.rep digitPattern 1 (some 2) false)
      (.rep (groupPattern c) 1 none false)).Admits cs)
    (hk : k fraction (n + cs.length) = some b) :
    (Pattern.seq (.rep digitPattern 1 (some 2) false) (.rep (groupPattern c) 1 none false)).run
      (cs ++ fraction) n k = some b := by
  obtain ⟨first, groups, rfl, hfirst, hgroups⟩ := admits_seq_iff.mp h
  obtain ⟨hdigits, hleast, hmost⟩ := admits_digits_iff.mp hfirst
  obtain ⟨rest, hrest⟩ := head_groups hgroups
  have hhead : ∀ d ∈ (groups ++ fraction).head?, d.isDigit = false := by
    rw [hrest]
    intro d hd
    cases hd
    exact hdigit
  rw [run, List.append_assoc]
  apply run_digits hdigits hleast hmost hhead
  apply run_groups hnone hgroups
  rw [← hk, List.length_append, Nat.add_assoc]

/-- Without a separator there is no number in groups. -/
theorem run_grouped_none (hnone : c ∉ cs) :
    (Pattern.seq (.rep digitPattern 1 (some 2) false) (.rep (groupPattern c) 1 none false)).run
      cs n k = none := by
  have hways : (Pattern.seq (.rep digitPattern 1 (some 2) false)
      (.rep (groupPattern c) 1 none false)).ways cs = [] := by
    apply List.eq_nil_iff_forall_not_mem.mpr
    intro a ha
    obtain ⟨first, groups, hcs, -, hgroups⟩ := admits_seq_iff.mp (mem_ways_iff.mp ha).2
    obtain ⟨rest, rfl⟩ := head_groups hgroups
    apply hnone
    apply List.mem_of_mem_take (i := a)
    rw [hcs]
    exact List.mem_append_right _ List.mem_cons_self
  rw [run_eq, hways]
  rfl

end

/-- **The whole part is taken** up to the fraction, which neither begins with a digit nor has a
separator of thousands. -/
theorem run_whole {fraction : List Char}
    (hthousands : ∀ c ∈ f.thousands, c.isDigit = false ∧ c ∉ fraction)
    (hfraction : ∀ c ∈ fraction.head?, c.isDigit = false) (h : f.wholePattern.Admits cs)
    (hk : k fraction (n + cs.length) = some b) :
    f.wholePattern.run (cs ++ fraction) n k = some b := by
  have hplain : (Pattern.rep digitPattern 1 none false).Admits cs →
      (Pattern.rep digitPattern 1 none false).run (cs ++ fraction) n k = some b := by
    intro hdigits
    obtain ⟨hdigits, hleast, -⟩ := admits_digits_iff.mp hdigits
    exact run_digits hdigits hleast (by simp) hfraction hk
  unfold wholePattern at h ⊢
  cases hseparator : f.thousands with
  | none =>
    rw [hseparator] at h
    exact hplain h
  | some c =>
    rw [hseparator] at h
    obtain ⟨hdigit, hnone⟩ := hthousands c hseparator
    rcases admits_alt_iff.mp h with h | h
    · rw [run, run_grouped hdigit hnone h hk]
      rfl
    · -- without groups: no separator is there for the first alternative
      have hcs : c ∉ cs := by
        intro hmem
        have hdigit' := (admits_digits_iff.mp h).1 c hmem
        rw [hdigit] at hdigit'
        cases hdigit'
      have hall : c ∉ cs ++ fraction := fun hmem => (List.mem_append.mp hmem).elim hcs hnone
      rw [run, run_grouped_none hall, hplain h]
      rfl

/-- A whole part begins with a digit. -/
theorem head_whole (h : f.wholePattern.Admits cs) :
    ∃ d rest, cs = d :: rest ∧ d.isDigit = true := by
  have hdigits : ∀ {more} {cs rest : List Char}, (Pattern.rep digitPattern 1 more false).Admits cs →
      ∃ d rest', cs ++ rest = d :: rest' ∧ d.isDigit = true := by
    intro more cs rest h
    obtain ⟨hdigits, hleast, -⟩ := admits_digits_iff.mp h
    obtain ⟨d, cs, rfl⟩ := List.exists_cons_of_length_pos hleast
    exact ⟨d, cs ++ rest, rfl, hdigits d List.mem_cons_self⟩
  have hplain : (Pattern.rep digitPattern 1 none false).Admits cs →
      ∃ d rest, cs = d :: rest ∧ d.isDigit = true := by
    intro h
    have hhead : ∃ d rest', cs ++ [] = d :: rest' ∧ d.isDigit = true := hdigits h
    rwa [List.append_nil] at hhead
  unfold wholePattern at h
  split at h
  · rcases admits_alt_iff.mp h with h | h
    · obtain ⟨first, groups, rfl, hfirst, -⟩ := admits_seq_iff.mp h
      exact hdigits hfirst
    · exact hplain h
  · exact hplain h

/-- A fraction has no separator of thousands, and does not begin with a digit. -/
theorem fraction_spec (hf : f.Separated) (h : f.fractionPattern.Admits cs) :
    (∀ c ∈ f.thousands, c.isDigit = false ∧ c ∉ cs) ∧ ∀ c ∈ cs.head?, c.isDigit = false := by
  unfold fractionPattern at h
  cases hdecimal : f.decimal with
  | none =>
    rw [hdecimal] at h
    rw [admits_empty_iff.mp h]
    exact ⟨fun c hc => ⟨hf.thousands c hc, by simp⟩, by simp⟩
  | some point =>
    rw [hdecimal] at h
    obtain ⟨ds, rfl, hds, -⟩ := admits_marked_iff.mp h
    refine ⟨fun c hc => ⟨hf.thousands c hc, fun hmem => ?_⟩, fun c hc => ?_⟩
    · rcases List.mem_cons.mp hmem with rfl | hmem
      · exact hf.distinct c hdecimal hc
      · have hdigit := hds c hmem
        rw [hf.thousands c hc] at hdigit
        cases hdigit
    · cases hc
      exact hf.decimal point hdecimal

/-- **A number takes every text that it matches as a whole.** -/
theorem accepts_of_admits (hf : f.Separated) (h : f.number.toPattern.Admits cs) :
    f.number.Accepts cs := by
  rw [Symbol.Accepts]
  rw [toPattern_number] at h ⊢
  obtain ⟨sign, _, rfl, hsign, h⟩ := admits_seq_iff.mp h
  obtain ⟨whole, fraction, rfl, hwhole, hfraction⟩ := admits_join_iff.mp h
  obtain ⟨hthousands, hhead⟩ := fraction_spec hf hfraction
  obtain ⟨d, rest, hdigit, hd⟩ := head_whole hwhole
  have hstop : ∀ n, ∀ k : Next Nat, (Pattern.char '-').run (whole ++ fraction) n k = none := by
    intro n k
    have hne : '-' ≠ d := by
      rintro rfl
      cases hd
    rw [hdigit]
    simp [run, hne]
  obtain ⟨pieces, rfl, hpieces, hmost⟩ : ∃ pieces : List (List Char), sign = pieces.flatten ∧
      (∀ piece ∈ pieces, (Pattern.char '-').Takes piece) ∧ pieces.length ≤ 1 := by
    rcases admits_optional hsign with rfl | hsign
    · exact ⟨[], rfl, by simp, by simp⟩
    · obtain rfl := admits_char_iff.mp hsign
      have htakes : (Pattern.char '-').Takes ['-'] :=
        ⟨List.cons_ne_nil _ _, fun tail n k => by simp [run]⟩
      exact ⟨[['-']], rfl, by simpa using htakes, Nat.le_refl _⟩
  rw [match?, numberPattern, run]
  apply run_rep_greedy hpieces (Nat.zero_le _) (fun m hm => by cases hm; omega) hstop
  change (join f.wholePattern (f.fractionPattern, [])).1.run _ _ _ = _
  rw [run_join]
  apply run_whole hthousands hhead hwhole
  rw [run_fraction hfraction]
  simp only [List.length_append, Nat.zero_add, Nat.add_assoc]

end AmountFormat

end Covenant
