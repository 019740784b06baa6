import Covenant.Proofs.Outcome
import Covenant.Proofs.Text.Escapes
import Covenant.Proofs.Value.Canonical

/-!
How JSON is read.

* `JsonText.decode_progress`, `readString_progress`, `readNumber_progress`: what is read takes up
  text.
* `read_spec`: the values that are read have each key once, and take up text.
* `keyed_of_read`: so has the value of a whole text.
-/

namespace Covenant

namespace JsonText

theorem progress_of_map {cs rest' text rest : List Char} {d : Char}
    (h : (decode rest').map (fun r => (d :: r.1, r.2)) = .ok (text, rest))
    (ih : ∀ {text rest : List Char}, decode rest' = .ok (text, rest) →
      text.length + rest.length < rest'.length)
    (hlength : rest'.length < cs.length) : text.length + rest.length < cs.length := by
  obtain ⟨r, hr, hrest⟩ := Outcome.map_eq_ok.mp h
  obtain ⟨rfl, rfl⟩ := Prod.mk.inj hrest
  have := ih hr
  rw [List.length_cons]
  omega

theorem ne_backslash {c : Char} {rest : List Char} (hend : c = '\\' → rest = [] → False)
    (hescape : ∀ d rest', c = '\\' → rest = d :: rest' → False) : c ≠ '\\' := by
  rintro rfl
  cases rest with
  | nil => exact hend rfl rfl
  | cons d rest => exact hescape d rest rfl rfl

/-- **A literal** is longer than the text that it tells. -/
theorem decode_progress {cs text rest : List Char} (h : decode cs = .ok (text, rest)) :
    text.length + rest.length < cs.length := by
  induction cs using decode.induct generalizing text rest with
  | case1 | case3 =>
    rw [decode] at h
    cases h
  | case2 rest' =>
    rw [decode] at h
    cases h
    simp
  | case4 rest' hunit =>
    rw [decode_unit_none hunit] at h
    cases h
  | case5 rest' n tail hunit hn m tail' hlow ih =>
    have := length_unit hunit
    have := length_lowSurrogate hlow
    refine progress_of_map (decode_unit_pair hunit hn hlow ▸ h) ih ?_
    simp only [List.length_cons]
    omega
  | case6 rest' n tail hunit hn hlow hbroken =>
    rw [decode_unit_lone hunit hn hlow, if_pos hbroken] at h
    cases h
  | case7 rest' n tail hunit hn hlow hbroken ih =>
    rw [decode_unit_lone hunit hn hlow, if_neg hbroken] at h
    have := length_unit hunit
    refine progress_of_map h ih ?_
    simp only [List.length_cons]
    omega
  | case8 rest' n tail hunit hn ih =>
    have := length_unit hunit
    refine progress_of_map (decode_unit_single hunit hn ▸ h) ih ?_
    simp only [List.length_cons]
    omega
  | case9 c rest' hc d hd ih =>
    rw [decode_short hc hd] at h
    exact progress_of_map h ih (Nat.lt_add_of_pos_right Nat.two_pos)
  | case10 c rest' hc hnone =>
    rw [decode_unknown hc hnone] at h
    cases h
  | case11 c rest' hquote hend hunit hescape hcontrol =>
    rw [decode_control hquote (ne_backslash hend hescape) hcontrol] at h
    cases h
  | case12 c rest' hquote hend hunit hescape hcontrol ih =>
    rw [decode_plain hquote (ne_backslash hend hescape) hcontrol] at h
    exact progress_of_map h ih (Nat.lt_succ_self _)

end JsonText

namespace Json

open Value

/-! ### What is read takes up text -/

theorem length_skip (cs : List Char) : (skip cs).length ≤ cs.length :=
  (List.dropWhile_suffix _).length_le

theorem readString_progress {cs rest : List Char} {s : String}
    (h : readString cs = .ok (s, rest)) : rest.length < cs.length := by
  unfold readString at h
  split at h
  · rename_i text rest' hdecode
    obtain ⟨-, rfl⟩ := Prod.mk.inj (Except.ok.inj h)
    exact (Nat.le_add_left _ _).trans_lt (JsonText.decode_progress hdecode)
  · cases h
  · cases h

theorem takeSign_suffix (cs : List Char) : (Decimal.takeSign cs).2 <:+ cs := by
  unfold Decimal.takeSign
  split
  · exact List.suffix_cons _ _
  · exact List.suffix_cons _ _
  · exact List.suffix_rfl

theorem takeFraction_suffix (cs : List Char) : (takeFraction cs).2 <:+ cs := by
  unfold takeFraction
  split
  · split
    · exact (List.dropWhile_suffix _).trans ((List.suffix_cons _ _).trans (List.suffix_cons _ _))
    · exact List.suffix_rfl
  · exact List.suffix_rfl

theorem takeExponent_suffix (cs : List Char) : (takeExponent cs).2 <:+ cs := by
  unfold takeExponent
  split
  · exact List.suffix_rfl
  · rename_i c cs
    dsimp only
    split
    · split
      · exact List.suffix_rfl
      · exact (List.dropWhile_suffix _).trans ((takeSign_suffix cs).trans (List.suffix_cons _ _))
    · exact List.suffix_rfl

theorem takeWhole_append (cs : List Char) : (takeWhole cs).1 ++ (takeWhole cs).2 = cs := by
  unfold takeWhole
  split
  · rfl
  · exact List.takeWhile_append_dropWhile

/-- A number takes up its whole part at least. -/
theorem readNumber_progress {negative : Bool} {start : Nat} {cs rest : List Char} {v : Value}
    (h : readNumber negative start cs = .ok (v, rest)) : rest.length < cs.length ∧ v.Keyed := by
  have hcut := congrArg List.length (takeWhole_append cs)
  have hfraction := (takeFraction_suffix (takeWhole cs).2).length_le
  have hexponent := (takeExponent_suffix (takeFraction (takeWhole cs).2).2).length_le
  rw [List.length_append] at hcut
  unfold readNumber at h
  dsimp only at h
  split at h
  · cases h
  · rename_i hwhole
    have hpos : 0 < (takeWhole cs).1.length := List.length_pos_iff.mpr (by simpa using hwhole)
    split at h
    · split at h
      · cases h
      · cases h
        exact ⟨by omega, by simp [Keyed]⟩
    · cases h
      exact ⟨by omega, by simp [Keyed]⟩

theorem word_progress {cs rest : List Char} {v : Value} (h : word? cs = some (v, rest)) :
    rest.length < cs.length ∧ v.Keyed := by
  unfold word? at h
  obtain ⟨⟨w, u⟩, hmem, hfound⟩ := List.exists_of_findSome?_eq_some h
  obtain ⟨rest', hdrop, hrest⟩ := Option.map_eq_some_iff.mp hfound
  cases hrest
  have hword : 0 < w.toList.length ∧ v.Keyed := by
    simp only [List.mem_cons, Prod.mk.injEq, List.not_mem_nil, or_false] at hmem
    rcases hmem with ⟨rfl, rfl⟩ | ⟨rfl, rfl⟩ | ⟨rfl, rfl⟩ | ⟨rfl, rfl⟩ | ⟨rfl, rfl⟩ | ⟨rfl, rfl⟩ <;>
      exact ⟨by decide, by simp [Keyed]⟩
  rw [Pattern.dropStart_eq_some hdrop, List.length_append]
  exact ⟨by omega, hword.2⟩

/-! ### Each key once -/

theorem keyed_ofList {fs : List (String × Value)} (h : KeyedFields fs) :
    (Value.object (Table.ofList fs)).Keyed := by
  rw [Keyed, keyedFields_iff]
  refine ⟨Table.nodup_names_foldl_put List.nodup_nil, fun e he => ?_⟩
  exact keyedFields_iff.mp h e ((Table.mem_foldl_put he).resolve_left (by simp))

theorem skip_cons_length {c : Char} {cs rest : List Char} (h : skip cs = c :: rest) :
    rest.length < cs.length := by
  have := length_skip cs
  rw [h, List.length_cons] at this
  omega

def readSigned (cs : List Char) : Except Trouble (Value × List Char) :=
  match cs with
  | '-' :: rest => readNumber true cs.length rest
  | _ => readNumber false cs.length cs

/-- A value that begins with no quote and no bracket. -/
def readPlain (cs : List Char) : Except Trouble (Value × List Char) :=
  match word? cs with
  | some r => .ok r
  | none => readSigned cs

theorem readSigned_of_ne {c : Char} (hc : c ≠ '-') (cs : List Char) :
    readSigned (c :: cs) = readNumber false (c :: cs).length (c :: cs) := by
  unfold readSigned
  split
  · simp_all
  · rfl

theorem readPlain_progress {cs rest : List Char} {v : Value} (h : readPlain cs = .ok (v, rest)) :
    rest.length < cs.length ∧ v.Keyed := by
  unfold readPlain at h
  split at h
  · rename_i hword
    cases h
    exact word_progress hword
  · unfold readSigned at h
    split at h
    · exact (readNumber_progress h).imp_left fun hlt => hlt.trans (Nat.lt_succ_self _)
    · exact readNumber_progress h

/-- How a value begins. -/
theorem readValue_cases (fuel : Nat) (cs : List Char) :
    (∃ rest, cs = '"' :: rest ∧
        readValue (fuel + 1) cs = (readString rest).map fun r => (.text r.1, r.2)) ∨
      (∃ rest, cs = '[' :: rest ∧ readValue (fuel + 1) cs = match skip rest with
        | ']' :: rest => .ok (.list [], rest)
        | rest => (readItems fuel rest).map fun r => (.list r.1, r.2)) ∨
      (∃ rest, cs = '\x7b' :: rest ∧ readValue (fuel + 1) cs = match skip rest with
        | '\x7d' :: rest => .ok (.object [], rest)
        | rest => (readFields fuel rest).map fun r => (.object (Table.ofList r.1), r.2)) ∨
      (∀ c ∈ cs.head?, c ≠ '"' ∧ c ≠ '[' ∧ c ≠ '\x7b') ∧ readValue (fuel + 1) cs = readPlain cs := by
  rw [readValue.eq_def]
  dsimp only
  split
  · exact .inl ⟨_, rfl, rfl⟩
  · exact .inr (.inl ⟨_, rfl, rfl⟩)
  · exact .inr (.inr (.inl ⟨_, rfl, rfl⟩))
  · rename_i hquote hlist hobject
    refine .inr (.inr (.inr ⟨?_, rfl⟩))
    cases cs with
    | nil => nofun
    | cons c cs =>
      rintro d hd
      cases hd
      exact ⟨fun h => hquote cs (by rw [h]), fun h => hlist cs (by rw [h]),
        fun h => hobject cs (by rw [h])⟩

section Spec

variable {fuel : Nat}
  (hvalue : ∀ {cs v rest}, readValue fuel cs = .ok (v, rest) → rest.length < cs.length ∧ v.Keyed)
  (hitems : ∀ {cs vs rest}, readItems fuel cs = .ok (vs, rest) →
    rest.length < cs.length ∧ KeyedItems vs)
  (hfields : ∀ {cs fs rest}, readFields fuel cs = .ok (fs, rest) →
    rest.length < cs.length ∧ KeyedFields fs)

include hitems hfields in
theorem readValue_step {cs rest : List Char} {v : Value}
    (h : readValue (fuel + 1) cs = .ok (v, rest)) : rest.length < cs.length ∧ v.Keyed := by
  rcases readValue_cases fuel cs with ⟨tail, rfl, heq⟩ | ⟨tail, rfl, heq⟩ | ⟨tail, rfl, heq⟩ |
    ⟨-, heq⟩
  · obtain ⟨r, hr, hrest⟩ := Outcome.map_eq_ok.mp (heq ▸ h)
    cases hrest
    exact ⟨(readString_progress hr).trans (Nat.lt_succ_self _), by simp [Keyed]⟩
  · rw [heq] at h
    split at h
    · rename_i hclosed
      cases h
      exact ⟨(skip_cons_length hclosed).trans (Nat.lt_succ_self _), by simp [Keyed, KeyedItems]⟩
    · obtain ⟨r, hr, hrest⟩ := Outcome.map_eq_ok.mp h
      cases hrest
      obtain ⟨hlt, hkeyed⟩ := hitems hr
      exact ⟨(hlt.trans_le (length_skip tail)).trans (Nat.lt_succ_self _), by simpa [Keyed] using hkeyed⟩
  · rw [heq] at h
    split at h
    · rename_i hclosed
      cases h
      refine ⟨(skip_cons_length hclosed).trans (Nat.lt_succ_self _), ?_⟩
      simp [Keyed, KeyedFields, Table.names]
    · obtain ⟨r, hr, hrest⟩ := Outcome.map_eq_ok.mp h
      cases hrest
      obtain ⟨hlt, hkeyed⟩ := hfields hr
      exact ⟨(hlt.trans_le (length_skip tail)).trans (Nat.lt_succ_self _), keyed_ofList hkeyed⟩
  · exact readPlain_progress (heq ▸ h)

include hvalue hitems in
theorem readItems_step {cs rest : List Char} {vs : List Value}
    (h : readItems (fuel + 1) cs = .ok (vs, rest)) : rest.length < cs.length ∧ KeyedItems vs := by
  rw [readItems] at h
  obtain ⟨⟨v, tail⟩, hv, h⟩ := Outcome.bind_eq_ok.mp h
  obtain ⟨hlt, hkeyed⟩ := hvalue hv
  dsimp only at h
  split at h
  · rename_i hclosed
    cases h
    exact ⟨(skip_cons_length hclosed).trans hlt, by simpa [KeyedItems] using hkeyed⟩
  · rename_i hcomma
    obtain ⟨⟨ws, tail'⟩, hws, h⟩ := Outcome.bind_eq_ok.mp h
    cases h
    obtain ⟨hlt', hkeyed'⟩ := hitems hws
    refine ⟨?_, by simpa [KeyedItems] using ⟨hkeyed, hkeyed'⟩⟩
    exact (hlt'.trans_le (length_skip _)).trans ((skip_cons_length hcomma).trans hlt)
  · cases h

include hvalue hfields in
theorem readFields_step {cs rest : List Char} {fs : List (String × Value)}
    (h : readFields (fuel + 1) cs = .ok (fs, rest)) : rest.length < cs.length ∧ KeyedFields fs := by
  rw [readFields.eq_def] at h
  dsimp only at h
  split at h
  · obtain ⟨⟨key, afterKey⟩, hkey, h⟩ := Outcome.bind_eq_ok.mp h
    have hltKey := (readString_progress hkey).trans (Nat.lt_succ_self _)
    dsimp only at h
    split at h
    · rename_i hcolon
      obtain ⟨⟨v, afterValue⟩, hv, h⟩ := Outcome.bind_eq_ok.mp h
      obtain ⟨hlt, hkeyed⟩ := hvalue hv
      have hltValue := (hlt.trans_le (length_skip _)).trans ((skip_cons_length hcolon).trans hltKey)
      dsimp only at h
      split at h
      · rename_i hclosed
        cases h
        exact ⟨(skip_cons_length hclosed).trans hltValue, by simpa [KeyedFields] using hkeyed⟩
      · rename_i hcomma
        obtain ⟨⟨gs, afterFields⟩, hgs, h⟩ := Outcome.bind_eq_ok.mp h
        cases h
        obtain ⟨hlt', hkeyed'⟩ := hfields hgs
        refine ⟨?_, by simpa [KeyedFields] using ⟨hkeyed, hkeyed'⟩⟩
        exact (hlt'.trans_le (length_skip _)).trans ((skip_cons_length hcomma).trans hltValue)
      · cases h
    · cases h
  · cases h

end Spec

/-- **What is read** has each key once, and takes up text. -/
theorem read_spec (fuel : Nat) :
    (∀ {cs v rest}, readValue fuel cs = .ok (v, rest) → rest.length < cs.length ∧ v.Keyed) ∧
      (∀ {cs vs rest}, readItems fuel cs = .ok (vs, rest) →
        rest.length < cs.length ∧ KeyedItems vs) ∧
      ∀ {cs fs rest}, readFields fuel cs = .ok (fs, rest) →
        rest.length < cs.length ∧ KeyedFields fs := by
  induction fuel with
  | zero =>
    refine ⟨fun h => ?_, fun h => ?_, fun h => ?_⟩
    · rw [readValue] at h
      cases h
    · rw [readItems] at h
      cases h
    · rw [readFields] at h
      cases h
  | succ fuel ih =>
    obtain ⟨hvalue, hitems, hfields⟩ := ih
    exact ⟨readValue_step hitems hfields, readItems_step hvalue hitems, readFields_step hvalue hfields⟩

/-- **A value that is read** has each key once. -/
theorem keyed_of_read {s : String} {v : Value} (h : read s = .ok v) : v.Keyed := by
  unfold read at h
  split at h
  · rename_i hread
    cases h
    unfold readChars at hread
    split at hread
    · cases hread
    · obtain ⟨⟨w, rest⟩, hw, hread⟩ := Outcome.bind_eq_ok.mp hread
      dsimp only at hread
      split at hread
      · cases hread
        exact ((read_spec _).1 hw).2
      · cases hread
  · cases h

end Json

end Covenant
