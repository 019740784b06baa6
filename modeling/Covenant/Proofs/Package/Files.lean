import Covenant.Package.Check
import Covenant.Package.Metadata
import Covenant.Proofs.Pattern.Matching
import Covenant.Proofs.Schema.Names
import Covenant.Proofs.Source.Generated
import Covenant.Proofs.Table

/-!
The files of a package.

* `mergeSort_key_eq_of_perm`: what is in order by different keys does not depend on the order
  it comes in.
* `Files.sorted_eq_of_perm`, `Files.filter_sorted`: so it is with files, and those of a kind are
  in order.
* `sampleLocale_sampleFile`: the locale of a sample is told by the name of its file.
* `errors_eq_nil_iff`: which packages have nothing wrong with them.
* `Parted`: files in parts that the marks of their paths tell apart. What is asked of files
  with the mark of a part is asked of that part.
-/

namespace Covenant.Package

/-! ### Order -/

section Keys

variable {α : Type} {key : α → String} {xs ys : List α}

theorem pairwise_mergeSort_key (key : α → String) (xs : List α) :
    (xs.mergeSort fun a b => key a ≤ key b).Pairwise fun a b => key a ≤ key b := by
  have hsorted := @List.pairwise_mergeSort _ (fun a b : α => decide (key a ≤ key b))
    (fun a b c hab hbc => by simp only [decide_eq_true_eq] at *; exact le_trans hab hbc)
    (fun a b => by simpa using le_total (key a) (key b)) xs
  simpa using hsorted

/-- **What is in order** by different keys does not depend on the order it comes in. -/
theorem mergeSort_key_eq_of_perm (h : (xs.map key).Nodup) (hperm : xs.Perm ys) :
    (xs.mergeSort fun a b => key a ≤ key b) = ys.mergeSort fun a b => key a ≤ key b := by
  have hsorted : (xs.mergeSort fun a b => key a ≤ key b).Perm (ys.mergeSort fun a b => key a ≤ key b) :=
    (xs.mergeSort_perm _).trans (hperm.trans (ys.mergeSort_perm _).symm)
  refine hsorted.eq_of_pairwise ?_ (pairwise_mergeSort_key key xs) (pairwise_mergeSort_key key ys)
  intro a b ha hb hab hba
  exact List.inj_on_of_nodup_map h ((xs.mergeSort_perm _).mem_iff.mp ha)
    (hperm.mem_iff.mpr ((ys.mergeSort_perm _).mem_iff.mp hb)) (le_antisymm hab hba)

end Keys

namespace Files

variable {files files' : Files}

theorem sorted_perm (files : Files) : files.sorted.Perm files :=
  List.mergeSort_perm files _

theorem pairwise_sorted (files : Files) : files.sorted.Pairwise fun a b => a.1 ≤ b.1 :=
  pairwise_mergeSort_key Prod.fst files

theorem mem_sorted {e : String × String} : e ∈ files.sorted ↔ e ∈ files :=
  files.sorted_perm.mem_iff

theorem sorted_eq_self (h : files.Pairwise fun a b => a.1 ≤ b.1) : files.sorted = files :=
  List.mergeSort_of_pairwise (by simpa using h)

theorem nodup_names_sorted (h : files.names.Nodup) : files.sorted.names.Nodup :=
  (Table.names_perm files.sorted_perm).nodup_iff.mpr h

/-- **Files in order** do not depend on the order they come in. -/
theorem sorted_eq_of_perm (h : files.names.Nodup) (hperm : files.Perm files') :
    files.sorted = files'.sorted :=
  mergeSort_key_eq_of_perm h hperm

/-- **The files of a kind** are in order among files in order. -/
theorem filter_sorted (h : files.names.Nodup) (p : String × String → Bool) :
    files.sorted.filter p = Files.sorted (files.filter p) := by
  have hkept : (files.sorted.filter p).Pairwise fun a b => a.1 ≤ b.1 :=
    files.pairwise_sorted.filter p
  have hnames : (Table.names (files.sorted.filter p)).Nodup :=
    (nodup_names_sorted h).sublist (List.filter_sublist.map Prod.fst)
  rw [← sorted_eq_self hkept]
  exact sorted_eq_of_perm hnames (files.sorted_perm.filter p)

end Files

/-! ### Locales -/

theorem alphanum_of_isPiece {p : Char → Bool} (hp : ∀ d, p d = true → d.isAlphanum = true)
    {least most : Nat} {piece : List Char} (h : isPiece p least most piece = true) {d : Char}
    (hd : d ∈ piece) : d.isAlphanum = true := by
  rw [isPiece, Bool.and_eq_true, List.all_eq_true] at h
  exact hp d (h.2 d hd)

theorem alphanum_of_isAlpha (c : Char) (h : c.isAlpha = true) : c.isAlphanum = true := by
  simp [Char.isAlphanum, h]

theorem alphanum_of_isRegion {piece : List Char} (h : isRegion piece = true) {c : Char}
    (hc : c ∈ piece) : c.isAlphanum = true := by
  rw [isRegion, Bool.or_eq_true] at h
  rcases h with hletters | hdigits
  · exact alphanum_of_isPiece alphanum_of_isAlpha hletters hc
  · exact alphanum_of_isPiece (fun d hd => by simp [Char.isAlphanum, hd]) hdigits hc

theorem mem_dropPiece {p : List Char → Bool} {pieces : List (List Char)} {piece : List Char}
    (h : piece ∈ pieces) : p piece = true ∨ piece ∈ dropPiece p pieces := by
  cases pieces with
  | nil => cases h
  | cons first pieces =>
    rw [dropPiece]
    split
    · rcases List.mem_cons.mp h with rfl | h
      · exact .inl ‹_›
      · exact .inr h
    · exact .inr h

/-- A language tag is made of letters, digits and hyphens. -/
theorem char_of_isLanguageTag {locale : String} (h : isLanguageTag locale = true) {c : Char}
    (hc : c ∈ Text.withoutLineFeed locale.toList) : c.isAlphanum = true ∨ c = '-' := by
  rcases Text.mem_splitAt '-' hc with hc | ⟨piece, hpiece, hc⟩
  · exact .inr hc
  refine .inl ?_
  unfold isLanguageTag at h
  split at h
  · cases h
  · rename_i language pieces hsplit
    rw [Bool.and_eq_true, List.all_eq_true] at h
    rw [hsplit] at hpiece
    rcases List.mem_cons.mp hpiece with rfl | hpiece
    · exact alphanum_of_isPiece alphanum_of_isAlpha h.1 hc
    rcases mem_dropPiece (p := isPiece Char.isAlpha 4 4) hpiece with hscript | hpiece
    · exact alphanum_of_isPiece alphanum_of_isAlpha hscript hc
    rcases mem_dropPiece (p := isRegion) hpiece with hregion | hpiece
    · exact alphanum_of_isRegion hregion hc
    · exact alphanum_of_isPiece (fun _ hd => hd) (h.2 piece hpiece) hc

theorem toList_sampleFile {locale : String} (h : locale ≠ defaultLocale) :
    (sampleFile locale).toList = "sample".toList ++ ('_' :: locale.toList ++ ".txt".toList) := by
  have hlead : "sample_".toList = "sample".toList ++ ['_'] := by decide
  simp [sampleFile, h, hlead]

/-- **The locale of a sample** is told by the name of its file. -/
theorem sampleLocale_sampleFile {locale : String} (h : isLocale locale = true) :
    sampleLocale? (sampleFile locale) = some locale := by
  by_cases hdefault : locale = defaultLocale
  · subst hdefault
    decide
  have htag : isLanguageTag locale = true := by simpa [isLocale, hdefault] using h
  have hslash : '/' ∉ locale.toList := by
    intro hc
    rcases mem_withoutLineFeed hc with hc | hc
    · rcases char_of_isLanguageTag htag hc with hc | hc <;> exact absurd hc (by decide)
    · exact absurd hc (by decide)
  have hne : locale.toList ≠ [] := by
    intro hnil
    obtain rfl : locale = "" := String.toList_eq_nil_iff.mp hnil
    exact absurd htag (by decide)
  have hkept : Text.withoutLineFeed (sampleFile locale).toList = (sampleFile locale).toList := by
    rw [Text.withoutLineFeed, if_neg]
    rw [toList_sampleFile hdefault, ← List.append_assoc, List.getLast?_append]
    simp
  have hend : Text.dropEnd? ".txt".toList ('_' :: locale.toList ++ ".txt".toList)
      = some ('_' :: locale.toList) := by
    rw [Text.dropEnd?, List.reverse_append, Pattern.dropStart_append]
    simp
  rw [sampleLocale?, hkept, toList_sampleFile hdefault, Pattern.dropStart_append]
  simp only [Option.bind_eq_bind, Option.bind_some, hend]
  simp [hne, hslash]

/-! ### Marks -/

/-- The first characters of a path. They tell the parts of a package apart. -/
def mark (path : String) : List Char :=
  path.toList.take 3

theorem mark_of_isUnder {directory path : String} (h : isUnder directory path = true)
    (hlong : 3 ≤ directory.toList.length) : mark path = mark directory := by
  obtain ⟨rest, hrest⟩ := Option.isSome_iff_exists.mp h
  rw [mark, Pattern.dropStart_eq_some hrest, String.toList_append, List.append_assoc,
    List.take_append_of_le_length hlong, mark]

theorem mark_of_sampleLocale {path locale : String} (h : sampleLocale? path = some locale) :
    mark path = mark "sample" := by
  obtain ⟨rest, hrest, _⟩ := Option.bind_eq_some_iff.mp h
  have hstart := Pattern.dropStart_eq_some hrest
  have hpath : ∃ tail, path.toList = "sample".toList ++ tail := by
    rcases Text.withoutLineFeed_cases path.toList with hself | hfeed
    · exact ⟨rest, hself.symm.trans hstart⟩
    · exact ⟨rest ++ ['\n'], by rw [hfeed, hstart, List.append_assoc]⟩
  obtain ⟨tail, htail⟩ := hpath
  rw [mark, htail, List.take_append_of_le_length (by decide), mark]

theorem mark_sampleFile (locale : String) : mark (sampleFile locale) = mark "sample" := by
  by_cases hdefault : locale = defaultLocale
  · subst hdefault
    decide
  · rw [mark, toList_sampleFile hdefault, List.take_append_of_le_length (by decide), mark]

/-! ### Parts -/

/-- Files in parts, each with the mark of its paths. -/
structure Parted (parts : List (List Char × Files)) : Prop where
  marks : (parts.map Prod.fst).Nodup
  marked : ∀ part ∈ parts, ∀ e ∈ part.2, mark e.1 = part.1
  nodup : ∀ part ∈ parts, part.2.names.Nodup

namespace Parted

variable {parts : List (List Char × Files)} {part : List Char × Files}

/-- **What is taken from files with the mark of a part** is taken from that part. -/
theorem filterMap (h : Parted parts) (hpart : part ∈ parts) {β : Type}
    {f : String × String → Option β} (hf : ∀ e b, f e = some b → mark e.1 = part.1) :
    (parts.flatMap Prod.snd).filterMap f = part.2.filterMap f := by
  obtain ⟨hmarks, hmarked, hnodup⟩ := h
  clear hnodup
  have hnone : ∀ other : List Char × Files, other.1 ≠ part.1 →
      (∀ e ∈ other.2, mark e.1 = other.1) → other.2.filterMap f = [] := by
    intro other hother hof
    refine List.filterMap_eq_nil_iff.mpr fun e he => ?_
    cases hfe : f e with
    | none => rfl
    | some b => exact absurd ((hof e he).symm.trans (hf e b hfe)) hother
  induction parts with
  | nil => cases hpart
  | cons first parts ih =>
    rw [List.map_cons, List.nodup_cons] at hmarks
    rw [List.forall_mem_cons] at hmarked
    rw [List.flatMap_cons, List.filterMap_append]
    rcases List.mem_cons.mp hpart with rfl | hpart
    · have hrest : (parts.flatMap Prod.snd).filterMap f = [] := by
        rw [List.filterMap_flatMap, List.flatMap_eq_nil_iff]
        intro other hother
        refine hnone other (fun hsame => hmarks.1 ?_) (hmarked.2 other hother)
        exact hsame ▸ List.mem_map_of_mem hother
      rw [hrest, List.append_nil]
    · have hfirst : first.1 ≠ part.1 := fun hsame =>
        hmarks.1 (hsame ▸ List.mem_map_of_mem hpart)
      rw [hnone first hfirst hmarked.1, List.nil_append, ih hpart hmarks.2 hmarked.2]

theorem filter (h : Parted parts) (hpart : part ∈ parts) {p : String × String → Bool}
    (hp : ∀ e, p e = true → mark e.1 = part.1) :
    (parts.flatMap Prod.snd).filter p = part.2.filter p := by
  simp only [← List.filterMap_eq_filter]
  refine h.filterMap hpart fun e b he => hp e ?_
  simp only [Option.guard_eq_some_iff] at he
  exact he.2

/-- Every path is in one place only. -/
theorem nodup_names (h : Parted parts) : (Table.names (parts.flatMap Prod.snd)).Nodup := by
  obtain ⟨hmarks, hmarked, hnodup⟩ := h
  rw [Table.names, List.map_flatMap, List.nodup_flatMap]
  refine ⟨hnodup, ?_⟩
  rw [List.Nodup, List.pairwise_map] at hmarks
  refine hmarks.imp_of_mem fun hfirst hsecond hne path hpath hpath' => hne ?_
  obtain ⟨e, he, rfl⟩ := List.mem_map.mp hpath
  obtain ⟨e', he', hsame⟩ := List.mem_map.mp hpath'
  rw [← hmarked _ hfirst e he, ← hmarked _ hsecond e' he', hsame]

theorem mem_iff (h : Parted parts) (hpart : part ∈ parts) {e : String × String}
    (he : mark e.1 = part.1) : e ∈ parts.flatMap Prod.snd ↔ e ∈ part.2 := by
  rw [List.mem_flatMap]
  constructor
  · rintro ⟨other, hother, hmem⟩
    have hsame : other = part := List.inj_on_of_nodup_map h.marks hother hpart
      ((h.marked other hother e hmem).symm.trans he)
    exact hsame ▸ hmem
  · exact fun hmem => ⟨part, hpart, hmem⟩

/-- **A path with the mark of a part** is looked up in that part. -/
theorem find (h : Parted parts) (hpart : part ∈ parts) {path : String}
    (hpath : mark path = part.1) :
    Table.find? (parts.flatMap Prod.snd) path = part.2.find? path := by
  ext text
  rw [Table.find_eq_some_iff h.nodup_names, Table.find_eq_some_iff (h.nodup part hpart),
    h.mem_iff hpart hpath]

end Parted

/-! ### Sound packages -/

theorem mem_paths {files : Files} {path : String} : path ∈ paths files ↔ path ∈ files.names :=
  (Table.names_perm files.sorted_perm).mem_iff

theorem checkSamples_eq_nil_iff {files : Files} :
    checkSamples files = [] ↔ (∃ path ∈ files.names, (sampleLocale? path).isSome = true) ∧
      ∀ path ∈ files.names, ∀ locale, sampleLocale? path = some locale → isLocale locale = true := by
  unfold checkSamples
  split
  · rename_i hnil
    refine iff_of_false (by simp) fun h => ?_
    obtain ⟨path, hpath, hsample⟩ := h.1
    exact List.filter_eq_nil_iff.mp hnil path (mem_paths.mpr hpath) hsample
  · rename_i hne
    have hmem : ∀ path, path ∈ (paths files).filter (fun p => (sampleLocale? p).isSome) ↔
        path ∈ files.names ∧ (sampleLocale? path).isSome = true := by
      intro path
      rw [List.mem_filter, mem_paths]
    rw [List.filterMap_eq_nil_iff]
    constructor
    · intro h
      refine ⟨?_, fun path hpath locale hlocale => ?_⟩
      · obtain ⟨path, hpath⟩ := List.exists_mem_of_ne_nil _ hne
        exact ⟨path, (hmem path).mp hpath⟩
      · have hfound := h path ((hmem path).mpr ⟨hpath, by simp [hlocale]⟩)
        simpa [hlocale] using hfound
    · intro h path hpath
      obtain ⟨hname, hsample⟩ := (hmem path).mp hpath
      obtain ⟨locale, hlocale⟩ := Option.isSome_iff_exists.mp hsample
      simp [hlocale, h.2 path hname locale hlocale]

theorem checkLogic_eq_nil_iff {files : Files} {runtime : Option String} :
    checkLogic files runtime = [] ↔ ∀ path ∈ files.names, isUnder "logic" path = true →
      ∀ language, Language.ofPath? path = some language →
        checkScript runtime path language = none := by
  rw [checkLogic, List.filterMap_eq_nil_iff]
  simp only [List.mem_filter, mem_paths, and_imp]
  refine forall₃_congr fun path _ _ => ?_
  rw [Option.bind_eq_none_iff]

/-- **A package has nothing wrong with it** if it is described, has samples, and all samples
and scripts may be there. -/
theorem errors_eq_nil_iff {files : Files} {runtime : Option String} :
    errors files runtime = [] ↔ packageFile ∈ files.names ∧ checkSamples files = [] ∧
      checkLogic files runtime = [] := by
  rw [errors, List.append_eq_nil_iff, List.append_eq_nil_iff, and_assoc]
  refine and_congr_left fun _ => ?_
  rw [← Table.has_iff]
  cases files.has packageFile <;> simp

/-- Samples are not refused if there is one in the default language and all locales may be
there. -/
theorem refuseSamples_eq_none_iff {samples : Table String} :
    refuseSamples samples = none ↔ defaultLocale ∈ samples.names ∧
      ∀ locale ∈ samples.names, isLocale locale = true := by
  rw [← Table.has_iff, refuseSamples]
  cases samples.has defaultLocale <;> simp

end Covenant.Package
