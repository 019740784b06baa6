import Covenant.Proofs.Template.Packages

/-!
The samples of a package.

* `Package.IsLanguageTag`: a language with what may follow it. `Package.isLanguageTag_iff`: the
  locales of samples are language tags, but for a line feed at the end.
* `Package.path_of_sampleLocale`: the paths of the samples of a locale.
* `Package.PlainSamples`: samples with paths as they are written.
* `Template.find_samplesOf`: of several samples of a locale the last one is taken.
* `Template.samplesOf_perm_iff`: no sample is lost just if no two of them have the same locale.
* `Template.samples_loaded`: these are the packages whose samples are all loaded, each under a
  language tag.
-/

namespace Covenant

namespace Package

open Text

/-! ### Language tags -/

/-- **A language tag**: a language of two or three letters, perhaps a script of four letters,
perhaps a region of two letters or three digits, and variants of five to eight letters and digits,
with hyphens between them. -/
def IsLanguageTag (cs : List Char) : Prop :=
  ∃ (language : List Char) (script region : Option (List Char)) (variants : List (List Char)),
    isPiece Char.isAlpha 2 3 language = true ∧
    (∀ piece ∈ script, isPiece Char.isAlpha 4 4 piece = true) ∧
    (∀ piece ∈ region, isRegion piece = true) ∧
    (∀ piece ∈ variants, isPiece Char.isAlphanum 5 8 piece = true) ∧
    cs = ['-'].intercalate (language :: (script.toList ++ (region.toList ++ variants)))

variable {p : List Char → Bool} {pieces : List (List Char)} {locale : String}

/-- The first piece is left out, or nothing. -/
theorem exists_dropPiece (p : List Char → Bool) (pieces : List (List Char)) :
    ∃ first : Option (List Char), (∀ piece ∈ first, p piece = true) ∧
      pieces = first.toList ++ dropPiece p pieces := by
  cases pieces with
  | nil => exact ⟨none, by simp, rfl⟩
  | cons piece pieces =>
    rw [dropPiece]
    split
    · exact ⟨some piece, by simpa using ‹_›, rfl⟩
    · exact ⟨none, by simp, rfl⟩

/-- A piece that may be missing is left out in front of pieces of other kinds. -/
theorem dropPiece_append {first : Option (List Char)} (hfirst : ∀ piece ∈ first, p piece = true)
    (hpieces : ∀ piece ∈ pieces, p piece = false) :
    dropPiece p (first.toList ++ pieces) = pieces := by
  cases first with
  | some piece => exact if_pos (hfirst piece rfl)
  | none =>
    cases pieces with
    | nil => rfl
    | cons piece pieces => exact if_neg (by simp [hpieces piece])

/-- A piece of another length is refused. -/
theorem isPiece_eq_false {q : Char → Bool} {least most : Nat} {piece : List Char}
    (h : piece.length < least ∨ most < piece.length) : isPiece q least most piece = false := by
  have hlength : ¬ (least ≤ piece.length ∧ piece.length ≤ most) := by omega
  rw [isPiece, decide_eq_false hlength, Bool.false_and]

theorem length_of_isPiece {q : Char → Bool} {least most : Nat} {piece : List Char}
    (h : isPiece q least most piece = true) : least ≤ piece.length ∧ piece.length ≤ most := by
  rw [isPiece, Bool.and_eq_true, decide_eq_true_iff] at h
  exact h.1

theorem length_of_isRegion {piece : List Char} (h : isRegion piece = true) :
    2 ≤ piece.length ∧ piece.length ≤ 3 := by
  rw [isRegion, Bool.or_eq_true] at h
  rcases h with h | h
  · have hlength := length_of_isPiece h
    omega
  · have hlength := length_of_isPiece h
    omega

/-- What the pieces of an accepted locale are. -/
theorem tag_of_isLanguageTag (h : isLanguageTag locale = true) :
    IsLanguageTag (withoutLineFeed locale.toList) := by
  have hjoined := intercalate_splitAt '-' (withoutLineFeed locale.toList)
  unfold isLanguageTag at h
  split at h
  · cases h
  · rename_i language pieces hsplit
    rw [Bool.and_eq_true, List.all_eq_true] at h
    obtain ⟨script, hscript, hpieces⟩ := exists_dropPiece (isPiece Char.isAlpha 4 4) pieces
    obtain ⟨region, hregion, hrest⟩ :=
      exists_dropPiece isRegion (dropPiece (isPiece Char.isAlpha 4 4) pieces)
    refine ⟨language, script, region, _, h.1, hscript, hregion, h.2, ?_⟩
    rw [← hrest, ← hpieces, ← hsplit, hjoined]

section Pieces

variable {language : List Char} {script region : Option (List Char)} {variants : List (List Char)}

/-- There are no hyphens within the pieces of a language tag. -/
theorem hyphen_not_mem (hlanguage : isPiece Char.isAlpha 2 3 language = true)
    (hscript : ∀ piece ∈ script, isPiece Char.isAlpha 4 4 piece = true)
    (hregion : ∀ piece ∈ region, isRegion piece = true)
    (hvariants : ∀ piece ∈ variants, isPiece Char.isAlphanum 5 8 piece = true) :
    ∀ piece ∈ language :: (script.toList ++ (region.toList ++ variants)), '-' ∉ piece := by
  have hall : ∀ piece ∈ language :: (script.toList ++ (region.toList ++ variants)),
      ∀ c ∈ piece, c.isAlphanum = true := by
    simp only [List.forall_mem_cons, List.forall_mem_append, Option.mem_toList]
    exact ⟨fun c => alphanum_of_isPiece alphanum_of_isAlpha hlanguage,
      fun piece hpiece c => alphanum_of_isPiece alphanum_of_isAlpha (hscript piece hpiece),
      fun piece hpiece c => alphanum_of_isRegion (hregion piece hpiece),
      fun piece hpiece c => alphanum_of_isPiece (fun _ hd => hd) (hvariants piece hpiece)⟩
  intro piece hpiece hc
  exact absurd (hall piece hpiece _ hc) (by decide)

/-- The pieces behind a language are taken for what they are, for each kind has its own length. -/
theorem dropPiece_pieces (hscript : ∀ piece ∈ script, isPiece Char.isAlpha 4 4 piece = true)
    (hregion : ∀ piece ∈ region, isRegion piece = true)
    (hvariants : ∀ piece ∈ variants, isPiece Char.isAlphanum 5 8 piece = true) :
    dropPiece isRegion (dropPiece (isPiece Char.isAlpha 4 4)
      (script.toList ++ (region.toList ++ variants))) = variants := by
  have hnoScript : ∀ piece ∈ region.toList ++ variants,
      isPiece Char.isAlpha 4 4 piece = false := by
    intro piece hpiece
    rcases List.mem_append.mp hpiece with hpiece | hpiece
    · have hlength := length_of_isRegion (hregion piece (Option.mem_toList.mp hpiece))
      exact isPiece_eq_false (by omega)
    · have hlength := length_of_isPiece (hvariants piece hpiece)
      exact isPiece_eq_false (by omega)
  have hnoRegion : ∀ piece ∈ variants, isRegion piece = false := by
    intro piece hpiece
    have hlength := length_of_isPiece (hvariants piece hpiece)
    rw [isRegion, isPiece_eq_false (by omega), isPiece_eq_false (by omega), Bool.or_self]
  rw [dropPiece_append hscript hnoScript, dropPiece_append hregion hnoRegion]

end Pieces

/-- **The locales that are accepted** are the language tags, but for a line feed at the end. -/
theorem isLanguageTag_iff : isLanguageTag locale = true ↔
    IsLanguageTag (withoutLineFeed locale.toList) := by
  constructor
  · exact tag_of_isLanguageTag
  · rintro ⟨language, script, region, variants, hlanguage, hscript, hregion, hvariants, htext⟩
    have hplain := hyphen_not_mem hlanguage hscript hregion hvariants
    rw [isLanguageTag, htext, splitAt_intercalate (List.cons_ne_nil _ _) hplain]
    dsimp only
    rw [dropPiece_pieces hscript hregion hvariants, hlanguage, Bool.true_and, List.all_eq_true]
    exact hvariants

/-- A language tag does not end in a line feed. -/
theorem IsLanguageTag.getLast (h : IsLanguageTag locale.toList) :
    locale.toList.getLast? ≠ some '\n' := by
  have hfeed : withoutLineFeed (locale ++ "\n").toList = locale.toList := withoutLineFeed_feed locale
  have htag : isLanguageTag (locale ++ "\n") = true := by
    rw [isLanguageTag_iff, hfeed]
    exact h
  intro hlast
  have hchar := char_of_isLanguageTag htag (hfeed ▸ List.mem_of_getLast? hlast)
  exact absurd hchar (by decide)

/-! ### Paths of samples -/

section Paths

variable {path path' : String}

theorem sampleLocale_congr (h : withoutLineFeed path.toList = withoutLineFeed path'.toList) :
    sampleLocale? path = sampleLocale? path' := by
  rw [sampleLocale?, sampleLocale?, h]

/-- **The paths of the samples of a locale**: the locale is in the name of the file, but for the
default one, which may be left out. A line feed may follow. -/
theorem path_of_sampleLocale (h : sampleLocale? path = some locale) :
    withoutLineFeed path.toList = "sample.txt".toList ∧ locale = defaultLocale ∨
      withoutLineFeed path.toList = "sample_".toList ++ (locale.toList ++ ".txt".toList) := by
  obtain ⟨rest, hrest, h⟩ := Option.bind_eq_some_iff.mp h
  obtain ⟨middle, hmiddle, h⟩ := Option.bind_eq_some_iff.mp h
  have hstart := Pattern.dropStart_eq_some hrest
  have hend : rest = middle ++ ".txt".toList := by
    obtain ⟨reversed, hreversed, rfl⟩ := Option.map_eq_some_iff.mp hmiddle
    have hback := Pattern.dropStart_eq_some hreversed
    rw [← List.reverse_reverse rest, hback, List.reverse_append, List.reverse_reverse]
  have hlead : "sample_".toList = "sample".toList ++ ['_'] := by decide
  rw [hend] at hstart
  split at h
  · cases h
    exact .inl ⟨hstart, rfl⟩
  · split at h
    · cases h
    · cases h
      rw [hstart, hlead, String.toList_ofList]
      exact .inr (by simp)
  · cases h

/-- Two samples of a locale that is not the default one have the same path, or one of them has a
line feed behind it. -/
theorem path_eq_of_sampleLocale (hlocale : locale ≠ defaultLocale)
    (h : sampleLocale? path = some locale) (h' : sampleLocale? path' = some locale) :
    path = path' ∨ path = path' ++ "\n" ∨ path' = path ++ "\n" := by
  have hpath := (path_of_sampleLocale h).resolve_left fun hdefault => hlocale hdefault.2
  have hpath' := (path_of_sampleLocale h').resolve_left fun hdefault => hlocale hdefault.2
  simp only [← String.toList_inj, String.toList_append]
  rcases withoutLineFeed_cases path.toList with hself | hfeed
  · rcases withoutLineFeed_cases path'.toList with hself' | hfeed'
    · exact .inl (by rw [← hself, ← hself', hpath, hpath'])
    · exact .inr (.inr (by rw [hfeed', hpath', ← hpath, hself]; rfl))
  · rcases withoutLineFeed_cases path'.toList with hself' | hfeed'
    · exact .inr (.inl (by rw [hfeed, hpath, ← hpath', hself']; rfl))
    · exact .inl (by rw [hfeed, hfeed', hpath, hpath'])

/-- A line feed behind the path of a sample changes nothing. -/
theorem sampleLocale_of_feed (h : sampleLocale? (path ++ "\n") = some locale) :
    sampleLocale? path = some locale := by
  have hfeed : withoutLineFeed (path ++ "\n").toList = path.toList := withoutLineFeed_feed path
  have hlast : path.toList.getLast? ≠ some '\n' := by
    rw [← hfeed]
    rcases path_of_sampleLocale h with ⟨hpath, -⟩ | hpath
    · rw [hpath]
      decide
    · have hend : ".txt".toList.getLast? = some 't' := by decide
      rw [hpath, ← List.append_assoc, List.getLast?_append, hend, Option.some_or]
      decide
  rw [← h]
  apply sampleLocale_congr
  rw [hfeed, withoutLineFeed_eq_self hlast]

end Paths

/-! ### Samples by their locales -/

section Samples

variable {files : Files}

/-- The samples among files, each with its locale. -/
def samplesIn (files : Files) : List (String × String) :=
  files.filterMap fun e => (sampleLocale? e.1).map fun l => (l, e.2)

theorem names_samplesIn (files : Files) :
    Table.names (samplesIn files) = files.names.filterMap sampleLocale? := by
  rw [samplesIn, Table.names, Table.names, List.map_filterMap, List.filterMap_map]
  apply List.filterMap_congr
  intro e _
  rw [Option.map_map]
  exact Option.map_id'

/-- Different things are chosen from different elements just if none is chosen twice. -/
theorem nodup_filterMap_iff {α β : Type} {f : α → Option β} {as : List α} (has : as.Nodup) :
    (as.filterMap f).Nodup ↔
      ∀ a ∈ as, ∀ a' ∈ as, ∀ b, f a = some b → f a' = some b → a = a' := by
  rw [List.Nodup, List.pairwise_filterMap]
  constructor
  · intro h a ha a' ha' b hb hb'
    by_contra hne
    have hsymm : Std.Symm fun a a' : α => ∀ b, f a = some b → ∀ b', f a' = some b' → b ≠ b' :=
      ⟨fun _ _ h b hb b' hb' hsame => h b' hb' b hb hsame.symm⟩
    exact h.forall ha ha' hne b hb b hb' rfl
  · intro h
    refine has.imp_of_mem ?_
    rintro a a' ha ha' hne b hb _ hb' rfl
    exact hne (h a ha a' ha' b hb hb')

/-- **Samples with paths as they are written**: only `sample.txt` has the default locale, no locale
ends in a line feed, and no two paths differ in a line feed at the end. -/
structure PlainSamples (files : Files) : Prop where
  reserved : ∀ path ∈ files.names, sampleLocale? path = some defaultLocale → path = "sample.txt"
  ended : ∀ path ∈ files.names, ∀ locale, sampleLocale? path = some locale →
    locale.toList.getLast? ≠ some '\n'
  apart : ∀ path ∈ files.names, path ++ "\n" ∈ files.names → sampleLocale? (path ++ "\n") = none

/-- Plain samples differ in their locales. -/
theorem PlainSamples.path_eq (h : PlainSamples files) {path path' locale : String}
    (hpath : path ∈ files.names) (hpath' : path' ∈ files.names)
    (hlocale : sampleLocale? path = some locale) (hlocale' : sampleLocale? path' = some locale) :
    path = path' := by
  by_cases hdefault : locale = defaultLocale
  · subst hdefault
    rw [h.reserved path hpath hlocale, h.reserved path' hpath' hlocale']
  · rcases path_eq_of_sampleLocale hdefault hlocale hlocale' with hsame | hsame | hsame
    · exact hsame
    · rw [hsame] at hpath hlocale
      rw [h.apart path' hpath' hpath] at hlocale
      cases hlocale
    · rw [hsame] at hpath' hlocale'
      rw [h.apart path hpath hpath'] at hlocale'
      cases hlocale'

/-- An accepted locale of plain samples is a language tag, but for the one of `sample.txt`. -/
theorem PlainSamples.isLanguageTag (h : PlainSamples files) {path locale : String}
    (hpath : path ∈ files.names) (hlocale : sampleLocale? path = some locale)
    (haccepted : isLocale locale = true) (hne : path ≠ "sample.txt") :
    IsLanguageTag locale.toList := by
  rw [isLocale, Bool.or_eq_true, beq_iff_eq] at haccepted
  rcases haccepted with rfl | htag
  · exact absurd (h.reserved path hpath hlocale) hne
  · have hspec := isLanguageTag_iff.mp htag
    rwa [withoutLineFeed_eq_self (h.ended path hpath locale hlocale)] at hspec

/-- Samples are plain if they differ in their locales and have language tags, but for
`sample.txt`. -/
theorem plainSamples_of_tags
    (hapart : ∀ path ∈ files.names, ∀ path' ∈ files.names, ∀ locale,
      sampleLocale? path = some locale → sampleLocale? path' = some locale → path = path')
    (htags : ∀ path ∈ files.names, ∀ locale, sampleLocale? path = some locale →
      path ≠ "sample.txt" → IsLanguageTag locale.toList) : PlainSamples files := by
  constructor
  · intro path hpath hdefault
    by_contra hne
    have htag : Package.isLanguageTag defaultLocale = true :=
      isLanguageTag_iff.mpr (htags path hpath _ hdefault hne)
    exact absurd htag (by decide)
  · intro path hpath locale hlocale
    by_cases hsample : path = "sample.txt"
    · rw [hsample] at hlocale
      have hdefault : sampleLocale? "sample.txt" = some defaultLocale := by decide
      obtain rfl : locale = defaultLocale := Option.some.inj (hlocale.symm.trans hdefault)
      decide
    · exact (htags path hpath locale hlocale hsample).getLast
  · intro path hpath hfeed
    cases hlocale : sampleLocale? (path ++ "\n") with
    | none => rfl
    | some locale =>
      have hsame := hapart path hpath _ hfeed locale (sampleLocale_of_feed hlocale) hlocale
      have hlength := congrArg (fun s => s.toList.length) hsame
      simp at hlength

/-- **Plain samples** are those that differ in their locales and have language tags, but for
`sample.txt`, if all locales are accepted. -/
theorem plainSamples_iff (hlocales : ∀ path ∈ files.names, ∀ locale,
    sampleLocale? path = some locale → isLocale locale = true) :
    ((∀ path ∈ files.names, ∀ path' ∈ files.names, ∀ locale, sampleLocale? path = some locale →
        sampleLocale? path' = some locale → path = path') ∧
      ∀ path ∈ files.names, ∀ locale, sampleLocale? path = some locale → path ≠ "sample.txt" →
        IsLanguageTag locale.toList) ↔ PlainSamples files := by
  constructor
  · rintro ⟨hapart, htags⟩
    exact plainSamples_of_tags hapart htags
  · intro h
    exact ⟨fun path hpath path' hpath' locale => h.path_eq hpath hpath',
      fun path hpath locale hlocale =>
        h.isLanguageTag hpath hlocale (hlocales path hpath locale hlocale)⟩

end Samples

end Package

namespace Template

open Package

variable {env : Environment} {files : Files} {t : Template}

theorem samplesOf_eq (files : Files) : samplesOf files = Table.ofList (samplesIn files.sorted) :=
  rfl

/-- The sample that is taken for a locale is the last one of it. -/
theorem exists_of_find_samplesOf {locale text : String}
    (h : (samplesOf files).find? locale = some text) : ∃ path, (path, text) ∈ files ∧
      sampleLocale? path = some locale ∧
      ∀ path' ∈ files.names, sampleLocale? path' = some locale → path' ≤ path := by
  have horder := files.pairwise_sorted
  rw [samplesOf_eq, Table.find_ofList] at h
  obtain ⟨before, after, hsplit, hlast⟩ := h
  obtain ⟨first, rest, hsorted, -, hrest⟩ := List.filterMap_eq_append_iff.mp hsplit
  obtain ⟨skipped, e, later, rfl, -, he, rfl⟩ := List.filterMap_eq_cons_iff.mp hrest
  obtain ⟨l, hlocale, heq⟩ := Option.map_eq_some_iff.mp he
  obtain ⟨rfl, rfl⟩ := Prod.mk.inj heq
  rw [← List.append_assoc] at hsorted
  rw [hsorted] at horder
  refine ⟨e.1, Files.mem_sorted.mp (by simp [hsorted]), hlocale, ?_⟩
  intro path' hpath' hlocale'
  obtain ⟨e', he', rfl⟩ := List.mem_map.mp hpath'
  have hplace : e' ∈ (first ++ skipped) ++ e :: later := hsorted ▸ Files.mem_sorted.mpr he'
  rcases List.mem_append.mp hplace with hearlier | hplace
  · exact (List.pairwise_append.mp horder).2.2 e' hearlier e List.mem_cons_self
  rcases List.mem_cons.mp hplace with rfl | hlater
  · exact le_refl _
  · refine absurd (List.mem_map.mpr ⟨(l, e'.2), ?_, rfl⟩) hlast
    exact List.mem_filterMap.mpr ⟨e', hlater, by rw [hlocale']; rfl⟩

/-- The last sample of a locale is taken for it. -/
theorem find_samplesOf_of_last (hfiles : files.names.Nodup) {path locale text : String}
    (hpath : (path, text) ∈ files) (hlocale : sampleLocale? path = some locale)
    (hlast : ∀ path' ∈ files.names, sampleLocale? path' = some locale → path' ≤ path) :
    (samplesOf files).find? locale = some text := by
  have hnames := Files.nodup_names_sorted hfiles
  have horder := files.pairwise_sorted
  obtain ⟨first, later, hsorted⟩ := List.append_of_mem (Files.mem_sorted.mpr hpath)
  rw [hsorted, Table.names, List.map_append, List.map_cons] at hnames
  rw [hsorted] at horder
  rw [samplesOf_eq, Table.find_ofList]
  refine ⟨samplesIn first, samplesIn later, ?_, ?_⟩
  · rw [hsorted, samplesIn, List.filterMap_append, List.filterMap_cons, hlocale]
    rfl
  · rw [names_samplesIn]
    intro hagain
    obtain ⟨path', hpath', hlocale'⟩ := List.mem_filterMap.mp hagain
    obtain ⟨e', he', rfl⟩ := List.mem_map.mp hpath'
    have hfile : e' ∈ files := Files.mem_sorted.mp (by simp [hsorted, he'])
    have hle : e'.1 ≤ path := hlast e'.1 (List.mem_map_of_mem hfile) hlocale'
    have hge : path ≤ e'.1 :=
      (List.pairwise_cons.mp (List.pairwise_append.mp horder).2.1).1 e' he'
    rw [le_antisymm hle hge] at hpath'
    exact (List.nodup_cons.mp (List.nodup_append.mp hnames).2.1).1 hpath'

/-- **Of several samples of a locale** the one whose path comes last is taken. -/
theorem find_samplesOf (hfiles : files.names.Nodup) {locale text : String} :
    (samplesOf files).find? locale = some text ↔ ∃ path, (path, text) ∈ files ∧
      sampleLocale? path = some locale ∧
      ∀ path' ∈ files.names, sampleLocale? path' = some locale → path' ≤ path := by
  constructor
  · exact exists_of_find_samplesOf
  · rintro ⟨path, hpath, hlocale, hlast⟩
    exact find_samplesOf_of_last hfiles hpath hlocale hlast

/-- **No sample is lost** just if no two samples have the same locale. -/
theorem samplesOf_perm_iff (hfiles : files.names.Nodup) :
    (samplesOf files).Perm (samplesIn files) ↔ ∀ path ∈ files.names, ∀ path' ∈ files.names,
      ∀ locale, sampleLocale? path = some locale → sampleLocale? path' = some locale →
        path = path' := by
  rw [← nodup_filterMap_iff hfiles, ← names_samplesIn]
  have hsorted : (samplesIn files.sorted).Perm (samplesIn files) :=
    files.sorted_perm.filterMap _
  constructor
  · intro h
    exact (Table.names_perm h).nodup_iff.mp (Table.nodup_names_foldl_put (by simp))
  · intro h
    rw [samplesOf_eq, Table.ofList_eq_self ((Table.names_perm hsorted).nodup_iff.mpr h)]
    exact hsorted

/-- **The samples of a loaded template.** Under each locale it has the text of the sample file whose
path comes last among those of the locale. It has every sample file under its locale, each but
`sample.txt` under a language tag, just if the samples are plain. -/
theorem samples_loaded {σ : Type} (hfiles : files.names.Nodup) {state : σ} {session : Session}
    (hload : ((ofFiles env files).run state session).1 = .ok t) :
    (∀ locale text, t.metadata.samples.find? locale = some text ↔ ∃ path, (path, text) ∈ files ∧
      sampleLocale? path = some locale ∧
      ∀ path' ∈ files.names, sampleLocale? path' = some locale → path' ≤ path) ∧
    ((t.metadata.samples.Perm (samplesIn files) ∧
        ∀ path ∈ files.names, ∀ locale, sampleLocale? path = some locale → path ≠ "sample.txt" →
          IsLanguageTag locale.toList) ↔ PlainSamples files) := by
  have h := run_ofFiles_iff.mp hload
  obtain ⟨-, hchecked, -⟩ := errors_eq_nil_iff.mp h.sound
  rw [h.samples, samplesOf_perm_iff hfiles]
  exact ⟨fun _ _ => find_samplesOf hfiles,
    plainSamples_iff (checkSamples_eq_nil_iff.mp hchecked).2⟩

end Template

/-! ### A package with two samples of one locale -/

namespace Lease

open Package Template

/-- **The samples of leases**, as the package is written, are all loaded. -/
theorem samples_lease : ∃ t : Template,
    ((ofFiles environment (template.files true)).run () {}).1 = .ok t ∧
      t.metadata.samples.Perm (samplesIn (template.files true)) ∧
      t.metadata.samples.find? "fr" = some "Loyer: 3" := by
  have hparted := loads_files.parted rfl (by decide +kernel) true
  have hload : ((ofFiles environment (template.files true)).run () {}).1 =
      .ok (template.repacked true) :=
    run_ofFiles_iff.mpr (loads_files.repacked hparted survivesJson)
  have hended : ∀ path ∈ (template.files true).names, ∀ locale ∈ sampleLocale? path,
      locale.toList.getLast? ≠ some '\n' := by
    decide +kernel
  have hplain : PlainSamples (template.files true) :=
    ⟨by decide +kernel, hended, by decide +kernel⟩
  obtain ⟨hfind, hiff⟩ := samples_loaded (by decide +kernel) hload
  refine ⟨_, hload, (hiff.mpr hplain).1, (hfind _ _).mpr ⟨"sample_fr.txt", ?_, ?_, ?_⟩⟩
  · decide +kernel
  · decide +kernel
  · decide +kernel

/-- The files of the package with another sample in the default language. -/
def crowded : Files :=
  List.take 5 files ++ ("sample.txt", "Rent: 2") :: List.drop 5 files

theorem sorted_crowded : crowded.sorted = crowded :=
  Files.sorted_eq_self (by decide +kernel)

theorem loads_crowded : Loads environment crowded template := by
  obtain ⟨henvironment, hinfo, -, hreadme, -, haccepted, ⟨request, hrequest, hobject⟩,
    ⟨response, hresponse, hobject'⟩, hmodels, hcatalog, hmarkup, hscripts, hregistry, hdigest⟩ :=
      loads_files
  have hkept : ∀ p : String × String → Bool, p ("sample.txt", "Rent: 2") = false →
      crowded.filter p = files.filter p := by
    intro p hp
    rw [crowded, List.filter_append, List.filter_cons_of_neg (by simp [hp]), ← List.filter_append,
      List.take_append_drop]
  refine
    { environment := henvironment
      info := ?_
      sound := ?_
      readme := hreadme
      samples := ?_
      accepted := haccepted
      request := ⟨request, (readJson_congr rfl).trans hrequest, hobject⟩
      response := ⟨response, (readJson_congr rfl).trans hresponse, hobject'⟩
      models := ?_
      catalog := hcatalog
      markup := hmarkup
      scripts := ?_
      registry := hregistry
      digest := hdigest }
  · have hpackage : crowded.find? packageFile = files.find? packageFile := rfl
    rw [infoOf, readJson_congr hpackage]
    exact hinfo
  · simp only [errors, checkSamples, checkLogic, paths, sorted_crowded]
    decide +kernel
  · rw [samplesOf, sorted_crowded]
    decide +kernel
  · rw [modelsOf, sorted_crowded, hkept _ (by decide), ← sorted_files]
    exact hmodels
  · rw [scriptsIn, hkept _ (by decide)]
    exact hscripts

/-- **One of two samples is lost**: both are of the default locale, and the package is loaded. -/
theorem not_samples_loaded : ¬ ∀ (env : Environment) (files : Files) (t : Template),
    files.names.Nodup → ((ofFiles env files).run () {}).1 = .ok t →
      t.metadata.samples.Perm (samplesIn files) := by
  intro h
  have hperm := h environment crowded template (by decide +kernel) (run_ofFiles_iff.mpr loads_crowded)
  exact absurd hperm.length_eq (by decide +kernel)

end Lease

end Covenant
