import ColorMarkup.Pass
import ColorMarkup.Proofs.Drawing
import ColorMarkup.Proofs.StructuredPasses
import ColorMarkup.Proofs.VisibleText
/-!
A converted text holds nothing more to convert: no single tag and no code that the mode
replaces, also not one of which the conversion brought the characters together. So the
passes for single colours and for codes leave it as it is.
-/
namespace ColorMarkup

/-- The tag of a single colour as it is written, its digits in either case. -/
def IsSingleTag (word : Text) : Prop :=
  ∃ digits : Text, digits.length = 6 ∧ (∀ d ∈ digits, IsHexDigit d) ∧ word = '{' :: '#' :: digits ++ ['}']

/-- A code that the code pass of a mode replaces, its letter in either case. -/
def IsReplacedCode : OutputMode → Text → Prop
  | .legacy, word => ∃ letter, letter.toLower ∈ colorLetters ++ formatLetters ∧ word = ['&', letter]
  | .structured, word => IsCode codeLetters word

theorem isSingleTag_iff {word : Text} :
    IsSingleTag word ↔ ∃ digits : HexDigits, word = (ColorTag.mk .single digits).source :=
  @isTagOf_iff .single word

theorem infix_of_mem_tagPieces {text : Text} {t : ColorTag} (h : .tag t ∈ tagPieces text) :
    t.source <:+: text := by
  obtain ⟨front, back, hpieces⟩ := List.append_of_mem h
  refine ⟨tagSource front, tagSource back, ?_⟩
  rw [← tagSource_tagPieces text, hpieces, tagSource_append, tagSource_cons, List.append_assoc]
  rfl

section Free

variable {text : Text}

/-- Of a form that is written nowhere no tag is read. -/
theorem form_ne_of_free {form : TagForm} (h : Free (IsTagOf form) text) :
    ∀ t, .tag t ∈ tagPieces text → t.form ≠ form := by
  rintro ⟨_, digits⟩ ht rfl
  exact h _ (isTagOf_iff.2 ⟨digits, rfl⟩) (infix_of_mem_tagPieces ht)

theorem cut_single_of_free (h : Free IsSingleTag text) : cut .single text = ⟨[], text⟩ := by
  have hform : ∀ t, .tag t ∈ tagPieces text → t.form ≠ .single := form_ne_of_free h
  have hcut := cutAtForm_append hform []
  rw [List.append_nil, tagSource_tagPieces] at hcut
  rw [cut, hcut]
  simp [cutAtForm, Cut.prepend]

/-- Without single tags there is nothing for the colour pass to do. -/
theorem run_colors_of_free (mode : OutputMode) (h : Free IsSingleTag text) :
    Pass.colors.run mode text = text := by
  have hcut := cut_single_of_free h
  cases mode with
  | legacy =>
    change Legacy.convertColors text = text
    rw [Legacy.convertColors, hcut]
    rfl
  | structured =>
    change Structured.convertColors text = text
    rw [Structured.convertColors, replaceMarkup, hcut]
    rfl

/-- Codes that stand nowhere in a text are not read there. -/
theorem readCodes_of_forall {α : Type} {isMark : Char → Bool} {accept : Char → Option α}
    (h : ∀ marker letter value, isMark marker → accept letter = some value → ¬ [marker, letter] <:+: text) :
    readCodes isMark accept text = text.map .plain := by
  induction text with
  | nil => rfl
  | cons c rest ih =>
    have hrest : ∀ marker letter value, isMark marker → accept letter = some value →
        ¬ [marker, letter] <:+: rest := fun marker letter value hmark hletter hword =>
      h marker letter value hmark hletter (List.infix_cons hword)
    rw [readCodes_cons, ih hrest, List.map_cons]
    intro hmark letter hhead
    obtain ⟨later, rfl⟩ := List.head?_eq_some_iff.1 hhead
    cases hletter : accept letter with
    | none => rfl
    | some value => exact absurd ⟨[], later, rfl⟩ (h c letter value hmark hletter)

/-- The letters whose codes have a tag of their own. -/
theorem exists_codeTag?_iff {letter : Char} :
    (∃ tag, Structured.codeTag? letter = some tag) ↔ letter.toLower ∈ codeLetters := by
  constructor
  · rintro ⟨tag, htag⟩
    have hletters : ∀ d ∈ colorLetters ++ formatLetters, d = 'x' ∨ d ∈ codeLetters :=
      Text.forall_mem_of_all (by decide)
    cases hletters _ (exists_of?_iff.1 (Structured.exists_of?_of_codeTag? htag)) with
    | inl hx =>
      have hhex : LegacyCode.of? letter = some .hex := of?_congr (d := 'x') hx
      rw [Structured.codeTag?, hhex] at htag
      cases htag
    | inr hletter => exact hletter
  · intro hletter
    obtain ⟨content, hcontent⟩ := Structured.exists_codeContent? hletter
    exact ⟨angleTag content, by rw [Structured.codeTag?_eq_map, hcontent]; rfl⟩

/-- Without codes there is nothing for the code pass to do. -/
theorem run_codes_of_free (mode : OutputMode) (h : Free (IsReplacedCode mode) text) :
    Pass.codes.run mode text = text := by
  cases mode with
  | legacy =>
    have hread : readCodes (· == '&') LegacyCode.of? text = text.map .plain := by
      refine readCodes_of_forall fun marker letter code hmark hcode => h _ ?_
      exact ⟨letter, exists_of?_iff.1 ⟨code, hcode⟩, by rw [eq_of_beq hmark]⟩
    change toSectionCodes '&' text = text
    rw [toSectionCodes, hread, List.flatMap_map]
    exact List.flatMap_singleton' text
  | structured =>
    have hread : readCodes isMarker Structured.codeTag? text = text.map .plain := by
      refine readCodes_of_forall fun marker letter tag hmark htag => h _ ?_
      exact ⟨marker, letter, isMarker_iff.1 hmark, exists_codeTag?_iff.1 ⟨tag, htag⟩, rfl⟩
    change Structured.convertCodes text = text
    rw [Structured.convertCodes, hread, List.flatMap_map]
    exact List.flatMap_singleton' text

end Free

section Atoms

variable {α : Type} {reader : CodeReader α} {atoms : List (Atom α)}

theorem free_isSingleTag (hatoms : reader.IsReading atoms) (h : ∀ t, .tag t ∈ atoms → t.form ≠ .single) :
    Free IsSingleTag (atomSource atoms) := by
  intro word hword hsub
  obtain ⟨digits, rfl⟩ := isSingleTag_iff.1 hword
  exact h _ (hatoms.mem_of_source_infix hsub) rfl

end Atoms

namespace Legacy

/-- The codes that the legacy code pass replaces. -/
def reader : CodeReader LegacyCode where
  isMark := (· == '&')
  accept := LegacyCode.of?
  isMarker_of_isMark h := isMarker_iff.2 (.inl (eq_of_beq h))
  not_isHead_of_accept h := not_isHead_of_mem_letters (exists_of?_iff.1 ⟨_, h⟩)

/-- Text that starts with a section sign joins nothing. -/
theorem isInert_section {text : Text} (h : ∀ c ∈ text, c ≠ '{' ∧ ¬ reader.isMark c) :
    reader.IsInert ('§' :: text) where
  ne_nil := List.cons_ne_nil _ _
  begins_none c hc := by
    cases List.mem_cons.1 hc with
    | inl hc =>
      rw [hc]
      decide
    | inr hc => exact h c hc
  ends_no_code c hc := by
    obtain rfl : '§' = c := by simpa using hc
    exact of?_section
  ends_no_tag word after hword hstart := hword.eq_nil (by decide) hstart

theorem isInert_code {letter : Char} {code : LegacyCode} (h : LegacyCode.of? letter = some code) :
    reader.IsInert ['§', letter.toLower] := by
  have hlower : reader.accept letter.toLower = some code := of?_toLower h
  refine isInert_section (List.forall_mem_singleton.2 ⟨?_, ?_⟩)
  · exact CodeReader.ne_brace_of_accept hlower
  · exact CodeReader.not_isMark_of_accept hlower

theorem isInert_renderColor (color : Color) (active : Decorations) :
    reader.IsInert (renderColor color active) := by
  have hhex := color.forall_mem_legacyHex (p := fun c => c ≠ '{' ∧ ¬ reader.isMark c) (by decide)
    (by decide) (by decide)
  have hcodes : ∀ c ∈ active.toList.flatMap fun d => (FormatCode.decorate d).render .legacy,
      c ≠ '{' ∧ ¬ reader.isMark c := by
    have hcode : ∀ d : Decoration, ∀ c ∈ (FormatCode.decorate d).render .legacy,
        c ≠ '{' ∧ ¬ reader.isMark c := by
      intro d
      cases d <;> exact Text.forall_mem_of_all (by decide)
    intro c hc
    obtain ⟨d, -, hc⟩ := List.mem_flatMap.1 hc
    exact hcode d c hc
  refine isInert_section fun c hc => ?_
  cases List.mem_append.1 hc with
  | inl hc => exact hhex c (List.mem_cons_of_mem _ hc)
  | inr hc => exact hcodes c hc

variable {atoms : List (Atom LegacyCode)}

theorem convertCodes_atomSource (h : reader.IsReading atoms) : convertCodes (atomSource atoms) =
    atomSource (atoms.flatMap (CodeReader.decode fun letter _ => ['§', letter.toLower])) := by
  refine Eq.trans ?_ (h.flatMap_readCodes fun letter _ => ['§', letter.toLower])
  rw [convertCodes, toSectionCodes]
  congr
  funext piece
  cases piece <;> rfl

/-- The colour pass replaces each single tag and leaves all other atoms, whatever codes
it finds in front of the tags. -/
theorem exists_fillCut (active : Decorations) (front : Text) (atoms : List (Atom LegacyCode)) :
    ∃ atoms', reader.Rewrites atoms atoms' ∧
      (∀ t, .tag t ∈ atoms' → t.form ≠ .single) ∧
      (∀ marker letter code, .code marker letter code ∈ atoms' → .code marker letter code ∈ atoms) ∧
      fillCut active ((cutAtForm .single (atoms.flatMap Atom.pieces)).prepend front) =
        front ++ atomSource atoms' := by
  -- `front` is the text since the last tag, which decides what the next one repeats
  induction atoms generalizing active front with
  | nil => exact ⟨[], .nil, by simp, by simp, rfl⟩
  | cons a atoms ih =>
    by_cases ha : ∃ t : ColorTag, a = .tag t ∧ t.form = .single
    · obtain ⟨t, rfl, hform⟩ := ha
      obtain ⟨atoms', hrewrites, htags, hcodes, hfill⟩ := ih (active.afterText front) []
      rw [Cut.prepend_nil, List.nil_append] at hfill
      have hcut : cutAtForm .single ((Atom.tag t :: atoms).flatMap Atom.pieces) =
          (cutAtForm .single (atoms.flatMap Atom.pieces)).push (.tag t) := by
        rw [List.flatMap_cons, Atom.pieces, List.singleton_append, cutAtForm, if_pos hform]
      refine ⟨_, .write _ (isInert_renderColor t.color (active.afterText front)) hrewrites, ?_, ?_, ?_⟩
      · intro u hu
        exact htags u (by simpa using hu)
      · intro marker letter code hmem
        exact List.mem_cons_of_mem _ (hcodes marker letter code (by simpa using hmem))
      · rw [hcut, atomSource_append, atomSource_map_plain, ← hfill]
        simp [Cut.push, Cut.prepend, fillCut, fillColors, Markup.first]
    · have hform : ∀ t, a = .tag t → t.form ≠ .single := fun t ht hform => ha ⟨t, ht, hform⟩
      have hpieces : ∀ t, .tag t ∈ a.pieces → t.form ≠ .single := fun t ht => hform t (Atom.eq_of_mem_pieces ht)
      obtain ⟨atoms', hrewrites, htags, hcodes, hfill⟩ := ih active (front ++ a.source)
      refine ⟨a :: atoms', .keep a hrewrites, ?_, ?_, ?_⟩
      · intro t ht
        cases List.mem_cons.1 ht with
        | inl heq => exact hform t heq.symm
        | inr ht => exact htags t ht
      · intro marker letter code hmem
        cases List.mem_cons.1 hmem with
        | inl heq =>
          rw [heq]
          exact List.mem_cons_self
        | inr hmem => exact List.mem_cons_of_mem _ (hcodes marker letter code hmem)
      · rw [List.flatMap_cons, cutAtForm_append hpieces, a.tagSource_pieces, Cut.prepend_prepend, hfill,
          atomSource_cons, List.append_assoc]

/-- Behind both passes neither a single tag nor a code after `&` is left. -/
theorem free_convert (text : Text) :
    Free IsSingleTag (convert text) ∧ Free (IsReplacedCode .legacy) (convert text) := by
  -- whatever the gradients have become, the codes are converted behind them
  obtain ⟨gradients, hgradients⟩ : ∃ gradients, convertGradients text = convertCodes gradients := ⟨_, rfl⟩
  obtain ⟨atoms, hatoms, rfl⟩ := reader.exists_isReading gradients
  have hdecoded := hatoms.rewrites (hatoms.rewrites_decode fun _ _ => isInert_code)
  obtain ⟨atoms', hrewrites, htags, hcodes, hfill⟩ := exists_fillCut ∅ [] (atoms.flatMap (CodeReader.decode _))
  have hreading := hdecoded.rewrites hrewrites
  have hconvert : convert text = atomSource atoms' := by
    rw [Cut.prepend_nil] at hfill
    rw [convert, hgradients, convertCodes_atomSource hatoms, convertColors, cut, hdecoded.tagPieces_eq]
    exact hfill
  rw [hconvert]
  constructor
  · exact free_isSingleTag hreading htags
  · rintro word ⟨letter, hletter, rfl⟩ hsub
    obtain ⟨code, hcode⟩ := exists_of?_iff.2 hletter
    have hmem := hreading.mem_of_code_infix (by rfl) hcode hsub
    exact CodeReader.code_not_mem_decode _ _ _ _ (hcodes _ _ _ hmem)

end Legacy

namespace Structured

/-- Behind the code pass no code is left. -/
theorem free_convertCodes (text : Text) : Free (IsReplacedCode .structured) (convertCodes text) := by
  obtain ⟨atoms, hatoms, rfl⟩ := reader.exists_isReading text
  have hreading := hatoms.rewrites (rewrites_decode hatoms)
  rw [convertCodes_atomSource hatoms]
  rintro word ⟨marker, letter, hmarker, hletter, rfl⟩ hsub
  obtain ⟨tag, htag⟩ := exists_codeTag?_iff.2 hletter
  have hmem := hreading.mem_of_code_infix (isMarker_iff.2 hmarker) htag hsub
  exact CodeReader.code_not_mem_decode _ _ _ _ hmem

theorem free_convert (text : Text) :
    Free IsSingleTag (convert text) ∧ Free (IsReplacedCode .structured) (convert text) := by
  obtain ⟨atoms, hatoms, hsource⟩ := reader.exists_isReading (convertGradients text)
  have hcolored := hatoms.rewrites (rewrites_recolor atoms)
  have hreading := hcolored.rewrites (rewrites_decode hcolored)
  refine ⟨?_, free_convertCodes _⟩
  rw [convert, ← hsource, convertColors_atomSource hatoms, convertCodes_atomSource hcolored]
  refine free_isSingleTag hreading fun t ht hform => ?_
  obtain ⟨a, -, ha⟩ := List.mem_flatMap.1 (keepsGradients_decode.mem_of_mem_flatMap ht)
  have heq := keepsGradients_recolor.eq_of_mem a t ha
  rw [heq, recolor, if_pos hform] at ha
  simp at ha

end Structured

theorem free_convert (mode : OutputMode) (text : Text) :
    Free IsSingleTag (convert mode text) ∧ Free (IsReplacedCode mode) (convert mode text) := by
  cases mode with
  | legacy => exact Legacy.free_convert text
  | structured => exact Structured.free_convert text

/-- A converted text holds no single tag and no code that its mode replaces, and the two
passes for them leave it as it is. -/
theorem nothing_left_to_convert (mode : OutputMode) (text : Text) :
    Free IsSingleTag (convert mode text) ∧ Free (IsReplacedCode mode) (convert mode text) ∧
      Pass.colors.run mode (convert mode text) = convert mode text ∧
      Pass.codes.run mode (convert mode text) = convert mode text := by
  obtain ⟨htags, hcodes⟩ := free_convert mode text
  exact ⟨htags, hcodes, run_colors_of_free mode htags, run_codes_of_free mode hcodes⟩

end ColorMarkup
