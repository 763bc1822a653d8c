import ColorMarkup.Proofs.CodePlaces
import ColorMarkup.Proofs.ConvertedText
import ColorMarkup.Proofs.JointTags
/-!
Texts that a conversion keeps. Where the text has no joint tag and no opener with a closer behind it, the
conversion of a mode changes the text if and only if a single tag or a code of the mode is in it. So what
only looks like markup is kept: tags with too few or too many digits or with other characters among them,
openers that nothing closes, closers that nothing opens, and markers without a letter.
-/
namespace ColorMarkup

theorem Parts.eq_of_not_hasGradient {pieces : List TagPiece} {cut : Cut} (h : Parts pieces cut)
    (hnone : ¬ HasGradient (tagSource pieces)) : cut = ⟨[], tagSource pieces⟩ := by
  cases h with
  | last hnever => rfl
  | @gradient gap inner after opener closer _ hgap hopener hinner hcloser h =>
    refine absurd ⟨opener, closer, tagSource gap, tagSource inner, tagSource after, hopener, hcloser, ?_⟩ hnone
    simp only [tagSource_append, tagSource_cons, TagPiece.source]

variable {text : Text}

/-- The tags of a form that are written are those that are read. -/
theorem free_isTagOf_iff {form : TagForm} :
    Free (IsTagOf form) text ↔ ∀ piece ∈ tagPieces text, ¬ piece.hasForm form := by
  constructor
  · intro h piece hpiece hform
    cases piece with
    | plain c => cases hform
    | tag t => exact form_ne_of_free h t hpiece (of_decide_eq_true hform)
  · exact fun h => free_of_lacks fun t ht hform => h _ ht (decide_eq_true hform)

theorem not_hasGradient_iff : ¬ HasGradient text ↔ cut .gradient text = ⟨[], text⟩ := by
  have hparts : Parts (tagPieces text) (cut .gradient text) := parts_cutAtGradients (tagPieces text)
  constructor
  · intro h
    have hcut := hparts.eq_of_not_hasGradient (by rwa [tagSource_tagPieces])
    rwa [tagSource_tagPieces] at hcut
  · intro h
    have htail := hparts.not_hasGradient_tail (areRead_tagPieces text)
    rwa [h] at htail

/-- The code pass keeps a text if and only if it holds no code that the pass replaces. -/
theorem free_isReplacedCode_iff {mode : OutputMode} :
    Free (IsReplacedCode mode) text ↔ Pass.codes.run mode text = text := by
  refine ⟨run_codes_of_free mode, fun h => ?_⟩
  cases mode with
  | structured => exact h ▸ Structured.free_convertCodes text
  | legacy =>
    rintro word ⟨letter, hletter, rfl⟩ hinfix
    have hnone : ¬ ['&', letter] <:+: Pass.codes.run .legacy text :=
      not_infix_toSectionCodes (by decide) (by decide) (List.contains_iff_mem.2 hletter) text
    exact hnone (h.symm ▸ hinfix)

/-- Without gradients there is nothing for the gradient pass to do but to expand joint tags and, in legacy
mode, to convert codes. -/
theorem run_gradients_of_free {mode : OutputMode} (hjoint : Free (IsTagOf .joint) text)
    (hgradient : ¬ HasGradient text) (hcodes : Free (IsReplacedCode mode) text) :
    Pass.gradients.run mode text = text := by
  have hexpand : expandJoints text = text := expandJoints_of_lacks (form_ne_of_free hjoint)
  have hreplace : ∀ replace, replaceMarkup .gradient replace text = text := fun replace => by
    rw [replaceMarkup, not_hasGradient_iff.1 hgradient]
    rfl
  cases mode with
  | legacy =>
    change Legacy.convertGradients text = text
    rw [Legacy.convertGradients, hexpand, hreplace]
    exact run_codes_of_free .legacy hcodes
  | structured =>
    change Structured.convertGradients text = text
    rw [Structured.convertGradients, hexpand, hreplace]

/-- A text without joint tags and without an opener that has a closer anywhere behind it is kept by the
conversion of a mode if and only if it holds neither a single tag nor a code that the mode replaces. -/
theorem convert_eq_self_iff (mode : OutputMode) (hjoint : Free (IsTagOf .joint) text)
    (hgradient : ¬ HasGradient text) :
    convert mode text = text ↔ Free (IsTagOf .single) text ∧ Free (IsReplacedCode mode) text := by
  constructor
  · intro h
    have hfree := free_convert mode text
    rwa [h] at hfree
  · rintro ⟨hsingle, hcodes⟩
    have hgradients : Pass.gradients.run mode text = text := run_gradients_of_free hjoint hgradient hcodes
    have hcolors : Pass.colors.run mode text = text := run_colors_of_free mode hsingle
    cases mode with
    | legacy => exact (congrArg Legacy.convertColors hgradients).trans hcolors
    | structured =>
      have hboth := (congrArg Structured.convertColors hgradients).trans hcolors
      exact (congrArg Structured.convertCodes hboth).trans (run_codes_of_free .structured hcodes)

/-- Wrong digits, a tag that a marker breaks, a closer in front of an opener, and lone markers. -/
theorem convert_eq_self_iff_near_misses :
    let text : Text := r"{#000000<}{#ff00}{#gg0000}{#ff0000&}§g{#ffffff>}{#12".toList
    Free (IsTagOf .joint) text ∧ ¬ HasGradient text ∧ Free (IsTagOf .single) text ∧
      Free (IsReplacedCode .structured) text ∧ convert .structured text = text := by
  intro text
  have hjoint : Free (IsTagOf .joint) text := free_isTagOf_iff.2 (by decide +kernel)
  have hgradient : ¬ HasGradient text := not_hasGradient_iff.2 (by decide +kernel)
  have hsingle : Free (IsTagOf .single) text := free_isTagOf_iff.2 (by decide +kernel)
  have hcodes : Free (IsReplacedCode .structured) text := free_isReplacedCode_iff.2 (by decide +kernel)
  have hkept := (convert_eq_self_iff .structured hjoint hgradient).2 ⟨hsingle, hcodes⟩
  exact ⟨hjoint, hgradient, hsingle, hcodes, hkept⟩

end ColorMarkup
