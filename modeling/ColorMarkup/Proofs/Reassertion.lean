import ColorMarkup.Proofs.Drawing
import ColorMarkup.Proofs.Painting
import Mathlib.Data.List.Basic
/-!
The decorations behind a change of colour. A legacy renderer drops all decorations where
the colour changes, so every colour that is written should repeat those in force. Single
colours repeat them; the colours of a gradient repeat only what was opened inside it, and
end what was opened before.
-/
namespace ColorMarkup

/-- What the gradient pass writes: text of the source, and the colours between it. -/
inductive Ink where
  | text (text : Text)
  | color (color : Color)

namespace Ink

def render : Ink → Text
  | text t => t
  | color c => c.legacyHex

/-- The graphemes of a gradient, each behind its colour. -/
def ofGradient (first last : Color) (content : Text) : List Ink :=
  (content.graphemes.zip (Color.interpolate first last content.graphemes.length)).flatMap
    fun (grapheme, c) => [.color c, .text grapheme]

def ofMarkup : Markup → List Ink
  | .gradient opener closer content => ofGradient opener.color closer.color content
  | .tag t => [.text t.source]

def ofCut (parts : Cut) : List Ink :=
  (parts.occurrences.flatMap fun o => .text o.before :: ofMarkup o.markup) ++ [.text parts.tail]

theorem fill_eq_render {replace : Markup → Text} {parts : Cut}
    (h : ∀ o ∈ parts.occurrences, replace o.markup = (ofMarkup o.markup).flatMap render) :
    parts.fill replace = (ofCut parts).flatMap render := by
  have hocc : ∀ o ∈ parts.occurrences,
      o.before ++ replace o.markup = (Ink.text o.before :: ofMarkup o.markup).flatMap render := by
    intro o ho
    rw [h o ho]
    rfl
  rw [Cut.fill, ofCut, List.flatMap_append, List.flatMap_assoc, List.flatMap_congr hocc,
    List.flatMap_singleton]
  rfl

end Ink

/-- Strokes of ink behind `pending`, text that may go on. -/
def strokesFrom (pending : Text) : List Ink → List Stroke
  | [] => textStrokes pending
  | .text t :: rest => strokesFrom (pending ++ t) rest
  | .color c :: rest => textStrokes pending ++ .grapheme c :: strokesFrom [] rest

/-- The strokes of a text. Where a gradient ends, its last grapheme and the text behind
it are one text, as nothing is written between them. -/
def strokes (text : Text) : List Stroke := strokesFrom [] (Ink.ofCut (cut .gradient (expandJoints text)))

/-- No gradient of the text has a marker in its content. -/
def PlainGradients (text : Text) : Prop :=
  ∀ o ∈ (cut .gradient (expandJoints text)).occurrences,
    ∀ content ∈ o.markup.content?, ∀ c ∈ content, ¬ isMarker c

instance (text : Text) : Decidable (PlainGradients text) :=
  decidable_of_iff ((cut .gradient (expandJoints text)).occurrences.all fun o =>
    o.markup.content?.all fun content => content.all fun c => !isMarker c)
    (by simp [PlainGradients, Option.all_eq_true])

theorem colorGradient_eq_inks {content : Text} (h : ∀ c ∈ content, ¬ isMarker c) (first last : Color) :
    colorGradient first last content = (Ink.ofGradient first last content).flatMap Ink.render := by
  rw [colorGradient, applyColors, paint_interpolate h, renderGlyphs, List.flatMap_map, Ink.ofGradient,
    List.flatMap_assoc]
  congr
  funext ⟨grapheme, color⟩
  simp [Glyph.render, Color.render, Ink.render]

theorem convertGradients_eq_inks {text : Text} (h : PlainGradients text) :
    Legacy.convertGradients text =
      Legacy.convertCodes ((Ink.ofCut (cut .gradient (expandJoints text))).flatMap Ink.render) := by
  rw [Legacy.convertGradients, replaceMarkup, Ink.fill_eq_render]
  intro o ho
  have hplain := h o ho
  cases hmarkup : o.markup with
  | tag t => simp [Ink.ofMarkup, Ink.render]
  | gradient opener closer content =>
    rw [hmarkup] at hplain
    exact colorGradient_eq_inks (hplain content rfl) opener.color closer.color

@[simp] theorem renderColor_empty (color : Color) : Legacy.renderColor color ∅ = color.legacyHex :=
  List.append_nil _

theorem textStrokes_append_legacyHex (front back : Text) (color : Color) :
    textStrokes (front ++ (color.legacyHex ++ back)) =
      textStrokes front ++ textStrokes (color.legacyHex ++ back) := by
  rw [textStrokes, textStrokes, textStrokes, ← List.map_append]
  exact congrArg _ (tagPieces_append_section front _)

theorem startsWithoutLetter_legacyHex (color : Color) (back : Text) :
    StartsWithoutLetter (textStrokes (color.legacyHex ++ back)) := by
  apply startsWithoutLetter_textStrokes
  intro letter hletter
  cases hletter
  exact of?_section

/-- Ink drawn behind pending text: the colours of graphemes come without decorations, and
end those that were in force. -/
theorem draw_inks (active : Decorations) (pending : Text) (inks : List Ink) :
    draw writtenCode (fun _ => ∅) active
        (textStrokes (Legacy.convertCodes (pending ++ inks.flatMap Ink.render))) =
      draw sectionCode (fun _ => ∅) active (strokesFrom pending inks) := by
  induction inks generalizing active pending with
  | nil =>
    rw [List.flatMap_nil, List.append_nil]
    exact draw_textStrokes_convertCodes _ active pending
  | cons ink inks ih =>
    cases ink with
    | text t =>
      rw [List.flatMap_cons, ← List.append_assoc]
      exact ih active (pending ++ t)
    | color c =>
      have hgrapheme : StartsWithoutLetter (.grapheme c :: strokesFrom [] inks) := by
        intro letter later heq
        cases heq
      have hlater := ih ∅ []
      obtain ⟨behind, hleft⟩ := exists_draw_append writtenCode (fun _ => ∅) active
        (textStrokes (Legacy.convertCodes pending))
      obtain ⟨behind', hright⟩ := exists_draw_append sectionCode (fun _ => ∅) active (textStrokes pending)
      rw [List.nil_append] at hlater
      rw [List.flatMap_cons, Ink.render, Legacy.convertCodes_append_legacyHex,
        textStrokes_append_legacyHex, hleft _ (startsWithoutLetter_legacyHex c _),
        draw_textStrokes_convertCodes, draw_legacyHex, hlater, strokesFrom, hright _ hgrapheme, draw,
        renderColor_empty]

theorem convert_eq_draw {text : Text} (h : PlainGradients text) :
    Legacy.convert text = draw sectionCode (fun _ => ∅) ∅ (strokes text) := by
  rw [Legacy.convert, convertGradients_eq_inks h, Legacy.convertColors_eq_draw (fun _ => ∅)]
  exact draw_inks ∅ [] _

/-- The decorations in force at the colours of gradients, reading from left to right. -/
def decorationsAtGraphemes (active : Decorations) : List Stroke → List Decorations
  | [] => []
  | .piece (.plain c) :: .piece (.plain letter) :: rest =>
    match if isMarker c then LegacyCode.of? letter else none with
    | some code => decorationsAtGraphemes (active.after code) rest
    | none => decorationsAtGraphemes active (.piece (.plain letter) :: rest)
  | .piece _ :: rest => decorationsAtGraphemes active rest
  | .grapheme _ :: rest => active :: decorationsAtGraphemes active rest

namespace Decorations

instance : HasSubset Decorations := ⟨fun s t => ∀ d, d ∈ s → d ∈ t⟩

variable {s t : Decorations}

theorem subset_refl (s : Decorations) : s ⊆ s := fun _ h => h

theorem empty_subset (s : Decorations) : ∅ ⊆ s := fun d h => absurd h (not_mem_empty d)

theorem subset_empty (h : s.toList = []) : s ⊆ ∅ := by
  intro d hd
  rw [← mem_toList, h] at hd
  cases hd

theorem length_toList_le (h : s ⊆ t) : s.toList.length ≤ t.toList.length := by
  rw [toList, toList, ← List.countP_eq_length_filter, ← List.countP_eq_length_filter]
  exact List.countP_mono_left fun d _ => h d

theorem toList_eq (h : s ⊆ t) (h' : t ⊆ s) : s.toList = t.toList :=
  List.filter_congr fun d _ => Bool.eq_iff_iff.2 ⟨h d, h' d⟩

theorem after_subset (h : s ⊆ t) (code : LegacyCode) : s.after code ⊆ t.after code := by
  rcases code with color | (d | _) | _
  · exact empty_subset _
  · intro e he
    simp only [after, mem_union] at he ⊢
    exact he.imp_left (h e)
  · exact empty_subset _
  · exact empty_subset _

end Decorations

theorem length_renderColor (color : Color) (active : Decorations) :
    (Legacy.renderColor color active).length =
      color.legacyHex.length + 2 * active.toList.length := by
  have hcodes : ∀ list : List Decoration,
      (list.flatMap fun d => (FormatCode.decorate d).render .legacy).length = 2 * list.length := by
    intro list
    induction list with
    | nil => rfl
    | cons d list ih =>
      rw [List.flatMap_cons, List.length_append, ih, List.length_cons]
      simp only [FormatCode.render, legacyCode, List.length_cons, List.length_nil]
      omega
  rw [Legacy.renderColor, List.length_append, hcodes]

section Compare

variable {write : Char → Char → Text}

/-- Colours that repeat all decorations take more room than those that drop some, and if
they take the same then there were none to drop. -/
theorem length_draw_le {dropped kept : Decorations} (h : dropped ⊆ kept) (list : List Stroke) :
    (draw write (fun _ => ∅) dropped list).length ≤ (draw write id kept list).length ∧
      ((draw write (fun _ => ∅) dropped list).length = (draw write id kept list).length →
        ∀ active ∈ decorationsAtGraphemes kept list, active.toList = []) := by
  fun_induction decorationsAtGraphemes kept list generalizing dropped with
  | case1 => simp [draw]
  | case2 kept c letter rest code hcode ih =>
    have ih := ih (Decorations.after_subset h code)
    simp only [draw, hcode, List.length_append, Nat.add_le_add_iff_left, Nat.add_left_cancel_iff]
    exact ih
  | case3 kept c letter rest hnone ih =>
    have ih := ih h
    rw [draw, draw, hnone]
    simp only [List.length_cons, Nat.add_le_add_iff_right, Nat.add_right_cancel_iff]
    exact ih
  | case4 kept piece rest hpiece ih =>
    have ih := ih h
    cases piece with
    | plain c =>
      have hletter : StartsWithoutLetter rest := fun letter later heq =>
        (hpiece c letter later heq rfl).elim
      rw [draw_plain fun _ => hletter, draw_plain fun _ => hletter]
      simp only [List.length_cons, Nat.add_le_add_iff_right, Nat.add_right_cancel_iff]
      exact ih
    | tag t =>
      have hlength := Decorations.length_toList_le h
      simp only [draw, List.length_append]
      split
      · rw [length_renderColor, length_renderColor]
        exact ⟨by omega, fun heq => ih.2 (by omega)⟩
      · exact ⟨by omega, fun heq => ih.2 (by omega)⟩
  | case5 kept color rest ih =>
    obtain ⟨hle, hnone⟩ := ih (Decorations.empty_subset kept)
    simp only [draw, renderColor_empty, List.length_append, length_renderColor, id_eq,
      List.forall_mem_cons, ← List.length_eq_zero_iff]
    exact ⟨by omega, fun heq => ⟨by omega, fun active hactive =>
      List.length_eq_zero_iff.2 (hnone (by omega) active hactive)⟩⟩

theorem renderColor_congr {s t : Decorations} (h : s ⊆ t) (h' : t ⊆ s) (color : Color) :
    Legacy.renderColor color s = Legacy.renderColor color t := by
  rw [Legacy.renderColor, Legacy.renderColor, Decorations.toList_eq h h']

/-- Without decorations in force at the colours of gradients there is none to drop. -/
theorem draw_eq_of_forall {dropped kept : Decorations} (h : dropped ⊆ kept) (h' : kept ⊆ dropped)
    (list : List Stroke) (hnone : ∀ active ∈ decorationsAtGraphemes kept list, active.toList = []) :
    draw write (fun _ => ∅) dropped list = draw write id kept list := by
  fun_induction decorationsAtGraphemes kept list generalizing dropped with
  | case1 => rfl
  | case2 kept c letter rest code hcode ih =>
    rw [draw, draw, hcode]
    exact congrArg _ (ih (Decorations.after_subset h code) (Decorations.after_subset h' code) hnone)
  | case3 kept c letter rest hcode ih =>
    rw [draw, draw, hcode]
    exact congrArg _ (ih h h' hnone)
  | case4 kept piece rest hpiece ih =>
    have ih := ih h h' hnone
    cases piece with
    | plain c =>
      have hletter : StartsWithoutLetter rest := fun letter later heq =>
        (hpiece c letter later heq rfl).elim
      rw [draw_plain fun _ => hletter, draw_plain fun _ => hletter, ih]
    | tag t => rw [draw, draw, ih, renderColor_congr h h']
  | case5 kept color rest ih =>
    obtain ⟨hkept, hrest⟩ := List.forall_mem_cons.1 hnone
    have hempty := Decorations.subset_empty hkept
    rw [draw, draw, ih (Decorations.empty_subset kept) hempty hrest, id,
      renderColor_congr (Decorations.empty_subset kept) hempty]

end Compare

/-- Every single colour repeats the decorations that came into force since the last
colour of a gradient. The conversion repeats all decorations in force behind every
colour if and only if none is in force at a colour of a gradient. -/
theorem convert_eq_reasserted_iff {text : Text} (h : PlainGradients text) :
    Legacy.convert text = draw sectionCode (fun _ => ∅) ∅ (strokes text) ∧
      (Legacy.convert text = draw sectionCode id ∅ (strokes text) ↔
        ∀ active ∈ decorationsAtGraphemes ∅ (strokes text), active.toList = []) := by
  have hrefl := Decorations.subset_refl ∅
  have hdraw := convert_eq_draw h
  refine ⟨hdraw, fun heq => ?_, fun hnone => hdraw.trans (draw_eq_of_forall hrefl hrefl _ hnone)⟩
  exact (length_draw_le hrefl (strokes text)).2 (congrArg List.length (hdraw.symm.trans heq))

theorem convert_eq_reasserted_iff_between :
    let text : Text := r"&l{#ff0000}a&R{#00ff00>}bc{#0000ff<}§o&n{#112233}d".toList
    PlainGradients text ∧ (∀ active ∈ decorationsAtGraphemes ∅ (strokes text), active.toList = []) ∧
      Legacy.convert text = draw sectionCode id ∅ (strokes text) := by
  intro text
  have hplain : PlainGradients text := by decide +kernel
  have hnone : ∀ active ∈ decorationsAtGraphemes ∅ (strokes text), active.toList = [] := by
    decide +kernel
  exact ⟨hplain, hnone, (convert_eq_reasserted_iff hplain).2.2 hnone⟩

/-- Bold is in force where the gradient starts, and both its colours drop it. -/
theorem bold_dropped_by_gradient :
    let text : Text := r"&l{#ff0000>}Hi{#00ff00<}".toList
    PlainGradients text ∧
      Legacy.convert text = "§l§x§f§f§0§0§0§0H§x§0§0§f§f§0§0i".toList ∧
      draw sectionCode id ∅ (strokes text) = "§l§x§f§f§0§0§0§0§lH§x§0§0§f§f§0§0§li".toList := by
  decide +kernel

end ColorMarkup
