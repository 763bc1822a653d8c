import ColorMarkup.Proofs.LegacyDecorations
import ColorMarkup.Proofs.PlacedTags
/-!
The colour pass seen from outside the tags. A text falls into its single tags and the gaps
between them; the pass copies the gaps and puts a colour, with the decorations in force, in the
place of each tag. A brace and a section sign are no letters, so neither a tag nor a written
colour is read together with a marker in front of it. So at each place of a gap the same
decorations are in force in the source and in the result. This is shown of one tag and what is
written for it, and by induction of all tags.
-/
namespace ColorMarkup

theorem Cut.prepend_append (text : Text) (front : List Occurrence) (markup : Markup) (back : List Occurrence)
    (gap tail : Text) : Cut.prepend text ⟨front ++ ⟨gap, markup⟩ :: back, tail⟩ =
      ⟨(Cut.prepend text ⟨front, gap⟩).occurrences ++ ⟨(Cut.prepend text ⟨front, gap⟩).tail, markup⟩ :: back,
        tail⟩ := by
  cases front <;> rfl

/-- A tag that is looked for parts a cut. -/
theorem cutAtForm_append_tag {form : TagForm} {t : ColorTag} (ht : t.form = form)
    (front back : List TagPiece) : cutAtForm form (front ++ .tag t :: back) =
      ⟨(cutAtForm form front).occurrences ++ ⟨(cutAtForm form front).tail, .tag t⟩ ::
        (cutAtForm form back).occurrences, (cutAtForm form back).tail⟩ := by
  induction front with
  | nil => exact if_pos ht
  | cons piece front ih =>
    cases piece with
    | plain c =>
      rw [List.cons_append, cutAtForm, ih, cutAtForm]
      exact Cut.prepend_append [c] ..
    | tag u =>
      rw [List.cons_append, cutAtForm, ih, cutAtForm]
      split
      · rfl
      · exact Cut.prepend_append u.source ..

namespace Legacy

/-- A tag, the text between it and the one before, and what is written in its place. -/
structure Insertion extends Occurrence where
  written : Text
  deriving DecidableEq, Repr

namespace Insertion

def source (part : Insertion) : Text := part.before ++ part.markup.source
def result (part : Insertion) : Text := part.before ++ part.written

end Insertion

/-- The decorations in force behind occurrences, `active` being those before them. -/
def inForce (active : Decorations) (occurrences : List Occurrence) : Decorations :=
  occurrences.foldl (fun set o => set.afterText o.before) active

/-- What the colour pass writes at each occurrence. -/
def insertions (active : Decorations) : List Occurrence → List Insertion
  | [] => []
  | o :: rest =>
    let active := active.afterText o.before
    ⟨o, renderColor o.markup.first active⟩ :: insertions active rest

theorem toOccurrence_insertions (active : Decorations) (occurrences : List Occurrence) :
    (insertions active occurrences).map Insertion.toOccurrence = occurrences := by
  induction occurrences generalizing active with
  | nil => rfl
  | cons o rest ih => rw [insertions, List.map_cons, ih]

theorem fillColors_eq (active : Decorations) (occurrences : List Occurrence) (tail : Text) :
    fillColors active occurrences tail = (insertions active occurrences).flatMap Insertion.result ++ tail := by
  induction occurrences generalizing active with
  | nil => rfl
  | cons o rest ih =>
    rw [fillColors, insertions, ih, List.flatMap_cons, ← List.append_assoc]
    rfl

theorem insertions_append (active : Decorations) (front back : List Occurrence) :
    insertions active (front ++ back) = insertions active front ++ insertions (inForce active front) back := by
  induction front generalizing active with
  | nil => rfl
  | cons o front ih =>
    rw [List.cons_append, insertions, ih, insertions, List.cons_append]
    rfl

section Step

variable (active : Decorations) {o : Occurrence}

theorem afterText_source {t : ColorTag} (h : o.markup = .tag t) (rest : Text) :
    active.afterText (o.before ++ o.markup.source ++ rest) = (active.afterText o.before).afterText rest := by
  have hbrace : LegacyCode.of? '{' = none := by decide
  have hplain : ∀ c ∈ t.source, ¬ isMarker c := fun _ => ColorTag.not_isMarker_of_mem_source
  rw [h, List.append_assoc, ← Decorations.afterText_append _ hplain rest]
  exact active.afterText_append_cons hbrace o.before _

variable {active}

theorem afterText_written (hactive : active.IsNamed) (color : Color) (rest : Text) :
    active.afterText (o.before ++ renderColor color (active.afterText o.before) ++ rest) =
      (active.afterText o.before).afterText rest := by
  rw [List.append_assoc]
  exact (hactive.afterText o.before).afterText_renderColor active o.before color rest

end Step

section Run

variable {active : Decorations} {occurrences : List Occurrence}

theorem afterText_sources (h : ∀ o ∈ occurrences, ∃ t, o.markup = .tag t) (place : Text) :
    active.afterText ((insertions active occurrences).flatMap Insertion.source ++ place) =
      (inForce active occurrences).afterText place := by
  induction occurrences generalizing active with
  | nil => rfl
  | cons o rest ih =>
    obtain ⟨t, ht⟩ := h o List.mem_cons_self
    rw [insertions, List.flatMap_cons, List.append_assoc]
    exact (afterText_source active ht _).trans (ih fun o' ho' => h o' (List.mem_cons_of_mem _ ho'))

theorem afterText_results (hactive : active.IsNamed) (occurrences : List Occurrence) (place : Text) :
    active.afterText ((insertions active occurrences).flatMap Insertion.result ++ place) =
      (inForce active occurrences).afterText place := by
  induction occurrences generalizing active with
  | nil => rfl
  | cons o rest ih =>
    have ih := ih (hactive.afterText o.before)
    rw [insertions, List.flatMap_cons, List.append_assoc]
    exact (afterText_written hactive o.markup.first _).trans ih

end Run

/-- A text as its single tags and the gaps between them. The pass copies the gaps and writes
each tag's colour with the decorations in force. -/
structure IsColored (text : Text) (parts : List Insertion) (tail : Text) : Prop where
  source : text = parts.flatMap Insertion.source ++ tail
  result : convertColors text = parts.flatMap Insertion.result ++ tail
  single : ∀ part ∈ parts, ∃ digits, part.markup = .tag ⟨.single, digits⟩
  /-- No single tag of the text is missing. -/
  complete : ∀ before digits after, text = before ++ ((ColorTag.mk .single digits).source ++ after) →
    ∃ front part back, parts = front ++ part :: back ∧
      before = front.flatMap Insertion.source ++ part.before ∧ part.markup = .tag ⟨.single, digits⟩
  written : ∀ front part back, parts = front ++ part :: back → part.written =
    renderColor part.markup.first (Decorations.afterText ∅ (front.flatMap Insertion.source ++ part.before))

/-- The text up to the next tag. -/
def gap : List Insertion → Text → Text
  | [], tail => tail
  | part :: _, _ => part.before

/-- The parts in front of a place are those of the occurrences there. -/
theorem exists_of_insertions_eq_append {active : Decorations} {occurrences : List Occurrence}
    {front back : List Insertion} (h : insertions active occurrences = front ++ back) :
    ∃ before after, occurrences = before ++ after ∧ front = insertions active before ∧
      back = insertions (inForce active before) after := by
  have hoccurrences := toOccurrence_insertions active occurrences
  rw [h, List.map_append] at hoccurrences
  rw [← hoccurrences, insertions_append] at h
  have hlength : (insertions active (front.map Insertion.toOccurrence)).length = front.length := by
    rw [← List.length_map Insertion.toOccurrence, toOccurrence_insertions, List.length_map]
  obtain ⟨hfront, hback⟩ := List.append_inj h hlength
  exact ⟨_, _, hoccurrences.symm, hfront.symm, hback.symm⟩

theorem exists_single {text : Text} {o : Occurrence} (h : o ∈ (cut .single text).occurrences) :
    ∃ digits, o.markup = .tag ⟨.single, digits⟩ := by
  obtain ⟨⟨form, digits⟩, rfl, hmarkup⟩ := exists_tag_of_mem_cutAtForm h
  exact ⟨digits, hmarkup⟩

theorem exists_tag_of_eq_append {text : Text} {before after : List Occurrence}
    (h : (cut .single text).occurrences = before ++ after) : ∀ o ∈ before, ∃ t, o.markup = .tag t := by
  intro o ho
  obtain ⟨digits, hmarkup⟩ := exists_single (h ▸ List.mem_append_left after ho)
  exact ⟨_, hmarkup⟩

theorem sources_eq (active : Decorations) (text : Text) :
    (insertions active (cut .single text).occurrences).flatMap Insertion.source ++ (cut .single text).tail =
      text := by
  have hmap := toOccurrence_insertions active (cut .single text).occurrences
  have hfill := replaceMarkup_source .single text
  rw [replaceMarkup, Cut.fill, ← hmap, List.flatMap_map] at hfill
  exact hfill

theorem isColored (text : Text) :
    IsColored text (insertions ∅ (cut .single text).occurrences) (cut .single text).tail where
  source := (sources_eq ∅ text).symm
  result := fillColors_eq ∅ _ _
  single part hpart := by
    have hmem := List.mem_map_of_mem (f := Insertion.toOccurrence) hpart
    rw [toOccurrence_insertions] at hmem
    exact exists_single hmem
  complete before digits after htext := by
    have hcut : cut .single text = ⟨(cut .single before).occurrences ++
        ⟨(cut .single before).tail, .tag ⟨.single, digits⟩⟩ :: (cut .single after).occurrences,
          (cut .single after).tail⟩ := by
      rw [cut, htext, tagPieces_append_source]
      exact cutAtForm_append_tag (t := ⟨.single, digits⟩) rfl _ _
    rw [hcut, insertions_append]
    exact ⟨_, _, _, rfl, (sources_eq ∅ before).symm, rfl⟩
  written front part back hparts := by
    obtain ⟨before, after, hoccurrences, rfl, hback⟩ := exists_of_insertions_eq_append hparts
    cases after with
    | nil => cases hback
    | cons o after =>
      obtain ⟨rfl, -⟩ := List.cons.inj hback
      rw [afterText_sources (exists_tag_of_eq_append hoccurrences)]

/-- In front of a place of a gap stands the start of the whole. -/
theorem prefix_of_prefix_gap {write : Insertion → Text} (hwrite : ∀ part, part.before <+: write part)
    (front : List Insertion) {back : List Insertion} {place tail : Text} (h : place <+: gap back tail) :
    front.flatMap write ++ place <+: (front ++ back).flatMap write ++ tail := by
  rw [List.flatMap_append, List.append_assoc, List.prefix_append_right_inj]
  cases back with
  | nil => exact h
  | cons part back =>
    rw [List.flatMap_cons, List.append_assoc]
    exact (h.trans (hwrite part)).trans (List.prefix_append _ _)

theorem afterText_front (text : Text) {front back : List Insertion}
    (h : insertions ∅ (cut .single text).occurrences = front ++ back) (place : Text) :
    Decorations.afterText ∅ (front.flatMap Insertion.result ++ place) =
      Decorations.afterText ∅ (front.flatMap Insertion.source ++ place) := by
  obtain ⟨before, after, hoccurrences, rfl, -⟩ := exists_of_insertions_eq_append h
  have hresult := afterText_results Decorations.isNamed_empty before place
  have hsource := @afterText_sources ∅ _ (exists_tag_of_eq_append hoccurrences) place
  exact hresult.trans hsource.symm

/-- Single colours leave the decorations alone: at each place outside the tags, the same ones
are in force in the source and in the result, and so at the end. -/
theorem decorations_kept (text : Text) : ∃ (parts : List Insertion) (tail : Text),
    IsColored text parts tail ∧
      (∀ front back place, parts = front ++ back → place <+: gap back tail →
        front.flatMap Insertion.source ++ place <+: text ∧
          front.flatMap Insertion.result ++ place <+: convertColors text ∧
          Decorations.afterText ∅ (front.flatMap Insertion.result ++ place) =
            Decorations.afterText ∅ (front.flatMap Insertion.source ++ place)) ∧
      Decorations.afterText ∅ (convertColors text) = Decorations.afterText ∅ text := by
  have hcolored := isColored text
  refine ⟨_, _, hcolored, fun front back place hparts hplace => ⟨?_, ?_, afterText_front text hparts place⟩, ?_⟩
  · have hprefix := prefix_of_prefix_gap (fun part => ⟨part.markup.source, rfl⟩) front hplace
    rw [← hparts] at hprefix
    exact hcolored.source ▸ hprefix
  · have hprefix := prefix_of_prefix_gap (fun part => ⟨part.written, rfl⟩) front hplace
    rw [← hparts] at hprefix
    exact hcolored.result ▸ hprefix
  · have hend := afterText_front text (List.append_nil _).symm (cut .single text).tail
    rw [← hcolored.source, ← hcolored.result] at hend
    exact hend

end Legacy
end ColorMarkup
