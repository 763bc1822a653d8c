import ColorMarkup.Proofs.CodeReading
import ColorMarkup.Proofs.Deletion
import ColorMarkup.Proofs.TagReading
import ColorMarkup.Strip
/-!
What the removals leave of a text. A removal repeats sweeps over the text, and its
result does not depend on that: whichever tag or code is deleted first, and wherever,
deleting until none is left ends in the same text.
-/
namespace ColorMarkup

open Relation (ReflTransGen)

/-- A colour tag as it is written, its digits in either case. -/
def IsTag (word : Text) : Prop :=
  ∃ digits ending : Text, digits.length = 6 ∧ (∀ d ∈ digits, IsHexDigit d) ∧
    ending ∈ [['}'], ['>', '}'], ['<', '}'], ['<', '>', '}']] ∧ word = '{' :: '#' :: digits ++ ending

/-- A marker and one of the letters, given in lower case, in either case. -/
def IsCode (letters word : Text) : Prop :=
  ∃ marker letter, (marker = '&' ∨ marker = '§') ∧ letter.toLower ∈ letters ∧ word = [marker, letter]

def IsMarkup (word : Text) : Prop := IsTag word ∨ IsCode (colorLetters ++ formatLetters) word

theorem isTag_iff {word : Text} : IsTag word ↔ ∃ tag : ColorTag, word = tag.source := by
  constructor
  · rintro ⟨digits, ending, hlength, hdigits, hending, rfl⟩
    obtain ⟨form, rfl⟩ := TagForm.mem_endings_iff.1 hending
    obtain ⟨read, hread⟩ := isTagOf_iff.1 ⟨digits, hlength, hdigits, rfl⟩
    exact ⟨⟨form, read⟩, hread⟩
  · rintro ⟨⟨form, digits⟩, rfl⟩
    exact ⟨digits.text, form.ending, digits.length_text, digits.isHexDigit, TagForm.mem_endings_iff.2 ⟨form, rfl⟩, rfl⟩

/-- The characters that tags and codes start with. -/
def isHead (c : Char) : Bool := c == '{' || isMarker c

theorem not_isHead_of_isHexDigit {c : Char} (h : IsHexDigit c) : ¬ isHead c := by
  intro hhead
  simp only [isHead, isMarker, Bool.or_eq_true, beq_iff_eq] at hhead
  rcases hhead with rfl | rfl | rfl <;> exact absurd h (by decide)

theorem not_isHead_of_mem_letters {c : Char} (h : c.toLower ∈ colorLetters ++ formatLetters) :
    ¬ isHead c := by
  intro hhead
  simp only [isHead, isMarker, Bool.or_eq_true, beq_iff_eq] at hhead
  rcases hhead with rfl | rfl | rfl <;> exact absurd h (by decide)

/-- Tags and codes cannot overlap: no brace and no marker stands inside one. -/
theorem headed_isMarkup : Headed isHead IsMarkup where
  shape := by
    rintro word (⟨digits, ending, -, hdigits, hending, rfl⟩ | ⟨marker, letter, hmarker, hletter, rfl⟩)
    · refine ⟨'{', '#' :: digits ++ ending, rfl, rfl, ?_⟩
      have hnone : ∀ d ∈ ending, ¬ isHead d := by
        simp only [List.mem_cons, List.not_mem_nil, or_false] at hending
        rcases hending with rfl | rfl | rfl | rfl <;> exact Text.forall_mem_of_all (by decide)
      intro d hd
      simp only [List.cons_append, List.mem_cons, List.mem_append] at hd
      rcases hd with rfl | hd | hd
      · decide
      · exact not_isHead_of_isHexDigit (hdigits d hd)
      · exact hnone d hd
    · refine ⟨marker, [letter], rfl, ?_, ?_⟩
      · simp [isHead, isMarker_iff.2 hmarker]
      · simpa using not_isHead_of_mem_letters hletter
  unique := by
    rintro v w s t (hv | ⟨marker, letter, hmarker, -, rfl⟩) (hw | ⟨marker', letter', hmarker', -, rfl⟩) h
    · obtain ⟨tag, rfl⟩ := isTag_iff.1 hv
      obtain ⟨tag', rfl⟩ := isTag_iff.1 hw
      rw [(ColorTag.eq_of_source_append h).1]
    · obtain ⟨tag, rfl⟩ := isTag_iff.1 hv
      simp only [ColorTag.source, ColorTag.opening, List.cons_append, List.cons.injEq] at h
      exact absurd hmarker' (by rw [← h.1]; decide)
    · obtain ⟨tag', rfl⟩ := isTag_iff.1 hw
      simp only [ColorTag.source, ColorTag.opening, List.cons_append, List.cons.injEq] at h
      exact absurd hmarker (by rw [h.1]; decide)
    · simp only [List.cons_append, List.nil_append, List.cons.injEq] at h
      rw [h.1, h.2.1]

theorem isMarkup_of_isTag (word : Text) (h : IsTag word) : IsMarkup word := .inl h

theorem isMarkup_of_isCode {letters : Text} (hsub : letters ⊆ colorLetters ++ formatLetters)
    (word : Text) (h : IsCode letters word) : IsMarkup word := by
  obtain ⟨marker, letter, hmarker, hletter, rfl⟩ := h
  exact .inr ⟨marker, letter, hmarker, hsub hletter, rfl⟩

theorem isMarkup_of_isColor : ∀ word, IsCode colorLetters word → IsMarkup word :=
  isMarkup_of_isCode (List.subset_append_left _ _)

theorem isMarkup_of_isFormat : ∀ word, IsCode formatLetters word → IsMarkup word :=
  isMarkup_of_isCode (List.subset_append_right _ _)

namespace Strip

theorem sweeps_removeTagsOnce (text : Text) : Sweeps IsTag text (removeTagsOnce text) := by
  rw [removeTagsOnce]
  fun_induction tagPieces text with
  | case1 => exact .nil
  | case2 c rest tag after h _ ih =>
    rw [ColorTag.eq_of_read h]
    exact .delete (isTag_iff.2 ⟨tag, rfl⟩) ih
  | case3 c rest error h ih =>
    refine .keep ?_ ih
    rintro word hword ⟨after, hafter⟩
    obtain ⟨tag, rfl⟩ := isTag_iff.1 hword
    rw [← hafter, ColorTag.read_source_append] at h
    cases h

theorem sweeps_removeCodesOnce {accept : Char → Option LegacyCode} {letters : Text}
    (haccept : ∀ c, (∃ code, accept c = some code) ↔ c.toLower ∈ letters) (text : Text) :
    Sweeps (IsCode letters) text (removeCodesOnce accept text) := by
  rw [removeCodesOnce]
  fun_induction readCodes isMarker accept text with
  | case1 => exact .nil
  | case2 c =>
    refine .keep ?_ .nil
    rintro word ⟨marker, letter, -, -, rfl⟩ ⟨after, hafter⟩
    simp at hafter
  | case3 c letter rest hmarker code hcode ih =>
    have hword : IsCode letters [c, letter] :=
      ⟨c, letter, isMarker_iff.1 hmarker, (haccept letter).1 ⟨code, hcode⟩, rfl⟩
    exact .delete hword ih
  | case4 c letter rest _ hnone ih =>
    refine .keep ?_ ih
    rintro word ⟨marker, letter', -, hletter, rfl⟩ ⟨after, hafter⟩
    simp only [List.cons_append, List.cons.injEq] at hafter
    obtain ⟨code, hcode⟩ := (haccept letter').2 hletter
    rw [hafter.2.1, hnone] at hcode
    cases hcode
  | case5 c letter rest hmarker ih =>
    refine .keep ?_ ih
    rintro word ⟨marker, letter', hmark, -, rfl⟩ ⟨after, hafter⟩
    simp only [List.cons_append, List.cons.injEq] at hafter
    rw [← hafter.1] at hmarker
    exact hmarker (isMarker_iff.2 hmark)

/-- A pass that only deletes, and that deletes something where anything can be
deleted, ends when repeated in what any other deletions end in. -/
theorem endsOnlyIn_exhaust {R : Text → Prop} {pass : Text → Text} (hR : Headed isHead R)
    (hreach : ∀ s, ReflTransGen (Deletes R) s (pass s))
    (hfree : ∀ s, s.length ≤ (pass s).length → Free R s) (s : Text) :
    EndsOnlyIn R s (exhaust pass s) := by
  refine hR.endsOnlyIn ?_ (hfree _ (length_exhaust_le pass s))
  fun_induction exhaust pass s with
  | case1 s _ ih => exact (hreach s).trans ih
  | case2 s _ => exact .refl

theorem endsOnlyIn_of_sweeps {R : Text → Prop} {pass : Text → Text} (hR : Headed isHead R)
    (h : ∀ s, Sweeps R s (pass s)) (s : Text) : EndsOnlyIn R s (exhaust pass s) :=
  endsOnlyIn_exhaust hR (fun s => (h s).reaches) (fun s => (h s).free hR) s

theorem endsOnlyIn_removeTags (s : Text) : EndsOnlyIn IsTag s (removeTags s) :=
  endsOnlyIn_of_sweeps (headed_isMarkup.mono isMarkup_of_isTag) sweeps_removeTagsOnce s

theorem endsOnlyIn_removeColors (s : Text) : EndsOnlyIn (IsCode colorLetters) s (removeColors s) :=
  endsOnlyIn_of_sweeps (headed_isMarkup.mono isMarkup_of_isColor)
    (sweeps_removeCodesOnce fun _ => exists_colorOf?_iff) s

theorem endsOnlyIn_removeFormats (s : Text) : EndsOnlyIn (IsCode formatLetters) s (removeFormats s) :=
  endsOnlyIn_of_sweeps (headed_isMarkup.mono isMarkup_of_isFormat)
    (sweeps_removeCodesOnce fun _ => exists_formatOf?_iff) s

theorem free_isMarkup {s : Text} (htags : Free IsTag s) (hcolors : Free (IsCode colorLetters) s)
    (hformats : Free (IsCode formatLetters) s) : Free IsMarkup s := by
  rintro word (hword | ⟨marker, letter, hmarker, hletter, rfl⟩)
  · exact htags word hword
  · cases List.mem_append.1 hletter with
    | inl hletter => exact hcolors _ ⟨marker, letter, hmarker, hletter, rfl⟩
    | inr hletter => exact hformats _ ⟨marker, letter, hmarker, hletter, rfl⟩

theorem endsOnlyIn_clear (s : Text) : EndsOnlyIn IsMarkup s (clear s) := by
  have htags : ∀ s, ReflTransGen (Deletes IsMarkup) s (removeTags s) := fun s =>
    reaches_mono isMarkup_of_isTag (endsOnlyIn_removeTags s).reached
  have hcolors : ∀ s, ReflTransGen (Deletes IsMarkup) s (removeColors s) := fun s =>
    reaches_mono isMarkup_of_isColor (endsOnlyIn_removeColors s).reached
  have hformats : ∀ s, ReflTransGen (Deletes IsMarkup) s (removeFormats s) := fun s =>
    reaches_mono isMarkup_of_isFormat (endsOnlyIn_removeFormats s).reached
  refine endsOnlyIn_exhaust headed_isMarkup
    (fun s => ((htags s).trans (hcolors _)).trans (hformats _)) (fun s hlength => ?_) s
  -- a round that shortens nothing leaves each of the three removals without effect
  have htag := headed_isMarkup.length_le (htags s)
  have hcolor := headed_isMarkup.length_le (hcolors (removeTags s))
  have hformat := headed_isMarkup.length_le (hformats (removeColors (removeTags s)))
  have h₁ := headed_isMarkup.eq_of_length_le (htags s) (by omega)
  rw [h₁] at hcolor hformat hlength
  have h₂ := headed_isMarkup.eq_of_length_le (hcolors s) (by omega)
  rw [h₂] at hformat hlength
  have h₃ := headed_isMarkup.eq_of_length_le (hformats s) (by omega)
  refine free_isMarkup ?_ ?_ ?_
  · simpa [h₁] using (endsOnlyIn_removeTags s).free
  · simpa [h₂] using (endsOnlyIn_removeColors s).free
  · simpa [h₃] using (endsOnlyIn_removeFormats s).free

/-- Each removal ends in the one text without its tags and codes that deleting them
leads to, in whatever order and at whatever places they are deleted. -/
theorem removals_independent_of_order (s : Text) :
    EndsOnlyIn IsMarkup s (clear s) ∧ EndsOnlyIn IsTag s (removeTags s) ∧
      EndsOnlyIn (IsCode colorLetters) s (removeColors s) ∧
      EndsOnlyIn (IsCode formatLetters) s (removeFormats s) :=
  ⟨endsOnlyIn_clear s, endsOnlyIn_removeTags s, endsOnlyIn_removeColors s, endsOnlyIn_removeFormats s⟩

theorem clear_eq_of_reaches {s t : Text} (h : ReflTransGen (Deletes IsMarkup) s t) :
    clear s = clear t :=
  have ht := endsOnlyIn_clear t
  ((endsOnlyIn_clear s).only _ (h.trans ht.reached) ht.free).symm

@[simp] theorem clear_nil : clear [] = [] := by
  have hlength := headed_isMarkup.length_le (endsOnlyIn_clear []).reached
  exact List.length_eq_zero_iff.1 (Nat.le_zero.1 hlength)

theorem clear_of_isMarkup {word : Text} (h : IsMarkup word) : clear word = [] := by
  rw [clear_eq_of_reaches (reaches_nil_of_word h), clear_nil]

/-- What is cleared beforehand does not matter. -/
theorem clear_append (s t : Text) : clear (s ++ t) = clear (clear s ++ clear t) :=
  clear_eq_of_reaches (reaches_append (endsOnlyIn_clear s).reached (endsOnlyIn_clear t).reached)

theorem clear_append_congr {s s' t t' : Text} (hs : clear s = clear s') (ht : clear t = clear t') :
    clear (s ++ t) = clear (s' ++ t') := by
  rw [clear_append, hs, ht, ← clear_append]

theorem clear_flatMap_congr {α : Type} {list : List α} {f g : α → Text}
    (h : ∀ x ∈ list, clear (f x) = clear (g x)) : clear (list.flatMap f) = clear (list.flatMap g) := by
  induction list with
  | nil => rfl
  | cons x list ih =>
    rw [List.flatMap_cons, List.flatMap_cons]
    exact clear_append_congr (h x List.mem_cons_self)
      (ih fun y hy => h y (List.mem_cons_of_mem _ hy))

end Strip
end ColorMarkup
