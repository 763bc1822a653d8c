import ColorMarkup.Proofs.CodeReading
import ColorMarkup.Proofs.SectionCodes
/-!
Drawing a text from left to right with the decorations in force. The colour pass does
just that for a text in which the gradients are painted already: what it writes for a
single colour depends on the codes in front of it and on nothing else. A written colour
itself is read as the codes of its digits, which end all decorations, wherever it stands.
-/
namespace ColorMarkup

/-- What a text is made of once its gradients are spread over their graphemes: pieces
outside tags of gradients, and the colour in front of each grapheme of a gradient. -/
inductive Stroke where
  | piece (piece : TagPiece)
  | grapheme (color : Color)

section Draw

variable (write : Char → Char → Text) (keep : Decorations → Decorations)

/-- Draws strokes from left to right. `active` are the decorations in force, `write` is
how a code is written, and `keep` what the colour of a grapheme leaves in force. Every
colour is followed by the codes of the decorations in force. -/
def draw (active : Decorations) : List Stroke → Text
  | [] => []
  | .piece (.plain c) :: .piece (.plain letter) :: rest =>
    match if isMarker c then LegacyCode.of? letter else none with
    | some code => write c letter ++ draw (active.after code) rest
    | none => c :: draw active (.piece (.plain letter) :: rest)
  | .piece (.plain c) :: rest => c :: draw active rest
  | .piece (.tag t) :: rest =>
    (if t.form = .single then Legacy.renderColor t.color active else t.source) ++ draw active rest
  | .grapheme color :: rest => Legacy.renderColor color (keep active) ++ draw (keep active) rest

/-- The strokes do not start with a letter of a code. -/
def StartsWithoutLetter (strokes : List Stroke) : Prop :=
  ∀ letter later, strokes = .piece (.plain letter) :: later → LegacyCode.of? letter = none

variable {write keep}

theorem draw_code {marker letter : Char} {code : LegacyCode} (hmarker : isMarker marker)
    (h : LegacyCode.of? letter = some code) (active : Decorations) (rest : List Stroke) :
    draw write keep active (.piece (.plain marker) :: .piece (.plain letter) :: rest) =
      write marker letter ++ draw write keep (active.after code) rest := by
  rw [draw, if_pos hmarker, h]

theorem draw_plain {c : Char} {rest : List Stroke} (h : isMarker c → StartsWithoutLetter rest)
    (active : Decorations) :
    draw write keep active (.piece (.plain c) :: rest) = c :: draw write keep active rest := by
  match rest with
  | [] => rfl
  | .piece (.tag t) :: rest => rfl
  | .grapheme color :: rest => rfl
  | .piece (.plain letter) :: rest =>
    rw [draw]
    by_cases hmarker : isMarker c
    · rw [if_pos hmarker, h hmarker letter rest rfl]
    · rw [if_neg hmarker]

variable (write keep) in
/-- Behind strokes that a code cannot end in, drawing goes on with some decorations. -/
theorem exists_draw_append (active : Decorations) (front : List Stroke) :
    ∃ active', ∀ back, StartsWithoutLetter back →
      draw write keep active (front ++ back) =
        draw write keep active front ++ draw write keep active' back := by
  fun_induction draw write keep active front with
  | case1 active => exact ⟨active, fun _ _ => rfl⟩
  | case2 active c letter rest code hcode ih =>
    obtain ⟨active', h⟩ := ih
    refine ⟨active', fun back hback => ?_⟩
    rw [List.cons_append, List.cons_append, draw, hcode, List.append_assoc, ← h back hback]
  | case3 active c letter rest hnone ih =>
    obtain ⟨active', h⟩ := ih
    refine ⟨active', fun back hback => ?_⟩
    rw [List.cons_append, List.cons_append, draw, hnone, List.cons_append, ← h back hback]
    rfl
  | case4 active c rest hrest ih =>
    obtain ⟨active', h⟩ := ih
    refine ⟨active', fun back hback => ?_⟩
    have hletter : StartsWithoutLetter (rest ++ back) := by
      intro letter later heq
      cases rest with
      | nil => exact hback letter later heq
      | cons stroke rest =>
        cases heq
        exact (hrest letter rest rfl).elim
    rw [List.cons_append, draw_plain fun _ => hletter, h back hback]
    rfl
  | case5 active t rest ih =>
    obtain ⟨active', h⟩ := ih
    refine ⟨active', fun back hback => ?_⟩
    rw [List.cons_append, draw, List.append_assoc, ← h back hback]
  | case6 active color rest ih =>
    obtain ⟨active', h⟩ := ih
    refine ⟨active', fun back hback => ?_⟩
    rw [List.cons_append, draw, List.append_assoc, ← h back hback]

end Draw

/-- The strokes of a text without gradients. -/
def textStrokes (text : Text) : List Stroke := (tagPieces text).map .piece

theorem startsWithoutLetter_textStrokes {text : Text}
    (h : ∀ letter ∈ text.head?, LegacyCode.of? letter = none) : StartsWithoutLetter (textStrokes text) := by
  intro letter later heq
  apply h
  rw [textStrokes] at heq
  cases hpieces : tagPieces text with
  | nil => rw [hpieces] at heq; cases heq
  | cons piece rest =>
    rw [hpieces] at heq
    cases heq
    rw [← tagSource_tagPieces text, hpieces]
    rfl

/-- A code as it is written. -/
def writtenCode (marker letter : Char) : Text := [marker, letter]

/-- A code as the conversion writes it: with a section sign and in lower case, unless it
had a section sign before. -/
def sectionCode (marker letter : Char) : Text :=
  if marker = '&' then ['§', letter.toLower] else [marker, letter]

section TextStrokes

variable (write : Char → Char → Text) (keep : Decorations → Decorations)

@[simp] theorem textStrokes_nil : textStrokes [] = [] := by
  rw [textStrokes, tagPieces]
  rfl

theorem textStrokes_tag (t : ColorTag) (rest : Text) :
    textStrokes (t.source ++ rest) = .piece (.tag t) :: textStrokes rest := by
  rw [textStrokes, tagPieces_source_append]
  rfl

theorem draw_textStrokes_code {marker letter : Char} {code : LegacyCode} (hmarker : isMarker marker)
    (h : LegacyCode.of? letter = some code) (active : Decorations) (rest : Text) :
    draw write keep active (textStrokes (marker :: letter :: rest)) =
      write marker letter ++ draw write keep (active.after code) (textStrokes rest) := by
  rw [textStrokes, tagPieces_code hmarker h]
  exact draw_code hmarker h active _

theorem draw_textStrokes_plain {c : Char} {rest : Text}
    (hpieces : tagPieces (c :: rest) = .plain c :: tagPieces rest)
    (h : ∀ letter ∈ rest.head?, isMarker c → LegacyCode.of? letter = none) (active : Decorations) :
    draw write keep active (textStrokes (c :: rest)) =
      c :: draw write keep active (textStrokes rest) := by
  have hletter : isMarker c → StartsWithoutLetter (textStrokes rest) := fun hmarker =>
    startsWithoutLetter_textStrokes fun letter hhead => h letter hhead hmarker
  rw [textStrokes, hpieces]
  exact draw_plain hletter active

/-- Converting the codes first is writing them as section codes. -/
theorem draw_textStrokes_convertCodes (active : Decorations) (text : Text) :
    draw writtenCode keep active (textStrokes (Legacy.convertCodes text)) =
      draw sectionCode keep active (textStrokes text) := by
  induction text using text_induction generalizing active with
  | nil =>
    have hnil : Legacy.convertCodes [] = [] := rfl
    rw [hnil, textStrokes_nil]
    rfl
  | tag t rest ih =>
    have hplain : ∀ c ∈ t.source, c ≠ '&' := by
      rintro c hc rfl
      exact ColorTag.not_isMarker_of_mem_source hc (by decide)
    rw [Legacy.convertCodes_append_of_forall hplain, textStrokes_tag, textStrokes_tag, draw, draw, ih]
  | code marker letter code rest hmarker hcode ih =>
    rw [draw_textStrokes_code sectionCode keep hmarker hcode, ← ih]
    rcases isMarker_iff.1 hmarker with rfl | rfl
    · rw [Legacy.convertCodes_code hcode]
      exact draw_textStrokes_code writtenCode keep (by decide) (of?_toLower hcode) active _
    · have hletter : letter ≠ '&' := by
        rintro rfl
        exact not_isMarker_of_of? hcode (by decide)
      have hplain : ∀ c ∈ ['§', letter], c ≠ '&' := by simp [hletter]
      have hsource : Legacy.convertCodes ('§' :: letter :: rest) =
          '§' :: letter :: Legacy.convertCodes rest := Legacy.convertCodes_append_of_forall hplain rest
      rw [hsource]
      exact draw_textStrokes_code writtenCode keep hmarker hcode active _
  | plain c rest error herror hletter ih =>
    have hsource : Legacy.convertCodes (c :: rest) = c :: Legacy.convertCodes rest :=
      Legacy.convertCodes_cons fun letter hhead hmark => hletter letter hhead (by rw [hmark]; decide)
    have hhead : ∀ letter ∈ (Legacy.convertCodes rest).head?, isMarker c →
        LegacyCode.of? letter = none := by
      intro letter hhead hmarker
      rcases head?_convertCodes hhead with rfl | hhead
      · exact of?_section
      · exact hletter letter hhead hmarker
    rw [hsource, draw_textStrokes_plain writtenCode keep (tagPieces_convertCodes_cons herror) hhead,
      draw_textStrokes_plain sectionCode keep (tagPieces_cons_of_error herror) hletter, ih]

end TextStrokes

namespace Decorations

variable (active : Decorations)

theorem afterText_code {marker letter : Char} {code : LegacyCode} (hmarker : isMarker marker)
    (h : LegacyCode.of? letter = some code) (rest : Text) :
    active.afterText (marker :: letter :: rest) = (active.after code).afterText rest := by
  rw [afterText, readCodes, if_pos hmarker, h]
  rfl

theorem afterText_cons {c : Char} {rest : Text}
    (h : ∀ letter ∈ rest.head?, isMarker c → LegacyCode.of? letter = none) :
    active.afterText (c :: rest) = active.afterText rest := by
  rw [afterText, readCodes_cons fun hmarker letter hletter => h letter hletter hmarker]
  rfl

theorem afterText_append {front : Text} (h : ∀ c ∈ front, ¬ isMarker c) (rest : Text) :
    active.afterText (front ++ rest) = active.afterText rest := by
  induction front with
  | nil => rfl
  | cons c front ih =>
    have hc := h c List.mem_cons_self
    rw [List.cons_append, afterText_cons active fun _ _ hmarker => absurd hmarker hc,
      ih fun d hd => h d (List.mem_cons_of_mem _ hd)]

end Decorations

namespace Legacy

/-- A cut at single tags, written out. -/
def fillCut (active : Decorations) (cut : Cut) : Text := fillColors active cut.occurrences cut.tail

theorem fillCut_prepend {active active' : Decorations} {text : Text} {cut : Cut}
    (h : ∀ o ∈ cut.occurrences.head?, active.afterText (text ++ o.before) = active'.afterText o.before) :
    fillCut active (cut.prepend text) = text ++ fillCut active' cut := by
  obtain ⟨_ | ⟨o, rest⟩, tail⟩ := cut
  · rfl
  · have hactive := h o rfl
    simp only [fillCut, Cut.prepend, fillColors, hactive, List.append_assoc]

theorem fillCut_push (active : Decorations) (t : ColorTag) (cut : Cut) :
    fillCut active (cut.push (.tag t)) = renderColor t.color active ++ fillCut active cut := rfl

theorem exists_of_mem_prepend {o : Occurrence} {text : Text} {cut : Cut}
    (h : o ∈ (cut.prepend text).occurrences.head?) : ∃ before, o.before = text ++ before := by
  obtain ⟨_ | ⟨first, rest⟩, tail⟩ := cut
  · cases h
  · cases h
    exact ⟨first.before, rfl⟩

/-- What is in front of the first tag starts as the whole text does. -/
theorem head?_before {pieces : List TagPiece} {form : TagForm} {o : Occurrence} {d : Char}
    (ho : o ∈ (cutAtForm form pieces).occurrences.head?) (hd : d ∈ o.before.head?) :
    d ∈ (tagSource pieces).head? := by
  have hprepend : ∀ {text : Text} {rest : List TagPiece}, text ≠ [] →
      o ∈ ((cutAtForm form rest).prepend text).occurrences.head? → d ∈ (text ++ tagSource rest).head? := by
    intro text rest hne ho
    obtain ⟨before, hbefore⟩ := exists_of_mem_prepend ho
    cases text with
    | nil => exact absurd rfl hne
    | cons c text =>
      rw [hbefore] at hd
      exact hd
  cases pieces with
  | nil => cases ho
  | cons piece rest =>
    cases piece with
    | plain c => exact hprepend (List.cons_ne_nil _ _) ho
    | tag t =>
      rw [cutAtForm] at ho
      split at ho
      · cases ho
        cases hd
      · exact hprepend (List.cons_ne_nil _ _) ho

theorem fillCut_eq_draw (keep : Decorations → Decorations) (active : Decorations) (text : Text) :
    fillCut active (cut .single text) = draw writtenCode keep active (textStrokes text) := by
  induction text using text_induction generalizing active with
  | nil =>
    rw [textStrokes_nil, cut, tagPieces]
    rfl
  | tag t rest ih =>
    rw [textStrokes_tag, draw, ← ih, cut, cut, tagPieces_source_append, cutAtForm]
    split
    · rw [fillCut_push]
    · exact fillCut_prepend fun o _ =>
        active.afterText_append (fun _ => ColorTag.not_isMarker_of_mem_source) o.before
  | code marker letter code rest hmarker hcode ih =>
    rw [draw_textStrokes_code writtenCode keep hmarker hcode, ← ih, cut, cut, tagPieces_code hmarker hcode, cutAtForm,
      cutAtForm, Cut.prepend_prepend]
    exact fillCut_prepend fun o _ => active.afterText_code hmarker hcode o.before
  | plain c rest error herror hletter ih =>
    have hpieces := tagPieces_cons_of_error herror
    rw [draw_textStrokes_plain writtenCode keep hpieces hletter, ← ih, cut, cut, hpieces, cutAtForm]
    refine fillCut_prepend fun o ho => active.afterText_cons fun letter hhead hmarker => ?_
    have hsource := head?_before ho hhead
    rw [tagSource_tagPieces] at hsource
    exact hletter letter hsource hmarker

theorem convertColors_eq_draw (keep : Decorations → Decorations) (text : Text) :
    convertColors text = draw writtenCode keep ∅ (textStrokes text) :=
  fillCut_eq_draw keep ∅ text

end Legacy

namespace Color

/-- A colour is written in section signs, the letter that starts it, and digits. -/
theorem forall_mem_legacyHex {p : Char → Prop} (hsection : p '§') (hx : p 'x')
    (hdigits : ∀ n : Fin 16, p n.val.digitChar) (color : Color) : ∀ c ∈ color.legacyHex, p c := by
  have hcode : ∀ d, p d → ∀ c ∈ legacyCode d, p c := by
    intro d hd
    simp [legacyCode, hsection, hd]
  intro c hc
  rw [legacyHex, List.mem_append] at hc
  cases hc with
  | inl hc => exact hcode 'x' hx c hc
  | inr hc =>
    obtain ⟨digit, hdigit, hc⟩ := List.mem_flatMap.1 hc
    obtain ⟨n, hn, rfl⟩ := exists_digitChar_of_mem_toHex hdigit
    exact hcode _ (hdigits ⟨n, hn⟩) c hc

theorem ne_ampersand_of_mem_legacyHex {color : Color} {c : Char} (h : c ∈ color.legacyHex) : c ≠ '&' :=
  forall_mem_legacyHex (p := (· ≠ '&')) (by decide) (by decide) (by decide) color c h

end Color

theorem Legacy.convertCodes_append_legacyHex (front back : Text) (color : Color) :
    convertCodes (front ++ (color.legacyHex ++ back)) =
      convertCodes front ++ (color.legacyHex ++ convertCodes back) := by
  have hplain : ∀ c ∈ color.legacyHex, c ≠ '&' := fun _ => Color.ne_ampersand_of_mem_legacyHex
  rw [← convertCodes_append_of_forall hplain]
  exact convertCodes_append_section front _

section Hex

variable (keep : Decorations → Decorations)

theorem isMarker_section : isMarker '§' := by decide

/-- A digit of a colour is the code of a named colour. -/
theorem exists_of?_digitChar {n : Nat} (h : n < 16) :
    ∃ named, LegacyCode.of? n.digitChar = some (.color named) := by
  have all : ∀ m : Fin 16, ∃ named ∈ NamedColor.all, LegacyCode.of? m.val.digitChar = some (.color named) := by
    decide
  obtain ⟨named, -, hnamed⟩ := all ⟨n, h⟩
  exact ⟨named, hnamed⟩

theorem draw_digits {digits : Text} (h : ∀ c ∈ digits, ∃ n < 16, c = n.digitChar) (rest : Text) :
    draw writtenCode keep ∅ (textStrokes (digits.flatMap legacyCode ++ rest)) =
      digits.flatMap legacyCode ++ draw writtenCode keep ∅ (textStrokes rest) := by
  induction digits with
  | nil => rfl
  | cons c digits ih =>
    have ih := ih fun d hd => h d (List.mem_cons_of_mem _ hd)
    obtain ⟨n, hn, rfl⟩ := h c List.mem_cons_self
    obtain ⟨named, hcode⟩ := exists_of?_digitChar hn
    rw [List.flatMap_cons, List.append_assoc, List.append_assoc, ← ih]
    exact draw_textStrokes_code writtenCode keep isMarker_section hcode ∅ (digits.flatMap legacyCode ++ rest)

/-- The code of a colour ends all decorations. -/
theorem draw_legacyHex (active : Decorations) (color : Color) (rest : Text) :
    draw writtenCode keep active (textStrokes (color.legacyHex ++ rest)) =
      color.legacyHex ++ draw writtenCode keep ∅ (textStrokes rest) := by
  have hx : LegacyCode.of? 'x' = some .hex := by decide
  have hdigits : ∀ c ∈ color.toHex, ∃ n < 16, c = n.digitChar := fun _ =>
    Color.exists_digitChar_of_mem_toHex
  rw [Color.legacyHex, List.append_assoc, List.append_assoc, ← draw_digits keep hdigits]
  exact draw_textStrokes_code writtenCode keep isMarker_section hx active _

end Hex

end ColorMarkup
