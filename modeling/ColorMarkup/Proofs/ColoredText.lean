import ColorMarkup.Proofs.CodeReading
import ColorMarkup.Proofs.StyleTagReading
import ColorMarkup.Structured
/-!
Texts of single tags, gradients and other characters, and what the structured passes
make of them. Each pass leaves in place what the others look for, so the three passes
replace each tag, each gradient and each code on its own.
-/
namespace ColorMarkup

/-- A part of a text in which every brace belongs to a tag and every gradient is
whole. The content of a gradient holds no markers. -/
inductive Item where
  | char (c : Char) (free : c ∉ ['{', '<', '\\'])
  | single (digits : HexDigits)
  | gradient (first last : HexDigits) (content : Text)
      (free : ∀ c ∈ content, c ∉ ['{', '<', '\\', '&', '§'])

namespace Item

/-- The item as it is written. -/
def source : Item → Text
  | char c _ => [c]
  | single digits => (ColorTag.mk .single digits).source
  | gradient first last content _ =>
    (ColorTag.mk .opener first).source ++ content ++ (ColorTag.mk .closer last).source

def pieces : Item → List TagPiece
  | char c _ => [.plain c]
  | single digits => [.tag ⟨.single, digits⟩]
  | gradient first last content _ =>
    .tag ⟨.opener, first⟩ :: (content.map .plain ++ [.tag ⟨.closer, last⟩])

/-- A gradient with the structured tags around its content. -/
def gradientTagged (first last : HexDigits) (content : Text) : Text :=
  Structured.gradientOpening first.color last.color ++ content ++ Structured.gradientClosing

/-- The pieces of the item after the gradient pass. -/
def convertedPieces : Item → List TagPiece
  | gradient first last content _ => (gradientTagged first last content).map .plain
  | item => item.pieces

/-- The item after the passes for gradients and for single colours. -/
def tagged : Item → Text
  | char c _ => [c]
  | single digits => digits.color.render .structured
  | gradient first last content _ => gradientTagged first last content

theorem of_free_char {c : Char} (free : c ∉ ['{', '<', '\\']) : c ≠ '{' ∧ ¬ Token.isSpecial c := by
  simp only [List.mem_cons, List.not_mem_nil, or_false, not_or] at free
  simp [Token.isSpecial, free]

theorem of_free_content {content : Text} (free : ∀ c ∈ content, c ∉ ['{', '<', '\\', '&', '§'])
    {c : Char} (h : c ∈ content) : c ≠ '{' ∧ ¬ Token.isSpecial c ∧ ¬ isMarker c := by
  have hfree := free c h
  simp only [List.mem_cons, List.not_mem_nil, or_false, not_or] at hfree
  simp [Token.isSpecial, isMarker, hfree]

end Item

theorem ColorTag.not_isMarker_of_mem_source {tag : ColorTag} {c : Char} (h : c ∈ tag.source) :
    ¬ isMarker c := by
  have hnone : ∀ c ∈ ['{', '#', '<', '>', '}'], ¬ isMarker c := Text.forall_mem_of_all (by decide)
  rcases cases_of_mem_source h with h | h
  · intro hmarker
    rw [isMarker, Bool.or_eq_true, beq_iff_eq, beq_iff_eq] at hmarker
    rcases hmarker with rfl | rfl <;> exact absurd h (by decide)
  · exact hnone c h

theorem tagSource_append (front back : List TagPiece) :
    tagSource (front ++ back) = tagSource front ++ tagSource back := List.flatMap_append

@[simp] theorem tagSource_map_plain (text : Text) : tagSource (text.map .plain) = text := by
  induction text with
  | nil => rfl
  | cons c text ih =>
    rw [List.map_cons, tagSource_cons, ih]
    rfl

theorem tagSource_flatMap {α : Type} (items : List α) (f : α → List TagPiece) :
    tagSource (items.flatMap f) = items.flatMap fun item => tagSource (f item) :=
  List.flatMap_assoc

/-- Replacing the tags of one form leaves all other pieces as they are written. -/
theorem fill_cutAtForm_eq (form : TagForm) (replace : Markup → Text) (pieces : List TagPiece) :
    (cutAtForm form pieces).fill replace = pieces.flatMap fun
      | .plain c => [c]
      | .tag t => if t.form = form then replace (.tag t) else t.source := by
  induction pieces with
  | nil => rfl
  | cons piece pieces ih =>
    cases piece with
    | plain c => rw [cutAtForm, Cut.fill_prepend, ih, List.flatMap_cons]
    | tag t =>
      rw [cutAtForm, List.flatMap_cons]
      by_cases hform : t.form = form
      · simp only [if_pos hform, Cut.fill_push, ih]
      · simp only [if_neg hform, Cut.fill_prepend, ih]

@[simp] theorem Cut.prepend_nil (cut : Cut) : cut.prepend [] = cut := by
  obtain ⟨_ | ⟨o, rest⟩, tail⟩ := cut <;> rfl

theorem Cut.prepend_prepend (cut : Cut) (front back : Text) :
    (cut.prepend back).prepend front = cut.prepend (front ++ back) := by
  obtain ⟨_ | ⟨o, rest⟩, tail⟩ := cut <;> simp [prepend]

theorem cutAtForm_append {form : TagForm} {inner : List TagPiece} (h : ∀ t, .tag t ∈ inner → t.form ≠ form)
    (after : List TagPiece) :
    cutAtForm form (inner ++ after) = (cutAtForm form after).prepend (tagSource inner) := by
  induction inner with
  | nil => simp
  | cons piece inner ih =>
    have ih := ih fun t ht => h t (List.mem_cons_of_mem _ ht)
    cases piece with
    | plain c =>
      rw [List.cons_append, cutAtForm, ih, Cut.prepend_prepend]
      rfl
    | tag t =>
      rw [List.cons_append, cutAtForm, if_neg (h t List.mem_cons_self), ih, Cut.prepend_prepend]
      rfl

theorem fill_cutAtForm_of_forall {form : TagForm} {pieces : List TagPiece}
    (h : ∀ t, .tag t ∈ pieces → t.form ≠ form) (replace : Markup → Text) :
    (cutAtForm form pieces).fill replace = tagSource pieces := by
  have hcut := cutAtForm_append h []
  rw [List.append_nil] at hcut
  rw [hcut, Cut.fill_prepend]
  exact List.append_nil _

/-- Pieces without a closer are content, whatever follows them. -/
theorem firstCloser?_append {inner : List TagPiece} (h : ∀ t, .tag t ∈ inner → t.form ≠ .closer)
    (after : List TagPiece) : firstCloser? (inner ++ after) =
      (firstCloser? after).map fun (content, found) => (tagSource inner ++ content, found) := by
  induction inner with
  | nil =>
    rw [List.nil_append]
    cases firstCloser? after <;> rfl
  | cons piece inner ih =>
    have ih := ih fun t ht => h t (List.mem_cons_of_mem _ ht)
    cases piece with
    | plain c =>
      rw [List.cons_append, firstCloser?, ih]
      cases firstCloser? after <;> rfl
    | tag t =>
      rw [List.cons_append, firstCloser?, if_neg (h t List.mem_cons_self), ih]
      cases firstCloser? after <;> simp [TagPiece.source]

theorem firstCloser?_closer {inner : List TagPiece} (h : ∀ t, .tag t ∈ inner → t.form ≠ .closer)
    (last : HexDigits) (after : List TagPiece) :
    firstCloser? (inner ++ .tag ⟨.closer, last⟩ :: after) =
      some (tagSource inner, ⟨.closer, last⟩, after) := by
  simp [firstCloser?_append h, firstCloser?]

theorem firstCloser?_eq_none {pieces : List TagPiece} (h : ∀ t, .tag t ∈ pieces → t.form ≠ .closer) :
    firstCloser? pieces = none := by
  simpa [firstCloser?] using firstCloser?_append h []

theorem cutAtGradients_opener {opener closer : ColorTag} {content : Text} {rest after : List TagPiece}
    (hopener : opener.form = .opener) (h : firstCloser? rest = some (content, closer, after)) :
    cutAtGradients (.tag opener :: rest) = (cutAtGradients after).push (.gradient opener closer content) := by
  rw [cutAtGradients, if_pos hopener]
  split
  · next hfound =>
    rw [h] at hfound
    cases hfound
    rfl
  · next hnone =>
    rw [h] at hnone
    cases hnone

theorem cutAtGradients_append {inner : List TagPiece} (h : ∀ t, .tag t ∈ inner → t.form ≠ .opener)
    (after : List TagPiece) :
    cutAtGradients (inner ++ after) = (cutAtGradients after).prepend (tagSource inner) := by
  induction inner with
  | nil => simp
  | cons piece inner ih =>
    have ih := ih fun t ht => h t (List.mem_cons_of_mem _ ht)
    cases piece with
    | plain c => rw [List.cons_append, cutAtGradients, ih, Cut.prepend_prepend]; rfl
    | tag t =>
      rw [List.cons_append, cutAtGradients, if_neg (h t List.mem_cons_self), ih, Cut.prepend_prepend]
      rfl

namespace Structured

theorem gradientOpening_eq (first second : Color) : gradientOpening first second =
    angleTag (StyleTag.content "gradient".toList ([first, second].map Color.toText)) := by
  simp [gradientOpening, StyleTag.content]

theorem color_render_eq (color : Color) : color.render .structured =
    angleTag (StyleTag.content "color".toList [color.toText]) := by
  simp [Color.render, StyleTag.content]

theorem not_isMarker_of_mem_render {color : Color} {c : Char} (h : c ∈ color.render .structured) :
    ¬ isMarker c := by
  rw [color_render_eq] at h
  exact (StyleTag.free_of_mem_angleTag StyleTag.isWordChar_of_mem_color
    (by simpa using fun _ => StyleTag.isWordChar_of_mem_toText) h).1

theorem free_of_mem_gradientOpening {first second : Color} {c : Char}
    (h : c ∈ gradientOpening first second) : ¬ isMarker c ∧ c ≠ '{' := by
  rw [gradientOpening_eq] at h
  exact StyleTag.free_of_mem_angleTag StyleTag.isWordChar_of_mem_gradient
    (StyleTag.isWordChar_of_mem_stops _) h

theorem free_of_mem_gradientClosing {c : Char} (h : c ∈ gradientClosing) : ¬ isMarker c ∧ c ≠ '{' :=
  Text.forall_mem_of_all (p := fun c => ¬ isMarker c ∧ c ≠ '{') (by decide) c h

theorem free_of_mem_gradientTagged {first last : HexDigits} {content : Text} {c : Char}
    (hcontent : ∀ c ∈ content, c ∉ ['{', '<', '\\', '&', '§'])
    (h : c ∈ Item.gradientTagged first last content) : ¬ isMarker c ∧ c ≠ '{' := by
  rw [Item.gradientTagged, List.mem_append, List.mem_append] at h
  rcases h with (h | h) | h
  · exact free_of_mem_gradientOpening h
  · have hc := Item.of_free_content hcontent h
    exact ⟨hc.2.2, hc.1⟩
  · exact free_of_mem_gradientClosing h

theorem tagPieces_source (items : List Item) :
    tagPieces (items.flatMap Item.source) = items.flatMap Item.pieces := by
  have hsource : items.flatMap Item.source = tagSource (items.flatMap Item.pieces) := by
    rw [tagSource_flatMap]
    congr
    funext item
    cases item with
    | char c free => rfl
    | single digits => simp [Item.source, Item.pieces, TagPiece.source]
    | gradient first last content free =>
      simp [Item.source, Item.pieces, tagSource_append, TagPiece.source]
  rw [hsource]
  apply tagPieces_tagSource
  intro c hc
  obtain ⟨item, -, hc⟩ := List.mem_flatMap.1 hc
  cases item with
  | char d free =>
    obtain rfl : c = d := by simpa [Item.pieces] using hc
    exact (Item.of_free_char free).1
  | single digits => simp [Item.pieces] at hc
  | gradient first last content free =>
    have hmem : c ∈ content := by simpa [Item.pieces] using hc
    exact (Item.of_free_content free hmem).1

theorem expandJoints_source (items : List Item) :
    expandJoints (items.flatMap Item.source) = items.flatMap Item.source := by
  rw [expandJoints, replaceMarkup, cut, tagPieces_source, fill_cutAtForm_eq, List.flatMap_assoc]
  congr
  funext item
  cases item with
  | char c free => rfl
  | single digits => simp [Item.source, Item.pieces]
  | gradient first last content free =>
    simp [Item.source, Item.pieces, List.flatMap_map, List.flatMap_singleton']

theorem convertGradients_source (items : List Item) :
    convertGradients (items.flatMap Item.source) = tagSource (items.flatMap Item.convertedPieces) := by
  rw [convertGradients, expandJoints_source, replaceMarkup, cut, tagPieces_source]
  induction items with
  | nil => simp [cutAtGradients, Cut.fill]
  | cons item items ih =>
    rw [List.flatMap_cons, List.flatMap_cons, tagSource_append, ← ih]
    cases item with
    | char c free =>
      simp [Item.pieces, Item.convertedPieces, cutAtGradients, TagPiece.source]
    | single digits =>
      simp [Item.pieces, Item.convertedPieces, cutAtGradients, TagPiece.source]
    | gradient first last content free =>
      have hplain : ∀ t, .tag t ∈ content.map TagPiece.plain → t.form ≠ .closer := by simp
      have hcloser := firstCloser?_closer hplain last (items.flatMap Item.pieces)
      rw [tagSource_map_plain] at hcloser
      rw [Item.pieces, List.cons_append, List.append_assoc, List.singleton_append,
        cutAtGradients_opener rfl hcloser, Cut.fill_push, Item.convertedPieces, tagSource_map_plain]
      rfl

/-- What the colour pass makes of a piece. -/
def colored : TagPiece → Text
  | .plain c => [c]
  | .tag t => if t.form = .single then t.color.render .structured else t.source

theorem convertColors_eq_colored (text : Text) : convertColors text = (tagPieces text).flatMap colored := by
  rw [convertColors, replaceMarkup, cut, fill_cutAtForm_eq]
  rfl

/-- The first two passes turn each tag and each gradient into structured tags. -/
theorem convertColors_convertGradients (items : List Item) :
    convertColors (convertGradients (items.flatMap Item.source)) = items.flatMap Item.tagged := by
  have hpieces : tagPieces (tagSource (items.flatMap Item.convertedPieces)) =
      items.flatMap Item.convertedPieces := by
    apply tagPieces_tagSource
    intro c hc
    obtain ⟨item, -, hc⟩ := List.mem_flatMap.1 hc
    cases item with
    | char d free =>
      obtain rfl : c = d := by simpa [Item.convertedPieces, Item.pieces] using hc
      exact (Item.of_free_char free).1
    | single digits => simp [Item.convertedPieces, Item.pieces] at hc
    | gradient first last content free =>
      have hmem : c ∈ Item.gradientTagged first last content := by simpa [Item.convertedPieces] using hc
      exact (free_of_mem_gradientTagged free hmem).2
  rw [convertGradients_source, convertColors, replaceMarkup, cut, hpieces, fill_cutAtForm_eq,
    List.flatMap_assoc]
  congr
  funext item
  cases item with
  | char c free => rfl
  | single digits => rfl
  | gradient first last content free =>
    simp [Item.tagged, Item.convertedPieces, List.flatMap_map, List.flatMap_singleton']

@[simp] theorem convertCodes_nil : convertCodes [] = [] := rfl

/-- A character that does not begin a code stays. -/
theorem convertCodes_cons {c : Char} {rest : Text}
    (h : ∀ letter ∈ rest.head?, isMarker c → codeTag? letter = none) :
    convertCodes (c :: rest) = c :: convertCodes rest := by
  rw [convertCodes, readCodes_cons fun hmarker letter hletter => h letter hletter hmarker]
  rfl

theorem convertCodes_append {text : Text} (h : ∀ c ∈ text, ¬ isMarker c) (rest : Text) :
    convertCodes (text ++ rest) = text ++ convertCodes rest := by
  induction text with
  | nil => rfl
  | cons c text ih =>
    have hplain := h c List.mem_cons_self
    rw [List.cons_append, convertCodes_cons fun _ _ hmarker => absurd hmarker hplain,
      ih fun d hd => h d (List.mem_cons_of_mem _ hd)]
    rfl

theorem convertCodes_code {marker letter : Char} {tag : Text} (hmarker : isMarker marker)
    (h : codeTag? letter = some tag) (rest : Text) :
    convertCodes (marker :: letter :: rest) = tag ++ convertCodes rest := by
  rw [convertCodes, readCodes, if_pos hmarker, h]
  rfl

end Structured
end ColorMarkup
