import ColorMarkup.Proofs.Blocks
import ColorMarkup.Proofs.LegacyRemoval
import ColorMarkup.Proofs.TagContent
/-!
The visible characters of a text whose markup is complete. Both conversions show just
the characters outside the markup: the structured one shows what its tags leave, the
legacy one what is left when all codes are removed again.
-/
namespace ColorMarkup

namespace Structured

/-- What the last pass and the reading of the tags leave of a text. -/
def shown (text : Text) : Text := shownText (convertCodes text)

theorem shown_tag {tag : Text} (hmarker : ∀ c ∈ tag, ¬ isMarker c)
    (h : ∀ rest, shownText (tag ++ rest) = shownText rest) (rest : Text) :
    shown (tag ++ rest) = shown rest := by
  rw [shown, convertCodes_append hmarker, h]
  rfl

theorem shown_char {c : Char} (free : c ∉ ['{', '&', '§', '<', '\\']) (rest : Text) :
    shown (c :: rest) = c :: shown rest := by
  obtain ⟨hspecial, hmarker, -⟩ := of_free free
  have hcodes := convertCodes_append (List.forall_mem_singleton.2 hmarker) rest
  have hshown := shownText_append (List.forall_mem_singleton.2 hspecial) (convertCodes rest)
  rw [shown, ← List.singleton_append, hcodes, hshown]
  rfl

theorem exists_codeContent? {letter : Char} (h : letter.toLower ∈ codeLetters) :
    ∃ content, codeContent? letter = some content := by
  obtain ⟨code, hcode, hne⟩ := exists_of?_of_mem_codeLetters h
  rcases code with named | format | _
  · exact ⟨"color:".toList ++ named.name, by rw [codeContent?, hcode]⟩
  · exact ⟨format.name, by rw [codeContent?, hcode]⟩
  · exact absurd rfl hne

theorem shown_code {marker letter : Char} (hmarker : isMarker marker)
    (hletter : letter.toLower ∈ codeLetters) (rest : Text) :
    shown (marker :: letter :: rest) = shown rest := by
  obtain ⟨content, hcontent⟩ := exists_codeContent? hletter
  have htag : codeTag? letter = some (angleTag content) := by
    rw [codeTag?_eq_map, hcontent]
    rfl
  rw [shown, convertCodes_code hmarker htag, (isTagContent_of_codeContent? hcontent).shownText_append]
  rfl

theorem shown_inline (part : Inline) (rest : Text) :
    shown (part.tagged ++ rest) = part.plain ++ shown rest := by
  cases part with
  | char c free => exact shown_char free rest
  | code marker letter hmarker hletter => exact shown_code hmarker hletter rest
  | single digits =>
    exact shown_tag (fun _ => not_isMarker_of_mem_render)
      (isTagContent_toText digits.color).shownText_append rest

theorem shown_inlines (content : List Inline) (rest : Text) :
    shown (content.flatMap Inline.tagged ++ rest) = content.flatMap Inline.plain ++ shown rest := by
  induction content with
  | nil => rfl
  | cons part content ih =>
    rw [List.flatMap_cons, List.append_assoc, shown_inline, ih, List.flatMap_cons, List.append_assoc]

theorem shownText_gradientOpening (first second : Color) (rest : Text) :
    shownText (gradientOpening first second ++ rest) = shownText rest := by
  have hstops := StyleTag.isWordChar_of_mem_stops [first, second]
  have hbracket := fun c => StyleTag.not_isBracket_of_mem_content
    StyleTag.isWordChar_of_mem_gradient hstops (c := c)
  rw [gradientOpening_eq]
  exact shownText_opening (by simp [StyleTag.content]) (by simp [StyleTag.content]) hbracket
    (StyleTag.read_gradient first second) rest

theorem shownText_gradientClosing (rest : Text) :
    shownText (gradientClosing ++ rest) = shownText rest :=
  shownText_closing (Text.forall_mem_of_all (by decide)) rest

theorem shown_flat (flat : Flat) (rest : Text) :
    shown (flat.tagged ++ rest) = flat.plain ++ shown rest := by
  cases flat with
  | inline part => exact shown_inline part rest
  | pair first last content =>
    have hopening := shown_tag (fun _ hc => (free_of_mem_gradientOpening hc).1)
      (shownText_gradientOpening first.color last.color)
    have hclosing := shown_tag (fun _ hc => (free_of_mem_gradientClosing hc).1)
      shownText_gradientClosing
    rw [Flat.tagged, List.append_assoc, List.append_assoc, hopening, shown_inlines, hclosing]
    rfl

theorem shown_flats (flats : List Flat) :
    shown (flats.flatMap Flat.tagged) = flats.flatMap Flat.plain := by
  induction flats with
  | nil => exact shownText_nil
  | cons flat flats ih => rw [List.flatMap_cons, shown_flat, ih, List.flatMap_cons]

end Structured

/-- The document shows the characters that are no markup. -/
theorem text_ofColored_blockSource (blocks : List Block) :
    (Document.ofColored (blockSource blocks)).text = blocks.flatMap Block.plain := by
  rw [Document.ofColored, text_ofMarkup_eq_shownText, Structured.convert,
    Structured.convertColors_blockSource, ← flatMap_flats_plain]
  exact Structured.shown_flats _

/-- Every marker in the text is followed by a letter that has a meaning. -/
def MarkersLead (text : Text) : Prop :=
  ∀ marker c, isMarker marker → [marker, c] <:+: text → c.toLower ∈ codeLetters

theorem MarkersLead.append {front back : Text} (hfront : ∀ c ∈ front, ¬ isMarker c)
    (h : MarkersLead back) : MarkersLead (front ++ back) := by
  induction front with
  | nil => exact h
  | cons d front ih =>
    have ih := ih fun c hc => hfront c (List.mem_cons_of_mem _ hc)
    intro marker c hmarker hinfix
    rw [List.cons_append] at hinfix
    rcases List.infix_cons_iff.1 hinfix with hstart | hlater
    · rw [(List.cons_prefix_cons.1 hstart).1] at hmarker
      exact absurd hmarker (hfront d List.mem_cons_self)
    · exact ih marker c hmarker hlater

theorem MarkersLead.code {marker letter : Char} {back : Text} (hletter : letter.toLower ∈ codeLetters)
    (h : MarkersLead back) : MarkersLead (marker :: letter :: back) := by
  have hplain : ¬ isMarker letter := by
    rw [isMarker_iff]
    rintro (rfl | rfl) <;> exact absurd hletter (by decide)
  intro marker' c hmarker' hinfix
  rcases List.infix_cons_iff.1 hinfix with hstart | hlater
  · have hnext := (List.cons_prefix_cons.1 hstart).2
    rw [(List.cons_prefix_cons.1 hnext).1]
    exact hletter
  · exact (h.append (List.forall_mem_singleton.2 hplain)) marker' c hmarker' hlater

theorem markersLead_inlineSource (content : List Inline) : MarkersLead (inlineSource content) := by
  induction content with
  | nil =>
    intro marker c _ hinfix
    exact absurd (List.infix_nil.1 hinfix) (List.cons_ne_nil _ _)
  | cons part content ih =>
    rw [inlineSource_cons]
    cases part with
    | char c free => exact ih.append (List.forall_mem_singleton.2 (of_free free).2.1)
    | code marker letter hmarker hletter => exact ih.code hletter
    | single digits =>
      have htag : tagSource (Inline.single digits).pieces = (ColorTag.mk .single digits).source :=
        List.append_nil _
      rw [htag]
      exact ih.append fun _ => ColorTag.not_isMarker_of_mem_source

/-- Painting reads one character as the code of every escape. -/
def ReadsLetters (content : Text) : Prop :=
  ∀ e, Event.escape e ∈ events content → ∃ c, e.code = [c]

instance (content : Text) : Decidable (ReadsLetters content) :=
  decidable_of_iff ((events content).all fun
    | .escape e => e.code.length = 1
    | .visible _ => true) <| by
      rw [List.all_eq_true]
      constructor
      · intro h e he
        exact List.length_eq_one_iff.1 (by simpa using h _ he)
      · rintro h (grapheme | e) he
        · rfl
        · simpa using List.length_eq_one_iff.2 (h e he)

theorem escapesAreCodes_of_markersLead {content : Text} (hlead : MarkersLead content)
    (h : ReadsLetters content) : EscapesAreCodes content := by
  have hsub : codeLetters ⊆ colorLetters ++ formatLetters := by decide
  intro e he
  obtain ⟨c, hc⟩ := h e he
  have hinfix : e.source <:+: content := by
    rw [← source_events content]
    obtain ⟨front, back, hevents⟩ := List.append_of_mem he
    exact ⟨front.flatMap Event.source, back.flatMap Event.source, by
      rw [hevents, List.flatMap_append, List.flatMap_cons, List.append_assoc]; rfl⟩
  rw [Escape.source, hc] at hinfix
  exact ⟨c, hsub (hlead e.marker c (Event.isMarker_of_mem_ofGraphemes he) hinfix), hc⟩

namespace Strip

/-- Nothing is removed from a text that no markup starts in. -/
theorem clear_eq_self {text : Text} (h : ∀ c ∈ text, ¬ isHead c) : clear text = text := by
  have hfree : Free IsMarkup text := by
    intro word hword hinfix
    obtain ⟨c, rest, rfl, hc, -⟩ := headed_isMarkup.shape hword
    obtain ⟨front, back, htext⟩ := hinfix
    exact h c (by simp [← htext]) hc
  exact hfree.eq_of_reaches (endsOnlyIn_clear text).reached

theorem clear_inline (part : Inline) : clear (tagSource part.pieces) = clear part.plain := by
  cases part with
  | char c free => rfl
  | code marker letter hmarker hletter =>
    have hsub : codeLetters ⊆ colorLetters ++ formatLetters := by decide
    rw [Inline.plain, clear_nil]
    exact clear_code (isMarker_iff.1 hmarker) (hsub hletter)
  | single digits =>
    rw [Inline.plain, clear_nil]
    simpa [Inline.pieces, TagPiece.source] using clear_source ⟨.single, digits⟩

theorem clear_inlineSource (content : List Inline) :
    clear (inlineSource content) = clear (content.flatMap Inline.plain) := by
  rw [inlineSource, tagSource_flatMap]
  exact clear_flatMap_congr fun part _ => clear_inline part

theorem clear_tag_append (tag : ColorTag) (pieces : List TagPiece) :
    clear (tagSource (.tag tag :: pieces)) = clear (tagSource pieces) :=
  clear_append_of_eq_nil (clear_source tag) _

theorem clear_chain (chain : Chain) : clear (tagSource chain.pieces) = clear chain.plain := by
  induction chain with
  | close content last =>
    rw [Chain.pieces, Chain.plain, tagSource_append, ← List.append_nil (content.flatMap Inline.plain)]
    exact clear_append_congr (clear_inlineSource content) (clear_tag_append _ [])
  | join content joint rest ih =>
    rw [Chain.pieces, Chain.plain, tagSource_append]
    exact clear_append_congr (clear_inlineSource content) ((clear_tag_append _ _).trans ih)

theorem clear_block (block : Block) : clear (tagSource block.pieces) = clear block.plain := by
  cases block with
  | inline part => exact clear_inline part
  | gradient first rest => exact (clear_tag_append _ _).trans (clear_chain rest)

end Strip

theorem not_isHead_of_mem_inlines {content : List Inline} {c : Char}
    (h : c ∈ content.flatMap Inline.plain) : ¬ isHead c := by
  obtain ⟨part, -, hc⟩ := List.mem_flatMap.1 h
  cases part with
  | char d free =>
    obtain rfl : c = d := by simpa [Inline.plain] using hc
    exact (of_free free).2.2
  | code marker letter hmarker hletter => simp [Inline.plain] at hc
  | single digits => simp [Inline.plain] at hc

theorem Chain.not_isHead {chain : Chain} {c : Char} (h : c ∈ chain.plain) : ¬ isHead c := by
  induction chain with
  | close content last => exact not_isHead_of_mem_inlines h
  | join content joint rest ih => exact (List.mem_append.1 h).elim not_isHead_of_mem_inlines ih

/-- Clearing leaves just the characters that are no markup. -/
theorem clear_blockSource (blocks : List Block) :
    Strip.clear (blockSource blocks) = blocks.flatMap Block.plain := by
  have hplain : ∀ c ∈ blocks.flatMap Block.plain, ¬ isHead c := by
    intro c hc
    obtain ⟨block, -, hc⟩ := List.mem_flatMap.1 hc
    cases block with
    | inline part =>
      have hmem : c ∈ [part].flatMap Inline.plain := by simpa [Block.plain] using hc
      exact not_isHead_of_mem_inlines hmem
    | gradient first rest => exact Chain.not_isHead hc
  have hcongr : Strip.clear (blockSource blocks) = Strip.clear (blocks.flatMap Block.plain) := by
    rw [blockSource, tagSource_flatMap]
    exact Strip.clear_flatMap_congr fun block _ => Strip.clear_block block
  rw [hcongr, Strip.clear_eq_self hplain]

theorem clear_convert_blockSource (blocks : List Block)
    (h : ∀ content ∈ blocks.flatMap Block.contents, ReadsLetters (inlineSource content)) :
    Strip.clear (Legacy.convert (blockSource blocks)) = Strip.clear (blockSource blocks) := by
  rw [Legacy.convert, Strip.clear_convertColors]
  apply Strip.clear_convertGradients
  rw [expandJoints_blockSource, cut, tagPieces_flats]
  intro o ho content hcontent
  obtain ⟨inner, hinner, rfl⟩ := exists_content_of_mem_cutAtGradients ho hcontent
  rw [flatMap_flats_contents] at hinner
  exact escapesAreCodes_of_markersLead (markersLead_inlineSource inner) (h inner hinner)

/-- In a text with complete markup, both conversions show the characters outside the
markup, in order and nothing else. -/
theorem text_ofColored_eq_clear_convert (blocks : List Block)
    (h : ∀ content ∈ blocks.flatMap Block.contents, ReadsLetters (inlineSource content)) :
    (Document.ofColored (blockSource blocks)).text = Strip.clear (Legacy.convert (blockSource blocks)) ∧
      Strip.clear (Legacy.convert (blockSource blocks)) = blocks.flatMap Block.plain := by
  have hclear : Strip.clear (Legacy.convert (blockSource blocks)) = blocks.flatMap Block.plain := by
    rw [clear_convert_blockSource blocks h, clear_blockSource]
  exact ⟨(text_ofColored_blockSource blocks).trans hclear.symm, hclear⟩

theorem text_ofColored_eq_clear_convert_chain :
    let bold : Inline := .code '&' 'L' (by decide) (by decide)
    let char : (c : Char) → c ∉ ['{', '&', '§', '<', '\\'] → Inline := .char
    let inner : List Inline := [char 'a' (by decide), .code '§' 'r' (by decide) (by decide),
      .single (.ofColor ⟨0, 255, 0⟩), char 'b' (by decide)]
    let blocks : List Block := [.inline bold, .gradient (.ofColor ⟨255, 0, 0⟩)
      (.join inner (.ofColor ⟨0, 0, 255⟩) (.close [char '>' (by decide)] (.ofColor ⟨1, 2, 3⟩))),
      .inline (char '/' (by decide))]
    blockSource blocks = r"&L{#ff0000>}a§r{#00ff00}b{#0000ff<>}>{#010203<}/".toList ∧
      (∀ content ∈ blocks.flatMap Block.contents, ReadsLetters (inlineSource content)) ∧
      (Document.ofColored (blockSource blocks)).text = "ab>/".toList ∧
      Strip.clear (Legacy.convert (blockSource blocks)) = "ab>/".toList := by
  intro bold char inner blocks
  have hsource : blockSource blocks =
      r"&L{#ff0000>}a§r{#00ff00}b{#0000ff<>}>{#010203<}/".toList := by
    decide +kernel
  have hletters : ∀ content ∈ blocks.flatMap Block.contents, ReadsLetters (inlineSource content) := by
    decide +kernel
  obtain ⟨htext, hclear⟩ := text_ofColored_eq_clear_convert blocks hletters
  exact ⟨hsource, hletters, htext.trans hclear, hclear⟩

end ColorMarkup
