import ColorMarkup.Proofs.ColoredText
import ColorMarkup.Proofs.Painting
import ColorMarkup.Proofs.SpansAt
import ColorMarkup.Proofs.TraceReading
/-!
The document of a text of single tags, gradients and other characters, compared with
reading the text from left to right with the style that is in force. Tags of colours
and codes stay open until a reset, so the open tags are always the history of the
style; a gradient is closed again before anything else is read.
-/
namespace ColorMarkup

namespace Style

/-- The style in force behind a code, none for a code that does not set it. -/
def afterCode? (state : Style) : LegacyCode → Option Style
  | .color named => some ⟨some named.rgb, state.decorations⟩
  | .format (.decorate d) => some ⟨state.color, state.decorations ∪ .single d⟩
  | .format .reset => some ∅
  | .hex => none

/-- The style in force behind two characters that are a code. -/
def afterCharacters? (state : Style) (marker letter : Char) : Option Style :=
  if isMarker marker then (LegacyCode.of? letter).bind state.afterCode? else none

theorem overlay_colored (state : Style) (color : Color) :
    state.overlay (.colored color) = ⟨some color, state.decorations⟩ := by
  have hunion : state.decorations ∪ ∅ = state.decorations :=
    congrArg Style.decorations (overlay_empty state)
  rw [overlay, colored, hunion]
  rfl

end Style

/-- The graphemes of a gradient, each with its colour and the decorations in force. -/
def gradientSegments (state : Style) (first second : Color) (content : Text) : List Segment :=
  let graphemes := content.graphemes
  (graphemes.zip (Color.interpolate first second graphemes.length)).map fun (grapheme, color) =>
    ⟨grapheme, ⟨some color, state.decorations⟩⟩

/-- The plain characters of a text, each with the style in force at its place. A code
is a marker and the character after it and sets the style; any other marker is plain.
A gradient leaves the style as it was. -/
def segments (state : Style) : List Item → List Segment
  | [] => []
  | .char c _ :: .char letter free :: rest =>
    match state.afterCharacters? c letter with
    | some after => segments after rest
    | none => ⟨[c], state⟩ :: segments state (.char letter free :: rest)
  | .char c _ :: rest => ⟨[c], state⟩ :: segments state rest
  | .single digits :: rest => segments ⟨some digits.color, state.decorations⟩ rest
  | .gradient first last content _ :: rest =>
    gradientSegments state first.color last.color content ++ segments state rest

/-- The segment that holds the byte at an offset of the segments' text. -/
def Segment.at? (parts : List Segment) (o : Nat) : Option Segment :=
  parts[pieceIndex (parts.map Segment.text) o]?

theorem Segment.exists_at?_iff {parts : List Segment} {o : Nat} :
    (∃ segment, Segment.at? parts o = some segment) ↔
      o < Text.byteLength (parts.flatMap Segment.text) := by
  rw [List.flatMap_def, ← pieceIndex_lt_iff, List.length_map]
  simp [Segment.at?, List.getElem?_eq_some_iff]

theorem Segment.at?_append (front back : List Segment) (o : Nat) :
    Segment.at? (front ++ back) o =
      if o < Text.byteLength (front.flatMap Segment.text) then Segment.at? front o
      else Segment.at? back (o - Text.byteLength (front.flatMap Segment.text)) := by
  have hindex := pieceIndex_append (front.map Segment.text) (back.map Segment.text) o
  rw [← List.flatMap_def] at hindex
  rw [Segment.at?, List.map_append, hindex]
  by_cases ho : o < Text.byteLength (front.flatMap Segment.text)
  · have hlt : pieceIndex (front.map Segment.text) o < (front.map Segment.text).length :=
      pieceIndex_lt_iff.2 (by rwa [← List.flatMap_def])
    rw [List.length_map] at hlt
    rw [if_pos ho, if_pos ho, List.getElem?_append_left hlt, Segment.at?]
  · rw [if_neg ho, if_neg ho, List.length_map, List.getElem?_append_right (by omega),
      Nat.add_sub_cancel_left, Segment.at?]

namespace Cell

/-- The styles that the tags of a byte give it, laid over each other, are this style. -/
def IsStyled (cells : List Cell) (o : Nat) (style : Style) : Prop :=
  ∃ (cell : Cell) (styles : List Style), at? cells o = some cell ∧
    cell.tags.map (·.styleAt? cells o) = styles.map some ∧ styles.foldl Style.overlay ∅ = style

theorem exists_at?_middle (front back : List Cell) (tags : List LiveTag) {text : Text} {o : Nat}
    (h : o < text.byteLength) :
    ∃ c, at? (front ++ text.map (⟨·, tags⟩) ++ back) ((textOf front).byteLength + o) = some ⟨c, tags⟩ := by
  have htext : textOf (text.map (⟨·, tags⟩)) = text := by simp [textOf, Function.comp_def]
  obtain ⟨cell, hcell⟩ := exists_at?_iff.2 (by rwa [htext])
  obtain ⟨c, -, rfl⟩ := List.mem_map.1 (mem_of_at? hcell)
  refine ⟨c, ?_⟩
  rw [at?_append, if_pos (by simp [htext, h]), at?_append, if_neg (by omega), Nat.add_sub_cancel_left, hcell]

end Cell

/-- Tags that are styles give every byte these styles. -/
theorem LiveTag.map_styleAt? {tags : List LiveTag} {styles : List Style}
    (h : tags.map LiveTag.effect = styles.map TagEffect.style) (cells : List Cell) (o : Nat) :
    tags.map (·.styleAt? cells o) = styles.map some := by
  induction tags generalizing styles with
  | nil =>
    obtain rfl := List.map_eq_nil_iff.1 h.symm
    rfl
  | cons tag tags ih =>
    cases styles with
    | nil => cases h
    | cons own styles =>
      simp only [List.map_cons, List.cons.injEq] at h ⊢
      exact ⟨by rw [LiveTag.styleAt?, h.1, TagEffect.styleAt?], ih h.2⟩

/-- All open tags are styles, and laid over each other they are the given one. -/
structure InForce (t : Trace) (state : Style) : Prop where
  numbered : t.Numbered
  styles : ∃ styles : List Style, t.stack.reverse.map LiveTag.effect = styles.map TagEffect.style ∧
    styles.foldl Style.overlay ∅ = state

theorem inForce_start : InForce .start ∅ := ⟨Trace.numbered_start, [], rfl, rfl⟩

namespace InForce

variable {t : Trace} {state : Style}

theorem append (h : InForce t state) (text : Text) : InForce (t.append text) state :=
  ⟨h.numbered.append text, h.styles⟩

theorem push (h : InForce t state) (own : Style) (closeName : Text) :
    InForce (t.push (.style own) closeName) (state.overlay own) := by
  obtain ⟨styles, heffects, hstate⟩ := h.styles
  refine ⟨h.numbered.push _ _, styles ++ [own], ?_, ?_⟩
  · rw [Trace.push, List.reverse_cons, List.map_append, heffects, List.map_append]
    rfl
  · rw [List.foldl_append, hstate]
    rfl

theorem closeAll (h : InForce t state) : InForce (t.close t.stack.length) ∅ :=
  ⟨h.numbered.close _, [], by simp [Trace.close], rfl⟩

/-- Text that is appended has the style in force, whatever is read after it. -/
theorem isStyled_append (h : InForce t state) {text : Text} {o : Nat} (ho : o < text.byteLength)
    (more : List Cell) :
    Cell.IsStyled ((t.append text).cells ++ more) ((Cell.textOf t.cells).byteLength + o) state := by
  obtain ⟨styles, heffects, hstate⟩ := h.styles
  obtain ⟨c, hcell⟩ := Cell.exists_at?_middle t.cells more t.stack.reverse ho
  exact ⟨_, styles, hcell, LiveTag.map_styleAt? heffects _ _, hstate⟩

/-- A grapheme of a gradient has the colour at its place and the decorations in force. -/
theorem isStyled_gradient (h : InForce t state) (first second : Color) {closeName text : Text} {o : Nat}
    (ho : o < text.byteLength) {more : List Cell}
    (hmore : ∀ cell ∈ more, (⟨t.opened, .gradient [first, second], closeName⟩ : LiveTag) ∉ cell.tags)
    {color : Color} (hcolor : (Color.interpolate first second text.graphemes.length)[
      pieceIndex text.graphemes o]? = some color) :
    Cell.IsStyled (((t.push (.gradient [first, second]) closeName).append text).cells ++ more)
      ((Cell.textOf t.cells).byteLength + o) ⟨some color, state.decorations⟩ := by
  obtain ⟨styles, heffects, hstate⟩ := h.styles
  let live : LiveTag := ⟨t.opened, .gradient [first, second], closeName⟩
  let inside : List Cell := text.map (⟨·, (live :: t.stack).reverse⟩)
  obtain ⟨c, hcell⟩ := Cell.exists_at?_middle t.cells more (live :: t.stack).reverse ho
  have htext : Cell.textOf inside = text := by simp [inside, Cell.textOf, Function.comp_def]
  have hfront : ∀ cell ∈ t.cells, live ∉ cell.tags := by
    intro cell hcell hlive
    have := h.numbered.cells cell hcell live hlive
    simp [live] at this
  have hinside : ∀ cell ∈ inside, live ∈ cell.tags := by
    intro cell hcell
    obtain ⟨d, -, rfl⟩ := List.mem_map.1 hcell
    simp
  have hne : inside ≠ [] := by
    rintro hnil
    obtain rfl := List.map_eq_nil_iff.1 hnil
    exact Nat.not_lt_zero o ho
  have hlive : live.styleAt? (t.cells ++ inside ++ more) ((Cell.textOf t.cells).byteLength + o) =
      some (.colored color) := by
    rw [LiveTag.styleAt?_of_mem hfront hinside hne hmore, htext, TagEffect.styleAt?]
    simp only [Color.interpolateStops_pair, hcolor]
    rfl
  refine ⟨_, styles ++ [.colored color], hcell, ?_, ?_⟩
  · rw [List.reverse_cons, List.map_append, List.map_append, LiveTag.map_styleAt? heffects]
    exact congrArg (_ ++ [·]) hlive
  · rw [List.foldl_append, hstate]
    exact state.overlay_colored color

end InForce

/-- A code is read as its tag, which brings the style behind the code into force. -/
theorem exists_inForce_code {t : Trace} {state after : Style} {marker letter : Char}
    (h : InForce t state) (hafter : state.afterCharacters? marker letter = some after) :
    ∃ t' : Trace, t'.cells = t.cells ∧ InForce t' after ∧ ∀ rest,
      t.read (Structured.convertCodes (marker :: letter :: rest)) =
        t'.read (Structured.convertCodes rest) := by
  rw [Style.afterCharacters?] at hafter
  split at hafter
  · next hmarker =>
    obtain ⟨code, hcode, hafter⟩ := Option.bind_eq_some_iff.1 hafter
    cases code with
    | color named =>
      have htag : Structured.codeTag? letter = some (named.render .structured) := by
        rw [Structured.codeTag?, hcode]
      cases hafter
      refine ⟨t.push (.style (.colored named.rgb)) "color".toList, rfl, ?_, fun rest => ?_⟩
      · rw [← Style.overlay_colored]
        exact h.push _ _
      · rw [Structured.convertCodes_code hmarker htag, Trace.read_namedColor]
    | format format =>
      have htag : Structured.codeTag? letter = some (format.render .structured) := by
        rw [Structured.codeTag?, hcode]
      cases format with
      | decorate d =>
        cases hafter
        refine ⟨t.push (.style (.decorated (.single d))) d.name, rfl, h.push _ _, fun rest => ?_⟩
        rw [Structured.convertCodes_code hmarker htag, Trace.read_decoration]
      | reset =>
        cases hafter
        refine ⟨t.close t.stack.length, rfl, h.closeAll, fun rest => ?_⟩
        rw [Structured.convertCodes_code hmarker htag, Trace.read_reset]
    | hex => cases hafter
  · cases hafter

/-- Two characters that are no code have no tag. -/
theorem codeTag?_eq_none {state : Style} {marker letter : Char} (hmarker : isMarker marker)
    (h : state.afterCharacters? marker letter = none) : Structured.codeTag? letter = none := by
  rw [Style.afterCharacters?, if_pos hmarker] at h
  rw [Structured.codeTag?]
  cases hcode : LegacyCode.of? letter with
  | none => rfl
  | some code =>
    rw [hcode, Option.bind_some] at h
    cases code with
    | color named => cases h
    | format format => cases format <;> cases h
    | hex => rfl

/-- The cells are older ones and behind them the text of the segments, of which each
byte has the style of its segment. -/
structure Shows (older cells : List Cell) (parts : List Segment) : Prop where
  text : Cell.textOf cells = Cell.textOf older ++ parts.flatMap Segment.text
  styled : ∀ o segment, Segment.at? parts o = some segment →
    Cell.IsStyled cells ((Cell.textOf older).byteLength + o) segment.style

theorem Shows.append {older between cells : List Cell} {front back : List Segment}
    (htext : Cell.textOf between = Cell.textOf older ++ front.flatMap Segment.text)
    (hfront : ∀ o segment, Segment.at? front o = some segment →
      Cell.IsStyled cells ((Cell.textOf older).byteLength + o) segment.style)
    (hback : Shows between cells back) : Shows older cells (front ++ back) where
  text := by rw [hback.text, htext, List.flatMap_append, List.append_assoc]
  styled := by
    intro o segment hsegment
    rw [Segment.at?_append] at hsegment
    by_cases ho : o < Text.byteLength (front.flatMap Segment.text)
    · rw [if_pos ho] at hsegment
      exact hfront o segment hsegment
    · rw [if_neg ho] at hsegment
      have hstyled := hback.styled _ segment hsegment
      rw [htext, Text.byteLength_append] at hstyled
      have hoffset : (Cell.textOf older).byteLength + Text.byteLength (front.flatMap Segment.text) +
          (o - Text.byteLength (front.flatMap Segment.text)) = (Cell.textOf older).byteLength + o := by
        omega
      rwa [hoffset] at hstyled

theorem shows_char {t : Trace} {state : Style} (h : InForce t state) {c : Char}
    (free : c ∉ ['{', '<', '\\']) {rest : Text} {parts : List Segment}
    (hplain : ∀ letter ∈ rest.head?, isMarker c → Structured.codeTag? letter = none)
    (hrest : Shows (t.append [c]).cells ((t.append [c]).read (Structured.convertCodes rest)).cells parts) :
    Shows t.cells (t.read (Structured.convertCodes (c :: rest))).cells (⟨[c], state⟩ :: parts) := by
  rw [Structured.convertCodes_cons hplain, Trace.read_cons t (Item.of_free_char free).2]
  have htext : Cell.textOf (t.append [c]).cells =
      Cell.textOf t.cells ++ [Segment.mk [c] state].flatMap Segment.text := t.textOf_append [c]
  refine Shows.append htext ?_ hrest
  intro o segment hsegment
  have ho : o < Text.byteLength [c] := Segment.exists_at?_iff.1 ⟨segment, hsegment⟩
  have hstyle : segment = ⟨[c], state⟩ := by
    have hmem := List.mem_of_getElem? hsegment
    simpa using hmem
  obtain ⟨more, hcells, -⟩ := (Trace.grows_read (t.append [c]) (Structured.convertCodes rest)).cells
  rw [hcells, hstyle]
  exact h.isStyled_append ho more

theorem map_text_gradientSegments (state : Style) (first second : Color) (content : Text) :
    (gradientSegments state first second content).map Segment.text = content.graphemes := by
  have hlength : content.graphemes.length ≤
      (Color.interpolate first second content.graphemes.length).length := by simp
  rw [gradientSegments, List.map_map]
  exact List.map_fst_zip hlength

theorem shows_gradient {t : Trace} {state : Style} (h : InForce t state) (first last : HexDigits)
    {content : Text} (free : ∀ c ∈ content, c ∉ ['{', '<', '\\', '&', '§']) {rest : Text}
    {parts : List Segment}
    (hrest : ∀ t' : Trace, InForce t' state →
      Shows t'.cells (t'.read (Structured.convertCodes rest)).cells parts) :
    Shows t.cells
      (t.read (Structured.convertCodes (Item.gradientTagged first last content ++ rest))).cells
      (gradientSegments state first.color last.color content ++ parts) := by
  have hspecial : ∀ c ∈ content, ¬ Token.isSpecial c := fun c hc => (Item.of_free_content free hc).2.1
  have htexts := map_text_gradientSegments state first.color last.color content
  have htext : (gradientSegments state first.color last.color content).flatMap Segment.text = content := by
    rw [List.flatMap_def, htexts, Text.flatten_graphemes]
  let inner : Trace := (t.push (.gradient [first.color, last.color]) "gradient".toList).append content
  have hclosed : inner.closeNamed "gradient".toList = inner.close 1 :=
    Trace.closeNamed_append_push t _ _ content
  have hforce : InForce (inner.close 1) state :=
    ⟨((h.numbered.push _ _).append content).close 1, h.styles⟩
  rw [Structured.convertCodes_append fun c hc => (Structured.free_of_mem_gradientTagged free hc).1,
    Item.gradientTagged, List.append_assoc, List.append_assoc, Trace.read_gradientOpening,
    Trace.read_append _ hspecial, Trace.read_gradientClosing, hclosed]
  refine Shows.append ?_ ?_ (hrest _ hforce)
  · rw [htext]
    exact Trace.textOf_append _ content
  · intro o segment hsegment
    have ho : o < content.byteLength := htext ▸ Segment.exists_at?_iff.1 ⟨segment, hsegment⟩
    rw [Segment.at?, htexts, gradientSegments, List.getElem?_map] at hsegment
    obtain ⟨⟨grapheme, color⟩, hzip, rfl⟩ := Option.map_eq_some_iff.1 hsegment
    have hcolor := (List.getElem?_zip_eq_some.1 hzip).2
    obtain ⟨more, hcells, hmore⟩ :=
      (Trace.grows_read (inner.close 1) (Structured.convertCodes rest)).cells
    rw [hcells]
    refine h.isStyled_gradient first.color last.color ho ?_ hcolor
    intro cell hcell hlive
    cases hmore cell hcell _ hlive with
    | inl hstack =>
      have := h.numbered.stack _ hstack
      simp at this
    | inr hnumber => exact absurd hnumber (Nat.not_succ_le_self t.opened)

/-- Whatever has been read before, reading the markup of the items on shows their
segments. -/
theorem shows_read {t : Trace} {state : Style} (h : InForce t state) (items : List Item) :
    Shows t.cells (t.read (Structured.convertCodes (items.flatMap Item.tagged))).cells
      (segments state items) := by
  fun_induction segments state items generalizing t with
  | case1 state =>
    rw [List.flatMap_nil, Structured.convertCodes_nil, Trace.read_nil]
    exact ⟨by simp, by simp [Segment.at?]⟩
  | case2 state c free letter free' rest after hafter ih =>
    obtain ⟨t', hcells, hforce, hread⟩ := exists_inForce_code h hafter
    rw [← hcells]
    exact hread _ ▸ ih hforce
  | case3 state c free letter free' rest hnone ih =>
    refine shows_char h free ?_ (ih (h.append [c]))
    rintro _ ⟨⟩ hmarker
    exact codeTag?_eq_none hmarker hnone
  | case4 state c free rest hrest ih =>
    refine shows_char h free ?_ (ih (h.append [c]))
    -- what follows is no character, and a tag begins with a bracket, which is no code
    intro letter hletter _
    cases rest with
    | nil => cases hletter
    | cons item rest =>
      cases item with
      | char d free' => exact absurd rfl (hrest d free' rest)
      | single digits =>
        cases hletter
        decide
      | gradient first last content free' =>
        cases hletter
        decide
  | case5 state digits rest ih =>
    have hcolor : ∀ c ∈ digits.color.render .structured, ¬ isMarker c := fun _ =>
      Structured.not_isMarker_of_mem_render
    rw [List.flatMap_cons, Item.tagged, Structured.convertCodes_append hcolor, Trace.read_color]
    have hforce := h.push (.colored digits.color) "color".toList
    rw [Style.overlay_colored] at hforce
    exact ih hforce
  | case6 state first last content free rest ih => exact shows_gradient h first last free fun t' => ih

theorem styleAt_of_isStyled {markup : Text} {o : Nat} {style : Style}
    (h : Cell.IsStyled (Trace.ofMarkup markup) o style) : (Document.ofMarkup markup).styleAt o = style := by
  obtain ⟨cell, styles, hcell, hstyles, rfl⟩ := h
  have hsame : styles.map some = (((Document.ofMarkup markup).spansAt o).map Span.style).map some :=
    hstyles.symm.trans (map_style_spansAt hcell)
  rw [List.map_inj_right fun _ _ => Option.some.inj] at hsame
  rw [Document.styleAt, hsame, List.foldl_map]

/-- The document of a text is its plain characters, each byte in the style of its
segment: outside gradients the style in force, in a gradient the decorations in force
and the colour at the place of the grapheme. Painting gives each grapheme of a gradient
the same colour. -/
theorem ofColored_eq_segments (items : List Item) :
    let doc := Document.ofColored (items.flatMap Item.source)
    let parts := segments ∅ items
    doc.text = parts.flatMap Segment.text ∧
      (∀ o < doc.byteLength, ∃ segment, Segment.at? parts o = some segment ∧
        doc.styleAt o = segment.style) ∧
      ∀ first last content free state, Item.gradient first last content free ∈ items →
        (paint (Color.interpolate first.color last.color (visibleCount content)) content).map
            (fun glyph => (glyph.grapheme, glyph.color)) =
          (gradientSegments state first.color last.color content).map
            fun segment => (segment.text, segment.style.color) := by
  intro doc parts
  have hmarkup : Structured.convert (items.flatMap Item.source) =
      Structured.convertCodes (items.flatMap Item.tagged) := by
    rw [Structured.convert, Structured.convertColors_convertGradients]
  have hshows := shows_read inForce_start items
  rw [← hmarkup] at hshows
  have htext : doc.text = parts.flatMap Segment.text :=
    (text_ofMarkup (Structured.convert (items.flatMap Item.source))).trans hshows.text
  refine ⟨htext, ?_, ?_⟩
  · intro o ho
    rw [Document.byteLength, htext] at ho
    obtain ⟨segment, hsegment⟩ := Segment.exists_at?_iff.2 ho
    have hstyled := hshows.styled o segment hsegment
    rw [show Cell.textOf Trace.start.cells = [] from rfl, Text.byteLength_nil, Nat.zero_add] at hstyled
    exact ⟨segment, hsegment, styleAt_of_isStyled hstyled⟩
  · intro first last content free state _
    have hmarkers : ∀ c ∈ content, ¬ isMarker c := fun c hc => (Item.of_free_content free hc).2.2
    rw [paint_interpolate hmarkers, gradientSegments, List.map_map, List.map_map]
    rfl

theorem ofColored_eq_segments_codes :
    let first : HexDigits := .ofColor ⟨255, 0, 0⟩
    let last : HexDigits := .ofColor ⟨0, 0, 255⟩
    let content := "❤é".toList
    have free : ∀ c ∈ content, c ∉ ['{', '<', '\\', '&', '§'] := Text.forall_mem_of_all (by decide)
    let items : List Item := [.char '&' (by decide), .char 'L' (by decide), .char '§' (by decide),
      .single (.ofColor ⟨1, 2, 3⟩), .gradient first last content free, .char '>' (by decide)]
    let doc := Document.ofColored (items.flatMap Item.source)
    let parts := segments ∅ items
    5 < doc.byteLength ∧ Item.gradient first last content free ∈ items ∧
      doc.text = parts.flatMap Segment.text ∧
      (∃ segment, Segment.at? parts 5 = some segment ∧ doc.styleAt 5 = segment.style) ∧
      (paint (Color.interpolate first.color last.color (visibleCount content)) content).map
          (fun glyph => (glyph.grapheme, glyph.color)) =
        (gradientSegments ∅ first.color last.color content).map
          fun segment => (segment.text, segment.style.color) := by
  intro first last content free items doc parts
  have hinside : 5 < doc.byteLength := by decide +kernel
  have hmem : Item.gradient first last content free ∈ items := by simp [items]
  have hdoc := ofColored_eq_segments items
  exact ⟨hinside, hmem, hdoc.1, hdoc.2.1 5 hinside, hdoc.2.2 first last content free ∅ hmem⟩

end ColorMarkup
