import ColorMarkup.Proofs.ColoredDocument
import ColorMarkup.Proofs.VisibleText
/-!
A gradient over printable characters and codes about decorations, converted both ways. A
reset that is written as a tag closes all tags, that of the gradient too. So the structured
conversion spreads the colours over the characters in front of the first reset and leaves
those behind it without one, where the legacy conversion spreads them over all characters.

The content is followed through both conversions: first what printable text is read as and how the
content of a gradient is found, then what painting writes, then the tags that the structured
conversion writes and what they are read back as. In the end the colours of both are compared.
-/
namespace ColorMarkup

namespace Text

/-- Characters that join no others are graphemes of their own. -/
theorem graphemes_of_other {text : Text} (h : ∀ c ∈ text, BreakClass.of c = .other) :
    text.graphemes = text.map ([·]) := by
  have hcontinue : ∀ rest : Text, (∀ c ∈ rest, BreakClass.of c = .other) →
      continueCluster (.start .other) rest = ([], rest.map ([·])) := by
    intro rest hrest
    induction rest with
    | nil => rfl
    | cons c rest ih =>
      have ih := ih fun d hd => hrest d (List.mem_cons_of_mem _ hd)
      rw [continueCluster, hrest c List.mem_cons_self, if_neg (by decide), ih]
      rfl
  cases text with
  | nil => rfl
  | cons c rest =>
    rw [graphemes, h c List.mem_cons_self, hcontinue rest fun d hd => h d (List.mem_cons_of_mem _ hd)]
    rfl

theorem byteLength_of_size_one {text : Text} (h : ∀ c ∈ text, c.utf8Size = 1) :
    text.byteLength = text.length := by
  induction text with
  | nil => rfl
  | cons c text ih =>
    rw [byteLength_cons, h c List.mem_cons_self, ih fun d hd => h d (List.mem_cons_of_mem _ hd),
      List.length_cons, Nat.add_comm]

end Text

theorem pieceIndex_of_size_one {text : Text} (h : ∀ c ∈ text, c.utf8Size = 1) {i : Nat}
    (hi : i < text.length) : pieceIndex (text.map ([·])) i = i := by
  induction text generalizing i with
  | nil => cases hi
  | cons c text ih =>
    have hsize : Text.byteLength [c] = 1 := by simpa using h c List.mem_cons_self
    rw [List.map_cons, pieceIndex, hsize]
    cases i with
    | zero => rfl
    | succ i =>
      rw [if_neg (by omega), Nat.add_sub_cancel, ih (fun d hd => h d (List.mem_cons_of_mem _ hd))]
      simpa using hi

/-- The characters from the blank to the tilde. -/
def IsPrintable (c : Char) : Prop := 0x20 ≤ c.toNat ∧ c.toNat < 0x7F

instance (c : Char) : Decidable (IsPrintable c) := inferInstanceAs (Decidable (_ ∧ _))

theorem IsPrintable.utf8Size {c : Char} (h : IsPrintable c) : c.utf8Size = 1 := by
  have hle : c.toNat ≤ 127 := Nat.le_of_lt h.2
  exact Char.utf8Size_eq_one_iff.2 hle

theorem isPrintable_of_toLower {letter : Char} (h : IsPrintable letter.toLower) : IsPrintable letter := by
  by_cases hcapital : letter.val ≥ 'A'.val ∧ letter.val ≤ 'Z'.val
  · have hlow : 65 ≤ letter.toNat := hcapital.1
    have hhigh : letter.toNat ≤ 90 := hcapital.2
    exact ⟨by omega, by omega⟩
  · have hlower : letter.toLower = letter := dif_neg hcapital
    rwa [hlower] at h

theorem isPrintable_of_mem_formatLetters {letter : Char} (h : letter.toLower ∈ formatLetters) :
    IsPrintable letter := by
  have hletters : ∀ d ∈ formatLetters, IsPrintable d := Text.forall_mem_of_all (by decide)
  exact isPrintable_of_toLower (hletters _ h)

/-- A printable character, or a code about decorations. -/
inductive FormattedPart where
  | char (c : Char) (printable : IsPrintable c) (free : c ∉ ['{', '<', '\\', '&'])
  | code (marker letter : Char) (hmarker : isMarker marker) (hletter : letter.toLower ∈ formatLetters)

namespace FormattedPart

def source : FormattedPart → Text
  | char c _ _ => [c]
  | code marker letter _ _ => [marker, letter]

/-- The characters that are no code. -/
def plain : FormattedPart → Text
  | char c _ _ => [c]
  | code _ _ _ _ => []

def isReset : FormattedPart → Bool
  | char _ _ _ => false
  | code _ letter _ _ => letter.toLower = 'r'

/-- What painting makes of the part. -/
def event : FormattedPart → Event
  | char c _ _ => .visible [c]
  | code marker letter _ _ => .escape ⟨marker, [letter]⟩

/-- The parts in front of the first reset. -/
def front (content : List FormattedPart) : List FormattedPart := content.takeWhile fun part => !part.isReset

/-- The first reset and all behind it. -/
def back (content : List FormattedPart) : List FormattedPart := content.dropWhile fun part => !part.isReset

theorem front_cons (part : FormattedPart) (content : List FormattedPart) :
    front (part :: content) = if part.isReset then [] else part :: front content := by
  cases h : part.isReset <;> simp [front, h]

theorem back_cons (part : FormattedPart) (content : List FormattedPart) :
    back (part :: content) = if part.isReset then part :: content else back content := by
  cases h : part.isReset <;> simp [back, h]

theorem plain_front_append_back (content : List FormattedPart) :
    (front content).flatMap plain ++ (back content).flatMap plain = content.flatMap plain := by
  rw [← List.flatMap_append, front, back, List.takeWhile_append_dropWhile]

theorem free_of_printable {c : Char} (printable : IsPrintable c) (free : c ∉ ['{', '<', '\\', '&']) :
    c ∉ ['{', '&', '§', '<', '\\'] := by
  have hsection : c ≠ '§' := by
    rintro rfl
    exact absurd printable.2 (by decide)
  simp only [List.mem_cons, List.not_mem_nil, or_false, not_or] at free ⊢
  exact ⟨free.1, free.2.2.2, hsection, free.2.1, free.2.2.1⟩

theorem isPrintable_of_mem_plain {content : List FormattedPart} {c : Char} (h : c ∈ content.flatMap plain) :
    IsPrintable c := by
  obtain ⟨part, -, hc⟩ := List.mem_flatMap.1 h
  cases part with
  | char d printable free =>
    obtain rfl : c = d := by simpa [plain] using hc
    exact printable
  | code marker letter hmarker hletter => cases hc

theorem breakClass_of_mem_source {content : List FormattedPart} {c : Char} (h : c ∈ content.flatMap source) :
    BreakClass.of c = .other := by
  obtain ⟨part, -, hc⟩ := List.mem_flatMap.1 h
  cases part with
  | char d printable free =>
    obtain rfl : c = d := by simpa [source] using hc
    exact BreakClass.of_printable printable.1 printable.2
  | code marker letter hmarker hletter =>
    have hprintable := isPrintable_of_mem_formatLetters hletter
    have hcases : c = marker ∨ c = letter := by simpa [source] using hc
    cases hcases with
    | inl hc =>
      rw [hc]
      cases isMarker_iff.1 hmarker with
      | inl hmarker =>
        rw [hmarker]
        exact BreakClass.of_printable (by decide) (by decide)
      | inr hmarker =>
        rw [hmarker]
        decide +kernel
    | inr hc =>
      rw [hc]
      exact BreakClass.of_printable hprintable.1 hprintable.2

theorem events_source (content : List FormattedPart) : events (content.flatMap source) = content.map event := by
  rw [events, Text.graphemes_of_other fun _ => breakClass_of_mem_source]
  induction content with
  | nil => rfl
  | cons part content ih =>
    cases part with
    | char c printable free =>
      have hmarker : ¬ isMarker c := (of_free (free_of_printable printable free)).2.1
      have hnone : Event.marker? [c] = none := by rw [Event.marker?, if_neg hmarker]
      rw [List.flatMap_cons, source, List.singleton_append, List.map_cons, Event.ofGraphemes_visible hnone, ih]
      rfl
    | code marker letter hmarker hletter =>
      have hsome : Event.marker? [marker] = some marker := by rw [Event.marker?, if_pos hmarker]
      rw [List.flatMap_cons, source, List.cons_append, List.singleton_append, List.map_cons, List.map_cons,
        Event.ofGraphemes, hsome]
      exact congrArg _ ih

theorem visibleCount_source (content : List FormattedPart) :
    visibleCount (content.flatMap source) = (content.flatMap plain).length := by
  rw [visibleCount, events_source]
  induction content with
  | nil => rfl
  | cons part content ih =>
    rw [List.map_cons, List.flatMap_cons, List.length_append, ← ih]
    cases part with
    | char c printable free =>
      rw [event, Event.countP_visible, Nat.add_comm]
      rfl
    | code marker letter hmarker hletter =>
      rw [event, Event.countP_escape]
      exact (Nat.zero_add _).symm

/-- The part as one of a text whose markup is complete. -/
def toInline : FormattedPart → Inline
  | char c printable free => .char c (free_of_printable printable free)
  | code marker letter hmarker hletter => .code marker letter hmarker (List.mem_append_right _ hletter)

/-- The content between an opener and a closer. -/
def gradientSource (first last : HexDigits) (content : List FormattedPart) : Text :=
  (ColorTag.mk .opener first).source ++ content.flatMap source ++ (ColorTag.mk .closer last).source

theorem tagged_toInline (content : List FormattedPart) :
    (content.map toInline).flatMap Inline.tagged = content.flatMap source := by
  rw [List.flatMap_map]
  congr
  funext part
  cases part <;> rfl

theorem gradientSource_eq (first last : HexDigits) (content : List FormattedPart) :
    gradientSource first last content = blockSource [.gradient first (.close (content.map toInline) last)] := by
  have hcontent : tagSource ((content.map toInline).flatMap Inline.pieces) = content.flatMap source := by
    rw [tagSource_flatMap, List.flatMap_map]
    congr
    funext part
    cases part <;> rfl
  simp [gradientSource, blockSource, Block.pieces, Chain.pieces, tagSource_append, hcontent, TagPiece.source]

theorem convert_gradientSource (first last : HexDigits) (content : List FormattedPart) :
    Structured.convert (gradientSource first last content) =
      Structured.gradientOpening first.color last.color ++
        Structured.convertCodes (content.flatMap source ++ Structured.gradientClosing) := by
  have hopening : ∀ c ∈ Structured.gradientOpening first.color last.color, ¬ isMarker c :=
    fun _ hc => (Structured.free_of_mem_gradientOpening hc).1
  rw [Structured.convert, gradientSource_eq, Structured.convertColors_blockSource,
    ← Structured.convertCodes_append hopening]
  simp [Block.flats, Chain.flats, Flat.tagged, tagged_toInline]

/-- All of the tags are decorations. -/
def Decorates (tags : List LiveTag) : Prop := ∀ tag ∈ tags, ∃ set, tag.effect = .style (.decorated set)

theorem decorates_nil : Decorates [] := by simp [Decorates]

theorem decorates_closeAll (t : Trace) : Decorates (t.close t.stack.length).stack := by
  simp [Trace.close, Decorates]

theorem Decorates.push {tags : List LiveTag} (h : Decorates tags) (number : Nat) (set : Decorations)
    (closeName : Text) : Decorates (⟨number, .style (.decorated set), closeName⟩ :: tags) :=
  List.forall_mem_cons.2 ⟨⟨set, rfl⟩, h⟩

theorem Decorates.reverse {tags : List LiveTag} (h : Decorates tags) : Decorates tags.reverse :=
  fun tag htag => h tag (List.mem_reverse.1 htag)

theorem of?_formatLetter {letter : Char} (h : letter.toLower ∈ formatLetters) :
    (letter.toLower = 'r' ∧ LegacyCode.of? letter = some (.format .reset)) ∨
      letter.toLower ≠ 'r' ∧ ∃ d ∈ Decoration.all, LegacyCode.of? letter = some (.format (.decorate d)) := by
  have hletters : ∀ c ∈ formatLetters, c.toLower = c ∧ ((c = 'r' ∧ LegacyCode.of? c = some (.format .reset)) ∨
      c ≠ 'r' ∧ ∃ d ∈ Decoration.all, LegacyCode.of? c = some (.format (.decorate d))) :=
    Text.forall_mem_of_all (by decide)
  obtain ⟨hlower, hmeaning⟩ := hletters _ h
  rwa [of?_congr hlower] at hmeaning

/-- A reset closes all tags, and any other code opens that of a decoration. -/
theorem read_code (t : Trace) {marker letter : Char} (hmarker : isMarker marker)
    (hletter : letter.toLower ∈ formatLetters) (rest : Text) :
    (letter.toLower = 'r' ∧ t.read (Structured.convertCodes (marker :: letter :: rest)) =
        (t.close t.stack.length).read (Structured.convertCodes rest)) ∨
      letter.toLower ≠ 'r' ∧ ∃ d : Decoration, t.read (Structured.convertCodes (marker :: letter :: rest)) =
        (t.push (.style (.decorated (.single d))) d.name).read (Structured.convertCodes rest) := by
  have htag : ∀ format, LegacyCode.of? letter = some (.format format) →
      Structured.convertCodes (marker :: letter :: rest) =
        format.render .structured ++ Structured.convertCodes rest := by
    intro format hcode
    exact Structured.convertCodes_code hmarker (by rw [Structured.codeTag?, hcode]) rest
  cases of?_formatLetter hletter with
  | inl h =>
    refine .inl ⟨h.1, ?_⟩
    rw [htag _ h.2, Trace.read_reset]
  | inr h =>
    obtain ⟨hne, d, -, hcode⟩ := h
    refine .inr ⟨hne, d, ?_⟩
    rw [htag _ hcode, Trace.read_decoration]

theorem read_char (t : Trace) {c : Char} (printable : IsPrintable c) (free : c ∉ ['{', '<', '\\', '&'])
    (rest : Text) : t.read (Structured.convertCodes (c :: rest)) =
      (t.append [c]).read (Structured.convertCodes rest) := by
  obtain ⟨hspecial, hmarker, -⟩ := of_free (free_of_printable printable free)
  rw [Structured.convertCodes_cons fun _ _ hmark => absurd hmark hmarker, Trace.read_cons t hspecial]

theorem cells_read_gradientClosing (t : Trace) :
    (t.read (Structured.convertCodes Structured.gradientClosing)).cells = t.cells := by
  have hclosing : ∀ c ∈ Structured.gradientClosing, ¬ isMarker c :=
    fun _ hc => (Structured.free_of_mem_gradientClosing hc).1
  have hconvert := Structured.convertCodes_append hclosing []
  have hread := t.read_gradientClosing []
  obtain ⟨n, hclose⟩ := t.exists_closeNamed_eq_close "gradient".toList
  rw [List.append_nil, Structured.convertCodes_nil, List.append_nil] at hconvert
  rw [List.append_nil, Trace.read_nil, hclose] at hread
  rw [hconvert, hread, Trace.close]

/-- Where only decorations are open, the characters get nothing but decorations. -/
theorem read_behind {t : Trace} (h : Decorates t.stack) (content : List FormattedPart) :
    ∃ more, (t.read (Structured.convertCodes (content.flatMap source ++ Structured.gradientClosing))).cells =
        t.cells ++ more ∧
      Cell.textOf more = content.flatMap plain ∧ ∀ cell ∈ more, Decorates cell.tags := by
  induction content generalizing t with
  | nil => exact ⟨[], by rw [List.append_nil]; exact cells_read_gradientClosing t, rfl, by simp⟩
  | cons part content ih =>
    rw [List.flatMap_cons, List.append_assoc]
    cases part with
    | char c printable free =>
      obtain ⟨more, hcells, htext, htags⟩ := ih (t := t.append [c]) h
      refine ⟨⟨c, t.stack.reverse⟩ :: more, ?_, congrArg (c :: ·) htext, ?_⟩
      · rw [source, List.singleton_append, read_char t printable free, hcells, Trace.append,
          List.append_assoc]
        rfl
      · exact List.forall_mem_cons.2 ⟨h.reverse, htags⟩
    | code marker letter hmarker hletter =>
      cases read_code t hmarker hletter (content.flatMap source ++ Structured.gradientClosing) with
      | inl hreset =>
        obtain ⟨more, hcells, htext, htags⟩ := ih (decorates_closeAll t)
        exact ⟨more, (congrArg Trace.cells hreset.2).trans hcells, htext, htags⟩
      | inr hopen =>
        obtain ⟨-, d, hread⟩ := hopen
        have hpushed : Decorates (t.push (.style (.decorated (.single d))) d.name).stack := h.push _ _ _
        obtain ⟨more, hcells, htext, htags⟩ := ih hpushed
        exact ⟨more, (congrArg Trace.cells hread).trans hcells, htext, htags⟩

/-- Where one more tag is open below the decorations, it stays open up to the first reset. -/
theorem read_in_tag {t : Trace} {live : LiveTag} {inner : List LiveTag} (hstack : t.stack = inner ++ [live])
    (h : Decorates inner) (content : List FormattedPart) :
    ∃ inside outside,
      (t.read (Structured.convertCodes (content.flatMap source ++ Structured.gradientClosing))).cells =
        t.cells ++ (inside ++ outside) ∧
      Cell.textOf inside = (front content).flatMap plain ∧
      Cell.textOf outside = (back content).flatMap plain ∧
      (∀ cell ∈ inside, ∃ tags, cell.tags = live :: tags ∧ Decorates tags) ∧
      ∀ cell ∈ outside, Decorates cell.tags := by
  induction content generalizing t inner with
  | nil =>
    refine ⟨[], [], ?_, rfl, rfl, by simp, by simp⟩
    rw [List.append_nil, List.append_nil]
    exact cells_read_gradientClosing t
  | cons part content ih =>
    rw [List.flatMap_cons, List.append_assoc]
    cases part with
    | char c printable free =>
      obtain ⟨inside, outside, hcells, hinside, houtside, hlive, htags⟩ := ih (t := t.append [c]) hstack h
      refine ⟨⟨c, t.stack.reverse⟩ :: inside, outside, ?_, congrArg (c :: ·) hinside, houtside, ?_, htags⟩
      · rw [source, List.singleton_append, read_char t printable free, hcells, Trace.append,
          List.append_assoc]
        rfl
      · refine List.forall_mem_cons.2 ⟨⟨inner.reverse, ?_, h.reverse⟩, hlive⟩
        rw [hstack, List.reverse_append]
        rfl
    | code marker letter hmarker hletter =>
      cases read_code t hmarker hletter (content.flatMap source ++ Structured.gradientClosing) with
      | inl hreset =>
        have his : (code marker letter hmarker hletter).isReset := decide_eq_true hreset.1
        obtain ⟨more, hcells, htext, htags⟩ := read_behind (decorates_closeAll t) content
        refine ⟨[], more, (congrArg Trace.cells hreset.2).trans hcells, ?_, ?_, by simp, htags⟩
        · rw [front_cons, if_pos his]
          rfl
        · rw [back_cons, if_pos his]
          exact htext
      | inr hopen =>
        obtain ⟨hne, d, hread⟩ := hopen
        have hnot : ¬ (code marker letter hmarker hletter).isReset := by simpa [isReset] using hne
        have hpushed : (t.push (.style (.decorated (.single d))) d.name).stack =
            (⟨t.opened, .style (.decorated (.single d)), d.name⟩ :: inner) ++ [live] := by
          rw [Trace.push, hstack]
          rfl
        obtain ⟨inside, outside, hcells, hinside, houtside, hlive, htags⟩ := ih hpushed (h.push _ _ _)
        refine ⟨inside, outside, (congrArg Trace.cells hread).trans hcells, ?_, ?_, hlive, htags⟩
        · rw [front_cons, if_neg hnot]
          exact hinside
        · rw [back_cons, if_neg hnot]
          exact houtside

theorem exists_styles {tags : List LiveTag} (h : Decorates tags) : ∃ styles : List Style,
    tags.map LiveTag.effect = styles.map TagEffect.style ∧ ∀ style ∈ styles, style.color = none := by
  induction tags with
  | nil => exact ⟨[], rfl, by simp⟩
  | cons tag tags ih =>
    obtain ⟨⟨set, heffect⟩, hrest⟩ := List.forall_mem_cons.1 h
    obtain ⟨styles, heffects, hcolors⟩ := ih hrest
    refine ⟨.decorated set :: styles, ?_, List.forall_mem_cons.2 ⟨rfl, hcolors⟩⟩
    rw [List.map_cons, List.map_cons, heffect, heffects]

theorem color_foldl_overlay {styles : List Style} (h : ∀ style ∈ styles, style.color = none) (base : Style) :
    (styles.foldl Style.overlay base).color = base.color := by
  induction styles generalizing base with
  | nil => rfl
  | cons style styles ih =>
    have hnone : (base.overlay style).color = base.color := by
      rw [Style.overlay, h style List.mem_cons_self]
      rfl
    rw [List.foldl_cons, ih (fun other hother => h other (List.mem_cons_of_mem _ hother)), hnone]

section Colors

variable {live : LiveTag} {inside outside : List Cell} {first second : Color} {i : Nat}
  (heffect : live.effect = .gradient [first, second])
  (hinside : ∀ cell ∈ inside, ∃ tags, cell.tags = live :: tags ∧ Decorates tags)
  (houtside : ∀ cell ∈ outside, Decorates cell.tags)

include heffect hinside houtside

/-- The tag gives a character under it the colour at the place of the character. -/
theorem styleAt?_live (hprintable : ∀ c ∈ Cell.textOf inside, IsPrintable c)
    (hi : i < (Cell.textOf inside).length) : live.styleAt? (inside ++ outside) i =
      (Color.interpolate first second (Cell.textOf inside).length)[i]?.map Style.colored := by
  have hsize : ∀ c ∈ Cell.textOf inside, c.utf8Size = 1 := fun c hc => (hprintable c hc).utf8Size
  have hother : ∀ c ∈ Cell.textOf inside, BreakClass.of c = .other := fun c hc =>
    BreakClass.of_printable (hprintable c hc).1 (hprintable c hc).2
  have hlive : ∀ cell ∈ inside, live ∈ cell.tags := by
    intro cell hcell
    obtain ⟨tags, htags, -⟩ := hinside cell hcell
    rw [htags]
    exact List.mem_cons_self
  have hclosed : ∀ cell ∈ outside, live ∉ cell.tags := by
    intro cell hcell hmem
    obtain ⟨set, hset⟩ := houtside cell hcell live hmem
    rw [heffect] at hset
    cases hset
  have hne : inside ≠ [] := by
    rintro rfl
    exact Nat.not_lt_zero i hi
  have hstyle := @LiveTag.styleAt?_of_mem [] inside outside live (by simp) hlive hne hclosed i
  rw [List.nil_append, Cell.textOf, List.map_nil, Text.byteLength_nil, Nat.zero_add] at hstyle
  rw [hstyle, heffect, TagEffect.styleAt?]
  simp only [Color.interpolateStops_pair, Text.graphemes_of_other hother, List.length_map,
    pieceIndex_of_size_one hsize hi]

/-- A character under the gradient has the colour at its place among these characters. -/
theorem exists_isStyled_inside (hprintable : ∀ c ∈ Cell.textOf inside, IsPrintable c)
    (hi : i < (Cell.textOf inside).length) : ∃ style, Cell.IsStyled (inside ++ outside) i style ∧
      style.color = (Color.interpolate first second (Cell.textOf inside).length)[i]? := by
  have hbyte : i < (Cell.textOf inside).byteLength := by
    rwa [Text.byteLength_of_size_one fun c hc => (hprintable c hc).utf8Size]
  obtain ⟨cell, hcell⟩ := Cell.exists_at?_iff.2 hbyte
  have hat : Cell.at? (inside ++ outside) i = some cell := by rw [Cell.at?_append, if_pos hbyte, hcell]
  obtain ⟨tags, htags, hdecorates⟩ := hinside cell (Cell.mem_of_at? hcell)
  obtain ⟨styles, heffects, hcolors⟩ := exists_styles hdecorates
  obtain ⟨color, hcolor⟩ : ∃ color,
      (Color.interpolate first second (Cell.textOf inside).length)[i]? = some color :=
    ⟨_, List.getElem?_eq_getElem (by rwa [Color.length_interpolate])⟩
  have hlive := styleAt?_live heffect hinside houtside hprintable hi
  refine ⟨_, ⟨cell, .colored color :: styles, hat, ?_, rfl⟩, ?_⟩
  · rw [htags, List.map_cons, hlive, hcolor, LiveTag.map_styleAt? heffects]
    rfl
  · rw [List.foldl_cons, color_foldl_overlay hcolors, hcolor]
    rfl

omit heffect hinside in
/-- A character behind the reset has no colour. -/
theorem exists_isStyled_outside (hi : (Cell.textOf inside).byteLength ≤ i)
    (hi' : i < (Cell.textOf (inside ++ outside)).byteLength) :
    ∃ style, Cell.IsStyled (inside ++ outside) i style ∧ style.color = none := by
  obtain ⟨cell, hcell⟩ := Cell.exists_at?_iff.2 hi'
  have hmem : cell ∈ outside := by
    rw [Cell.at?_append, if_neg (by omega)] at hcell
    exact Cell.mem_of_at? hcell
  obtain ⟨styles, heffects, hcolors⟩ := exists_styles (houtside cell hmem)
  exact ⟨_, ⟨cell, styles, hcell, LiveTag.map_styleAt? heffects _ _, rfl⟩, color_foldl_overlay hcolors _⟩

end Colors

/-- The cells of the converted gradient: under its tag up to the first reset. -/
theorem exists_cells (first last : HexDigits) (content : List FormattedPart) :
    ∃ (live : LiveTag) (inside outside : List Cell), live.effect = .gradient [first.color, last.color] ∧
      Trace.ofMarkup (Structured.convert (gradientSource first last content)) = inside ++ outside ∧
      Cell.textOf inside = (front content).flatMap plain ∧
      Cell.textOf outside = (back content).flatMap plain ∧
      (∀ cell ∈ inside, ∃ tags, cell.tags = live :: tags ∧ Decorates tags) ∧
      ∀ cell ∈ outside, Decorates cell.tags := by
  let opened : Trace := Trace.start.push (.gradient [first.color, last.color]) "gradient".toList
  have hstack : opened.stack = [] ++ [⟨0, .gradient [first.color, last.color], "gradient".toList⟩] := rfl
  obtain ⟨inside, outside, hcells, hrest⟩ := read_in_tag hstack decorates_nil content
  refine ⟨_, inside, outside, rfl, ?_, hrest⟩
  rw [Trace.ofMarkup, convert_gradientSource, Trace.read_gradientOpening]
  exact hcells

section Document

variable (first last : HexDigits) (content : List FormattedPart)

theorem text_ofColored :
    (Document.ofColored (gradientSource first last content)).text = content.flatMap plain := by
  obtain ⟨live, inside, outside, -, hcells, hinside, houtside, -⟩ := exists_cells first last content
  have hdoc := text_ofMarkup (Structured.convert (gradientSource first last content))
  rw [hcells, Cell.textOf_append, hinside, houtside, plain_front_append_back] at hdoc
  exact hdoc

theorem byteLength_ofColored :
    (Document.ofColored (gradientSource first last content)).byteLength = (content.flatMap plain).length := by
  rw [Document.byteLength, text_ofColored]
  exact Text.byteLength_of_size_one fun c hc => (isPrintable_of_mem_plain hc).utf8Size

/-- The colours are spread over the characters in front of the first reset. -/
theorem color_styleAt {i : Nat} (hi : i < (content.flatMap plain).length) :
    ((Document.ofColored (gradientSource first last content)).styleAt i).color =
      (Color.interpolate first.color last.color ((front content).flatMap plain).length)[i]? := by
  obtain ⟨live, inside, outside, heffect, hcells, hinside, houtside, hlive, hbehind⟩ :=
    exists_cells first last content
  have hfront : ∀ c ∈ Cell.textOf inside, IsPrintable c := by
    rw [hinside]
    exact fun _ => isPrintable_of_mem_plain
  rw [← hinside]
  by_cases hreached : i < (Cell.textOf inside).length
  · obtain ⟨style, hstyled, hcolor⟩ := exists_isStyled_inside heffect hlive hbehind hfront hreached
    rw [← hcells] at hstyled
    exact (congrArg Style.color (styleAt_of_isStyled hstyled)).trans hcolor
  · have hpassed : (Cell.textOf inside).byteLength ≤ i := by
      rw [Text.byteLength_of_size_one fun c hc => (hfront c hc).utf8Size]
      omega
    have hinText : i < (Cell.textOf (inside ++ outside)).byteLength := by
      rw [Cell.textOf_append, hinside, houtside, plain_front_append_back]
      rwa [Text.byteLength_of_size_one fun c hc => (isPrintable_of_mem_plain hc).utf8Size]
    obtain ⟨style, hstyled, hcolor⟩ := exists_isStyled_outside hbehind hpassed hinText
    rw [← hcells] at hstyled
    rw [List.getElem?_eq_none (by rw [Color.length_interpolate]; omega)]
    exact (congrArg Style.color (styleAt_of_isStyled hstyled)).trans hcolor

end Document

/-- Colours spread over some of the places and over all of them agree if and only if the
places are the same. -/
theorem interpolate_agree_iff (first second : Color) {reached count : Nat} (h : reached ≤ count) :
    (∀ i < count, (Color.interpolate first second reached)[i]? = (Color.interpolate first second count)[i]?) ↔
      reached = count := by
  constructor
  · intro hagree
    by_contra hne
    have hlt : reached < count := by omega
    have hfirst := hagree reached hlt
    rw [List.getElem?_eq_none (Nat.le_of_eq (Color.length_interpolate _ _ _))] at hfirst
    have hle := List.getElem?_eq_none_iff.1 hfirst.symm
    rw [Color.length_interpolate] at hle
    omega
  · intro heq i _
    rw [heq]

/-- The structured conversion spreads the colours over the characters in front of the
first reset and gives those behind it none. The legacy conversion gives each character
the colour at its place among all of them. The two agree if and only if no character is
behind a reset. -/
theorem colors_eq_painted_iff (first last : HexDigits) (content : List FormattedPart) :
    let text := content.flatMap source
    let doc := Document.ofColored (gradientSource first last content)
    let colors := Color.interpolate first.color last.color
    let reached := ((front content).flatMap plain).length
    doc.text = content.flatMap plain ∧ doc.byteLength = visibleCount text ∧
      (∀ i < visibleCount text, (doc.styleAt i).color = (colors reached)[i]?) ∧
      ((∀ i < visibleCount text, (doc.styleAt i).color =
          (paint (colors (visibleCount text)) text)[i]?.bind Glyph.color) ↔
        (back content).flatMap plain = []) := by
  intro text doc colors reached
  have hcount : visibleCount text = (content.flatMap plain).length := visibleCount_source content
  have hstructured : ∀ i < visibleCount text, (doc.styleAt i).color = (colors reached)[i]? := by
    rw [hcount]
    exact fun i hi => color_styleAt first last content hi
  have hpainted : ∀ i < visibleCount text,
      (paint (colors (visibleCount text)) text)[i]?.bind Glyph.color = (colors (visibleCount text))[i]? :=
    fun i hi => getElem?_paint (Color.length_interpolate _ _ _) hi
  have hsum : reached + ((back content).flatMap plain).length = visibleCount text := by
    rw [hcount, ← plain_front_append_back content, List.length_append]
  have hagree : (∀ i < visibleCount text, (doc.styleAt i).color =
        (paint (colors (visibleCount text)) text)[i]?.bind Glyph.color) ↔
      ∀ i < visibleCount text, (colors reached)[i]? = (colors (visibleCount text))[i]? :=
    forall₂_congr fun i hi => by rw [hstructured i hi, hpainted i hi]
  refine ⟨text_ofColored first last content, ?_, hstructured, ?_⟩
  · rw [hcount]
    exact byteLength_ofColored first last content
  · rw [hagree, interpolate_agree_iff _ _ (by omega), ← List.length_eq_zero_iff]
    omega

theorem colors_eq_painted_iff_last_reset :
    let first : HexDigits := .ofColor ⟨255, 0, 0⟩
    let last : HexDigits := .ofColor ⟨0, 0, 255⟩
    let content : List FormattedPart := [.char 'a' (by decide) (by decide), .code '&' 'L' rfl (by decide),
      .char 'b' (by decide) (by decide), .code '§' 'r' rfl (by decide)]
    let text := content.flatMap source
    let doc := Document.ofColored (gradientSource first last content)
    1 < visibleCount text ∧ (back content).flatMap plain = [] ∧ doc.text = "ab".toList ∧
      (doc.styleAt 1).color = (Color.interpolate first.color last.color 2)[1]? ∧
      ∀ i < visibleCount text, (doc.styleAt i).color =
        (paint (Color.interpolate first.color last.color (visibleCount text)) text)[i]?.bind Glyph.color := by
  intro first last content text doc
  have hinside : 1 < visibleCount text := by decide +kernel
  have hback : (back content).flatMap plain = [] := by decide
  obtain ⟨htext, -, hcolors, hagree⟩ := colors_eq_painted_iff first last content
  exact ⟨hinside, hback, htext, hcolors 1 hinside, hagree.2 hback⟩

/-- The character behind the reset has the second colour in the one conversion and none
in the other. -/
theorem color_dropped_by_reset :
    let text := "a&rb".toList
    let doc := Document.ofColored r"{#ff0000>}a&rb{#0000ff<}".toList
    visibleCount text = 2 ∧ (doc.styleAt 1).color = none ∧
      (paint (Color.interpolate ⟨255, 0, 0⟩ ⟨0, 0, 255⟩ (visibleCount text)) text)[1]?.bind Glyph.color =
        some ⟨0, 0, 255⟩ := by
  decide +kernel

end FormattedPart
end ColorMarkup
