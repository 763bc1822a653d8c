import ColorMarkup.Proofs.GradientReading
/-!
Finding markup in a text and replacing it. The tags of one form that a scan finds are all that the
text holds, each once and from left to right. Replacing the markup of a kind, by what may depend on
each span and its place, changes the bytes of the spans and no others.
-/
namespace ColorMarkup

/-- The spans are those of all tags of a form in the text, each once and in order. -/
structure FindsTags (form : TagForm) (text : Text) (spans : List MarkupSpan) : Prop where
  mem_iff : ∀ span, span ∈ spans ↔ ∃ (before digits after : Text) (color : Color),
    Color.ofHex? digits = some color ∧ text = before ++ ('{' :: '#' :: digits ++ form.ending) ++ after ∧
      span = ⟨before.byteLength, before.byteLength + Text.byteLength ('{' :: '#' :: digits ++ form.ending),
        color, none, none⟩
  start_lt_stop : ∀ span ∈ spans, span.start < span.stop
  in_order : spans.Pairwise fun a b => a.stop ≤ b.start

def PlacedTag.span (t : PlacedTag) : MarkupSpan := ⟨t.offset, t.stop, t.tag.color, none, none⟩

theorem spansFrom_prepend (offset : Nat) (text : Text) (cut : Cut) :
    spansFrom offset (cut.prepend text).occurrences = spansFrom (offset + text.byteLength) cut.occurrences := by
  obtain ⟨_ | ⟨o, rest⟩, tail⟩ := cut
  · rfl
  · rw [Cut.prepend, spansFrom_cons, spansFrom_cons, Text.byteLength_append]
    simp only [Nat.add_assoc]

theorem spansFrom_cutAtForm (form : TagForm) (offset : Nat) (pieces : List TagPiece) :
    spansFrom offset (cutAtForm form pieces).occurrences =
      ((placeTags offset pieces).filter fun t => t.tag.form = form).map PlacedTag.span := by
  induction pieces generalizing offset with
  | nil => rfl
  | cons piece pieces ih =>
    cases piece with
    | plain c =>
      rw [cutAtForm, spansFrom_prepend, ih, placeTags]
      rfl
    | tag t =>
      rw [cutAtForm, placeTags, List.filter_cons]
      by_cases hform : t.form = form
      · rw [if_pos hform, if_pos (decide_eq_true hform), List.map_cons, ← ih]
        rfl
      · rw [if_neg hform, if_neg (by simpa using hform), ← ih, spansFrom_prepend]

theorem findsTags_of_cutAtForm (form : TagForm) (text : Text) :
    FindsTags form text (spansFrom 0 (cutAtForm form (tagPieces text)).occurrences) where
  mem_iff span := by
    rw [spansFrom_cutAtForm, List.mem_map]
    constructor
    · rintro ⟨t, ht, rfl⟩
      obtain ⟨hplaced, hform⟩ := List.mem_filter.1 ht
      obtain ⟨before, after, htext, hoffset⟩ := mem_placedTags_iff.1 hplaced
      have hsource : t.tag.source = '{' :: '#' :: t.tag.digits.text ++ form.ending := by
        rw [← of_decide_eq_true hform]
        rfl
      rw [hsource] at htext
      refine ⟨before, t.tag.digits.text, after, t.tag.color, t.tag.digits.denotes, htext, ?_⟩
      rw [PlacedTag.span, PlacedTag.stop, hsource, hoffset]
    · rintro ⟨before, digits, after, color, hcolor, htext, rfl⟩
      let t : PlacedTag := ⟨before.byteLength, ⟨form, ⟨digits, color, hcolor⟩⟩⟩
      have hplaced : t ∈ placedTags text := mem_placedTags_iff.2 ⟨before, after, htext, rfl⟩
      exact ⟨t, List.mem_filter.2 ⟨hplaced, decide_eq_true rfl⟩, rfl⟩
  start_lt_stop span h := (of_mem_spansFrom h).2.1
  in_order := pairwise_spansFrom 0 _

/-- The text from an offset on, with other text in the place of each range of bytes. It is none
where the ranges are not in order or one does not lie on whole characters. -/
def Text.replaceRanges? (text : Text) (offset : Nat) : List ((Nat × Nat) × Text) → Option Text
  | [] => text.betweenBytes? offset text.byteLength
  | ((start, stop), new) :: rest =>
    if offset ≤ start ∧ start ≤ stop then do
      let kept ← text.betweenBytes? offset start
      let later ← text.replaceRanges? stop rest
      return kept ++ (new ++ later)
    else none

/-- The markup that is found, with the range of bytes that each takes. -/
def Cut.placed (cut : Cut) : List ((Nat × Nat) × Markup) :=
  cut.ranges.zip (cut.occurrences.map Occurrence.markup)

theorem spans_eq_map_placed (cut : Cut) : cut.spans = cut.placed.map fun (range, markup) =>
    ⟨range.1, range.2, markup.first, markup.last?, markup.content?⟩ := by
  rw [Cut.spans, Cut.placed, List.zip_map_right, List.map_map, List.zip, List.map_zipWith, List.zipWith_comm]
  rfl

theorem fill_source_cons (o : Occurrence) (rest : List Occurrence) (tail : Text) :
    Cut.fill Markup.source ⟨o :: rest, tail⟩ =
      o.before ++ (o.markup.source ++ Cut.fill Markup.source ⟨rest, tail⟩) := by
  simp [Cut.fill]

section Places

variable (front : Text) (occurrences : List Occurrence) (tail : Text)

/-- The occurrences behind a text, with their ranges of bytes. -/
def placedBehind : List ((Nat × Nat) × Markup) :=
  (Cut.rangesFrom front.byteLength occurrences).zip (occurrences.map Occurrence.markup)

theorem placedBehind_cons (o : Occurrence) (rest : List Occurrence) : placedBehind front (o :: rest) =
    ((front.byteLength + o.before.byteLength, front.byteLength + o.before.byteLength + o.markup.source.byteLength),
      o.markup) :: placedBehind (front ++ (o.before ++ o.markup.source)) rest := by
  simp only [placedBehind, Text.byteLength_append, ← Nat.add_assoc]
  rfl

/-- Each range holds the source of its markup. -/
theorem betweenBytes?_of_mem_placedBehind {range : Nat × Nat} {markup : Markup}
    (h : (range, markup) ∈ placedBehind front occurrences) :
    (front ++ Cut.fill Markup.source ⟨occurrences, tail⟩).betweenBytes? range.1 range.2 = some markup.source := by
  induction occurrences generalizing front with
  | nil => cases h
  | cons o rest ih =>
    rw [placedBehind_cons] at h
    rw [fill_source_cons]
    cases List.mem_cons.1 h with
    | inl heq =>
      obtain ⟨rfl, rfl⟩ := Prod.mk.inj heq
      have hsource := Text.betweenBytes?_append (front ++ o.before) o.markup.source
        (Cut.fill Markup.source ⟨rest, tail⟩)
      rwa [Text.byteLength_append, List.append_assoc] at hsource
    | inr hrest =>
      have hlater := ih (front ++ (o.before ++ o.markup.source)) hrest
      rwa [List.append_assoc, List.append_assoc] at hlater

/-- What is put together is the text with its ranges replaced. -/
theorem replaceRanges?_eq_fillPlaced (replace : Nat × Nat → Markup → Text) :
    (front ++ Cut.fill Markup.source ⟨occurrences, tail⟩).replaceRanges? front.byteLength
      ((placedBehind front occurrences).map fun (range, markup) => (range, replace range markup)) =
        some (fillPlaced replace front.byteLength occurrences tail) := by
  induction occurrences generalizing front with
  | nil =>
    have htail := Text.betweenBytes?_append front tail []
    rw [List.append_nil, ← Text.byteLength_append] at htail
    exact htail
  | cons o rest ih =>
    have hkept := Text.betweenBytes?_append front o.before (o.markup.source ++ Cut.fill Markup.source ⟨rest, tail⟩)
    have hlater := ih (front ++ (o.before ++ o.markup.source))
    simp only [Text.byteLength_append, List.append_assoc, ← Nat.add_assoc] at hlater
    rw [fill_source_cons, placedBehind_cons, List.map_cons, Text.replaceRanges?,
      if_pos ⟨Nat.le_add_right _ _, Nat.le_add_right _ _⟩, hkept, fillPlaced]
    simp only [Option.bind_eq_bind, Option.bind_some, hlater]
    rfl

end Places

/-- The spans of single tags and of joint tags are all such tags of the text. The markup of any kind lies on
whole characters, and replacing it changes its bytes and no others; so replacing each span by what it is
changes nothing. -/
theorem markup_found_and_replaced (text : Text) :
    FindsTags .single text (cut .single text).spans ∧ FindsTags .joint text (cut .joint text).spans ∧
    ∀ kind,
      (cut kind text).spans = (cut kind text).placed.map (fun (range, markup) =>
        ⟨range.1, range.2, markup.first, markup.last?, markup.content?⟩) ∧
      (∀ range markup, (range, markup) ∈ (cut kind text).placed →
        text.betweenBytes? range.1 range.2 = some markup.source) ∧
      (∀ replace : Nat × Nat → Markup → Text,
        text.replaceRanges? 0 ((cut kind text).placed.map fun (range, markup) => (range, replace range markup)) =
          some (replacePlaced kind replace text)) ∧
      (∀ replace : Markup → Text, replacePlaced kind (fun _ => replace) text = replaceMarkup kind replace text) ∧
      replaceMarkup kind Markup.source text = text := by
  refine ⟨findsTags_of_cutAtForm .single text, findsTags_of_cutAtForm .joint text, fun kind => ?_⟩
  have hwhole : Cut.fill Markup.source (cut kind text) = text := replaceMarkup_source kind text
  have hsource := fun range markup =>
    @betweenBytes?_of_mem_placedBehind [] (cut kind text).occurrences (cut kind text).tail range markup
  have hreplaced := replaceRanges?_eq_fillPlaced [] (cut kind text).occurrences (cut kind text).tail
  simp only [List.nil_append, hwhole] at hsource hreplaced
  exact ⟨spans_eq_map_placed _, hsource, hreplaced, fun replace => replacePlaced_eq_replaceMarkup kind replace text, hwhole⟩

/-- A brace that begins no tag is passed over, and offsets count bytes. -/
example : (cut .single r"❤{#{#Ff0000}{#bad}{#00FF00}".toList).spans =
    [⟨5, 14, ⟨255, 0, 0⟩, none, none⟩, ⟨20, 29, ⟨0, 255, 0⟩, none, none⟩] := by
  decide +kernel

end ColorMarkup
