import ColorMarkup.Proofs.SpanLayout
/-!
The segments of a document, whatever its spans are: in any order, one over the other, empty,
with their ends exchanged or past the end of the text. Each segment reaches from its start to
the next start or stop of a span. Between the two no span begins or ends, so the style at the
first byte of the segment is the style at all of them.
-/
namespace ColorMarkup

namespace Document

variable (doc : Document)

/-- The least start or stop of a span behind an offset and inside the text, or the end of
the text. -/
def nextBoundary (offset : Nat) : Nat :=
  ((doc.boundaries.filter fun b => offset < b && b < doc.byteLength).min?).getD doc.byteLength

/-- Going on from an offset, the text from there is cut at each next boundary. A segment has
the style of its first byte. -/
inductive Walk : Nat → Text → List Segment → Prop
  | done (offset : Nat) : Walk offset [] []
  | step {offset : Nat} {text rest : Text} {parts : List Segment} (hne : text ≠ [])
      (hnext : offset + text.byteLength = doc.nextBoundary offset)
      (h : Walk (offset + text.byteLength) rest parts) :
      Walk offset (text ++ rest) (⟨text, doc.styleAt offset⟩ :: parts)

variable {doc} {offset o b : Nat}

theorem nextBoundary_eq_byteLength (h : ∀ b ∈ doc.boundaries, offset < b → doc.byteLength ≤ b) :
    doc.nextBoundary offset = doc.byteLength := by
  have hnone : (doc.boundaries.filter fun b => offset < b && b < doc.byteLength) = [] := by
    rw [List.filter_eq_nil_iff]
    intro b hb
    have := h b hb
    simp only [Bool.and_eq_true, decide_eq_true_eq]
    omega
  rw [nextBoundary, hnone]
  rfl

theorem nextBoundary_eq (hb : b ∈ doc.boundaries) (hoffset : offset < b) (hinside : b < doc.byteLength)
    (hleast : ∀ b' ∈ doc.boundaries, offset < b' → b' < doc.byteLength → b ≤ b') :
    doc.nextBoundary offset = b := by
  have hmin : (doc.boundaries.filter fun b => offset < b && b < doc.byteLength).min? = some b := by
    rw [List.min?_eq_some_iff]
    constructor
    · simp [hb, hoffset, hinside]
    · intro b' hb'
      obtain ⟨hmem, hlt⟩ := List.mem_filter.1 hb'
      simp only [Bool.and_eq_true, decide_eq_true_eq] at hlt
      exact hleast b' hmem hlt.1 hlt.2
  rw [nextBoundary, hmin]
  rfl

/-- No start or stop of a span lies between an offset and the next boundary. -/
theorem nextBoundary_le (hb : b ∈ doc.boundaries) (hoffset : offset < b) (hinside : b < doc.byteLength) :
    doc.nextBoundary offset ≤ b := by
  have hmem : b ∈ doc.boundaries.filter fun b => offset < b && b < doc.byteLength := by
    simp [hb, hoffset, hinside]
  cases hmin : (doc.boundaries.filter fun b => offset < b && b < doc.byteLength).min? with
  | none =>
    rw [List.min?_eq_none_iff.1 hmin] at hmem
    cases hmem
  | some least =>
    rw [nextBoundary, hmin]
    exact (List.min?_eq_some_iff.1 hmin).2 b hmem

/-- Where no span begins or ends on the way, the style stays the same. -/
theorem styleAt_eq_of_forall (hle : offset ≤ o) (h : ∀ b ∈ doc.boundaries, offset < b → o < b) :
    doc.styleAt o = doc.styleAt offset := by
  have hspans : doc.spansAt o = doc.spansAt offset := by
    apply List.filter_congr
    intro span hspan
    have hstart := h span.start (List.mem_flatMap.2 ⟨span, hspan, by simp⟩)
    have hstop := h span.stop (List.mem_flatMap.2 ⟨span, hspan, by simp⟩)
    rw [Bool.eq_iff_iff]
    simp only [Span.contains, Bool.and_eq_true, decide_eq_true_eq]
    omega
  rw [styleAt, hspans, styleAt]

theorem styleAt_eq_of_lt_nextBoundary (hle : offset ≤ o) (hlt : o < doc.nextBoundary offset)
    (hend : doc.nextBoundary offset ≤ doc.byteLength) : doc.styleAt o = doc.styleAt offset := by
  refine styleAt_eq_of_forall hle fun b hb hoffset => ?_
  by_cases hinside : b < doc.byteLength
  · exact Nat.lt_of_lt_of_le hlt (nextBoundary_le hb hoffset hinside)
  · omega

/-- Where the cuts behind an offset are all boundaries behind it, in order, cutting at them
goes from one boundary to the next. -/
theorem walk_of_segmentsFrom? {front rest : Text} {cuts : List Nat} {parts : List Segment}
    (htext : doc.text = front ++ rest) (hsorted : cuts.Pairwise (· ≤ ·))
    (hcuts : ∀ b, front.byteLength < b → (b ∈ cuts ↔ b ∈ doc.cuts))
    (h : doc.segmentsFrom? front.byteLength rest cuts = some parts) :
    doc.Walk front.byteLength rest parts := by
  have hlength : doc.byteLength = front.byteLength + rest.byteLength := by
    rw [byteLength, htext, Text.byteLength_append]
  induction cuts generalizing front rest parts with
  | nil =>
    rw [segmentsFrom?] at h
    by_cases hrest : rest = []
    · rw [if_pos hrest] at h
      cases h
      rw [hrest]
      exact .done _
    · rw [if_neg hrest] at h
      cases h
      have hnone : ∀ b ∈ doc.boundaries, front.byteLength < b → doc.byteLength ≤ b := by
        intro b hb hfront
        by_contra hinside
        exact absurd ((hcuts b hfront).2 (mem_cuts.2 ⟨hb, by omega, by omega⟩)) List.not_mem_nil
      have hdone : doc.Walk (front.byteLength + rest.byteLength) [] [] := .done _
      have hstep := hdone.step hrest (by rw [nextBoundary_eq_byteLength hnone, hlength])
      rwa [List.append_nil] at hstep
  | cons next cuts ih =>
    obtain ⟨hleast, hlater⟩ := List.pairwise_cons.1 hsorted
    have hcuts' : ∀ b, front.byteLength < b → b ≠ next → (b ∈ cuts ↔ b ∈ doc.cuts) := by
      intro b hb hne
      rw [← hcuts b hb, List.mem_cons, or_iff_right hne]
    rw [segmentsFrom?] at h
    by_cases hnext : next ≤ front.byteLength
    · rw [if_pos hnext] at h
      exact ih htext hlater (fun b hb => hcuts' b hb (by omega)) h hlength
    · rw [if_neg hnext] at h
      split at h
      · cases h
      · next text after hsplit =>
        obtain ⟨rfl, hsize⟩ := Text.append_of_splitAtByte? hsplit
        obtain ⟨more, hmore, rfl⟩ := Option.map_eq_some_iff.1 h
        have hstop : next = (front ++ text).byteLength := by
          rw [Text.byteLength_append]
          omega
        have hne : text ≠ [] := by
          rintro rfl
          rw [Text.byteLength_nil] at hsize
          omega
        have hmem := mem_cuts.1 ((hcuts next (by omega)).1 List.mem_cons_self)
        have hboundary : doc.nextBoundary front.byteLength = next := by
          refine nextBoundary_eq hmem.1 (by omega) hmem.2.2 fun b hb hfront hinside => ?_
          cases List.mem_cons.1 ((hcuts b hfront).2 (mem_cuts.2 ⟨hb, by omega, hinside⟩)) with
          | inl heq => exact Nat.le_of_eq heq.symm
          | inr hmem => exact hleast b hmem
        rw [hstop] at hmore
        have hwalk := ih (by rw [htext, List.append_assoc]) hlater
          (fun b hb => hcuts' b (by omega) (by omega)) hmore (by
            rw [hlength, Text.byteLength_append, Text.byteLength_append]
            omega)
        rw [Text.byteLength_append] at hwalk
        exact .step hne (by omega) hwalk

theorem walk_of_segments? {parts : List Segment} (h : doc.segments? = some parts) :
    doc.Walk 0 doc.text parts := by
  have hsorted : doc.cuts.Pairwise (· ≤ ·) := by
    have hpairwise : doc.cuts.Pairwise fun a b => decide (a ≤ b) = true :=
      List.pairwise_mergeSort (by simpa using fun _ _ _ => Nat.le_trans) (by simpa using Nat.le_total) _
    simpa using hpairwise
  exact @walk_of_segmentsFrom? doc [] doc.text doc.cuts parts rfl hsorted (fun _ _ => Iff.rfl) h

namespace Walk

variable {text : Text} {parts : List Segment}

theorem flatMap_text (h : doc.Walk offset text parts) : parts.flatMap Segment.text = text := by
  induction h with
  | done => rfl
  | step _ _ _ ih => rw [List.flatMap_cons, ih]

/-- Every segment is some text up to the next boundary, in the style of its first byte. -/
theorem of_append {front back : List Segment} {part : Segment} (h : doc.Walk offset text parts)
    (hparts : parts = front ++ part :: back) :
    part.text ≠ [] ∧
      offset + Text.byteLength (front.flatMap Segment.text) + part.text.byteLength =
        doc.nextBoundary (offset + Text.byteLength (front.flatMap Segment.text)) ∧
      part.style = doc.styleAt (offset + Text.byteLength (front.flatMap Segment.text)) := by
  induction h generalizing front with
  | done => cases front <;> cases hparts
  | step hne hnext _ ih =>
    cases front with
    | nil =>
      cases hparts
      exact ⟨hne, hnext, rfl⟩
    | cons first front =>
      obtain ⟨rfl, hrest⟩ := List.cons.inj hparts
      rw [List.flatMap_cons, Text.byteLength_append, ← Nat.add_assoc]
      exact ih hrest

/-- All boundaries on the way are between characters. -/
theorem isBoundary {front : Text} (h : doc.Walk front.byteLength text parts) (htext : doc.text = front ++ text)
    (hb : b ∈ doc.boundaries) (hfront : front.byteLength < b) (hinside : b < doc.byteLength) :
    doc.text.IsBoundary b := by
  generalize hoffset : front.byteLength = offset at h
  induction h generalizing front with
  | done =>
    rw [byteLength, htext, List.append_nil] at hinside
    omega
  | @step offset part rest _ _ hnext _ ih =>
    have hle := nextBoundary_le hb (hoffset ▸ hfront) hinside
    rw [← List.append_assoc] at htext
    have hstop : (front ++ part).byteLength = offset + part.byteLength := by
      rw [Text.byteLength_append, hoffset]
    by_cases heq : b = (front ++ part).byteLength
    · rw [heq, htext]
      exact Text.isBoundary_append _ _
    · exact ih htext (by omega) hstop

end Walk

/-- A document has no segments exactly if a start or stop of a span lies inside a character. -/
theorem segments?_eq_none_iff : doc.segments? = none ↔
    ∃ b ∈ doc.boundaries, 0 < b ∧ b < doc.byteLength ∧ ¬ doc.text.IsBoundary b := by
  constructor
  · intro hnone
    by_contra hall
    have hcuts : ∀ b ∈ doc.cuts, doc.text.IsBoundary b := by
      intro b hb
      obtain ⟨hmem, hpos, hinside⟩ := mem_cuts.1 hb
      by_contra hnot
      exact hall ⟨b, hmem, hpos, hinside, hnot⟩
    obtain ⟨parts, hparts⟩ := exists_segments? hcuts
    rw [hnone] at hparts
    cases hparts
  · rintro ⟨b, hb, hpos, hinside, hnot⟩
    cases h : doc.segments? with
    | none => rfl
    | some parts => exact absurd (@Walk.isBoundary doc b doc.text parts [] (walk_of_segments? h) rfl hb hpos hinside) hnot

/-- Cutting a document fails exactly if a start or stop of a span lies inside a character.
Otherwise the segments are not empty and make up the text, each reaches to the next start or
stop of a span, and each has the style of all its bytes. -/
theorem segments_tile_text (doc : Document) :
    (doc.segments? = none ↔ ∃ span ∈ doc.spans, ∃ b, (b = span.start ∨ b = span.stop) ∧
      0 < b ∧ b < doc.byteLength ∧ ¬ doc.text.IsBoundary b) ∧
    ∀ parts, doc.segments? = some parts →
      parts.flatMap Segment.text = doc.text ∧
      ∀ front part back, parts = front ++ part :: back →
        let start := Text.byteLength (front.flatMap Segment.text)
        let stop := start + part.text.byteLength
        part.text ≠ [] ∧ stop = doc.nextBoundary start ∧
          ∀ o, start ≤ o → o < stop → part.style = doc.styleAt o := by
  constructor
  · have hboundaries : ∀ b, b ∈ doc.boundaries ↔ ∃ span ∈ doc.spans, b = span.start ∨ b = span.stop := by
      intro b
      simp [boundaries, List.mem_flatMap]
    rw [segments?_eq_none_iff]
    constructor
    · rintro ⟨b, hb, hrest⟩
      obtain ⟨span, hspan, hbound⟩ := (hboundaries b).1 hb
      exact ⟨span, hspan, b, hbound, hrest⟩
    · rintro ⟨span, hspan, b, hbound, hrest⟩
      exact ⟨b, (hboundaries b).2 ⟨span, hspan, hbound⟩, hrest⟩
  · intro parts hparts
    have hwalk := walk_of_segments? hparts
    refine ⟨hwalk.flatMap_text, fun front part back heq => ?_⟩
    intro start stop
    obtain ⟨hne, hnext, hstyle⟩ := hwalk.of_append heq
    rw [Nat.zero_add] at hnext hstyle
    have hend : stop ≤ doc.byteLength := by
      rw [byteLength, ← hwalk.flatMap_text, heq, List.flatMap_append, List.flatMap_cons,
        Text.byteLength_append, Text.byteLength_append]
      omega
    refine ⟨hne, hnext, fun o hle hlt => ?_⟩
    rw [hstyle, styleAt_eq_of_lt_nextBoundary hle (hnext ▸ hlt) (hnext ▸ hend)]

theorem segments_tile_text_inverted :
    let style : Style := ⟨some ⟨1, 2, 3⟩, .single .italic⟩
    let doc : Document := ⟨"aéb".toList, [⟨3, 1, .decorated (.single .bold), 0⟩,
      ⟨1, 9, .colored ⟨1, 2, 3⟩, 0⟩, ⟨0, 3, .decorated (.single .italic), 1⟩]⟩
    let parts : List Segment := [⟨['a'], .decorated (.single .italic)⟩, ⟨['é'], style⟩,
      ⟨['b'], .colored ⟨1, 2, 3⟩⟩]
    doc.segments? = some parts ∧ parts.flatMap Segment.text = doc.text ∧ 3 = doc.nextBoundary 1 ∧
      ∀ o, 1 ≤ o → o < 3 → style = doc.styleAt o := by
  intro style doc parts
  have hinside : (doc.boundaries.filter fun b => 0 < b && b < doc.byteLength) = [3, 1, 1, 3] := by decide
  have hcuts : doc.cuts = [1, 1, 3, 3] := by
    rw [cuts, hinside]
    simp [List.mergeSort]
  have hparts : doc.segments? = some parts := by
    rw [segments?, hcuts]
    rfl
  obtain ⟨htext, hsegments⟩ := (segments_tile_text doc).2 parts hparts
  obtain ⟨-, hnext, hstyle⟩ := hsegments [⟨['a'], .decorated (.single .italic)⟩] ⟨['é'], style⟩ _ rfl
  exact ⟨hparts, htext, hnext, hstyle⟩

end Document
end ColorMarkup
