import ColorMarkup.Proofs.SpansAt
/-!
Where the spans of a document lie in its text. While markup is read, the spans that were
made at one depth lie in turn, and all of them in front of the tag that is open at that
depth. Sorting by depth keeps the order in which the spans of one depth were made, so it
puts them in the order of their starts. All bounds are between characters, so the text
can be cut at them.

What such bounds are good for when a text is cut into segments comes first. The layout is
then shown of the spans of one tag, of all spans of a reading, and of the sorted ones.
-/
namespace ColorMarkup

namespace Text

/-- The offset is between two characters or at an end of the text. -/
def IsBoundary (text : Text) (offset : Nat) : Prop :=
  ∃ before after : Text, text = before ++ after ∧ before.byteLength = offset

variable {text : Text} {offset : Nat}

theorem isBoundary_append (before after : Text) : IsBoundary (before ++ after) before.byteLength :=
  ⟨before, after, rfl, rfl⟩

theorem IsBoundary.append (h : IsBoundary text offset) (more : Text) : IsBoundary (text ++ more) offset := by
  obtain ⟨before, after, rfl, rfl⟩ := h
  rw [List.append_assoc]
  exact isBoundary_append before _

/-- A boundary behind the front part of a text cuts the rest. -/
theorem IsBoundary.exists_of_append {front rest : Text} (h : IsBoundary (front ++ rest) offset)
    (hle : front.byteLength ≤ offset) :
    ∃ before after : Text, rest = before ++ after ∧ front.byteLength + before.byteLength = offset := by
  obtain ⟨before, after, heq, rfl⟩ := h
  cases List.append_eq_append_iff.1 heq with
  | inl hlonger =>
    obtain ⟨between, rfl, rfl⟩ := hlonger
    exact ⟨between, after, rfl, (byteLength_append front between).symm⟩
  | inr hshorter =>
    obtain ⟨between, rfl, rfl⟩ := hshorter
    rw [byteLength_append] at hle
    obtain rfl : between = [] := byteLength_eq_zero.1 (by omega)
    exact ⟨[], rest, rfl, by simp⟩

end Text

namespace Document

variable {doc : Document}

theorem exists_segmentsFrom? {front rest : Text} {cuts : List Nat} (htext : doc.text = front ++ rest)
    (hcuts : ∀ offset ∈ cuts, doc.text.IsBoundary offset) :
    ∃ parts, doc.segmentsFrom? front.byteLength rest cuts = some parts := by
  induction cuts generalizing front rest with
  | nil =>
    rw [segmentsFrom?]
    by_cases hrest : rest = []
    · exact ⟨[], if_pos hrest⟩
    · exact ⟨_, if_neg hrest⟩
  | cons next cuts ih =>
    have hlater : ∀ offset ∈ cuts, doc.text.IsBoundary offset := fun offset hoffset =>
      hcuts offset (List.mem_cons_of_mem _ hoffset)
    rw [segmentsFrom?]
    by_cases hnext : next ≤ front.byteLength
    · rw [if_pos hnext]
      exact ih htext hlater
    · have hboundary := hcuts next List.mem_cons_self
      rw [htext] at hboundary
      obtain ⟨text, after, rfl, hlength⟩ := hboundary.exists_of_append (by omega)
      have hsplit : Text.splitAtByte? (next - front.byteLength) (text ++ after) = some (text, after) :=
        Text.splitAtByte?_eq_some_iff.2 ⟨rfl, by omega⟩
      rw [← List.append_assoc] at htext
      obtain ⟨parts, hparts⟩ := ih htext hlater
      rw [Text.byteLength_append, hlength] at hparts
      rw [if_neg hnext, hsplit]
      exact ⟨_, congrArg (Option.map _) hparts⟩

/-- A document whose spans have their bounds between characters can be cut at them. -/
theorem exists_segments? (h : ∀ offset ∈ doc.cuts, doc.text.IsBoundary offset) :
    ∃ parts, doc.segments? = some parts :=
  @exists_segmentsFrom? doc [] doc.text doc.cuts rfl h

end Document

/-- The span holds some of the text and ends between characters on both sides. -/
structure Span.Fits (text : Text) (span : Span) : Prop where
  start_lt_stop : span.start < span.stop
  stop_le : span.stop ≤ text.byteLength
  start : text.IsBoundary span.start
  stop : text.IsBoundary span.stop

/-- Of two spans of one depth, the second starts behind the first. -/
def Span.InTurn (a b : Span) : Prop := a.depth = b.depth → a.stop ≤ b.start

theorem Span.Fits.append {text : Text} {span : Span} (h : span.Fits text) (more : Text) :
    span.Fits (text ++ more) where
  start_lt_stop := h.start_lt_stop
  stop_le := by
    have := h.stop_le
    rw [Text.byteLength_append]
    omega
  start := h.start.append more
  stop := h.stop.append more

/-- A piece of a text that is not empty makes a span that fits. -/
theorem Span.fits_of_ne_nil {front piece : Text} (h : piece ≠ []) (after : Text) (style : Style)
    (depth : Nat) :
    Span.Fits (front ++ piece ++ after)
      ⟨front.byteLength, front.byteLength + piece.byteLength, style, depth⟩ where
  start_lt_stop := by
    have : piece.byteLength ≠ 0 := mt Text.byteLength_eq_zero.1 h
    simp only
    omega
  stop_le := by simp
  start := by
    rw [List.append_assoc]
    exact Text.isBoundary_append front _
  stop := by
    simp only
    rw [← Text.byteLength_append]
    exact Text.isBoundary_append (front ++ piece) after

theorem depth_of_mem_gradientSpans {depth offset : Nat} {graphemes : List Text} {colors : List Color}
    {span : Span} (h : span ∈ gradientSpans depth offset graphemes colors) : span.depth = depth := by
  fun_induction gradientSpans depth offset graphemes colors with
  | case1 offset grapheme graphemes color colors stop ih =>
    cases List.mem_cons.1 h with
    | inl h => rw [h]
    | inr h => exact ih h
  | case2 => cases h

theorem fits_of_mem_gradientSpans {depth : Nat} {graphemes : List Text} {colors : List Color}
    {front : Text} {span : Span} (hne : ∀ grapheme ∈ graphemes, grapheme ≠ [])
    (h : span ∈ gradientSpans depth front.byteLength graphemes colors) :
    span.Fits (front ++ graphemes.flatten) := by
  induction graphemes generalizing front colors with
  | nil => simp [gradientSpans] at h
  | cons grapheme graphemes ih =>
    cases colors with
    | nil => simp [gradientSpans] at h
    | cons color colors =>
      rw [List.flatten_cons, ← List.append_assoc]
      rw [gradientSpans, ← Text.byteLength_append] at h
      cases List.mem_cons.1 h with
      | inl h =>
        rw [h, Text.byteLength_append]
        exact Span.fits_of_ne_nil (hne grapheme List.mem_cons_self) _ _ _
      | inr h => exact ih (fun other hother => hne other (List.mem_cons_of_mem _ hother)) h

theorem pairwise_gradientSpans (depth offset : Nat) (graphemes : List Text) (colors : List Color) :
    (gradientSpans depth offset graphemes colors).Pairwise Span.InTurn := by
  fun_induction gradientSpans depth offset graphemes colors with
  | case1 offset grapheme graphemes color colors stop ih =>
    exact List.pairwise_cons.2 ⟨fun span hspan _ => (bounds_of_mem_gradientSpans hspan).1, ih⟩
  | case2 => exact .nil

namespace OpenTag

variable {tag : OpenTag} {text : Text} {depth : Nat} {span : Span}

theorem depth_of_mem_spans (h : span ∈ tag.spans text depth) : span.depth = depth := by
  rw [spans] at h
  split at h
  · cases h
  · split at h
    · rw [List.mem_singleton.1 h]
    · exact depth_of_mem_gradientSpans h

theorem fits_of_mem_spans (h : span ∈ tag.spans text depth) : span.Fits text := by
  have htext : text = text.take tag.start ++ text.drop tag.start := (List.take_append_drop _ _).symm
  rw [spans] at h
  split at h
  · cases h
  · next hne =>
    split at h
    · rw [List.mem_singleton.1 h]
      have hfits := @Span.fits_of_ne_nil (text.take tag.start) _ hne [] ‹Style› depth
      rwa [List.append_nil, ← htext] at hfits
    · have hfits := fits_of_mem_gradientSpans (fun _ => Text.ne_nil_of_mem_graphemes) h
      rwa [Text.flatten_graphemes, ← htext] at hfits

theorem pairwise_spans (tag : OpenTag) (text : Text) (depth : Nat) :
    (tag.spans text depth).Pairwise Span.InTurn := by
  rw [spans]
  split
  · exact .nil
  · split
    · exact List.pairwise_singleton _ _
    · exact pairwise_gradientSpans _ _ _ _

end OpenTag

namespace Reading

section Induction

variable {motive : Reading → Prop} (append : ∀ r text, motive r → motive (r.append text))
  (push : ∀ r effect closeName, motive r → motive (r.push effect closeName))
  (close : ∀ r, motive r → motive r.closeInnermost)

include close in
theorem closeMany_induction (n : Nat) {r : Reading} (h : motive r) : motive (closeMany n r) := by
  induction n generalizing r with
  | zero => exact h
  | succ n ih => exact ih (close r h)

include append push close

theorem step_induction (token : Token) {r : Reading} (h : motive r) : motive (r.step token) := by
  cases token with
  | text text => exact append r text h
  | escaped c => exact append r [c] h
  | opening content =>
    rw [step, openTag]
    cases StyleTag.read content with
    | error _ => exact append r _ h
    | ok tag =>
      cases tag with
      | reset => exact closeMany_induction close _ h
      | color color => exact push r _ _ h
      | decoration set => exact push r _ _ h
      | gradient stops => exact push r _ _ h
  | closing name =>
    rw [step, closeTag]
    split
    · exact close r h
    · rw [closeNamed]
      split
      · exact closeMany_induction close _ h
      · exact h

/-- What is kept when text is appended, a tag is opened or the innermost tag is closed is
kept by any tokens. -/
theorem foldl_step_induction (list : List Token) {r : Reading} (h : motive r) :
    motive (list.foldl step r) := by
  induction list generalizing r with
  | nil => exact h
  | cons token list ih => exact ih (step_induction append push close token h)

end Induction

/-- The spans made so far fit into the text, those of one depth lie in turn, and those of
the depth of an open tag lie in front of that tag. -/
structure Laid (r : Reading) : Prop where
  fits : ∀ span ∈ r.spans, span.Fits r.text
  inTurn : r.spans.Pairwise Span.InTurn
  started : ∀ tag ∈ r.stack, tag.start ≤ r.text.length
  inFront : ∀ inner tag outer, r.stack = inner ++ tag :: outer → ∀ span ∈ r.spans,
    span.depth = outer.length → span.stop ≤ Text.byteLength (r.text.take tag.start)

theorem laid_start : start.Laid where
  fits := by simp [start]
  inTurn := .nil
  started := by simp [start]
  inFront := by simp [start]

namespace Laid

variable {r : Reading}

theorem append (h : r.Laid) (text : Text) : (r.append text).Laid where
  fits := fun span hspan => (h.fits span hspan).append text
  inTurn := h.inTurn
  started := by
    intro tag htag
    have := h.started tag htag
    simp only [Reading.append, List.length_append]
    omega
  inFront := by
    intro inner tag outer hstack
    have htag : tag ∈ r.stack := by
      have hmem : tag ∈ inner ++ tag :: outer := List.mem_append_right _ List.mem_cons_self
      rwa [← hstack] at hmem
    rw [Reading.append, List.take_append_of_le_length (h.started tag htag)]
    exact h.inFront inner tag outer hstack

theorem push (h : r.Laid) (effect : TagEffect) (closeName : Text) : (r.push effect closeName).Laid where
  fits := h.fits
  inTurn := h.inTurn
  started := List.forall_mem_cons.2 ⟨Nat.le_refl _, h.started⟩
  inFront := by
    intro inner tag outer hstack span hspan
    cases inner with
    | nil =>
      -- the new tag starts behind all the text
      obtain ⟨rfl, -⟩ := List.cons.inj hstack
      simpa [Reading.push] using fun _ => (h.fits span hspan).stop_le
    | cons first inner =>
      obtain ⟨-, hstack⟩ := List.cons.inj hstack
      exact h.inFront inner tag outer hstack span hspan

/-- The spans of the innermost tag lie behind those of its depth; the tags around it have
other depths. -/
theorem closeInnermost (h : r.Laid) : r.closeInnermost.Laid := by
  obtain ⟨text, stack, spans⟩ := r
  cases stack with
  | nil => exact h
  | cons tag rest =>
    constructor
    · intro span hspan
      cases List.mem_append.1 hspan with
      | inl hspan => exact h.fits span hspan
      | inr hspan => exact OpenTag.fits_of_mem_spans hspan
    · refine List.pairwise_append.2 ⟨h.inTurn, tag.pairwise_spans text rest.length, ?_⟩
      intro older holder newer hnewer hdepth
      rw [OpenTag.depth_of_mem_spans hnewer] at hdepth
      have hstop : older.stop ≤ Text.byteLength (text.take tag.start) :=
        h.inFront [] tag rest rfl older holder hdepth
      exact Nat.le_trans hstop (OpenTag.bounds_of_mem_spans hnewer).1
    · exact fun other hother => h.started other (List.mem_cons_of_mem _ hother)
    · intro inner other outer hstack span hspan hdepth
      have hrest : rest = inner ++ other :: outer := hstack
      cases List.mem_append.1 hspan with
      | inl hspan => exact h.inFront (tag :: inner) other outer (by rw [hrest]; rfl) span hspan hdepth
      | inr hspan =>
        rw [OpenTag.depth_of_mem_spans hspan, hrest, List.length_append, List.length_cons] at hdepth
        omega

end Laid

theorem laid_closeAll (markup : Text) : ((tokens markup).foldl step start).closeAll.Laid :=
  have close : ∀ r : Reading, r.Laid → r.closeInnermost.Laid := fun _ h => h.closeInnermost
  have hread := foldl_step_induction (fun _ text h => h.append text)
    (fun _ effect closeName h => h.push effect closeName) close (tokens markup) laid_start
  closeMany_induction close _ hread

end Reading

/-- Sorting by depth leaves the spans of one depth in their order. -/
theorem filter_depth_mergeSort (spans : List Span) (depth : Nat) :
    (spans.mergeSort fun a b => a.depth ≤ b.depth).filter (·.depth = depth) =
      spans.filter (·.depth = depth) := by
  have hpairwise : (spans.filter (·.depth = depth)).Pairwise fun a b => decide (a.depth ≤ b.depth) := by
    refine List.pairwise_iff_forall_sublist.2 fun {a b} hsub => ?_
    have ha := List.of_mem_filter (hsub.subset List.mem_cons_self)
    have hb := List.of_mem_filter (hsub.subset (List.mem_cons_of_mem _ List.mem_cons_self))
    simp only [decide_eq_true_eq] at ha hb ⊢
    omega
  have hstable := List.sublist_mergeSort Span.depth_le_trans Span.depth_le_total hpairwise
    List.filter_sublist
  have hsub := hstable.filter (·.depth = depth)
  have hperm := (List.mergeSort_perm spans fun a b => a.depth ≤ b.depth).filter (·.depth = depth)
  simp only [List.filter_filter, Bool.and_self] at hsub
  exact (hsub.eq_of_length_le (Nat.le_of_eq hperm.length_eq)).symm

/-- Spans that lie in turn at each depth are ordered by sorting them by depth. -/
theorem pairwise_mergeSort_of_inTurn {spans : List Span} (h : spans.Pairwise Span.InTurn) :
    (spans.mergeSort fun a b => a.depth ≤ b.depth).Pairwise fun a b =>
      a.depth < b.depth ∨ a.depth = b.depth ∧ a.stop ≤ b.start := by
  refine List.pairwise_iff_forall_sublist.2 fun {a b} hsub => ?_
  have hle : a.depth ≤ b.depth :=
    List.pairwise_iff_forall_sublist.1 (pairwise_mergeSort_depth spans) hsub
  by_cases hdepth : a.depth = b.depth
  · -- two spans of one depth are in the order in which they were made
    have hfilter := hsub.filter (·.depth = b.depth)
    simp only [filter_depth_mergeSort, hdepth, decide_true, List.filter_cons_of_pos, List.filter_nil] at hfilter
    have hinTurn := List.pairwise_iff_forall_sublist.1 h (hfilter.trans List.filter_sublist)
    exact .inr ⟨hdepth, hinTurn hdepth⟩
  · exact .inl (Nat.lt_of_le_of_ne hle hdepth)

/-- The spans of a document hold text and have their bounds between characters; they are
ordered by depth and start, and no two of one depth overlap. So the document can be cut
into segments. -/
theorem spans_ordered_and_disjoint (markup : Text) :
    let doc := Document.ofMarkup markup
    (∀ span ∈ doc.spans, span.start < span.stop ∧ span.stop ≤ doc.byteLength ∧
      doc.text.IsBoundary span.start ∧ doc.text.IsBoundary span.stop) ∧
      doc.spans.Pairwise (fun a b => a.depth < b.depth ∨ a.depth = b.depth ∧ a.start < b.start) ∧
      doc.spans.Pairwise (fun a b => a.depth = b.depth → ¬ a.overlaps b) ∧
      ∃ parts, doc.segments? = some parts := by
  intro doc
  have hlaid := Reading.laid_closeAll markup
  have hfits : ∀ span ∈ doc.spans, span.Fits doc.text := fun span hspan =>
    hlaid.fits span (List.mem_mergeSort.1 hspan)
  have hordered : doc.spans.Pairwise fun a b =>
      a.depth < b.depth ∨ a.depth = b.depth ∧ a.stop ≤ b.start := pairwise_mergeSort_of_inTurn hlaid.inTurn
  refine ⟨?_, ?_, ?_, ?_⟩
  · intro span hspan
    have hfit := hfits span hspan
    exact ⟨hfit.start_lt_stop, hfit.stop_le, hfit.start, hfit.stop⟩
  · refine hordered.imp_of_mem fun {a b} ha _ hab => hab.imp_right fun ⟨hdepth, hstop⟩ => ⟨hdepth, ?_⟩
    exact Nat.lt_of_lt_of_le (hfits a ha).start_lt_stop hstop
  · refine hordered.imp fun {a b} hab hdepth => ?_
    have hstop : a.stop ≤ b.start := by omega
    simp only [Span.overlaps, Bool.and_eq_true, decide_eq_true_eq]
    omega
  · apply Document.exists_segments?
    intro offset hoffset
    obtain ⟨span, hspan, hbound⟩ := List.mem_flatMap.1 (Document.mem_cuts.1 hoffset).1
    have hfit := hfits span hspan
    simp only [List.mem_cons, List.not_mem_nil, or_false] at hbound
    cases hbound with
    | inl hstart => exact hstart ▸ hfit.start
    | inr hstop => exact hstop ▸ hfit.stop

end ColorMarkup
