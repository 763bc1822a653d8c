import ColorMarkup.Proofs.ColoredText
import ColorMarkup.Proofs.PlacedTags
/-!
Gradients as a reading of openers and closers in two states. Outside a gradient an opener
begins one and a closer means nothing; inside, an opener means nothing and a closer ends it.
The search for gradients, from an opener to the first closer behind it, finds what this
reading finds (`gradient_spans_eq_reading`). Nothing that it leaves out could have been a
gradient, and nothing that it finds is one too many.
-/
namespace ColorMarkup

/-- No tag of the form is among the pieces. -/
def Lacks (form : TagForm) (pieces : List TagPiece) : Prop :=
  ∀ t, .tag t ∈ pieces → t.form ≠ form

/-- No opener among the pieces has a closer behind it. -/
def NeverCloses (pieces : List TagPiece) : Prop :=
  ∀ front t back, pieces = front ++ .tag t :: back → t.form = .opener → Lacks .closer back

/-- The text holds an opener and, behind it, a closer. -/
def HasGradient (text : Text) : Prop :=
  ∃ (opener closer : ColorTag) (before inner after : Text), opener.form = .opener ∧ closer.form = .closer ∧
    text = before ++ (opener.source ++ (inner ++ (closer.source ++ after)))

namespace AreRead

variable {pieces : List TagPiece}

/-- Where no tag of a form is read, none is written. -/
theorem not_infix {form : TagForm} (h : AreRead pieces) (hlacks : Lacks form pieces) {t : ColorTag}
    (hform : t.form = form) : ¬ t.source <:+: tagSource pieces := by
  rintro ⟨before, after, hsource⟩
  rw [List.append_assoc] at hsource
  have hmem : TagPiece.tag t ∈ pieces := by
    rw [h.eq_append hsource.symm]
    exact List.mem_append_right _ List.mem_cons_self
  exact hlacks t hmem hform

/-- Where no closer is behind an opener, the text has no gradient. -/
theorem not_hasGradient (h : AreRead pieces) (hnever : NeverCloses pieces) :
    ¬ HasGradient (tagSource pieces) := by
  rintro ⟨opener, closer, before, inner, after, hopener, hcloser, hsource⟩
  have hpieces := h.eq_append hsource
  rw [tagPieces_append_source] at hpieces
  exact hnever _ opener _ hpieces hopener closer (List.mem_append_right _ List.mem_cons_self) hcloser

end AreRead

theorem free_of_lacks {form : TagForm} {text : Text} (h : Lacks form (tagPieces text)) :
    Free (IsTagOf form) text := by
  intro word hword hinfix
  obtain ⟨digits, rfl⟩ := isTagOf_iff.1 hword
  rw [← tagSource_tagPieces text] at hinfix
  exact AreRead.not_infix (areRead_tagPieces text) h rfl hinfix

theorem lacks_cons {form : TagForm} {piece : TagPiece} {pieces : List TagPiece}
    (hpiece : ∀ t, piece = .tag t → t.form ≠ form) (h : Lacks form pieces) : Lacks form (piece :: pieces) := by
  intro t hmem
  cases List.mem_cons.1 hmem with
  | inl heq => exact hpiece t heq.symm
  | inr hmem => exact h t hmem

theorem lacks_nil (form : TagForm) : Lacks form [] := fun _ hmem => absurd hmem List.not_mem_nil

def TagPiece.hasForm (form : TagForm) : TagPiece → Bool
  | plain _ => false
  | tag t => t.form = form

/-- The pieces up to the first tag of a form, if there is one. -/
theorem lacks_or_split (form : TagForm) (pieces : List TagPiece) : Lacks form pieces ∨
    ∃ front t back, pieces = front ++ .tag t :: back ∧ t.form = form ∧ Lacks form front := by
  cases hfind : pieces.find? (TagPiece.hasForm form) with
  | none =>
    refine .inl fun t ht hform => ?_
    exact List.find?_eq_none.1 hfind _ ht (decide_eq_true hform)
  | some piece =>
    obtain ⟨hpiece, front, back, rfl, hfront⟩ := List.find?_eq_some_iff_append.1 hfind
    cases piece with
    | plain c => cases hpiece
    | tag t =>
      refine .inr ⟨front, t, back, rfl, of_decide_eq_true hpiece, fun u hu hform => ?_⟩
      have hnot := hfront _ hu
      rw [TagPiece.hasForm, decide_eq_true hform] at hnot
      cases hnot

theorem neverCloses_nil : NeverCloses [] :=
  fun front _ _ h => absurd h.symm (List.append_ne_nil_of_right_ne_nil front (List.cons_ne_nil _ _))

theorem neverCloses_cons {piece : TagPiece} {pieces : List TagPiece}
    (hpiece : ∀ t, piece = .tag t → t.form = .opener → Lacks .closer pieces) (h : NeverCloses pieces) :
    NeverCloses (piece :: pieces) := by
  intro front t back hpieces hform
  cases front with
  | nil =>
    obtain ⟨htag, rfl⟩ := List.cons.inj hpieces
    exact hpiece t htag hform
  | cons _ front => exact h front t back (List.cons.inj hpieces).2 hform

theorem neverCloses_of_lacks_opener {pieces : List TagPiece} (h : Lacks .opener pieces) : NeverCloses pieces := by
  rintro front t back rfl hform
  exact absurd hform (h t (List.mem_append_right _ List.mem_cons_self))

theorem neverCloses_of_lacks {pieces : List TagPiece} (h : Lacks .closer pieces) : NeverCloses pieces := by
  rintro front t back rfl _ u hu
  exact h u (List.mem_append_right _ (List.mem_cons_of_mem _ hu))

/-- How a cut parts the pieces of a text: at each gradient, whose opener is the first and
whose closer the first behind it, up to pieces in which no opener is closed. -/
inductive Parts : List TagPiece → Cut → Prop
  | last {pieces : List TagPiece} (hnever : NeverCloses pieces) : Parts pieces ⟨[], tagSource pieces⟩
  | gradient {gap inner after : List TagPiece} {opener closer : ColorTag} {cut : Cut}
      (hgap : Lacks .opener gap) (hopener : opener.form = .opener)
      (hinner : Lacks .closer inner) (hcloser : closer.form = .closer) (h : Parts after cut) :
      Parts (gap ++ .tag opener :: (inner ++ .tag closer :: after))
        ⟨⟨tagSource gap, .gradient opener closer (tagSource inner)⟩ :: cut.occurrences, cut.tail⟩

namespace Parts

theorem prepend {piece : TagPiece} {pieces : List TagPiece} {cut : Cut}
    (hpiece : ∀ t, piece = .tag t → t.form ≠ .opener) (h : Parts pieces cut) :
    Parts (piece :: pieces) (cut.prepend piece.source) := by
  cases h with
  | last hnever => exact .last (neverCloses_cons (fun t ht hform => absurd hform (hpiece t ht)) hnever)
  | gradient hgap hopener hinner hcloser h =>
    exact .gradient (lacks_cons hpiece hgap) hopener hinner hcloser h

end Parts

theorem parts_cutAtGradients (pieces : List TagPiece) : Parts pieces (cutAtGradients pieces) := by
  fun_induction cutAtGradients pieces with
  | case1 => exact .last neverCloses_nil
  | case2 c rest ih => exact ih.prepend fun t ht => by cases ht
  | case3 opener rest hopener content closer after hfound _ ih =>
    cases lacks_or_split .closer rest with
    | inl hlacks =>
      rw [firstCloser?_eq_none hlacks] at hfound
      cases hfound
    | inr hsplit =>
      obtain ⟨inner, ⟨form, last⟩, after', rfl, rfl, hinner⟩ := hsplit
      rw [firstCloser?_closer hinner] at hfound
      cases hfound
      exact .gradient (lacks_nil _) hopener hinner rfl ih
  | case4 opener rest _ hnone =>
    cases lacks_or_split .closer rest with
    | inl hlacks => exact .last (neverCloses_cons (fun _ _ _ => hlacks) (neverCloses_of_lacks hlacks))
    | inr hsplit =>
      obtain ⟨inner, ⟨form, last⟩, after', rfl, rfl, hinner⟩ := hsplit
      rw [firstCloser?_closer hinner] at hnone
      cases hnone
  | case5 t rest hform ih => exact ih.prepend fun u hu => by rwa [← TagPiece.tag.inj hu]

namespace Parts

variable {pieces : List TagPiece} {cut : Cut}

theorem not_hasGradient_before (h : Parts pieces cut) (hread : AreRead pieces) :
    ∀ o ∈ cut.occurrences, ¬ HasGradient o.before := by
  induction h with
  | last => exact fun o ho => absurd ho List.not_mem_nil
  | gradient hgap _ _ _ _ ih =>
    intro o ho
    cases List.mem_cons.1 ho with
    | inl heq =>
      rw [heq]
      exact hread.front.not_hasGradient (neverCloses_of_lacks_opener hgap)
    | inr hlater => exact ih hread.behind.behind o hlater

theorem not_hasGradient_tail (h : Parts pieces cut) (hread : AreRead pieces) : ¬ HasGradient cut.tail := by
  induction h with
  | last hnever => exact hread.not_hasGradient hnever
  | gradient _ _ _ _ _ ih => exact ih hread.behind.behind

theorem content (h : Parts pieces cut) (hread : AreRead pieces) : ∀ o ∈ cut.occurrences,
    ∃ content, o.markup.content? = some content ∧
      ∀ t : ColorTag, t.form = .closer → ¬ t.source <:+: content := by
  induction h with
  | last => exact fun o ho => absurd ho List.not_mem_nil
  | @gradient _ inner _ _ _ _ _ _ hinner _ _ ih =>
    intro o ho
    cases List.mem_cons.1 ho with
    | inl heq =>
      rw [heq]
      exact ⟨tagSource inner, rfl, fun t => hread.behind.front.not_infix hinner⟩
    | inr hlater => exact ih hread.behind.behind o hlater

end Parts

def spansFrom (offset : Nat) (occurrences : List Occurrence) : List MarkupSpan :=
  List.zipWith .of occurrences (Cut.rangesFrom offset occurrences)

theorem spansFrom_cons (offset : Nat) (o : Occurrence) (rest : List Occurrence) :
    spansFrom offset (o :: rest) =
      ⟨offset + o.before.byteLength, offset + o.before.byteLength + o.markup.source.byteLength,
        o.markup.first, o.markup.last?, o.markup.content?⟩ ::
      spansFrom (offset + o.before.byteLength + o.markup.source.byteLength) rest := rfl

theorem Markup.byteLength_source_pos (markup : Markup) : 0 < markup.source.byteLength := by
  rw [Nat.pos_iff_ne_zero, Ne, Text.byteLength_eq_zero]
  cases markup <;> simp [source, ColorTag.source_eq_cons]

theorem of_mem_spansFrom {offset : Nat} {occurrences : List Occurrence} {span : MarkupSpan}
    (h : span ∈ spansFrom offset occurrences) :
    offset ≤ span.start ∧ span.start < span.stop ∧ ∃ o ∈ occurrences, span.content? = o.markup.content? := by
  induction occurrences generalizing offset with
  | nil => cases h
  | cons o rest ih =>
    have hpos := o.markup.byteLength_source_pos
    rw [spansFrom_cons] at h
    cases List.mem_cons.1 h with
    | inl heq =>
      rw [heq]
      exact ⟨Nat.le_add_right _ _, Nat.lt_add_of_pos_right hpos, o, List.mem_cons_self, rfl⟩
    | inr hlater =>
      obtain ⟨hstart, hstop, o', ho', hcontent⟩ := ih hlater
      exact ⟨by omega, hstop, o', List.mem_cons_of_mem _ ho', hcontent⟩

theorem pairwise_spansFrom (offset : Nat) (occurrences : List Occurrence) :
    (spansFrom offset occurrences).Pairwise fun a b => a.stop ≤ b.start := by
  induction occurrences generalizing offset with
  | nil => exact .nil
  | cons o rest ih =>
    rw [spansFrom_cons]
    exact List.pairwise_cons.2 ⟨fun span hspan => (of_mem_spansFrom hspan).1, ih _⟩

/-- The characters from one byte offset to another. -/
def Text.betweenBytes? (start stop : Nat) (text : Text) : Option Text := do
  let (_, rest) ← text.splitAtByte? start
  let (inner, _) ← rest.splitAtByte? (stop - start)
  return inner

theorem Text.betweenBytes?_append (before inner after : Text) :
    betweenBytes? before.byteLength (before.byteLength + inner.byteLength) (before ++ (inner ++ after)) =
      some inner := by
  rw [betweenBytes?, splitAtByte?_byteLength, Nat.add_sub_cancel_left]
  simp only [Option.bind_eq_bind, Option.bind_some, splitAtByte?_byteLength]
  rfl

def PlacedTag.isLimit (t : PlacedTag) : Bool := t.tag.form = .opener ∨ t.tag.form = .closer

/-- The openers and closers of a text, from left to right. -/
def gradientTags (text : Text) : List PlacedTag := (placedTags text).filter PlacedTag.isLimit

/-- The openers and closers that make gradients; a gradient may be open before the first tag. -/
def readGradients : Option PlacedTag → List PlacedTag → List (PlacedTag × PlacedTag)
  | _, [] => []
  | none, t :: rest =>
    if t.tag.form = .opener then readGradients (some t) rest else readGradients none rest
  | some opener, t :: rest =>
    if t.tag.form = .closer then (opener, t) :: readGradients none rest else readGradients (some opener) rest

/-- From the start of the opener to the end of the closer, with what is between them. -/
def gradientSpan (text : Text) (opener closer : PlacedTag) : MarkupSpan :=
  ⟨opener.offset, closer.stop, opener.tag.color, some closer.tag.color,
    text.betweenBytes? opener.stop closer.offset⟩

/-- Tags that neither open nor close are passed over in both states. -/
theorem readGradients_filter (state : Option PlacedTag) (tags : List PlacedTag) :
    readGradients state (tags.filter PlacedTag.isLimit) = readGradients state tags := by
  induction tags generalizing state with
  | nil => rfl
  | cons t tags ih =>
    cases state <;> cases hform : t.tag.form <;> simp [readGradients, PlacedTag.isLimit, hform, ih]

/-- The form of the tags that change the state. -/
def awaited : Option PlacedTag → TagForm
  | none => .opener
  | some _ => .closer

/-- All other tags are passed over. -/
theorem readGradients_append (state : Option PlacedTag) {tags : List PlacedTag}
    (h : ∀ t ∈ tags, t.tag.form ≠ awaited state) (rest : List PlacedTag) :
    readGradients state (tags ++ rest) = readGradients state rest := by
  induction tags with
  | nil => rfl
  | cons t tags ih =>
    have hform := h t List.mem_cons_self
    have ih := ih fun u hu => h u (List.mem_cons_of_mem _ hu)
    cases state with
    | none =>
      rw [List.cons_append, readGradients]
      exact (if_neg hform).trans ih
    | some opener =>
      rw [List.cons_append, readGradients]
      exact (if_neg hform).trans ih

theorem Lacks.form_ne {form : TagForm} {pieces : List TagPiece} (h : Lacks form pieces) (offset : Nat) :
    ∀ t ∈ placeTags offset pieces, t.tag.form ≠ form :=
  fun t ht => h t.tag (tag_mem_of_mem_placeTags ht)

theorem readGradients_of_neverCloses {pieces : List TagPiece} (h : NeverCloses pieces) (offset : Nat) :
    readGradients none (placeTags offset pieces) = [] := by
  cases lacks_or_split .opener pieces with
  | inl hlacks =>
    have hskip := readGradients_append none (hlacks.form_ne offset) []
    rwa [List.append_nil] at hskip
  | inr hsplit =>
    obtain ⟨front, t, back, rfl, hform, hfront⟩ := hsplit
    have hback : Lacks .closer back := h front t back rfl hform
    rw [placeTags_append, readGradients_append none (hfront.form_ne _), placeTags, readGradients, if_pos hform,
      ← List.append_nil (placeTags _ back), readGradients_append (some _) (hback.form_ne _)]
    rfl

theorem Parts.spansFrom_eq {pieces : List TagPiece} {cut : Cut} (h : Parts pieces cut) (before : Text) :
    spansFrom before.byteLength cut.occurrences =
      (readGradients none (placeTags before.byteLength pieces)).map fun pair =>
        gradientSpan (before ++ tagSource pieces) pair.1 pair.2 := by
  induction h generalizing before with
  | last hnever =>
    rw [readGradients_of_neverCloses hnever]
    rfl
  | @gradient gap inner after opener closer cut hgap hopener hinner hcloser _ ih =>
    have hlater := ih (before ++ (tagSource gap ++ (opener.source ++ (tagSource inner ++ closer.source))))
    have hcontent := Text.betweenBytes?_append (before ++ (tagSource gap ++ opener.source)) (tagSource inner)
      (closer.source ++ tagSource after)
    simp only [Text.byteLength_append, List.append_assoc, ← Nat.add_assoc] at hlater hcontent
    rw [placeTags_append, readGradients_append none (hgap.form_ne _), placeTags, readGradients, if_pos hopener,
      placeTags_append, readGradients_append (some _) (hinner.form_ne _), placeTags, readGradients, if_pos hcloser,
      List.map_cons, spansFrom_cons]
    simp only [Markup.source, Text.byteLength_append, ← Nat.add_assoc]
    rw [hlater]
    simp only [tagSource_append, tagSource_cons, TagPiece.source, gradientSpan, PlacedTag.stop, hcontent,
      Markup.first, Markup.last?, Markup.content?]

theorem mem_gradientTags_iff {text : Text} {t : PlacedTag} : t ∈ gradientTags text ↔
    (t.tag.form = .opener ∨ t.tag.form = .closer) ∧
      ∃ before after : Text, text = before ++ t.tag.source ++ after ∧ before.byteLength = t.offset := by
  rw [gradientTags, List.mem_filter, mem_placedTags_iff, PlacedTag.isLimit, decide_eq_true_iff, and_comm]

/-- The spans of a text's gradients are those that a reading of its openers and closers in two
states makes. Each holds no closer in its content, they follow each other, and nothing in
front of one or behind the last could be a gradient. -/
theorem gradient_spans_eq_reading (text : Text) :
    (∀ t, t ∈ gradientTags text ↔ (t.tag.form = .opener ∨ t.tag.form = .closer) ∧
      ∃ before after : Text, text = before ++ t.tag.source ++ after ∧ before.byteLength = t.offset) ∧
    (gradientTags text).Pairwise (fun a b => a.stop ≤ b.offset) ∧
    (cut .gradient text).spans = (readGradients none (gradientTags text)).map (fun pair =>
      gradientSpan text pair.1 pair.2) ∧
    (∀ span ∈ (cut .gradient text).spans, span.start < span.stop ∧ ∃ content, span.content? = some content ∧
      ∀ t : ColorTag, t.form = .closer → ¬ t.source <:+: content) ∧
    (cut .gradient text).spans.Pairwise (fun a b => a.stop ≤ b.start) ∧
    (cut .gradient text).fill Markup.source = text ∧
    (∀ o ∈ (cut .gradient text).occurrences, ¬ HasGradient o.before) ∧
    ¬ HasGradient (cut .gradient text).tail := by
  have hread := areRead_tagPieces text
  have hparts : Parts (tagPieces text) (cut .gradient text) := parts_cutAtGradients _
  refine ⟨fun t => mem_gradientTags_iff, (pairwise_placeTags 0 _).filter _, ?_, ?_, pairwise_spansFrom 0 _,
    replaceMarkup_source .gradient text, hparts.not_hasGradient_before hread, hparts.not_hasGradient_tail hread⟩
  · rw [gradientTags, readGradients_filter]
    have hspans := hparts.spansFrom_eq []
    rwa [List.nil_append, tagSource_tagPieces] at hspans
  · intro span hspan
    obtain ⟨-, hpos, o, ho, hsame⟩ := of_mem_spansFrom hspan
    rw [hsame]
    exact ⟨hpos, hparts.content hread o ho⟩

end ColorMarkup
