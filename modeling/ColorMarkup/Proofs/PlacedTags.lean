import ColorMarkup.Proofs.AtomReading
/-!
The tags of a text and their places. Reading a text as pieces finds a tag wherever one is
written, since tags cannot overlap: a tag in the middle of a text parts its pieces into those
of the text in front of it and those of the text behind it. So the tags that are read are all
tags of the text, each once and in order.
-/
namespace ColorMarkup

/-- The start of a text and a written tag begin with no tag unless the start does. -/
theorem prefix_of_prefix_append_source {t u : ColorTag} {front after : Text} (hne : front ≠ [])
    (h : u.source <+: front ++ (t.source ++ after)) : u.source <+: front := by
  obtain ⟨more, hmore⟩ := h
  cases List.append_eq_append_iff.1 hmore with
  | inl hlonger =>
    obtain ⟨between, hfront, -⟩ := hlonger
    exact ⟨between, hfront.symm⟩
  | inr hshorter =>
    -- what reaches over the front would have the brace of the written tag inside
    obtain ⟨between, hsource, hbetween⟩ := hshorter
    obtain ⟨c, front, rfl⟩ := List.exists_cons_of_ne_nil hne
    cases between with
    | nil =>
      rw [List.append_nil] at hsource
      exact ⟨[], (List.append_nil _).trans hsource⟩
    | cons d between =>
      obtain ⟨hd, -⟩ := List.cons.inj hbetween
      have htail : u.tail = front ++ d :: between := (List.cons.inj hsource).2
      have hbrace : '{' ∈ u.tail := by
        rw [htail, ← hd]
        exact List.mem_append_right _ List.mem_cons_self
      exact absurd hbrace u.not_mem_tail

/-- A written tag parts the pieces of a text. -/
theorem tagPieces_append_source (front : Text) (t : ColorTag) (after : Text) :
    tagPieces (front ++ (t.source ++ after)) = tagPieces front ++ .tag t :: tagPieces after := by
  fun_induction tagPieces front with
  | case1 => exact tagPieces_source_append t after
  | case2 c rest tag later h _ ih =>
    rw [ColorTag.eq_of_read h, List.append_assoc, tagPieces_source_append, ih, List.cons_append]
  | case3 c rest error h ih =>
    have hnone := ColorTag.exists_read_error_iff.1 ⟨error, h⟩
    obtain ⟨error', herror'⟩ := ColorTag.exists_read_error_iff.2 fun u hu =>
      hnone u (prefix_of_prefix_append_source (List.cons_ne_nil c rest) hu)
    rw [List.cons_append] at herror' ⊢
    rw [tagPieces_cons_of_error herror', ih, List.cons_append]

/-- The pieces are what their text is read as. -/
def AreRead (pieces : List TagPiece) : Prop := tagPieces (tagSource pieces) = pieces

theorem areRead_tagPieces (text : Text) : AreRead (tagPieces text) :=
  congrArg tagPieces (tagSource_tagPieces text)

namespace AreRead

variable {piece : TagPiece} {pieces : List TagPiece}

/-- Either a tag comes first or a character that begins none. -/
theorem cases_cons (h : AreRead (piece :: pieces)) :
    AreRead pieces ∧ ∀ c, piece = .plain c → ∀ t : ColorTag, ¬ t.source <+: c :: tagSource pieces := by
  rw [AreRead, tagSource_cons] at h
  cases piece with
  | tag t =>
    rw [TagPiece.source, tagPieces_source_append] at h
    exact ⟨(List.cons.inj h).2, fun c hc => by cases hc⟩
  | plain c =>
    rw [TagPiece.source, List.singleton_append] at h
    cases hread : ColorTag.read (c :: tagSource pieces) with
    | error error =>
      rw [tagPieces_cons_of_error hread] at h
      refine ⟨(List.cons.inj h).2, fun c' hc => ?_⟩
      cases hc
      exact ColorTag.exists_read_error_iff.1 ⟨error, hread⟩
    | ok found =>
      rw [ColorTag.eq_of_read hread, tagPieces_source_append] at h
      cases (List.cons.inj h).1

theorem back {front back : List TagPiece} (h : AreRead (front ++ back)) : AreRead back := by
  induction front with
  | nil => exact h
  | cons piece front ih => exact ih h.cases_cons.1

theorem behind {front back : List TagPiece} (h : AreRead (front ++ piece :: back)) : AreRead back :=
  h.back.cases_cons.1

theorem front {front back : List TagPiece} (h : AreRead (front ++ back)) : AreRead front := by
  induction front with
  | nil =>
    rw [AreRead, tagSource_nil, tagPieces]
  | cons piece front ih =>
    obtain ⟨hrest, hplain⟩ := h.cases_cons
    have ih : tagPieces (tagSource front) = front := ih hrest
    rw [AreRead, tagSource_cons]
    cases piece with
    | tag t => rw [TagPiece.source, tagPieces_source_append, ih]
    | plain c =>
      have hnone : ∀ t : ColorTag, ¬ t.source <+: c :: tagSource front := by
        intro t ht
        refine hplain c rfl t (ht.trans ?_)
        rw [List.append_eq, tagSource_append]
        exact List.cons_prefix_cons.2 ⟨rfl, List.prefix_append _ _⟩
      obtain ⟨error, herror⟩ := ColorTag.exists_read_error_iff.2 hnone
      rw [TagPiece.source, List.singleton_append, tagPieces_cons_of_error herror, ih]

/-- Where a tag is written, it is one of the pieces. -/
theorem eq_append {before after : Text} {t : ColorTag} (h : AreRead pieces)
    (hsource : tagSource pieces = before ++ (t.source ++ after)) :
    pieces = tagPieces before ++ .tag t :: tagPieces after := by
  rw [← tagPieces_append_source, ← hsource, h]

end AreRead

/-- A tag and the number of bytes in front of it. -/
structure PlacedTag where
  offset : Nat
  tag : ColorTag
  deriving DecidableEq, Repr

/-- The offset behind the tag. -/
def PlacedTag.stop (t : PlacedTag) : Nat := t.offset + t.tag.source.byteLength

/-- The tags among pieces that start at an offset. -/
def placeTags (offset : Nat) : List TagPiece → List PlacedTag
  | [] => []
  | .plain c :: rest => placeTags (offset + c.utf8Size) rest
  | .tag t :: rest => ⟨offset, t⟩ :: placeTags (offset + t.source.byteLength) rest

/-- All tags of a text, from left to right. -/
def placedTags (text : Text) : List PlacedTag := placeTags 0 (tagPieces text)

theorem placeTags_append (offset : Nat) (front back : List TagPiece) :
    placeTags offset (front ++ back) =
      placeTags offset front ++ placeTags (offset + (tagSource front).byteLength) back := by
  induction front generalizing offset with
  | nil => rfl
  | cons piece front ih =>
    cases piece with
    | plain c =>
      rw [List.cons_append, placeTags, placeTags, ih, tagSource_cons, Text.byteLength_append, Nat.add_assoc]
      rfl
    | tag t =>
      rw [List.cons_append, placeTags, placeTags, ih, tagSource_cons, Text.byteLength_append, Nat.add_assoc]
      rfl

/-- A tag among pieces stands behind the text of the pieces in front of it. -/
theorem exists_of_mem_placeTags {offset : Nat} {pieces : List TagPiece} {t : PlacedTag}
    (h : t ∈ placeTags offset pieces) : ∃ front back, pieces = front ++ .tag t.tag :: back ∧
      offset + (tagSource front).byteLength = t.offset := by
  fun_induction placeTags offset pieces with
  | case1 => cases h
  | case2 offset c rest ih =>
    obtain ⟨front, back, rfl, hoffset⟩ := ih h
    refine ⟨.plain c :: front, back, rfl, ?_⟩
    rw [← hoffset, tagSource_cons, Text.byteLength_append, ← Nat.add_assoc]
    rfl
  | case3 offset u rest ih =>
    cases List.mem_cons.1 h with
    | inl heq =>
      rw [heq]
      exact ⟨[], rest, rfl, rfl⟩
    | inr hlater =>
      obtain ⟨front, back, rfl, hoffset⟩ := ih hlater
      refine ⟨.tag u :: front, back, rfl, ?_⟩
      rw [← hoffset, tagSource_cons, Text.byteLength_append, ← Nat.add_assoc]
      rfl

theorem tag_mem_of_mem_placeTags {offset : Nat} {pieces : List TagPiece} {t : PlacedTag}
    (h : t ∈ placeTags offset pieces) : .tag t.tag ∈ pieces := by
  obtain ⟨front, back, rfl, -⟩ := exists_of_mem_placeTags h
  exact List.mem_append_right _ List.mem_cons_self

theorem pairwise_placeTags (offset : Nat) (pieces : List TagPiece) :
    (placeTags offset pieces).Pairwise fun a b => a.stop ≤ b.offset := by
  fun_induction placeTags offset pieces with
  | case1 => exact .nil
  | case2 offset c rest ih => exact ih
  | case3 offset t rest ih =>
    refine List.pairwise_cons.2 ⟨fun u hu => ?_, ih⟩
    obtain ⟨front, back, -, hoffset⟩ := exists_of_mem_placeTags hu
    rw [PlacedTag.stop]
    simp only
    omega

/-- The tags that are read are those that are written. -/
theorem mem_placedTags_iff {text : Text} {t : PlacedTag} : t ∈ placedTags text ↔
    ∃ before after : Text, text = before ++ t.tag.source ++ after ∧ before.byteLength = t.offset := by
  constructor
  · intro h
    obtain ⟨front, back, hpieces, hoffset⟩ := exists_of_mem_placeTags h
    refine ⟨tagSource front, tagSource back, ?_, by rwa [Nat.zero_add] at hoffset⟩
    rw [← tagSource_tagPieces text, hpieces, tagSource_append, tagSource_cons, List.append_assoc]
    rfl
  · rintro ⟨before, after, rfl, hoffset⟩
    rw [placedTags, List.append_assoc, tagPieces_append_source, placeTags_append, tagSource_tagPieces,
      Nat.zero_add, placeTags, hoffset]
    exact List.mem_append_right _ List.mem_cons_self

end ColorMarkup
