import ColorMarkup.ColorTag.Piece
/-!
The occurrences of one kind of markup in a text: single tags, joint tags, or
gradients, each an opener, the content up to the first closer after it, and that
closer. A text is cut at them, which allows each to be replaced, also by what depends
on its place; replacing each by itself changes nothing (`replaceMarkup_source`).
-/
namespace ColorMarkup

inductive MarkupKind where
  | single | gradient | joint
  deriving DecidableEq, Repr

inductive Markup where
  | tag (tag : ColorTag)
  | gradient (opener closer : ColorTag) (content : Text)
  deriving DecidableEq, Repr

namespace Markup

def source : Markup → Text
  | tag t => t.source
  | gradient opener closer content => opener.source ++ content ++ closer.source

/-- The colour of a tag, or the one a gradient starts from. -/
def first : Markup → Color
  | tag t => t.color
  | gradient opener _ _ => opener.color

def last? : Markup → Option Color
  | tag _ => none
  | gradient _ closer _ => some closer.color

def content? : Markup → Option Text
  | tag _ => none
  | gradient _ _ content => some content

end Markup

/-- One occurrence and the text between it and the one before. -/
structure Occurrence where
  before : Text
  markup : Markup
  deriving DecidableEq, Repr

/-- All occurrences in a text and what follows the last of them. -/
structure Cut where
  occurrences : List Occurrence
  tail : Text
  deriving DecidableEq, Repr

namespace Cut

/-- The text with each occurrence replaced. -/
def fill (replace : Markup → Text) (cut : Cut) : Text :=
  (cut.occurrences.flatMap fun o => o.before ++ replace o.markup) ++ cut.tail

def prepend (text : Text) : Cut → Cut
  | ⟨[], tail⟩ => ⟨[], text ++ tail⟩
  | ⟨o :: rest, tail⟩ => ⟨⟨text ++ o.before, o.markup⟩ :: rest, tail⟩

def push (markup : Markup) (cut : Cut) : Cut :=
  ⟨⟨[], markup⟩ :: cut.occurrences, cut.tail⟩

@[simp] theorem fill_prepend (replace : Markup → Text) (text : Text) (cut : Cut) :
    (cut.prepend text).fill replace = text ++ cut.fill replace := by
  obtain ⟨occurrences, tail⟩ := cut
  cases occurrences with
  | nil => simp [prepend, fill]
  | cons o rest => simp [prepend, fill]

@[simp] theorem fill_push (replace : Markup → Text) (markup : Markup) (cut : Cut) :
    (cut.push markup).fill replace = replace markup ++ cut.fill replace := by
  simp [push, fill]

/-- The first and last byte offsets of occurrences, of which the text before the
first one starts at `offset`. -/
def rangesFrom (offset : Nat) : List Occurrence → List (Nat × Nat)
  | [] => []
  | o :: rest =>
    let start := offset + o.before.byteLength
    let stop := start + o.markup.source.byteLength
    (start, stop) :: rangesFrom stop rest

def ranges (cut : Cut) : List (Nat × Nat) := rangesFrom 0 cut.occurrences

end Cut

/-- An occurrence of markup by its place, its colours and its content. -/
structure MarkupSpan where
  start : Nat
  stop : Nat
  first : Color
  last? : Option Color
  content? : Option Text
  deriving DecidableEq, Repr

def MarkupSpan.of (o : Occurrence) (range : Nat × Nat) : MarkupSpan :=
  ⟨range.1, range.2, o.markup.first, o.markup.last?, o.markup.content?⟩

/-- The occurrences of a cut as spans of the text. -/
def Cut.spans (cut : Cut) : List MarkupSpan := List.zipWith .of cut.occurrences cut.ranges

def cutAtForm (form : TagForm) : List TagPiece → Cut
  | [] => ⟨[], []⟩
  | .plain c :: rest => (cutAtForm form rest).prepend [c]
  | .tag t :: rest =>
    if t.form = form then (cutAtForm form rest).push (.tag t)
    else (cutAtForm form rest).prepend t.source

/-- The text before the first closer, the closer, and the pieces after it. -/
def firstCloser? : List TagPiece → Option (Text × ColorTag × List TagPiece)
  | [] => none
  | .plain c :: rest => do
    let (content, closer, after) ← firstCloser? rest
    return (c :: content, closer, after)
  | .tag t :: rest =>
    if t.form = .closer then some ([], t, rest)
    else do
      let (content, closer, after) ← firstCloser? rest
      return (t.source ++ content, closer, after)

theorem source_of_firstCloser? {pieces after : List TagPiece} {content : Text}
    {closer : ColorTag} (h : firstCloser? pieces = some (content, closer, after)) :
    tagSource pieces = content ++ closer.source ++ tagSource after ∧
      after.length < pieces.length := by
  induction pieces generalizing content with
  | nil => cases h
  | cons piece rest ih =>
    have step : ∀ {text : Text}, (do
        let (content, closer, after) ← firstCloser? rest
        return (text ++ content, closer, after)) = some (content, closer, after) →
        text ++ tagSource rest = content ++ closer.source ++ tagSource after ∧
          after.length < (piece :: rest).length := by
      intro text h
      cases hrest : firstCloser? rest with
      | none => rw [hrest] at h; cases h
      | some found =>
        obtain ⟨content', closer', after'⟩ := found
        rw [hrest] at h
        cases h
        obtain ⟨hsource, hlength⟩ := ih hrest
        refine ⟨by rw [hsource]; simp, ?_⟩
        rw [List.length_cons]
        omega
    cases piece with
    | plain c => exact @step [c] h
    | tag t =>
      rw [firstCloser?] at h
      split at h
      · cases h
        simp [TagPiece.source]
      · exact step h

/-- From left to right, an opener and the first closer after it make a gradient.
Where no closer follows an opener, none follows a later one either. -/
def cutAtGradients : List TagPiece → Cut
  | [] => ⟨[], []⟩
  | .plain c :: rest => (cutAtGradients rest).prepend [c]
  | .tag t :: rest =>
    if t.form = .opener then
      match h : firstCloser? rest with
      | some (content, closer, after) =>
        have := (source_of_firstCloser? h).2
        (cutAtGradients after).push (.gradient t closer content)
      | none => ⟨[], t.source ++ tagSource rest⟩
    else (cutAtGradients rest).prepend t.source
termination_by pieces => pieces.length
decreasing_by
  · exact Nat.lt_succ_self rest.length
  · exact Nat.lt_succ_of_lt this
  · exact Nat.lt_succ_self rest.length

def cut (kind : MarkupKind) (text : Text) : Cut :=
  match kind with
  | .single => cutAtForm .single (tagPieces text)
  | .gradient => cutAtGradients (tagPieces text)
  | .joint => cutAtForm .joint (tagPieces text)

/-- The text with every occurrence of one kind of markup replaced. What is put
in is not read again. -/
def replaceMarkup (kind : MarkupKind) (replace : Markup → Text) (text : Text) : Text :=
  (cut kind text).fill replace

/-- Occurrences behind an offset, each replaced, and what follows them. -/
def fillPlaced (replace : Nat × Nat → Markup → Text) (offset : Nat) : List Occurrence → Text → Text
  | [], tail => tail
  | o :: rest, tail =>
    let start := offset + o.before.byteLength
    let stop := start + o.markup.source.byteLength
    o.before ++ (replace (start, stop) o.markup ++ fillPlaced replace stop rest tail)

/-- The text with all markup of a kind replaced, by what may depend on the place too. -/
def replacePlaced (kind : MarkupKind) (replace : Nat × Nat → Markup → Text) (text : Text) : Text :=
  fillPlaced replace 0 (cut kind text).occurrences (cut kind text).tail

/-- Where the place does not matter, the markup alone decides. -/
theorem fillPlaced_eq_fill (replace : Markup → Text) (offset : Nat) (occurrences : List Occurrence) (tail : Text) :
    fillPlaced (fun _ => replace) offset occurrences tail = Cut.fill replace ⟨occurrences, tail⟩ := by
  induction occurrences generalizing offset with
  | nil => rfl
  | cons o rest ih =>
    rw [fillPlaced, ih]
    simp [Cut.fill]

theorem replacePlaced_eq_replaceMarkup (kind : MarkupKind) (replace : Markup → Text) (text : Text) :
    replacePlaced kind (fun _ => replace) text = replaceMarkup kind replace text :=
  fillPlaced_eq_fill replace 0 _ _

theorem fill_cutAtForm (form : TagForm) (pieces : List TagPiece) :
    (cutAtForm form pieces).fill Markup.source = tagSource pieces := by
  fun_induction cutAtForm form pieces with
  | case1 => rfl
  | case2 c rest ih => simp [ih, TagPiece.source]
  | case3 t rest _ ih => simp [ih, TagPiece.source, Markup.source]
  | case4 t rest _ ih => simp [ih, TagPiece.source]

theorem fill_cutAtGradients (pieces : List TagPiece) :
    (cutAtGradients pieces).fill Markup.source = tagSource pieces := by
  fun_induction cutAtGradients pieces with
  | case1 => rfl
  | case2 c rest ih => simp [ih, TagPiece.source]
  | case3 t rest _ content closer after h _ ih =>
    rw [Cut.fill_push, ih, tagSource_cons, (source_of_firstCloser? h).1]
    simp [Markup.source, TagPiece.source]
  | case4 t rest _ _ => simp [Cut.fill, TagPiece.source]
  | case5 t rest _ ih => simp [ih, TagPiece.source]

theorem replaceMarkup_source (kind : MarkupKind) (text : Text) :
    replaceMarkup kind Markup.source text = text := by
  cases kind with
  | single => exact (fill_cutAtForm _ _).trans (tagSource_tagPieces text)
  | gradient => exact (fill_cutAtGradients _).trans (tagSource_tagPieces text)
  | joint => exact (fill_cutAtForm _ _).trans (tagSource_tagPieces text)

/-- Every joint tag written out as a closer and an opener of its colour. -/
def expandJoints (text : Text) : Text :=
  replaceMarkup .joint (fun markup =>
    (ColorTag.ofColor .closer markup.first).source ++
      (ColorTag.ofColor .opener markup.first).source) text

end ColorMarkup
