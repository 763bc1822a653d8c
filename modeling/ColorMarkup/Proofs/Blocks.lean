import ColorMarkup.Proofs.ColoredText
import ColorMarkup.Proofs.Removal
/-!
Texts whose markup is complete: every marker has its letter, every brace is that of a
tag, and every gradient is closed, possibly by the joint tag that opens the next one.
The passes for gradients and for single colours replace each tag and each gradient on
its own.
-/
namespace ColorMarkup

/-- The letters that have a meaning of their own after a marker, in lower case. -/
def codeLetters : Text := "0123456789abcdef".toList ++ formatLetters

/-- A part of a text that can stand in a gradient. -/
inductive Inline where
  | char (c : Char) (free : c ∉ ['{', '&', '§', '<', '\\'])
  | code (marker letter : Char) (hmarker : isMarker marker) (hletter : letter.toLower ∈ codeLetters)
  | single (digits : HexDigits)

/-- What follows the opener of a gradient: its content up to the closer, or up to a joint
tag that goes on with the next gradient. -/
inductive Chain where
  | close (content : List Inline) (last : HexDigits)
  | join (content : List Inline) (joint : HexDigits) (rest : Chain)

inductive Block where
  | inline (part : Inline)
  | gradient (first : HexDigits) (rest : Chain)

namespace Inline

def pieces : Inline → List TagPiece
  | char c _ => [.plain c]
  | code marker letter _ _ => [.plain marker, .plain letter]
  | single digits => [.tag ⟨.single, digits⟩]

/-- The characters that are no markup. -/
def plain : Inline → Text
  | char c _ => [c]
  | code _ _ _ _ => []
  | single _ => []

/-- The part after the passes for gradients and for single colours. -/
def tagged : Inline → Text
  | char c _ => [c]
  | code marker letter _ _ => [marker, letter]
  | single digits => digits.color.render .structured

end Inline

namespace Chain

def pieces : Chain → List TagPiece
  | close content last => content.flatMap Inline.pieces ++ [.tag ⟨.closer, last⟩]
  | join content joint rest => content.flatMap Inline.pieces ++ .tag ⟨.joint, joint⟩ :: rest.pieces

def plain : Chain → Text
  | close content _ => content.flatMap Inline.plain
  | join content _ rest => content.flatMap Inline.plain ++ rest.plain

def contents : Chain → List (List Inline)
  | close content _ => [content]
  | join content _ rest => content :: rest.contents

end Chain

namespace Block

def pieces : Block → List TagPiece
  | inline part => part.pieces
  | gradient first rest => .tag ⟨.opener, first⟩ :: rest.pieces

def plain : Block → Text
  | inline part => part.plain
  | gradient _ rest => rest.plain

/-- The contents of the gradients. -/
def contents : Block → List (List Inline)
  | inline _ => []
  | gradient _ rest => rest.contents

end Block

/-- Parts as they are written. -/
def inlineSource (content : List Inline) : Text := tagSource (content.flatMap Inline.pieces)

def blockSource (blocks : List Block) : Text := tagSource (blocks.flatMap Block.pieces)

/-- A block without joint tags: each gradient has a closer of its own. -/
inductive Flat where
  | inline (part : Inline)
  | pair (first last : HexDigits) (content : List Inline)

namespace Flat

def pieces : Flat → List TagPiece
  | inline part => part.pieces
  | pair first last content =>
    .tag ⟨.opener, first⟩ :: (content.flatMap Inline.pieces ++ [.tag ⟨.closer, last⟩])

def plain : Flat → Text
  | inline part => part.plain
  | pair _ _ content => content.flatMap Inline.plain

def contents : Flat → List (List Inline)
  | inline _ => []
  | pair _ _ content => [content]

/-- The pieces after the gradient pass. -/
def convertedPieces : Flat → List TagPiece
  | inline part => part.pieces
  | pair first last content =>
    (Structured.gradientOpening first.color last.color).map .plain ++
      content.flatMap Inline.pieces ++ Structured.gradientClosing.map .plain

/-- The part after the passes for gradients and for single colours. -/
def tagged : Flat → Text
  | inline part => part.tagged
  | pair first last content =>
    Structured.gradientOpening first.color last.color ++ content.flatMap Inline.tagged ++
      Structured.gradientClosing

end Flat

/-- The gradients of a chain, the joint tags written out. -/
def Chain.flats (first : HexDigits) : Chain → List Flat
  | close content last => [.pair first last content]
  | join content joint rest =>
    .pair first (.ofColor joint.color) content :: rest.flats (.ofColor joint.color)

def Block.flats : Block → List Flat
  | inline part => [.inline part]
  | gradient first rest => rest.flats first

theorem Chain.plain_flats (first : HexDigits) (chain : Chain) :
    (chain.flats first).flatMap Flat.plain = chain.plain := by
  induction chain generalizing first with
  | close content last => simp [flats, Flat.plain, plain]
  | join content joint rest ih => simp [flats, Flat.plain, plain, ih]

theorem Chain.contents_flats (first : HexDigits) (chain : Chain) :
    (chain.flats first).flatMap Flat.contents = chain.contents := by
  induction chain generalizing first with
  | close content last => simp [flats, Flat.contents, contents]
  | join content joint rest ih => simp [flats, Flat.contents, contents, ih]

theorem ne_brace_of_mem_codeLetters {letter : Char} (h : letter.toLower ∈ codeLetters) : letter ≠ '{' := by
  rintro rfl
  exact absurd h (by decide)

theorem exists_of?_of_mem_codeLetters {letter : Char} (h : letter.toLower ∈ codeLetters) :
    ∃ code, LegacyCode.of? letter = some code ∧ code ≠ .hex := by
  have hsub : codeLetters ⊆ colorLetters ++ formatLetters := by decide
  obtain ⟨code, hcode⟩ := exists_of?_iff.2 (hsub h)
  refine ⟨code, hcode, ?_⟩
  rintro rfl
  rw [toLower_eq_of_hex hcode] at h
  exact absurd h (by decide)

theorem of_free {c : Char} (free : c ∉ ['{', '&', '§', '<', '\\']) :
    ¬ Token.isSpecial c ∧ ¬ isMarker c ∧ ¬ isHead c := by
  simp only [List.mem_cons, List.not_mem_nil, or_false, not_or] at free
  simp [Token.isSpecial, isMarker, isHead, free]

theorem Inline.ne_brace {part : Inline} {c : Char} (h : .plain c ∈ part.pieces) : c ≠ '{' := by
  cases part with
  | char d free =>
    obtain rfl : c = d := by simpa [pieces] using h
    rintro rfl
    exact free List.mem_cons_self
  | code marker letter hmarker hletter =>
    simp only [pieces, List.mem_cons, TagPiece.plain.injEq, List.not_mem_nil, or_false] at h
    rcases h with rfl | rfl
    · rintro rfl
      exact absurd hmarker (by decide)
    · exact ne_brace_of_mem_codeLetters hletter
  | single digits => simp [pieces] at h

theorem Inline.form_eq {part : Inline} {t : ColorTag} (h : .tag t ∈ part.pieces) : t.form = .single := by
  cases part with
  | char c free => simp [pieces] at h
  | code marker letter hmarker hletter => simp [pieces] at h
  | single digits =>
    obtain rfl : t = ⟨.single, digits⟩ := by simpa [pieces] using h
    rfl

theorem inlineSource_cons (part : Inline) (parts : List Inline) :
    inlineSource (part :: parts) = tagSource part.pieces ++ inlineSource parts := by
  rw [inlineSource, List.flatMap_cons, tagSource_append]
  rfl

theorem ne_brace_of_mem_inlines {content : List Inline} {c : Char}
    (h : .plain c ∈ content.flatMap Inline.pieces) : c ≠ '{' := by
  obtain ⟨part, -, hc⟩ := List.mem_flatMap.1 h
  exact Inline.ne_brace hc

theorem form_eq_of_mem_inlines {content : List Inline} {t : ColorTag}
    (h : .tag t ∈ content.flatMap Inline.pieces) : t.form = .single := by
  obtain ⟨part, -, ht⟩ := List.mem_flatMap.1 h
  exact Inline.form_eq ht

theorem Chain.ne_brace {chain : Chain} {c : Char} (h : .plain c ∈ chain.pieces) : c ≠ '{' := by
  induction chain with
  | close content last =>
    rw [pieces, List.mem_append] at h
    exact ne_brace_of_mem_inlines (h.resolve_right (by simp))
  | join content joint rest ih =>
    rw [pieces, List.mem_append, List.mem_cons] at h
    rcases h with h | h | h
    · exact ne_brace_of_mem_inlines h
    · cases h
    · exact ih h

theorem tagPieces_blockSource (blocks : List Block) :
    tagPieces (blockSource blocks) = blocks.flatMap Block.pieces := by
  apply tagPieces_tagSource
  intro c hc
  obtain ⟨block, -, hc⟩ := List.mem_flatMap.1 hc
  cases block with
  | inline part => exact Inline.ne_brace hc
  | gradient first rest =>
    rw [Block.pieces, List.mem_cons] at hc
    exact Chain.ne_brace (hc.resolve_left (by simp))

theorem tagPieces_flats (flats : List Flat) :
    tagPieces (tagSource (flats.flatMap Flat.pieces)) = flats.flatMap Flat.pieces := by
  apply tagPieces_tagSource
  intro c hc
  obtain ⟨flat, -, hc⟩ := List.mem_flatMap.1 hc
  cases flat with
  | inline part => exact Inline.ne_brace hc
  | pair first last content =>
    have hmem : .plain c ∈ content.flatMap Inline.pieces := by simpa [Flat.pieces] using hc
    exact ne_brace_of_mem_inlines hmem

/-- The pieces that expanding joint tags makes of a piece. -/
def expandJoint : TagPiece → List TagPiece
  | .plain c => [.plain c]
  | .tag t =>
    if t.form = .joint then [.tag (.ofColor .closer t.color), .tag (.ofColor .opener t.color)]
    else [.tag t]

theorem expandJoints_eq_tagSource (text : Text) :
    expandJoints text = tagSource ((tagPieces text).flatMap expandJoint) := by
  rw [expandJoints, replaceMarkup, cut, fill_cutAtForm_eq, tagSource_flatMap]
  congr
  funext piece
  cases piece with
  | plain c => rfl
  | tag t =>
    by_cases hform : t.form = .joint
    · simp [expandJoint, hform, TagPiece.source, Markup.first]
    · simp [expandJoint, hform, TagPiece.source]

theorem flatMap_expandJoint_inlines (content : List Inline) :
    (content.flatMap Inline.pieces).flatMap expandJoint = content.flatMap Inline.pieces := by
  rw [List.flatMap_assoc]
  congr
  funext part
  cases part <;> rfl

theorem Chain.flatMap_expandJoint (first : HexDigits) (chain : Chain) :
    (TagPiece.tag ⟨.opener, first⟩ :: chain.pieces).flatMap expandJoint =
      (chain.flats first).flatMap Flat.pieces := by
  induction chain generalizing first with
  | close content last =>
    simp [pieces, flats, Flat.pieces, expandJoint, flatMap_expandJoint_inlines]
  | join content joint rest ih =>
    rw [flats, List.flatMap_cons (f := Flat.pieces), ← ih]
    simp [pieces, Flat.pieces, expandJoint, flatMap_expandJoint_inlines, ColorTag.ofColor,
      ColorTag.color]

theorem expandJoints_blockSource (blocks : List Block) :
    expandJoints (blockSource blocks) = tagSource ((blocks.flatMap Block.flats).flatMap Flat.pieces) := by
  rw [expandJoints_eq_tagSource, tagPieces_blockSource, List.flatMap_assoc, List.flatMap_assoc]
  congr
  funext block
  cases block with
  | inline part => simpa [Flat.pieces, Block.flats, Block.pieces] using flatMap_expandJoint_inlines [part]
  | gradient first rest => exact rest.flatMap_expandJoint first

theorem cutAtGradients_inline (part : Inline) (after : List TagPiece) :
    cutAtGradients (part.pieces ++ after) = (cutAtGradients after).prepend (tagSource part.pieces) :=
  cutAtGradients_append (fun t ht => by simp [Inline.form_eq ht]) after

theorem cutAtGradients_pair (first last : HexDigits) (content : List Inline) (after : List TagPiece) :
    cutAtGradients ((Flat.pair first last content).pieces ++ after) = (cutAtGradients after).push
      (.gradient ⟨.opener, first⟩ ⟨.closer, last⟩ (inlineSource content)) := by
  have hcloser : ∀ t, .tag t ∈ content.flatMap Inline.pieces → t.form ≠ .closer := fun t ht => by
    simp [form_eq_of_mem_inlines ht]
  have hfound := firstCloser?_closer hcloser last after
  rw [Flat.pieces, List.cons_append, List.append_assoc, List.singleton_append,
    cutAtGradients_opener rfl hfound]
  rfl

/-- Cutting at gradients finds the gradients of the text and their contents. -/
theorem exists_content_of_mem_cutAtGradients {flats : List Flat} {o : Occurrence} {content : Text}
    (h : o ∈ (cutAtGradients (flats.flatMap Flat.pieces)).occurrences)
    (hcontent : o.markup.content? = some content) :
    ∃ inner ∈ flats.flatMap Flat.contents, content = inlineSource inner := by
  induction flats generalizing o with
  | nil => simp [cutAtGradients] at h
  | cons flat flats ih =>
    rw [List.flatMap_cons] at h
    have hlater : ∀ o' ∈ (cutAtGradients (flats.flatMap Flat.pieces)).occurrences,
        o'.markup.content? = some content →
        ∃ inner ∈ (flat :: flats).flatMap Flat.contents, content = inlineSource inner := by
      intro o' ho' hcontent'
      obtain ⟨inner, hinner, heq⟩ := ih ho' hcontent'
      exact ⟨inner, by simp only [List.flatMap_cons, List.mem_append, hinner, or_true], heq⟩
    cases flat with
    | inline part =>
      rw [Flat.pieces, cutAtGradients_inline] at h
      obtain ⟨o', ho', hmarkup⟩ := mem_occurrences_prepend h
      exact hlater o' ho' (hmarkup ▸ hcontent)
    | pair first last inner =>
      rw [cutAtGradients_pair] at h
      rcases List.mem_cons.1 h with rfl | h
      · refine ⟨inner, by simp [Flat.contents], ?_⟩
        exact (Option.some.inj hcontent).symm
      · exact hlater o h hcontent

namespace Structured

theorem convertGradients_blockSource (blocks : List Block) : convertGradients (blockSource blocks) =
    tagSource ((blocks.flatMap Block.flats).flatMap Flat.convertedPieces) := by
  rw [convertGradients, expandJoints_blockSource, replaceMarkup, cut, tagPieces_flats]
  generalize blocks.flatMap Block.flats = flats
  induction flats with
  | nil => simp [cutAtGradients, Cut.fill]
  | cons flat flats ih =>
    rw [List.flatMap_cons, List.flatMap_cons, tagSource_append, ← ih]
    cases flat with
    | inline part =>
      rw [Flat.pieces, cutAtGradients_inline, Cut.fill_prepend]
      rfl
    | pair first last content =>
      rw [cutAtGradients_pair, Cut.fill_push, Flat.convertedPieces, tagSource_append, tagSource_append,
        tagSource_map_plain, tagSource_map_plain]
      rfl

theorem flatMap_colored_inlines (content : List Inline) :
    (content.flatMap Inline.pieces).flatMap colored = content.flatMap Inline.tagged := by
  rw [List.flatMap_assoc]
  congr
  funext part
  cases part <;> simp [Inline.pieces, Inline.tagged, colored, ColorTag.color]

/-- The first two passes turn each tag and each gradient into structured tags. -/
theorem convertColors_blockSource (blocks : List Block) :
    convertColors (convertGradients (blockSource blocks)) =
      (blocks.flatMap Block.flats).flatMap Flat.tagged := by
  have hpieces : tagPieces (tagSource ((blocks.flatMap Block.flats).flatMap Flat.convertedPieces)) =
      (blocks.flatMap Block.flats).flatMap Flat.convertedPieces := by
    apply tagPieces_tagSource
    intro c hc
    obtain ⟨flat, -, hc⟩ := List.mem_flatMap.1 hc
    cases flat with
    | inline part => exact Inline.ne_brace hc
    | pair first last content =>
      rw [Flat.convertedPieces, List.mem_append, List.mem_append] at hc
      rcases hc with (hc | hc) | hc
      · exact (free_of_mem_gradientOpening (by simpa using hc)).2
      · exact ne_brace_of_mem_inlines hc
      · exact (free_of_mem_gradientClosing (by simpa using hc)).2
  have hplain : ∀ text : Text, (text.map TagPiece.plain).flatMap colored = text := fun text => by
    simp [List.flatMap_map, colored]
  rw [convertGradients_blockSource, convertColors_eq_colored, hpieces, List.flatMap_assoc]
  congr
  funext flat
  cases flat with
  | inline part => simpa [Flat.convertedPieces, Flat.tagged] using flatMap_colored_inlines [part]
  | pair first last content =>
    simp only [Flat.convertedPieces, Flat.tagged, List.flatMap_append, hplain, flatMap_colored_inlines]

end Structured

theorem flatMap_flats_plain (blocks : List Block) :
    (blocks.flatMap Block.flats).flatMap Flat.plain = blocks.flatMap Block.plain := by
  rw [List.flatMap_assoc]
  congr
  funext block
  cases block with
  | inline part => simp [Block.flats, Flat.plain, Block.plain]
  | gradient first rest => exact rest.plain_flats first

theorem flatMap_flats_contents (blocks : List Block) :
    (blocks.flatMap Block.flats).flatMap Flat.contents = blocks.flatMap Block.contents := by
  rw [List.flatMap_assoc]
  congr
  funext block
  cases block with
  | inline part => rfl
  | gradient first rest => exact rest.contents_flats first

end ColorMarkup
