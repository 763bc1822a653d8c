import ColorMarkup.ColorTag.Basic
/-!
A text as the sequence of its colour tags and of the characters outside tags.
Tags cannot overlap, since only a tag's first character is an opening brace, so
one pass finds all tags of all forms.
-/
namespace ColorMarkup

inductive TagPiece where
  | plain (c : Char)
  | tag (tag : ColorTag)
  deriving DecidableEq, Repr

namespace TagPiece

def source : TagPiece → Text
  | plain c => [c]
  | tag t => t.source

end TagPiece

theorem ColorTag.length_of_read {text rest : Text} {tag : ColorTag}
    (h : ColorTag.read text = .ok (tag, rest)) : rest.length < text.length := by
  have hpos := tag.length_source_pos
  rw [eq_of_read h, List.length_append]
  omega

def tagPieces : Text → List TagPiece
  | [] => []
  | c :: rest =>
    match h : ColorTag.read (c :: rest) with
    | .ok (tag, after) =>
      have := ColorTag.length_of_read h
      .tag tag :: tagPieces after
    | .error _ => .plain c :: tagPieces rest
termination_by text => text.length
decreasing_by
  · exact this
  · exact Nat.lt_succ_self rest.length

def tagSource (pieces : List TagPiece) : Text := pieces.flatMap TagPiece.source

@[simp] theorem tagSource_nil : tagSource [] = [] := rfl
@[simp] theorem tagSource_cons (piece : TagPiece) (pieces : List TagPiece) :
    tagSource (piece :: pieces) = piece.source ++ tagSource pieces := rfl

/-- Reading a text as pieces loses nothing. -/
theorem tagSource_tagPieces (text : Text) : tagSource (tagPieces text) = text := by
  fun_induction tagPieces text with
  | case1 => rfl
  | case2 c rest tag after h _ ih =>
    rw [tagSource_cons, ih]
    exact (ColorTag.eq_of_read h).symm
  | case3 c rest error h ih =>
    rw [tagSource_cons, ih]
    rfl

end ColorMarkup
