import ColorMarkup.Code.Basic
/-!
Reading a text for codes: from left to right, a marker followed by an accepted
letter is one code, and every other character stands for itself. A marker whose
letter is not accepted does not consume it, so `&&c` holds the code `&c`.
-/
namespace ColorMarkup

/-- A piece of a text that is read for codes with values in `α`. -/
inductive CodePiece (α : Type) where
  | plain (c : Char)
  | code (marker letter : Char) (value : α)
  deriving DecidableEq, Repr

namespace CodePiece

/-- The characters that the piece was read from. -/
def source {α : Type} : CodePiece α → Text
  | plain c => [c]
  | code marker letter _ => [marker, letter]

end CodePiece

variable {α : Type}

def readCodes (isMark : Char → Bool) (accept : Char → Option α) : Text → List (CodePiece α)
  | [] => []
  | [c] => [.plain c]
  | c :: letter :: rest =>
    if isMark c then
      match accept letter with
      | some value => .code c letter value :: readCodes isMark accept rest
      | none => .plain c :: readCodes isMark accept (letter :: rest)
    else .plain c :: readCodes isMark accept (letter :: rest)

theorem source_readCodes (isMark : Char → Bool) (accept : Char → Option α) (text : Text) :
    (readCodes isMark accept text).flatMap CodePiece.source = text := by
  fun_induction readCodes isMark accept text with
  | case1 => rfl
  | case2 c => rfl
  | case3 c letter rest _ value _ ih => simp [CodePiece.source, ih]
  | case4 c letter rest _ _ ih => simp [CodePiece.source, ih]
  | case5 c letter rest _ ih => simp [CodePiece.source, ih]

/-- Codes after the marker `alt` are written with `§` and a lower-case letter. -/
def toSectionCodes (alt : Char) (text : Text) : Text :=
  (readCodes (· == alt) LegacyCode.of? text).flatMap fun
    | .plain c => [c]
    | .code _ letter _ => ['§', letter.toLower]

namespace Decorations

/-- Decorations add up until a reset or a colour ends them all. -/
def after (active : Decorations) : LegacyCode → Decorations
  | .format (.decorate d) => active ∪ single d
  | _ => ∅

/-- The decorations in force behind a text, `active` being those before it. -/
def afterText (active : Decorations) (text : Text) : Decorations :=
  (readCodes isMarker LegacyCode.of? text).foldl (fun set piece =>
    match piece with
    | .plain _ => set
    | .code _ _ code => set.after code) active

end Decorations
end ColorMarkup
