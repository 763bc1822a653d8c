import ColorMarkup.Code.Reading
import ColorMarkup.ColorTag.Piece
/-!
Removal of markup. Taking out one tag or code can bring the characters of another
together, so each removal runs until nothing is left to remove, and so does the
sequence of all three.
-/
namespace ColorMarkup
namespace Strip

/-- Runs a pass that only deletes until it deletes nothing. -/
def exhaust (pass : Text → Text) (text : Text) : Text :=
  if (pass text).length < text.length then exhaust pass (pass text) else text
termination_by text.length

def removeTagsOnce (text : Text) : Text :=
  (tagPieces text).flatMap fun
    | .plain c => [c]
    | .tag _ => []

def removeCodesOnce (accept : Char → Option LegacyCode) (text : Text) : Text :=
  (readCodes isMarker accept text).flatMap fun
    | .plain c => [c]
    | .code _ _ _ => []

/-- Without colour tags of any form. -/
def removeTags (text : Text) : Text := exhaust removeTagsOnce text

/-- Without the codes of colours and of the start of a 24-bit colour. -/
def removeColors (text : Text) : Text := exhaust (removeCodesOnce LegacyCode.colorOf?) text

/-- Without the codes of decorations and of the reset. -/
def removeFormats (text : Text) : Text := exhaust (removeCodesOnce LegacyCode.formatOf?) text

/-- Without tags and codes of any kind. -/
def clear (text : Text) : Text :=
  exhaust (fun text => removeFormats (removeColors (removeTags text))) text

/-- What a run ends in, one more pass does not shorten. -/
theorem length_exhaust_le (pass : Text → Text) (text : Text) :
    (exhaust pass text).length ≤ (pass (exhaust pass text)).length := by
  fun_induction exhaust pass text with
  | case1 text _ ih => exact ih
  | case2 text h => omega

end Strip
end ColorMarkup
