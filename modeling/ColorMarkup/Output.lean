import ColorMarkup.Code.Basic
/-!
The two written forms of colours and codes: legacy, where a section sign precedes
each character of a code, and structured, where a name or a colour stands in an
angle-bracket tag.
-/
namespace ColorMarkup

inductive OutputMode where
  | legacy | structured
  deriving DecidableEq, Repr

/-- The tag with the given content. -/
def angleTag (content : Text) : Text := '<' :: content ++ ['>']

def legacyCode (c : Char) : Text := ['§', c]

namespace Color

/-- The code that starts a 24-bit colour, then each digit as a code. -/
def legacyHex (color : Color) : Text :=
  legacyCode 'x' ++ color.toHex.flatMap legacyCode

def render : OutputMode → Color → Text
  | .legacy, color => color.legacyHex
  | .structured, color => angleTag ("color:".toList ++ color.toText)

end Color

def NamedColor.render : OutputMode → NamedColor → Text
  | .legacy, color => legacyCode color.code
  | .structured, color => angleTag ("color:".toList ++ color.name)

def FormatCode.render : OutputMode → FormatCode → Text
  | .legacy, format => legacyCode format.code
  | .structured, format => angleTag format.name

end ColorMarkup
