import ColorMarkup.Code.Reading
import ColorMarkup.ColorTag.Markup
import ColorMarkup.Output
/-!
Colour tags and codes as structured markup. Gradients become an angle-bracket tag
around their content, single colours and codes a tag in their place. A code may
follow either marker; the start of a 24-bit colour has no tag of its own.
-/
namespace ColorMarkup
namespace Structured

def gradientOpening (first second : Color) : Text :=
  angleTag ("gradient:".toList ++ first.toText ++ ':' :: second.toText)

def gradientClosing : Text := angleTag "/gradient".toList

def convertGradients (text : Text) : Text :=
  replaceMarkup .gradient (fun
    | .gradient opener closer content =>
      gradientOpening opener.color closer.color ++ content ++ gradientClosing
    | .tag t => t.source) (expandJoints text)

def convertColors (text : Text) : Text :=
  replaceMarkup .single (fun markup => markup.first.render .structured) text

/-- The tag that stands for a code. -/
def codeTag? (c : Char) : Option Text :=
  match LegacyCode.of? c with
  | some (.color color) => some (color.render .structured)
  | some (.format format) => some (format.render .structured)
  | some .hex => none
  | none => none

def convertCodes (text : Text) : Text :=
  (readCodes isMarker codeTag? text).flatMap fun
    | .plain c => [c]
    | .code _ _ tag => tag

/-- Gradients first, then single colours, then codes. -/
def convert (text : Text) : Text :=
  convertCodes (convertColors (convertGradients text))

end Structured
end ColorMarkup
