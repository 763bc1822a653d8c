import ColorMarkup.Code.Reading
import ColorMarkup.ColorTag.Markup
import ColorMarkup.Paint
/-!
Colour tags and codes as legacy codes. The gradient pass colours each grapheme
between an opener and a closer and then writes the codes after `&` with a section
sign; the colour pass replaces single tags and repeats the decorations in force,
which a legacy renderer would drop at the change of colour.
-/
namespace ColorMarkup
namespace Legacy

def convertCodes (text : Text) : Text := toSectionCodes '&' text

def convertGradients (text : Text) : Text :=
  convertCodes <| replaceMarkup .gradient (fun
    | .gradient opener closer content => colorGradient opener.color closer.color content
    | .tag t => t.source) (expandJoints text)

/-- A single tag's colour, then the decorations in force as codes. -/
def renderColor (color : Color) (active : Decorations) : Text :=
  color.legacyHex ++ active.toList.flatMap fun d => (FormatCode.decorate d).render .legacy

/-- Writes out the occurrences; `active` are the decorations in force before them. -/
def fillColors (active : Decorations) : List Occurrence → Text → Text
  | [], tail => tail
  | o :: rest, tail =>
    let active := active.afterText o.before
    o.before ++ renderColor o.markup.first active ++ fillColors active rest tail

def convertColors (text : Text) : Text :=
  let parts := cut .single text
  fillColors ∅ parts.occurrences parts.tail

/-- Gradients first, then single colours. -/
def convert (text : Text) : Text := convertColors (convertGradients text)

end Legacy
end ColorMarkup
