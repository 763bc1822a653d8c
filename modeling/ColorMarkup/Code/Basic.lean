import ColorMarkup.Code.Decoration
import ColorMarkup.Color.Named
/-!
Legacy codes. A marker, `&` as typed or `§` as understood by renderers, gives the
letter after it a meaning: one of sixteen colours, a decoration, the end of all
decorations, or the start of a colour of 24 bits.
-/
namespace ColorMarkup

def isMarker (c : Char) : Bool := c == '&' || c == '§'

/-- A directive about decorations. -/
inductive FormatCode where
  | decorate (decoration : Decoration)
  | reset
  deriving DecidableEq, Repr

namespace FormatCode

def all : List FormatCode := Decoration.all.map decorate ++ [reset]

def code : FormatCode → Char
  | decorate d => d.code
  | reset => 'r'

def name : FormatCode → Text
  | decorate d => d.name
  | reset => "reset".toList

def ofCode? (c : Char) : Option FormatCode :=
  all.find? fun format => format.code = c.toLower

@[simp] theorem ofCode?_code (format : FormatCode) : ofCode? format.code = some format := by
  cases format with
  | decorate d => cases d <;> decide
  | reset => decide

end FormatCode

/-- What the letter after a marker can mean. -/
inductive LegacyCode where
  | color (color : NamedColor)
  | format (format : FormatCode)
  /-- The digits of a colour follow, each after a marker of its own. -/
  | hex
  deriving DecidableEq, Repr

namespace LegacyCode

def code : LegacyCode → Char
  | color c => c.code
  | format f => f.code
  | hex => 'x'

/-- The colours and the start of a 24-bit colour: the codes that set the colour. -/
def colorOf? (c : Char) : Option LegacyCode :=
  match NamedColor.ofCode? c with
  | some named => some (color named)
  | none => if c.toLower = 'x' then some hex else none

def formatOf? (c : Char) : Option LegacyCode := (FormatCode.ofCode? c).map format

/-- The meaning of a letter, in either case. -/
def of? (c : Char) : Option LegacyCode := colorOf? c <|> formatOf? c

@[simp] theorem of?_code (legacy : LegacyCode) : of? legacy.code = some legacy := by
  rcases legacy with c | (d | _) | _
  · cases c <;> decide
  · cases d <;> decide
  · decide
  · decide

end LegacyCode
end ColorMarkup
