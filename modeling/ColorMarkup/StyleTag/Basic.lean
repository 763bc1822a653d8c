import ColorMarkup.Code.Basic
import ColorMarkup.Text.Blank
/-!
Style tags: what the content of an opening tag means, and which name closes it.
The content is a name and arguments, set off by colons. Names are read without
regard to case and have short forms; a colour can also stand for its own tag.
-/
namespace ColorMarkup

inductive StyleTag where
  | color (color : Color)
  /-- Two or more stops. -/
  | gradient (stops : List Color)
  | decoration (set : Decorations)
  /-- Closes all open tags. -/
  | reset
  deriving DecidableEq, Repr

inductive StyleTagError where
  /-- Nothing but blanks. -/
  | empty
  | unknown (content : Text)
  /-- An argument that is no name of a colour. -/
  | invalidColor (argument : Text)
  /-- An argument with a number sign but not six digits. -/
  | invalidHex (error : ColorError)
  | missingArgument (name : Text)
  deriving DecidableEq, Repr

def StyleTagError.message : StyleTagError → Text
  | empty => "empty tag".toList
  | unknown content => "unknown tag: ".toList ++ content
  | invalidColor argument => "invalid color: ".toList ++ argument
  | invalidHex error => "invalid color in tag: ".toList ++ error.message
  | missingArgument name => "missing argument for tag: ".toList ++ name

namespace Decoration

/-- The lower-case names under which tags turn the decoration on. -/
def tagNames : Decoration → List Text
  | obfuscated => ["obfuscated".toList, "obf".toList]
  | bold => ["bold".toList, "b".toList]
  | strikethrough => ["strikethrough".toList, "st".toList]
  | underlined => ["underlined".toList, "u".toList]
  | italic => ["italic".toList, "i".toList, "em".toList]

def ofTagName? (name : Text) : Option Decoration :=
  all.find? fun d => d.tagNames.contains name

end Decoration

namespace StyleTag

/-- The lower-case names of a tag with a colour as its argument. -/
def colorWords : List Text := ["color".toList, "colour".toList, "c".toList]

/-- A colour as a tag writes it: six digits after a number sign, or a name. -/
def readColor (argument : Text) : Except StyleTagError Color :=
  match argument.trim with
  | '#' :: digits =>
    match Color.ofHex digits with
    | .ok found => .ok found
    | .error error => .error (.invalidHex error)
  | name =>
    match NamedColor.ofName? name with
    | some named => .ok named.rgb
    | none => .error (.invalidColor name)

/-- A tag without arguments: a decoration or a colour. -/
def readBare (name content : Text) : Except StyleTagError StyleTag :=
  match Decoration.ofTagName? name with
  | some d => .ok (.decoration (.single d))
  | none =>
    match readColor name with
    | .ok found => .ok (.color found)
    | .error _ => .error (.unknown content)

/-- A gradient tag. All arguments are read before their number is looked at. -/
def readGradient (name : Text) (arguments : List Text) : Except StyleTagError StyleTag := do
  match ← arguments.mapM readColor with
  | [] => .error (.missingArgument name)
  | [only] => .ok (.color only)
  | stops => .ok (.gradient stops)

def read (content : Text) : Except StyleTagError StyleTag :=
  let content := content.trim
  if content = [] then .error .empty
  else
    let (first, arguments) := content.pieces ':'
    let name := first.lower
    if colorWords.contains name then
      match arguments with
      | [argument] => (readColor argument).map .color
      | _ => .error (.missingArgument name)
    else if name = "gradient".toList then readGradient name arguments
    else if name = "reset".toList then .ok .reset
    else if arguments = [] then readBare name content
    else .error (.unknown content)

/-- The name that a closing tag must carry. A set of decorations goes by its first. -/
def closeName : StyleTag → Text
  | color _ => "color".toList
  | gradient _ => "gradient".toList
  | decoration set =>
    match set.toList with
    | d :: _ => d.name
    | [] => "decoration".toList
  | reset => "reset".toList

/-- Whether the name of a closing tag stands for a colour. -/
def closesColor (name : Text) : Bool :=
  colorWords.contains name ||
    ((Decoration.ofTagName? name).isNone && (readColor name).toBool)

/-- The name a closing tag carries, brought to the spelling of `closeName`. -/
def canonicalCloseName (name : Text) : Text :=
  let name := (name.pieces ':').1.trim.lower
  if closesColor name then "color".toList
  else
    match Decoration.ofTagName? name with
    | some d => d.name
    | none => name

end StyleTag
end ColorMarkup
