import ColorMarkup.Color.Gradient
import ColorMarkup.Document.Basic
import ColorMarkup.StyleTag.Basic
import ColorMarkup.StyleTag.Token
import ColorMarkup.Structured
import ColorMarkup.Text.Grapheme
/-!
Reading structured markup as a document. Open tags are kept on a stack, the
innermost first. A tag's spans are made when it closes, with the number of tags
that stay open as their depth, and sorting by depth puts outer spans first. No
text is an error: a tag that cannot be read is text, a closing tag without its
opening tag is dropped, and tags that stay open reach to the end.
-/
namespace ColorMarkup

inductive TagEffect where
  | style (style : Style)
  | gradient (stops : List Color)
  deriving DecidableEq, Repr

structure OpenTag where
  effect : TagEffect
  /-- The number of characters of text before the tag. -/
  start : Nat
  closeName : Text
  deriving DecidableEq, Repr

/-- Spans side by side from `offset` on, one for each grapheme and its colour. -/
def gradientSpans (depth offset : Nat) : List Text → List Color → List Span
  | grapheme :: graphemes, color :: colors =>
    let stop := offset + grapheme.byteLength
    ⟨offset, stop, .colored color, depth⟩ :: gradientSpans depth stop graphemes colors
  | _, _ => []

namespace OpenTag

/-- The spans of a tag that closes at the end of `text`, none if it holds no text. -/
def spans (tag : OpenTag) (text : Text) (depth : Nat) : List Span :=
  let offset := Text.byteLength (text.take tag.start)
  let enclosed : Text := text.drop tag.start
  if enclosed = [] then []
  else
    match tag.effect with
    | .style style => [⟨offset, offset + enclosed.byteLength, style, depth⟩]
    | .gradient stops =>
      let graphemes := enclosed.graphemes
      gradientSpans depth offset graphemes (Color.interpolateStops stops graphemes.length)

end OpenTag

/-- The text read so far, the open tags and the spans of the closed ones. -/
structure Reading where
  text : Text
  stack : List OpenTag
  spans : List Span
  deriving DecidableEq, Repr

namespace Reading

def start : Reading := ⟨[], [], []⟩

def append (r : Reading) (text : Text) : Reading := { r with text := r.text ++ text }

def closeInnermost (r : Reading) : Reading :=
  match r.stack with
  | [] => r
  | tag :: rest => ⟨r.text, rest, r.spans ++ tag.spans r.text rest.length⟩

/-- Closes the innermost `n` tags. -/
def closeMany : Nat → Reading → Reading
  | 0, r => r
  | n + 1, r => closeMany n r.closeInnermost

def closeAll (r : Reading) : Reading := closeMany r.stack.length r

/-- Closes the innermost tag of the given name and all tags inside it. -/
def closeNamed (r : Reading) (name : Text) : Reading :=
  match r.stack.findIdx? fun tag => tag.closeName = name with
  | some i => closeMany (i + 1) r
  | none => r

def push (r : Reading) (effect : TagEffect) (closeName : Text) : Reading :=
  { r with stack := ⟨effect, r.text.length, closeName⟩ :: r.stack }

def openTag (r : Reading) (content : Text) : Reading :=
  match StyleTag.read content with
  | .error _ => r.append (angleTag content)
  | .ok tag =>
    match tag with
    | .reset => r.closeAll
    | .color color => r.push (.style (.colored color)) tag.closeName
    | .decoration set => r.push (.style (.decorated set)) tag.closeName
    | .gradient stops => r.push (.gradient stops) tag.closeName

/-- A closing tag without a name closes the innermost tag. -/
def closeTag (r : Reading) (name : Text) : Reading :=
  if name.trim = [] then r.closeInnermost
  else r.closeNamed (StyleTag.canonicalCloseName name)

def step (r : Reading) : Token → Reading
  | .text text => r.append text
  | .escaped c => r.append [c]
  | .opening content => r.openTag content
  | .closing name => r.closeTag name

/-- Everything read, outer spans first. -/
def finish (r : Reading) : Document :=
  let closed := r.closeAll
  ⟨closed.text, closed.spans.mergeSort fun a b => a.depth ≤ b.depth⟩

end Reading

namespace Document

/-- The document that structured markup describes. -/
def ofMarkup (markup : Text) : Document :=
  ((tokens markup).foldl Reading.step Reading.start).finish

/-- The document of a text with colour tags and codes. -/
def ofColored (text : Text) : Document := ofMarkup (Structured.convert text)

end Document
end ColorMarkup
