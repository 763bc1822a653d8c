import ColorMarkup.Code.Basic
import ColorMarkup.Output
import ColorMarkup.Color.Gradient
import ColorMarkup.Text.Grapheme
/-!
Painting a text, one colour to each visible grapheme. A legacy renderer forgets
decorations when the colour changes, so every painted grapheme repeats the
escapes in force: all escapes since the last reset. An escape is a marker with
the grapheme after it, whatever that is; a marker at the end is visible.
-/
namespace ColorMarkup

structure Escape where
  marker : Char
  code : Text
  deriving DecidableEq, Repr

namespace Escape

def source (e : Escape) : Text := e.marker :: e.code

/-- The directive that the escape names, if its code is a single known letter. -/
def format? (e : Escape) : Option FormatCode :=
  match e.code with
  | [c] => FormatCode.ofCode? c
  | _ => none

def isReset (e : Escape) : Bool := e.format? == some .reset

/-- Escapes are repeated as written, except that structured output has tags for
the known ones. -/
def render (mode : OutputMode) (e : Escape) : Text :=
  match mode, e.format? with
  | .structured, some format => format.render .structured
  | _, _ => e.source

end Escape

inductive Event where
  | visible (grapheme : Text)
  | escape (e : Escape)
  deriving DecidableEq, Repr

namespace Event

def source : Event → Text
  | visible grapheme => grapheme
  | escape e => e.source

def isVisible : Event → Bool
  | visible _ => true
  | escape _ => false

/-- The marker that a grapheme consists of. -/
def marker? : Text → Option Char
  | [c] => if isMarker c then some c else none
  | _ => none

def ofGraphemes : List Text → List Event
  | [] => []
  | [grapheme] => [visible grapheme]
  | grapheme :: code :: rest =>
    match marker? grapheme with
    | some marker => escape ⟨marker, code⟩ :: ofGraphemes rest
    | none => visible grapheme :: ofGraphemes (code :: rest)

theorem eq_of_marker? {grapheme : Text} {marker : Char} (h : marker? grapheme = some marker) :
    grapheme = [marker] := by
  rw [marker?.eq_def] at h
  split at h
  · split at h
    · cases h
      rfl
    · cases h
  · cases h

theorem source_ofGraphemes (graphemes : List Text) :
    (ofGraphemes graphemes).flatMap source = graphemes.flatten := by
  fun_induction ofGraphemes graphemes with
  | case1 => rfl
  | case2 grapheme => simp [source]
  | case3 grapheme code rest marker h ih =>
    simp [source, Escape.source, ih, eq_of_marker? h]
  | case4 grapheme code rest _ ih => simp [source, ih]

end Event

def events (text : Text) : List Event := Event.ofGraphemes text.graphemes

theorem source_events (text : Text) : (events text).flatMap Event.source = text :=
  (Event.source_ofGraphemes _).trans text.flatten_graphemes

/-- A visible grapheme with all that is drawn in front of it. -/
structure Glyph where
  /-- None only if there are no colours at all. -/
  color : Option Color
  escapes : List Escape
  grapheme : Text
  deriving DecidableEq, Repr

def Glyph.render (mode : OutputMode) (glyph : Glyph) : Text :=
  (glyph.color.map (Color.render mode)).getD [] ++
    glyph.escapes.flatMap (Escape.render mode) ++ glyph.grapheme

/-- The colour at a place; the last one serves all places past the end. -/
def colorAt (colors : List Color) (place : Nat) : Option Color :=
  colors[place]? <|> colors.getLast?

/-- The escapes in force after one more. -/
def activeAfter (active : List Escape) (e : Escape) : List Escape :=
  if e.isReset then [] else active ++ [e]

/-- Paints events, `place` being the number of graphemes before them. -/
def paintEvents (colors : List Color) (place : Nat) (active : List Escape) :
    List Event → List Glyph
  | [] => []
  | .visible grapheme :: rest =>
    ⟨colorAt colors place, active, grapheme⟩ :: paintEvents colors (place + 1) active rest
  | .escape e :: rest => paintEvents colors place (activeAfter active e) rest

/-- The visible graphemes of a text, each with its colour and its escapes. -/
def paint (colors : List Color) (text : Text) : List Glyph :=
  paintEvents colors 0 [] (events text)

def renderGlyphs (mode : OutputMode) (glyphs : List Glyph) : Text :=
  glyphs.flatMap (Glyph.render mode)

/-- The number of graphemes that take a colour. -/
def visibleCount (text : Text) : Nat := (events text).countP Event.isVisible

/-- The text with its colours written in legacy codes. -/
def applyColors (colors : List Color) (text : Text) : Text :=
  renderGlyphs .legacy (paint colors text)

/-- The text coloured from `first` towards `second`; its own escapes stay as they
are written. -/
def colorGradient (first second : Color) (text : Text) : Text :=
  applyColors (Color.interpolate first second (visibleCount text)) text

theorem length_paintEvents (colors : List Color) (place : Nat) (active : List Escape)
    (list : List Event) :
    (paintEvents colors place active list).length = list.countP Event.isVisible := by
  induction list generalizing place active with
  | nil => rfl
  | cons event rest ih =>
    cases event with
    | visible grapheme => simp [paintEvents, ih, List.countP_cons, Event.isVisible]
    | escape e => simp [paintEvents, ih, Event.isVisible]

theorem length_paint (colors : List Color) (text : Text) :
    (paint colors text).length = visibleCount text :=
  length_paintEvents colors 0 [] (events text)

end ColorMarkup
