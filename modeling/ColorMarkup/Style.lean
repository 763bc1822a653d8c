import ColorMarkup.Color.Basic
import ColorMarkup.Code.Decoration
/-!
The style of a piece of text, a colour and a set of decorations, and the laying
of one style over another. Laying over is associative and the empty style is its
unit.
-/
namespace ColorMarkup

structure Style where
  color : Option Color
  decorations : Decorations
  deriving DecidableEq, Repr

namespace Style

instance : EmptyCollection Style := ⟨⟨none, ∅⟩⟩
instance : Inhabited Style := ⟨∅⟩

def colored (color : Color) : Style := ⟨some color, ∅⟩

def decorated (decorations : Decorations) : Style := ⟨none, decorations⟩

def isEmpty (style : Style) : Bool := style.color.isNone && style.decorations.isEmpty

/-- `top` over `base`: its colour wins if it has one, decorations add up. -/
def overlay (base top : Style) : Style :=
  ⟨top.color <|> base.color, base.decorations ∪ top.decorations⟩

@[simp] theorem empty_overlay (style : Style) : overlay ∅ style = style := by
  obtain ⟨color, ⟨bits⟩⟩ := style
  cases color <;> simp [overlay, EmptyCollection.emptyCollection, Union.union]

@[simp] theorem overlay_empty (style : Style) : overlay style ∅ = style := by
  obtain ⟨color, ⟨bits⟩⟩ := style
  simp [overlay, EmptyCollection.emptyCollection, Union.union]

theorem overlay_assoc (a b c : Style) :
    overlay (overlay a b) c = overlay a (overlay b c) := by
  obtain ⟨acolor, ⟨abits⟩⟩ := a
  obtain ⟨bcolor, ⟨bbits⟩⟩ := b
  obtain ⟨ccolor, ⟨cbits⟩⟩ := c
  cases ccolor <;> simp [overlay, Union.union, UInt8.or_assoc]

end Style
end ColorMarkup
