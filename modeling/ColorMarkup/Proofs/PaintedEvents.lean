import Mathlib.Data.List.DropRight
import Mathlib.Data.List.Induction
import ColorMarkup.Proofs.Painting
/-!
What painting makes of a text. Its graphemes can be read as events in one way only, and each
visible event becomes a glyph: the `i`-th one with the `i`-th colour, or the last colour where
there are fewer, and with the escapes read since the last reset.
-/
namespace ColorMarkup

namespace Event

/-- Graphemes read as events from left to right. A marker with a grapheme behind it makes an
escape of the two; every other grapheme is visible. -/
inductive ReadsAs : List Text → List Event → Prop
  | nil : ReadsAs [] []
  | escape {marker : Char} {code : Text} {rest : List Text} {list : List Event} :
      isMarker marker → ReadsAs rest list → ReadsAs ([marker] :: code :: rest) (escape ⟨marker, code⟩ :: list)
  | last (grapheme : Text) : ReadsAs [grapheme] [visible grapheme]
  | visible {grapheme : Text} {rest : List Text} {list : List Event} :
      (∀ marker, isMarker marker → grapheme ≠ [marker]) → ReadsAs rest list →
      ReadsAs (grapheme :: rest) (visible grapheme :: list)

theorem marker?_singleton {marker : Char} (h : isMarker marker) : marker? [marker] = some marker := by
  rw [marker?, if_pos h]

theorem marker?_eq_none_iff {grapheme : Text} :
    marker? grapheme = none ↔ ∀ marker, isMarker marker → grapheme ≠ [marker] := by
  constructor
  · rintro hnone marker hmarker rfl
    rw [marker?_singleton hmarker] at hnone
    cases hnone
  · intro h
    cases hmarker : marker? grapheme with
    | none => rfl
    | some marker => exact absurd (eq_of_marker? hmarker) (h marker (isMarker_of_marker? hmarker))

theorem readsAs_ofGraphemes (graphemes : List Text) : ReadsAs graphemes (ofGraphemes graphemes) := by
  fun_induction ofGraphemes graphemes with
  | case1 => exact .nil
  | case2 grapheme => exact .last grapheme
  | case3 grapheme code rest marker hmarker ih =>
    rw [eq_of_marker? hmarker]
    exact .escape (isMarker_of_marker? hmarker) ih
  | case4 grapheme code rest hnone ih => exact .visible (marker?_eq_none_iff.1 hnone) ih

theorem ReadsAs.eq_ofGraphemes {graphemes : List Text} {list : List Event} (h : ReadsAs graphemes list) :
    list = ofGraphemes graphemes := by
  induction h with
  | nil => rfl
  | escape hmarker _ ih => rw [ofGraphemes, marker?_singleton hmarker, ih]
  | last grapheme => rfl
  | visible hne _ ih => rw [ofGraphemes_visible (marker?_eq_none_iff.2 hne), ih]

theorem readsAs_iff {graphemes : List Text} {list : List Event} :
    ReadsAs graphemes list ↔ list = ofGraphemes graphemes :=
  ⟨ReadsAs.eq_ofGraphemes, fun h => h ▸ readsAs_ofGraphemes graphemes⟩

def escape? : Event → Option Escape
  | visible _ => none
  | escape e => some e

end Event

def escapesOf (list : List Event) : List Escape := list.filterMap Event.escape?

/-- The escapes behind the last reset. -/
def sinceReset (escapes : List Escape) : List Escape := escapes.rtakeWhile (!·.isReset)

theorem foldl_activeAfter (escapes : List Escape) : escapes.foldl activeAfter [] = sinceReset escapes := by
  induction escapes using List.reverseRecOn with
  | nil => rfl
  | append_singleton escapes e ih =>
    rw [List.foldl_concat, ih, activeAfter, sinceReset, sinceReset, List.rtakeWhile_concat]
    cases e.isReset <;> rfl

/-- Behind the first events painting goes on with the next colour and with the escapes that
they leave in force. -/
theorem paintEvents_append (colors : List Color) (place : Nat) (active : List Escape)
    (front back : List Event) :
    paintEvents colors place active (front ++ back) = paintEvents colors place active front ++
      paintEvents colors (place + front.countP Event.isVisible)
        ((escapesOf front).foldl activeAfter active) back := by
  induction front generalizing place active with
  | nil => rfl
  | cons event front ih =>
    cases event with
    | visible grapheme =>
      have hplace : place + 1 + front.countP Event.isVisible = place + (front.countP Event.isVisible + 1) := by
        omega
      rw [List.cons_append, paintEvents, paintEvents, ih, Event.countP_visible, hplace]
      rfl
    | escape e =>
      rw [List.cons_append, paintEvents, paintEvents, ih, Event.countP_escape]
      rfl

theorem colorAt_eq_getElem? (colors : List Color) (place : Nat) :
    colorAt colors place = colors[min place (colors.length - 1)]? := by
  rw [colorAt]
  by_cases hplace : place < colors.length
  · have hmin : min place (colors.length - 1) = place := by omega
    rw [hmin, List.getElem?_eq_getElem hplace]
    rfl
  · have hmin : min place (colors.length - 1) = colors.length - 1 := by omega
    rw [hmin, List.getElem?_eq_none (by omega), List.getLast?_eq_getElem?]
    rfl

/-- What a visible event becomes depends on the events in front of it only. -/
theorem getElem?_paint_visible (colors : List Color) {content grapheme : Text} {front back : List Event}
    (h : events content = front ++ .visible grapheme :: back) :
    (paint colors content)[front.countP Event.isVisible]? =
      some ⟨colorAt colors (front.countP Event.isVisible), sinceReset (escapesOf front), grapheme⟩ := by
  have hlength := length_paintEvents colors 0 [] front
  rw [paint, h, paintEvents_append, List.getElem?_append_right (Nat.le_of_eq hlength), hlength,
    Nat.sub_self, Nat.zero_add, foldl_activeAfter]
  rfl

/-- A gradient gives each of its colours to one grapheme, in order. -/
theorem map_color_paint {colors : List Color} {content : Text} (h : colors.length = visibleCount content) :
    (paint colors content).map Glyph.color = colors.map some := by
  apply List.ext_getElem
  · rw [List.length_map, List.length_map, length_paint, h]
  · intro i hi hi'
    rw [List.length_map] at hi hi'
    have hcolor := getElem?_paint h (h ▸ hi')
    rw [List.getElem?_eq_getElem hi, List.getElem?_eq_getElem hi'] at hcolor
    rw [List.getElem_map, List.getElem_map]
    exact hcolor

/-- The graphemes of a text have one reading as events, which loses nothing. Painting makes a
glyph of each visible event: the grapheme, its colour by the number of visible events in front
of it, and the escapes since the last reset in front of it. The number of glyphs does not depend
on the colours, and a gradient over them gives out every colour once. -/
theorem paint_eq_glyphs (content : Text) :
    ∃ list, (∀ other, Event.ReadsAs content.graphemes other ↔ other = list) ∧
      list.flatMap Event.source = content ∧
      (∀ colors, (paint colors content).length = list.countP Event.isVisible) ∧
      (∀ colors front grapheme back, list = front ++ .visible grapheme :: back →
        let i := front.countP Event.isVisible
        (paint colors content)[i]? =
          some ⟨colors[min i (colors.length - 1)]?, sinceReset (escapesOf front), grapheme⟩) ∧
      (∀ colors, (paint colors content).length = visibleCount content) ∧
      ∀ first last,
        let colors := Color.interpolate first last (visibleCount content)
        colorGradient first last content = renderGlyphs .legacy (paint colors content) ∧
          (paint colors content).map Glyph.color = colors.map some := by
  refine ⟨events content, fun _ => Event.readsAs_iff, source_events content,
    fun colors => length_paint colors content, ?_, fun colors => length_paint colors content,
    fun first last => ⟨rfl, map_color_paint (Color.length_interpolate first last _)⟩⟩
  intro colors front grapheme back hlist i
  rw [← colorAt_eq_getElem?]
  exact getElem?_paint_visible colors hlist

end ColorMarkup
