import ColorMarkup.Paint
import ColorMarkup.Proofs.CodeReading
/-!
The colours that painting gives out. They go to the visible graphemes in order, whatever
escapes stand between them; in a text without markers every grapheme is visible.
-/
namespace ColorMarkup

theorem Event.isMarker_of_marker? {grapheme : Text} {marker : Char}
    (h : Event.marker? grapheme = some marker) : isMarker marker := by
  rw [marker?.eq_def] at h
  split at h
  · split at h
    · next hmarker =>
      cases h
      exact hmarker
    · cases h
  · cases h

theorem Event.isMarker_of_mem_ofGraphemes {list : List Text} {e : Escape}
    (h : Event.escape e ∈ Event.ofGraphemes list) : isMarker e.marker := by
  fun_induction Event.ofGraphemes list with
  | case1 => cases h
  | case2 grapheme => simp at h
  | case3 grapheme code rest marker hmarker ih =>
    cases List.mem_cons.1 h with
    | inl h =>
      cases h
      exact isMarker_of_marker? hmarker
    | inr h => exact ih h
  | case4 grapheme code rest _ ih => exact ih (by simpa using h)

theorem Event.mem_of_visible_mem_ofGraphemes {list : List Text} {grapheme : Text}
    (h : .visible grapheme ∈ Event.ofGraphemes list) : grapheme ∈ list := by
  fun_induction Event.ofGraphemes list with
  | case1 => cases h
  | case2 other => simpa using h
  | case3 other code rest marker _ ih =>
    have hrest := ih (by simpa using h)
    exact List.mem_cons_of_mem _ (List.mem_cons_of_mem _ hrest)
  | case4 other code rest _ ih =>
    cases List.mem_cons.1 h with
    | inl h =>
      cases h
      exact List.mem_cons_self
    | inr h => exact List.mem_cons_of_mem _ (ih h)

/-- What resets the escapes is the code of a reset. -/
theorem Escape.exists_of_isReset {e : Escape} (h : e.isReset) :
    ∃ letter, e.code = [letter] ∧ LegacyCode.of? letter = some (.format .reset) := by
  rcases e with ⟨marker, _ | ⟨letter, _ | _⟩⟩
  · cases h
  · have hreset : FormatCode.ofCode? letter = some .reset := beq_iff_eq.1 h
    rw [FormatCode.ofCode?] at hreset
    have hfound := List.find?_some hreset
    have hlower : 'r' = letter.toLower := of_decide_eq_true hfound
    have hletter : LegacyCode.of? letter = LegacyCode.of? 'r' := of?_congr hlower.symm
    exact ⟨letter, rfl, hletter.trans (by decide)⟩
  · cases h

theorem Event.ofGraphemes_visible {grapheme : Text} (h : marker? grapheme = none) (rest : List Text) :
    ofGraphemes (grapheme :: rest) = visible grapheme :: ofGraphemes rest := by
  cases rest with
  | nil => rfl
  | cons code rest => rw [ofGraphemes, h]

theorem Event.ofGraphemes_eq_visible {list : List Text} (h : ∀ grapheme ∈ list, marker? grapheme = none) :
    ofGraphemes list = list.map visible := by
  fun_induction ofGraphemes list with
  | case1 => rfl
  | case2 grapheme => rfl
  | case3 grapheme code rest marker hmarker ih =>
    rw [h grapheme List.mem_cons_self] at hmarker
    cases hmarker
  | case4 grapheme code rest _ ih =>
    rw [List.map_cons, ih fun other hother => h other (List.mem_cons_of_mem _ hother)]

theorem events_eq_visible {text : Text} (h : ∀ c ∈ text, ¬ isMarker c) :
    events text = text.graphemes.map .visible := by
  apply Event.ofGraphemes_eq_visible
  intro grapheme hgrapheme
  cases hmarker : Event.marker? grapheme with
  | none => rfl
  | some marker =>
    obtain rfl := Event.eq_of_marker? hmarker
    have hmem : marker ∈ text := by
      rw [← text.flatten_graphemes]
      exact List.mem_flatten.2 ⟨_, hgrapheme, List.mem_cons_self⟩
    simp [Event.marker?, h marker hmem] at hmarker

theorem visibleCount_eq_length {text : Text} (h : ∀ c ∈ text, ¬ isMarker c) :
    visibleCount text = text.graphemes.length := by
  rw [visibleCount, events_eq_visible h, List.countP_map]
  exact List.countP_eq_length.2 fun _ _ => rfl

/-- Visible graphemes take the colours from a place on. -/
theorem paintEvents_visible {colors : List Color} (list : List Text) {place : Nat}
    (h : place + list.length ≤ colors.length) :
    paintEvents colors place [] (list.map .visible) =
      (list.zip (colors.drop place)).map fun (grapheme, color) => ⟨some color, [], grapheme⟩ := by
  induction list generalizing place with
  | nil => rfl
  | cons grapheme list ih =>
    rw [List.length_cons] at h
    have hplace : place < colors.length := by omega
    have ih := ih (show place + 1 + list.length ≤ colors.length by omega)
    rw [List.map_cons, paintEvents, ih, List.drop_eq_getElem_cons hplace, List.zip_cons_cons,
      List.map_cons, colorAt, List.getElem?_eq_getElem hplace]
    rfl

/-- A gradient over a text without markers gives the `i`-th grapheme the `i`-th colour. -/
theorem paint_interpolate {text : Text} (h : ∀ c ∈ text, ¬ isMarker c) (first second : Color) :
    paint (Color.interpolate first second (visibleCount text)) text =
      (text.graphemes.zip (Color.interpolate first second text.graphemes.length)).map
        fun (grapheme, color) => ⟨some color, [], grapheme⟩ := by
  rw [visibleCount_eq_length h, paint, events_eq_visible h]
  exact paintEvents_visible _ (by simp)

theorem Event.countP_visible (grapheme : Text) (rest : List Event) :
    (Event.visible grapheme :: rest).countP Event.isVisible = rest.countP Event.isVisible + 1 :=
  List.countP_cons_of_pos rfl

theorem Event.countP_escape (e : Escape) (rest : List Event) :
    (Event.escape e :: rest).countP Event.isVisible = rest.countP Event.isVisible :=
  List.countP_cons_of_neg Bool.false_ne_true

/-- Whatever escapes stand between them, the graphemes take the colours in order. -/
theorem getElem?_paintEvents (colors : List Color) (place : Nat) (active : List Escape) (list : List Event)
    (i : Nat) : (paintEvents colors place active list)[i]?.bind Glyph.color =
      if i < list.countP Event.isVisible then colorAt colors (place + i) else none := by
  induction list generalizing place active i with
  | nil => rfl
  | cons event rest ih =>
    cases event with
    | visible grapheme =>
      rw [paintEvents, Event.countP_visible]
      cases i with
      | zero => rfl
      | succ i =>
        have hplace : place + 1 + i = place + (i + 1) := by omega
        simp [ih, hplace]
    | escape e => rw [paintEvents, ih, Event.countP_escape]

/-- Painting gives the `i`-th visible grapheme the `i`-th colour. -/
theorem getElem?_paint {colors : List Color} {text : Text} (hlength : colors.length = visibleCount text)
    {i : Nat} (hi : i < visibleCount text) : (paint colors text)[i]?.bind Glyph.color = colors[i]? := by
  have hcolor : colors[i]? = some colors[i] := List.getElem?_eq_getElem (by omega)
  rw [visibleCount] at hi
  rw [paint, getElem?_paintEvents, if_pos hi, Nat.zero_add, colorAt, hcolor]
  rfl

end ColorMarkup
