import ColorMarkup.Proofs.ConvertedText
import ColorMarkup.Proofs.FormattedGradient
import ColorMarkup.Proofs.LegacyDecorations
import ColorMarkup.Proofs.PaintedEvents
/-!
The decorations in force behind a painted text. Painting writes no escape where it stands, but
in front of the next grapheme, so nothing is written of the escapes behind the last grapheme.
Every colour ends all decorations; what is in force at the end is what the escapes in front of
the last grapheme say, since the last reset. That is what the text itself says up to there,
unless an event ends in a marker, which can make a code with the character behind it.
-/
namespace ColorMarkup

/-- No code, its letter in either case, stands in the text. -/
def HoldsNoCode (text : Text) : Prop := Free (IsCode (colorLetters ++ formatLetters)) text

theorem breakClass_of_isCode {marker letter : Char} (h : IsCode (colorLetters ++ formatLetters) [marker, letter]) :
    BreakClass.of marker = .other ∧ BreakClass.of letter = .other := by
  obtain ⟨marker', letter', hmarker, hletter, hword⟩ := h
  obtain ⟨rfl, hrest⟩ := List.cons.inj hword
  obtain ⟨rfl, -⟩ := List.cons.inj hrest
  have hletters : ∀ d ∈ colorLetters ++ formatLetters, IsPrintable d := Text.forall_mem_of_all (by decide)
  have hprintable := isPrintable_of_toLower (hletters _ hletter)
  refine ⟨?_, BreakClass.of_printable hprintable.1 hprintable.2⟩
  rcases hmarker with rfl | rfl <;> decide +kernel

theorem HoldsNoCode.cons {c : Char} {text : Text} (h : HoldsNoCode text)
    (hstart : ∀ d ∈ text.head?, ¬ IsCode (colorLetters ++ formatLetters) [c, d]) : HoldsNoCode (c :: text) := by
  intro word hword hinfix
  cases List.infix_cons_iff.1 hinfix with
  | inr hlater => exact h word hword hlater
  | inl hprefix =>
    obtain ⟨marker, letter, hmarker, hletter, rfl⟩ := hword
    obtain ⟨rfl, hrest⟩ := List.cons_prefix_cons.1 hprefix
    obtain ⟨after, rfl⟩ := hrest
    exact hstart letter rfl ⟨marker, letter, hmarker, hletter, rfl⟩

theorem holdsNoCode_nil : HoldsNoCode [] := by
  rintro word ⟨marker, letter, -, -, rfl⟩ hinfix
  cases List.infix_nil.1 hinfix

theorem ClusterTail.not_joins_other {tail : ClusterTail} (h : tail.last = .other) : ¬ tail.joins .other := by
  obtain ⟨last, _, _, _⟩ := tail
  obtain rfl : last = .other := h
  exact Bool.false_ne_true

namespace Text

/-- A marker and the letter behind it are in different graphemes. -/
theorem holdsNoCode_continueCluster {c : Char} {tail : ClusterTail} (h : tail.last = BreakClass.of c)
    (text : Text) : HoldsNoCode (c :: (continueCluster tail text).1) ∧
      ∀ cluster ∈ (continueCluster tail text).2, HoldsNoCode cluster := by
  induction text generalizing c tail with
  | nil => exact ⟨holdsNoCode_nil.cons (by simp), by simp [continueCluster]⟩
  | cons d text ih =>
    rw [continueCluster]
    split
    · next hjoins =>
      obtain ⟨hcluster, hclusters⟩ := @ih d (tail.push (BreakClass.of d)) rfl
      refine ⟨hcluster.cons fun letter hhead hcode => ?_, hclusters⟩
      obtain rfl : d = letter := Option.some.inj hhead
      -- neither character of a code joins the one in front of it
      obtain ⟨hc, hd⟩ := breakClass_of_isCode hcode
      rw [hd] at hjoins
      exact ClusterTail.not_joins_other (h.trans hc) hjoins
    · obtain ⟨hcluster, hclusters⟩ := @ih d (.start (BreakClass.of d)) rfl
      refine ⟨holdsNoCode_nil.cons (by simp), fun cluster hmem => ?_⟩
      cases List.mem_cons.1 hmem with
      | inl heq => exact heq ▸ hcluster
      | inr hmem => exact hclusters cluster hmem

theorem holdsNoCode_of_mem_graphemes {text grapheme : Text} (h : grapheme ∈ text.graphemes) :
    HoldsNoCode grapheme := by
  cases text with
  | nil => cases h
  | cons c rest =>
    obtain ⟨hfirst, hlater⟩ := @holdsNoCode_continueCluster c (.start (BreakClass.of c)) rfl rest
    cases List.mem_cons.1 h with
    | inl h => exact h ▸ hfirst
    | inr h => exact hlater grapheme h

end Text

/-- Nothing changes behind a text without codes. -/
theorem HoldsNoCode.afterText_eq {text : Text} (h : HoldsNoCode text) (active : Decorations) :
    active.afterText text = active := by
  have hread : readCodes isMarker LegacyCode.of? text = text.map .plain := by
    refine readCodes_of_forall fun marker letter code hmarker hcode => h _ ?_
    exact ⟨marker, letter, isMarker_iff.1 hmarker, exists_of?_iff.1 ⟨code, hcode⟩, rfl⟩
  rw [Decorations.afterText, hread, List.foldl_map]
  exact List.foldl_fixed _

/-- The text does not end in a marker, so no code begins in it that ends behind it. -/
def EndsPlain (text : Text) : Prop := ∀ c ∈ text.getLast?, ¬ isMarker c

instance (text : Text) : Decidable (EndsPlain text) := Option.decidableForallMem text.getLast?

namespace Decorations

variable (active : Decorations)

/-- The decorations in force behind an escape as it is written. -/
def afterEscape (e : Escape) : Decorations := active.afterText e.source

theorem afterEscape_reset {e : Escape} (hmarker : isMarker e.marker) (h : e.isReset) :
    active.afterEscape e = ∅ := by
  obtain ⟨letter, hcode, hletter⟩ := Escape.exists_of_isReset h
  rw [afterEscape, Escape.source, hcode, active.afterText_code hmarker hletter]
  rfl

theorem afterText_escapes {escapes : List Escape} (h : ∀ e ∈ escapes, EndsPlain e.source) (rest : Text) :
    active.afterText (escapes.flatMap Escape.source ++ rest) = (escapes.foldl afterEscape active).afterText rest := by
  induction escapes generalizing active with
  | nil => rfl
  | cons e escapes ih =>
    have ih := ih (active.afterEscape e) fun e' he' => h e' (List.mem_cons_of_mem _ he')
    rw [List.flatMap_cons, List.append_assoc, active.afterText_append_of_getLast? (h e List.mem_cons_self)]
    exact ih

/-- Graphemes change nothing; the decorations behind events are those behind the escapes. -/
theorem afterText_events {list : List Event} (hplain : ∀ event ∈ list, EndsPlain event.source)
    (hgraphemes : ∀ grapheme, .visible grapheme ∈ list → HoldsNoCode grapheme) (rest : Text) :
    active.afterText (list.flatMap Event.source ++ rest) =
      ((escapesOf list).foldl afterEscape active).afterText rest := by
  induction list generalizing active with
  | nil => rfl
  | cons event list ih =>
    have ih := fun active => ih active (fun event' h => hplain event' (List.mem_cons_of_mem _ h))
      fun grapheme h => hgraphemes grapheme (List.mem_cons_of_mem _ h)
    rw [List.flatMap_cons, List.append_assoc, active.afterText_append_of_getLast? (hplain event List.mem_cons_self)]
    cases event with
    | visible grapheme =>
      have hgrapheme := (hgraphemes grapheme List.mem_cons_self).afterText_eq active
      rw [Event.source, hgrapheme, ih]
      rfl
    | escape e => exact ih (active.afterEscape e)

/-- The escapes in front of a reset do not count. -/
theorem foldl_sinceReset {escapes : List Escape} (h : ∀ e ∈ escapes, isMarker e.marker) :
    (sinceReset escapes).foldl afterEscape ∅ = escapes.foldl afterEscape ∅ := by
  induction escapes using List.reverseRecOn with
  | nil => rfl
  | append_singleton escapes e ih =>
    have ih := ih fun e' he' => h e' (List.mem_append_left _ he')
    have he := h e (List.mem_append_right _ List.mem_cons_self)
    rw [List.foldl_concat, sinceReset, List.rtakeWhile_concat]
    by_cases hreset : e.isReset
    · rw [afterEscape_reset _ he hreset, hreset]
      rfl
    · simp only [hreset, Bool.not_false, if_true, List.foldl_concat]
      exact congrArg (afterEscape · e) ih

/-- A marker is no letter, so escapes are read apart from what stands in front of them. -/
theorem afterText_append_escapes (front : Text) {behind : List Event}
    (hmarkers : ∀ e, .escape e ∈ behind → isMarker e.marker) (h : ∀ event ∈ behind, ¬ event.isVisible) :
    active.afterText (front ++ behind.flatMap Event.source) =
      (active.afterText front).afterText (behind.flatMap Event.source) := by
  cases behind with
  | nil =>
    rw [List.flatMap_nil, List.append_nil]
    rfl
  | cons event behind =>
    cases event with
    | visible grapheme => exact absurd rfl (h _ List.mem_cons_self)
    | escape e =>
      have hnone : LegacyCode.of? e.marker = none := by
        rcases isMarker_iff.1 (hmarkers e List.mem_cons_self) with hmarker | hmarker <;> rw [hmarker] <;> decide
      exact active.afterText_append_cons hnone front _

end Decorations

section Painted

variable {colors : List Color}

theorem exists_colorAt (h : colors ≠ []) (place : Nat) : ∃ color, colorAt colors place = some color := by
  have hlength := List.length_pos_iff.2 h
  rw [colorAt_eq_getElem?]
  exact ⟨_, List.getElem?_eq_getElem (by omega)⟩

theorem paintEvents_eq_nil {list : List Event} (h : ∀ event ∈ list, ¬ event.isVisible) (place : Nat)
    (active : List Escape) : paintEvents colors place active list = [] := by
  have hlength := length_paintEvents colors place active list
  rw [List.countP_eq_zero.2 h] at hlength
  exact List.eq_nil_of_length_eq_zero hlength

theorem applyColors_eq_nil {content : Text} (h : ∀ event ∈ events content, ¬ event.isVisible) :
    applyColors colors content = [] := by
  rw [applyColors, paint, paintEvents_eq_nil h]
  rfl

/-- A painted text ends in a colour, the escapes since the last reset, and the last grapheme. -/
theorem exists_applyColors_eq (h : colors ≠ []) {content grapheme : Text} {front behind : List Event}
    (hevents : events content = front ++ .visible grapheme :: behind)
    (hbehind : ∀ event ∈ behind, ¬ event.isVisible) :
    ∃ (painted : Text) (color : Color), applyColors colors content =
      painted ++ (color.legacyHex ++ ((sinceReset (escapesOf front)).flatMap Escape.source ++ grapheme)) := by
  obtain ⟨color, hcolor⟩ := exists_colorAt h (0 + front.countP Event.isVisible)
  refine ⟨renderGlyphs .legacy (paintEvents colors 0 [] front), color, ?_⟩
  rw [applyColors, paint, hevents, paintEvents_append, paintEvents, paintEvents_eq_nil hbehind, hcolor,
    foldl_activeAfter, renderGlyphs, List.flatMap_append, List.flatMap_singleton, Glyph.render, List.append_assoc]
  rfl

end Painted

section LastGrapheme

variable {content grapheme : Text} {front behind : List Event}

theorem afterText_applyColors {colors : List Color} (h : colors ≠ [])
    (hevents : events content = front ++ .visible grapheme :: behind)
    (hbehind : ∀ event ∈ behind, ¬ event.isVisible) :
    Decorations.afterText ∅ (applyColors colors content) =
      Decorations.afterText ∅ ((sinceReset (escapesOf front)).flatMap Escape.source ++ grapheme) := by
  obtain ⟨painted, color, hpainted⟩ := exists_applyColors_eq h hevents hbehind
  rw [hpainted, Decorations.afterText_legacyHex]

/-- Where no event ends in a marker, the escapes since the last reset say what the text says. -/
theorem afterText_sinceReset (hevents : events content = front ++ .visible grapheme :: behind)
    (hplain : ∀ event ∈ front, EndsPlain event.source) :
    Decorations.afterText ∅ ((sinceReset (escapesOf front)).flatMap Escape.source ++ grapheme) =
      Decorations.afterText ∅ (front.flatMap Event.source ++ grapheme) := by
  have hmem : ∀ event ∈ front, event ∈ events content := fun event hevent =>
    hevents ▸ List.mem_append_left _ hevent
  have hgraphemes : ∀ g, .visible g ∈ front → HoldsNoCode g := fun g hg =>
    Text.holdsNoCode_of_mem_graphemes (Event.mem_of_visible_mem_ofGraphemes (hmem _ hg))
  have hescapes : ∀ e ∈ escapesOf front, .escape e ∈ front := by
    intro e he
    obtain ⟨event, hevent, hescape⟩ := List.mem_filterMap.1 he
    cases event with
    | visible g => cases hescape
    | escape e' => exact Option.some.inj hescape ▸ hevent
  have hmarkers : ∀ e ∈ escapesOf front, isMarker e.marker := fun e he =>
    Event.isMarker_of_mem_ofGraphemes (hmem _ (hescapes e he))
  have hsince : ∀ e ∈ sinceReset (escapesOf front), EndsPlain e.source := fun e he =>
    hplain _ (hescapes e ((List.rtakeWhile_suffix _ _).subset he))
  rw [Decorations.afterText_escapes _ hsince, Decorations.foldl_sinceReset hmarkers,
    Decorations.afterText_events _ hplain hgraphemes]

end LastGrapheme

/-- What a painted text leaves in force. Nothing is written of a text without graphemes.
Otherwise it is what the escapes since the last reset in front of the last grapheme say, with
this grapheme behind them. Where no event in front of it ends in a marker, that is what the text
says up to the last grapheme; and it is what the whole text says just if the escapes behind that
grapheme, of which nothing is written, would change nothing. -/
theorem decorations_behind_painted (content : Text) {colors : List Color} (h : colors ≠ []) :
    ((∀ event ∈ events content, ¬ event.isVisible) → applyColors colors content = []) ∧
      ∀ front grapheme behind, events content = front ++ .visible grapheme :: behind →
        (∀ event ∈ behind, ¬ event.isVisible) →
        let shown := front.flatMap Event.source ++ grapheme
        let escapes := behind.flatMap Event.source
        let painted := Decorations.afterText ∅ (applyColors colors content)
        painted = .afterText ∅ ((sinceReset (escapesOf front)).flatMap Escape.source ++ grapheme) ∧
          content = shown ++ escapes ∧
          Decorations.afterText ∅ content = (Decorations.afterText ∅ shown).afterText escapes ∧
          ((∀ event ∈ front, EndsPlain event.source) → painted = .afterText ∅ shown ∧
            (painted = .afterText ∅ content ↔ painted.afterText escapes = painted)) := by
  refine ⟨applyColors_eq_nil, fun front grapheme behind hevents hbehind => ?_⟩
  intro shown escapes painted
  have hpainted : painted = _ := afterText_applyColors h hevents hbehind
  have hsource : content = shown ++ escapes := by
    rw [← source_events content, hevents, List.flatMap_append, List.flatMap_cons, ← List.append_assoc]
    rfl
  have hmarkers : ∀ e, .escape e ∈ behind → isMarker e.marker := by
    intro e he
    have hmem : .escape e ∈ events content := hevents ▸ List.mem_append_right _ (List.mem_cons_of_mem _ he)
    exact Event.isMarker_of_mem_ofGraphemes hmem
  have hcontent : Decorations.afterText ∅ content = (Decorations.afterText ∅ shown).afterText escapes := by
    rw [hsource]
    exact Decorations.afterText_append_escapes ∅ shown hmarkers hbehind
  refine ⟨hpainted, hsource, hcontent, fun hplain => ?_⟩
  have hshown : painted = .afterText ∅ shown := hpainted.trans (afterText_sinceReset hevents hplain)
  refine ⟨hshown, ?_⟩
  rw [hcontent, ← hshown]
  exact eq_comm

/-- The reset stands in front of the last grapheme, and bold behind it again. -/
theorem decorations_behind_painted_bold :
    let content := "&la&r§lb&l".toList
    let colors : List Color := [⟨255, 0, 0⟩]
    colors ≠ [] ∧ Decorations.afterText ∅ (applyColors colors content) = .single .bold ∧
      Decorations.afterText ∅ content = .single .bold := by
  intro content colors
  have hcolors : colors ≠ [] := List.cons_ne_nil _ _
  obtain ⟨-, hsplit⟩ := decorations_behind_painted content hcolors
  obtain ⟨-, -, -, hplain⟩ := hsplit
    [.escape ⟨'&', ['l']⟩, .visible ['a'], .escape ⟨'&', ['r']⟩, .escape ⟨'§', ['l']⟩] ['b']
    [.escape ⟨'&', ['l']⟩] (by decide +kernel) (by decide)
  obtain ⟨hshown, hsame⟩ := hplain (by decide)
  have hbold : Decorations.afterText ∅ (applyColors colors content) = .single .bold := hshown.trans (by decide)
  have hunchanged : (Decorations.single .bold).afterText "&l".toList = .single .bold := by decide
  rw [← hbold] at hunchanged
  exact ⟨hcolors, hbold, (hsame.2 hunchanged).symm.trans hbold⟩

/-- An escape behind the last grapheme is not written. An escape of two markers is written again
in front of each grapheme, with which its second marker makes a code: bold, and then a colour. -/
theorem decorations_lost_by_painting :
    let red : Color := ⟨255, 0, 0⟩
    (applyColors [red] "a&l".toList = "§x§f§f§0§0§0§0a".toList ∧
      Decorations.afterText ∅ "a&l".toList = .single .bold ∧
      Decorations.afterText ∅ (applyColors [red] "a&l".toList) = ∅) ∧
    (applyColors [red] "&&lb".toList = "§x§f§f§0§0§0§0&&l§x§f§f§0§0§0§0&&b".toList ∧
      Decorations.afterText ∅ "&&lb".toList = .single .bold ∧
      Decorations.afterText ∅ (applyColors [red] "&&lb".toList) = ∅) ∧
    Decorations.single .bold ≠ ∅ := by
  decide +kernel

end ColorMarkup
