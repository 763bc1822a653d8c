import ColorMarkup.Legacy
import ColorMarkup.Proofs.Painting
import ColorMarkup.Proofs.Removal
/-!
Removing what a legacy conversion writes. Each pass only adds codes and takes tags
and codes away, so a text and its conversion are cleared to the same text, provided
that what painting takes for an escape is one of the codes.
-/
namespace ColorMarkup

/-- Every escape that painting reads in the text is a marker and a single letter of
a code. -/
def EscapesAreCodes (content : Text) : Prop :=
  ∀ e, Event.escape e ∈ events content →
    ∃ letter, letter.toLower ∈ colorLetters ++ formatLetters ∧ e.code = [letter]

namespace Strip

theorem clear_source (tag : ColorTag) : clear tag.source = [] :=
  clear_of_isMarkup (.inl (isTag_iff.2 ⟨tag, rfl⟩))

theorem clear_code {marker letter : Char} (hmarker : marker = '&' ∨ marker = '§')
    (hletter : letter.toLower ∈ colorLetters ++ formatLetters) : clear [marker, letter] = [] :=
  clear_of_isMarkup (.inr ⟨marker, letter, hmarker, hletter, rfl⟩)

theorem clear_flatMap_eq_nil {α : Type} {list : List α} {f : α → Text}
    (h : ∀ x ∈ list, clear (f x) = []) : clear (list.flatMap f) = [] := by
  have hcongr : clear (list.flatMap f) = clear (list.flatMap fun _ => []) :=
    clear_flatMap_congr fun x hx => by rw [h x hx, clear_nil]
  have hnil : (list.flatMap fun _ => []) = ([] : Text) := List.flatMap_eq_nil_iff.2 fun _ _ => rfl
  rw [hcongr, hnil, clear_nil]

theorem clear_append_of_eq_nil {s : Text} (h : clear s = []) (t : Text) :
    clear (s ++ t) = clear t := by
  exact clear_append_congr (h.trans clear_nil.symm) (rfl (a := clear t))

/-- Replacing markup by what is cleared to the same changes nothing that is left. -/
theorem clear_replaceMarkup {kind : MarkupKind} {replace : Markup → Text} {text : Text}
    (h : ∀ o ∈ (cut kind text).occurrences, clear (replace o.markup) = clear o.markup.source) :
    clear (replaceMarkup kind replace text) = clear text := by
  have hfill : clear ((cut kind text).fill replace) = clear ((cut kind text).fill Markup.source) := by
    refine clear_append_congr (clear_flatMap_congr ?_) rfl
    intro o ho
    exact clear_append_congr rfl (h o ho)
  rw [replaceMarkup, hfill]
  exact congrArg clear (replaceMarkup_source kind text)

theorem clear_expandJoints (text : Text) : clear (expandJoints text) = clear text := by
  apply clear_replaceMarkup
  intro o ho
  obtain ⟨t, -, hmarkup⟩ := exists_tag_of_mem_cutAtForm ho
  rw [hmarkup, clear_append_of_eq_nil (clear_source _), clear_source]
  exact (clear_source t).symm

theorem clear_convertCodes (text : Text) : clear (Legacy.convertCodes text) = clear text := by
  have hsource := source_readCodes (· == '&') LegacyCode.of? text
  refine (clear_flatMap_congr (g := CodePiece.source) ?_).trans (congrArg clear hsource)
  intro piece hpiece
  cases piece with
  | plain c => rfl
  | code c letter code =>
    obtain ⟨hmarker, hcode⟩ := of_mem_readCodes hpiece
    have hletter := exists_of?_iff.1 ⟨code, hcode⟩
    have hlower : ∀ c ∈ colorLetters ++ formatLetters, c.toLower ∈ colorLetters ++ formatLetters :=
      Text.forall_mem_of_all (by decide)
    have hread : clear [c, letter] = [] := clear_code (.inl (by simpa using hmarker)) hletter
    have hwritten : clear ['§', letter.toLower] = [] := clear_code (.inr rfl) (hlower _ hletter)
    exact hwritten.trans hread.symm

theorem clear_legacyHex (color : Color) : clear color.legacyHex = [] := by
  have hstart : clear (legacyCode 'x') = [] := clear_code (.inr rfl) (by decide)
  rw [Color.legacyHex, clear_append_of_eq_nil hstart]
  apply clear_flatMap_eq_nil
  intro c hc
  obtain ⟨n, hn, rfl⟩ := Color.exists_digitChar_of_mem_toHex hc
  have all : ∀ m : Fin 16, m.val.digitChar.toLower ∈ colorLetters ++ formatLetters := by decide
  exact clear_code (.inr rfl) (all ⟨n, hn⟩)

theorem clear_renderColor (color : Color) (active : Decorations) :
    clear (Legacy.renderColor color active) = [] := by
  rw [Legacy.renderColor, clear_append_of_eq_nil (clear_legacyHex color)]
  apply clear_flatMap_eq_nil
  intro d _
  exact clear_code (.inr rfl) (by cases d <;> decide)

theorem clear_fillColors {occurrences : List Occurrence} (tail : Text)
    (h : ∀ o ∈ occurrences, clear o.markup.source = []) (active : Decorations) :
    clear (Legacy.fillColors active occurrences tail) =
      clear (Cut.fill Markup.source ⟨occurrences, tail⟩) := by
  induction occurrences generalizing active with
  | nil => simp [Legacy.fillColors, Cut.fill]
  | cons o rest ih =>
    have ih := ih (fun o' ho' => h o' (List.mem_cons_of_mem _ ho')) (active.afterText o.before)
    have hsource := h o List.mem_cons_self
    simp only [Legacy.fillColors, Cut.fill, List.flatMap_cons, List.append_assoc] at ih ⊢
    refine clear_append_congr rfl ?_
    rw [clear_append_of_eq_nil (clear_renderColor _ _), clear_append_of_eq_nil hsource]
    exact ih

theorem clear_convertColors (text : Text) : clear (Legacy.convertColors text) = clear text := by
  have htags : ∀ o ∈ (cut .single text).occurrences, clear o.markup.source = [] := by
    intro o ho
    obtain ⟨t, -, hmarkup⟩ := exists_tag_of_mem_cutAtForm ho
    rw [hmarkup]
    exact clear_source t
  rw [Legacy.convertColors, clear_fillColors _ htags]
  exact congrArg clear (replaceMarkup_source .single text)

theorem clear_colorAt (colors : List Color) (place : Nat) :
    clear (((colorAt colors place).map (Color.render .legacy)).getD []) = [] := by
  cases colorAt colors place with
  | none => exact clear_nil
  | some color => exact clear_legacyHex color

/-- Painted events are cleared to what the events themselves are cleared to. -/
theorem clear_paintEvents (colors : List Color) {list : List Event}
    (hlist : ∀ e, Event.escape e ∈ list → clear e.source = []) {active : List Escape}
    (hactive : ∀ e ∈ active, clear e.source = []) (place : Nat) :
    clear (renderGlyphs .legacy (paintEvents colors place active list)) =
      clear (list.flatMap Event.source) := by
  induction list generalizing active place with
  | nil => rfl
  | cons event rest ih =>
    have hrest : ∀ e, Event.escape e ∈ rest → clear e.source = [] := fun e he =>
      hlist e (List.mem_cons_of_mem _ he)
    cases event with
    | visible grapheme =>
      have hescapes : clear (active.flatMap (Escape.render .legacy)) = [] :=
        clear_flatMap_eq_nil hactive
      have ih := ih hrest hactive (place + 1)
      simp only [renderGlyphs, paintEvents, List.flatMap_cons, Glyph.render, List.append_assoc] at ih ⊢
      rw [clear_append_of_eq_nil (clear_colorAt colors place), clear_append_of_eq_nil hescapes]
      exact clear_append_congr rfl ih
    | escape e =>
      have he := hlist e List.mem_cons_self
      have hafter : ∀ e' ∈ activeAfter active e, clear e'.source = [] := by
        intro e' he'
        rw [activeAfter] at he'
        split at he'
        · cases he'
        · cases List.mem_append.1 he' with
          | inl he' => exact hactive e' he'
          | inr he' =>
            rw [List.mem_singleton.1 he']
            exact he
      rw [paintEvents, List.flatMap_cons, ih hrest hafter]
      exact (clear_append_of_eq_nil he _).symm

theorem clear_colorGradient (first second : Color) {content : Text} (h : EscapesAreCodes content) :
    clear (colorGradient first second content) = clear content := by
  have hescapes : ∀ e, Event.escape e ∈ events content → clear e.source = [] := by
    intro e he
    obtain ⟨letter, hletter, hcode⟩ := h e he
    rw [Escape.source, hcode]
    exact clear_code (isMarker_iff.1 (Event.isMarker_of_mem_ofGraphemes he)) hletter
  have hnone : ∀ e ∈ ([] : List Escape), clear e.source = [] := by simp
  have hpaint := clear_paintEvents
    (Color.interpolate first second (visibleCount content)) hescapes hnone 0
  rw [source_events] at hpaint
  exact hpaint

theorem clear_convertGradients {text : Text}
    (h : ∀ o ∈ (cut .gradient (expandJoints text)).occurrences,
      ∀ content, o.markup.content? = some content → EscapesAreCodes content) :
    clear (Legacy.convertGradients text) = clear text := by
  rw [Legacy.convertGradients, clear_convertCodes, ← clear_expandJoints text]
  apply clear_replaceMarkup
  intro o ho
  have hcontent := h o ho
  cases hmarkup : o.markup with
  | tag t => rfl
  | gradient opener closer content =>
    rw [hmarkup] at hcontent
    simp only [Markup.source, List.append_assoc]
    rw [clear_append_of_eq_nil (clear_source opener), clear_colorGradient _ _ (hcontent content rfl)]
    have hcloser := clear_append_congr (rfl (a := clear content)) ((clear_source closer).trans clear_nil.symm)
    rw [hcloser, List.append_nil]

/-- Converting to legacy codes loses, repeats and adds no visible character: the
conversion is cleared to what the text is cleared to. -/
theorem clear_convert (text : Text)
    (h : ∀ o ∈ (cut .gradient (expandJoints text)).occurrences,
      ∀ content, o.markup.content? = some content → EscapesAreCodes content) :
    clear (Legacy.convert text) = clear text := by
  rw [Legacy.convert, clear_convertColors, clear_convertGradients h]

theorem clear_convert_lone_markers :
    let content := r"&la{#12}b§Rc".toList
    let text := r"&{#ff0000>}&la{#12}b§Rc{#0000ff<}&x".toList
    (cut .gradient (expandJoints text)).occurrences.map (·.markup.content?) = [some content] ∧
      EscapesAreCodes content ∧ clear (Legacy.convert text) = clear text := by
  intro content text
  have hcontent : (cut .gradient (expandJoints text)).occurrences.map (·.markup.content?) =
      [some content] := by decide +kernel
  have hevents : events content = [.escape ⟨'&', ['l']⟩, .visible ['a'], .visible ['{'],
      .visible ['#'], .visible ['1'], .visible ['2'], .visible ['}'], .visible ['b'],
      .escape ⟨'§', ['R']⟩, .visible ['c']] := by decide +kernel
  have hcodes : EscapesAreCodes content := by
    intro e he
    rw [hevents] at he
    simp only [List.mem_cons, reduceCtorEq, Event.escape.injEq, List.not_mem_nil, or_false,
      false_or] at he
    rcases he with rfl | rfl
    · exact ⟨'l', by decide, rfl⟩
    · exact ⟨'R', by decide, rfl⟩
  refine ⟨hcontent, hcodes, clear_convert text ?_⟩
  intro o ho found hfound
  have hmem := List.mem_map_of_mem (f := (·.markup.content?)) ho
  rw [hcontent, hfound, List.mem_singleton] at hmem
  cases hmem
  exact hcodes

end Strip
end ColorMarkup
