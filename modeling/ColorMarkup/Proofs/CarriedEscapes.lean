import ColorMarkup.Proofs.LegacyRemoval
/-!
What painting makes of markers that begin no code. Painting takes a marker and whatever
follows it for an escape and writes it again in front of every grapheme up to the next reset.
Clearing takes the codes out, but a marker without a code stays, and with it each of its
copies: so many as graphemes are painted under it.
-/
namespace ColorMarkup

open Relation (ReflTransGen)

namespace Escape

/-- The escape is a code, which clearing takes out. -/
def isCode (e : Escape) : Bool :=
  match e.code with
  | [letter] => letter.toLower ∈ colorLetters ++ formatLetters
  | _ => false

theorem exists_of_isCode {e : Escape} (h : e.isCode) :
    ∃ letter, letter.toLower ∈ colorLetters ++ formatLetters ∧ e.code = [letter] := by
  rcases e with ⟨marker, _ | ⟨letter, _ | _⟩⟩
  · cases h
  · exact ⟨letter, of_decide_eq_true h, rfl⟩
  · cases h

theorem isCode_of_isReset {e : Escape} (h : e.isReset) : e.isCode := by
  obtain ⟨letter, hcode, hletter⟩ := exists_of_isReset h
  rw [isCode, hcode]
  exact decide_eq_true (exists_of?_iff.1 ⟨_, hletter⟩)

theorem clear_source {e : Escape} (hmarker : isMarker e.marker) (h : e.isCode) :
    Strip.clear e.source = [] := by
  obtain ⟨letter, hletter, hcode⟩ := exists_of_isCode h
  rw [source, hcode]
  exact Strip.clear_code (isMarker_iff.1 hmarker) hletter

end Escape

namespace Event

/-- The escapes that are no codes and stay in force behind one more. -/
def held (escapes : List Escape) (e : Escape) : List Escape :=
  if e.isReset then [] else if e.isCode then escapes else escapes ++ [e]

/-- A reset ends all, a code adds nothing, and any other escape is one more. -/
theorem held_cases (escapes : List Escape) (e : Escape) :
    (e.isReset ∧ e.isCode ∧ held escapes e = []) ∨ (¬ e.isReset ∧ e.isCode ∧ held escapes e = escapes) ∨
      (¬ e.isReset ∧ ¬ e.isCode ∧ held escapes e = escapes ++ [e]) := by
  by_cases hreset : e.isReset
  · exact .inl ⟨hreset, Escape.isCode_of_isReset hreset, if_pos hreset⟩
  · by_cases hcode : e.isCode
    · exact .inr (.inl ⟨hreset, hcode, by rw [held, if_neg hreset, if_pos hcode]⟩)
    · exact .inr (.inr ⟨hreset, hcode, by rw [held, if_neg hreset, if_neg hcode]⟩)

/-- The graphemes, and in front of each the escapes in force that are no codes. -/
def carry (escapes : List Escape) : List Event → Text
  | [] => []
  | .visible grapheme :: rest => escapes.flatMap Escape.source ++ grapheme ++ carry escapes rest
  | .escape e :: rest => carry (held escapes e) rest

/-- The number of graphemes up to the next reset. -/
def untilReset : List Event → Nat
  | [] => 0
  | .visible _ :: rest => untilReset rest + 1
  | .escape e :: rest => if e.isReset then 0 else untilReset rest

/-- Every escape that is no code is in force for a single grapheme. -/
def loneForOne : List Event → Bool
  | [] => true
  | .visible _ :: rest => loneForOne rest
  | .escape e :: rest => (e.isCode || untilReset rest == 1) && loneForOne rest

/-- How often a character comes out: with its grapheme, and with an escape that is no code
once for every grapheme under it. -/
def copies (x : Char) : List Event → Nat
  | [] => 0
  | .visible grapheme :: rest => grapheme.count x + copies x rest
  | .escape e :: rest => (if e.isCode then 0 else e.source.count x * untilReset rest) + copies x rest

end Event

/-- The text that painting shows, without colours and codes. -/
def carried (content : Text) : Text := Event.carry [] (events content)

namespace Strip

/-- One more escape; a code among those in force adds nothing that is left. -/
theorem clear_activeAfter {active escapes : List Escape} {e : Escape} (hmarker : isMarker e.marker)
    (h : clear (active.flatMap (Escape.render .legacy)) = clear (escapes.flatMap Escape.source)) :
    clear ((activeAfter active e).flatMap (Escape.render .legacy)) =
      clear ((Event.held escapes e).flatMap Escape.source) := by
  have hone : [e].flatMap (Escape.render .legacy) = e.source := List.append_nil _
  rw [activeAfter]
  obtain ⟨hreset, -, hheld⟩ | ⟨hreset, hcode, hheld⟩ | ⟨hreset, -, hheld⟩ := Event.held_cases escapes e
  · rw [if_pos hreset, hheld]
    rfl
  · rw [if_neg hreset, hheld, List.flatMap_append, hone, ← List.append_nil (escapes.flatMap Escape.source)]
    exact clear_append_congr h ((Escape.clear_source hmarker hcode).trans clear_nil.symm)
  · rw [if_neg hreset, hheld, List.flatMap_append, List.flatMap_append]
    exact clear_append_congr h rfl

/-- Clearing leaves of the escapes in force those that are no codes. -/
theorem clear_paintEvents_eq_carry (colors : List Color) {list : List Event}
    (hlist : ∀ e, Event.escape e ∈ list → isMarker e.marker) {active escapes : List Escape}
    (h : clear (active.flatMap (Escape.render .legacy)) = clear (escapes.flatMap Escape.source))
    (place : Nat) :
    clear (renderGlyphs .legacy (paintEvents colors place active list)) =
      clear (Event.carry escapes list) := by
  induction list generalizing active escapes place with
  | nil => rfl
  | cons event rest ih =>
    have ih := @ih fun e he => hlist e (List.mem_cons_of_mem _ he)
    cases event with
    | visible grapheme =>
      have hrest := ih h (place + 1)
      simp only [renderGlyphs, paintEvents, List.flatMap_cons, Glyph.render, List.append_assoc,
        Event.carry] at hrest ⊢
      rw [clear_append_of_eq_nil (clear_colorAt colors place)]
      exact clear_append_congr h (clear_append_congr rfl hrest)
    | escape e => exact ih (clear_activeAfter (hlist e List.mem_cons_self) h) place

/-- What is left where escapes are in force already: with a single grapheme up to the next
reset they are written once, and with none they are not written any more. -/
structure Settles (escapes : List Escape) (list : List Event) : Prop where
  one : escapes = [] ∨ Event.untilReset list = 1 →
    clear (Event.carry escapes list) = clear (escapes.flatMap Escape.source ++ list.flatMap Event.source)
  none : Event.untilReset list = 0 → clear (Event.carry escapes list) = clear (list.flatMap Event.source)

namespace Settles

variable {escapes : List Escape} {rest : List Event}

theorem nil (escapes : List Escape) : Settles escapes [] where
  one := by
    rintro (rfl | hone)
    · rfl
    · cases hone
  none := fun _ => rfl

theorem visible (h : Settles escapes rest) (grapheme : Text) : Settles escapes (.visible grapheme :: rest) where
  one := by
    intro hone
    have hrest : clear (Event.carry escapes rest) = clear (rest.flatMap Event.source) := by
      cases hone with
      | inl hnil =>
        have hempty := h.one (.inl hnil)
        rwa [hnil, List.flatMap_nil, List.nil_append, ← hnil] at hempty
      -- the one grapheme is this one, and none is left up to the reset
      | inr hone => exact h.none (Nat.succ.inj hone)
    rw [Event.carry, List.flatMap_cons, List.append_assoc]
    exact clear_append_congr rfl (clear_append_congr rfl hrest)
  none := fun hzero => by cases hzero

theorem escape {e : Escape} (hmarker : isMarker e.marker) (he : e.isCode ∨ Event.untilReset rest = 1)
    (h : Settles (Event.held escapes e) rest) : Settles escapes (.escape e :: rest) := by
  have hcleared : e.isCode → clear (e.source ++ rest.flatMap Event.source) =
      clear (rest.flatMap Event.source) := fun hcode =>
    clear_append_of_eq_nil (Escape.clear_source hmarker hcode) _
  obtain ⟨hreset, hcode, hheld⟩ | ⟨hreset, hcode, hheld⟩ | ⟨hreset, hcode, hheld⟩ := Event.held_cases escapes e
  · rw [hheld] at h
    have hbehind : clear (Event.carry escapes (.escape e :: rest)) =
        clear (e.source ++ rest.flatMap Event.source) := by
      rw [Event.carry, hheld, h.one (.inl rfl), hcleared hcode]
      rfl
    refine ⟨fun hone => ?_, fun _ => hbehind⟩
    rw [Event.untilReset, if_pos hreset] at hone
    obtain rfl := hone.resolve_right (by decide)
    exact hbehind
  · rw [hheld] at h
    refine ⟨fun hone => ?_, fun hzero => ?_⟩
    · rw [Event.untilReset, if_neg hreset] at hone
      rw [Event.carry, hheld, h.one hone]
      exact clear_append_congr rfl (hcleared hcode).symm
    · rw [Event.untilReset, if_neg hreset] at hzero
      rw [Event.carry, hheld, h.none hzero]
      exact (hcleared hcode).symm
  · -- the escape joins those in force, which the grapheme under it shows with it
    rw [hheld] at h
    have hone := he.resolve_left hcode
    refine ⟨fun _ => ?_, fun hzero => ?_⟩
    · rw [Event.carry, hheld, h.one (.inr hone), List.flatMap_append, List.append_assoc]
      exact congrArg clear (by simp [Event.source])
    · rw [Event.untilReset, if_neg hreset, hone] at hzero
      cases hzero

end Settles

/-- Where every escape that is no code has a single grapheme under it, carrying it there
changes nothing. -/
theorem settles {list : List Event} (hlist : ∀ e, Event.escape e ∈ list → isMarker e.marker)
    (h : Event.loneForOne list) (escapes : List Escape) : Settles escapes list := by
  induction list generalizing escapes with
  | nil => exact .nil escapes
  | cons event rest ih =>
    have ih := ih fun e he => hlist e (List.mem_cons_of_mem _ he)
    cases event with
    | visible grapheme => exact (ih h escapes).visible grapheme
    | escape e =>
      obtain ⟨he, hlater⟩ : (e.isCode ∨ Event.untilReset rest = 1) ∧ Event.loneForOne rest := by
        simpa [Event.loneForOne] using h
      exact .escape (hlist e List.mem_cons_self) he (ih hlater _)

/-- Clearing takes out no character that is part of no tag and no code. -/
theorem count_clear {x : Char} (hx : ∀ word, IsMarkup word → x ∉ word) (text : Text) :
    (clear text).count x = text.count x := by
  have hreach := (endsOnlyIn_clear text).reached
  generalize clear text = cleared at hreach ⊢
  induction hreach with
  | refl => rfl
  | tail _ hstep ih =>
    obtain ⟨before, word, after, hword, rfl, rfl⟩ := hstep
    rw [← ih, List.count_append, List.count_append, List.count_append,
      List.count_eq_zero_of_not_mem (hx word hword), Nat.add_zero]

theorem count_carry (x : Char) (escapes : List Escape) (list : List Event) :
    (Event.carry escapes list).count x =
      (escapes.flatMap Escape.source).count x * Event.untilReset list + Event.copies x list := by
  induction list generalizing escapes with
  | nil => rfl
  | cons event rest ih =>
    cases event with
    | visible grapheme =>
      rw [Event.carry, List.count_append, List.count_append, ih, Event.untilReset, Event.copies, Nat.mul_succ]
      omega
    | escape e =>
      rw [Event.carry, ih, Event.untilReset, Event.copies]
      obtain ⟨hreset, hcode, hheld⟩ | ⟨hreset, hcode, hheld⟩ | ⟨hreset, hcode, hheld⟩ :=
        Event.held_cases escapes e
      · rw [hheld, if_pos hreset, if_pos hcode, List.flatMap_nil, List.count_nil, Nat.zero_mul, Nat.mul_zero,
          Nat.zero_add, Nat.zero_add]
      · rw [hheld, if_neg hreset, if_pos hcode, Nat.zero_add]
      · have hone : [e].flatMap Escape.source = e.source := List.append_nil _
        rw [hheld, if_neg hreset, if_neg hcode, List.flatMap_append, hone, List.count_append, Nat.add_mul,
          Nat.add_assoc]

/-- Painting and clearing leave the graphemes, and in front of each the escapes in force that
are no codes. That is what clearing leaves of the text itself if each of these escapes has a
single grapheme under it. A character outside markup comes out once for every grapheme under
its escape. -/
theorem clear_applyColors (colors : List Color) (content : Text) :
    clear (applyColors colors content) = clear (carried content) ∧
      (Event.loneForOne (events content) → clear (applyColors colors content) = clear content) ∧
      ∀ x, (∀ word, IsMarkup word → x ∉ word) →
        (clear (applyColors colors content)).count x = Event.copies x (events content) := by
  have hmarkers : ∀ e, Event.escape e ∈ events content → isMarker e.marker := fun _ he =>
    Event.isMarker_of_mem_ofGraphemes he
  have hnone : clear (([] : List Escape).flatMap (Escape.render .legacy)) =
      clear (([] : List Escape).flatMap Escape.source) := rfl
  have hcarried : clear (applyColors colors content) = clear (carried content) :=
    clear_paintEvents_eq_carry colors hmarkers hnone 0
  refine ⟨hcarried, fun hone => ?_, fun x hx => ?_⟩
  · have hsame := (settles hmarkers hone []).one (.inl rfl)
    rw [List.flatMap_nil, List.nil_append, source_events] at hsame
    exact hcarried.trans hsame
  · rw [hcarried, count_clear hx, carried, count_carry, List.flatMap_nil, List.count_nil, Nat.zero_mul,
      Nat.zero_add]

/-- The marker that begins no code stands in front of the last grapheme. -/
theorem clear_applyColors_last_grapheme :
    let content := "§la& b".toList
    let colors : List Color := [⟨255, 0, 0⟩, ⟨0, 0, 255⟩]
    Event.loneForOne (events content) ∧ clear (applyColors colors content) = clear content := by
  intro content colors
  have hone : Event.loneForOne (events content) := by decide +kernel
  obtain ⟨-, hsame, -⟩ := clear_applyColors colors content
  exact ⟨hone, hsame hone⟩

/-- A marker and the blank behind it come out in front of both letters. -/
theorem lone_marker_repeated :
    let content := "& ab".toList
    clear (applyColors [⟨255, 0, 0⟩] content) = "& a& b".toList ∧ clear content = content := by
  decide +kernel

end Strip
end ColorMarkup
