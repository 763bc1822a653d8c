import ColorMarkup.Proofs.CodeReading
/-!
Codes written with a section sign, place by place. Reading from left to right passes over the letter of
each code, but what is written at a place only depends on the characters before, at and behind it. From
this rule no code is left, and writing a second time changes nothing.
-/
namespace ColorMarkup

/-- A letter that has a meaning after a marker, in either case. -/
def isCodeLetter (c : Char) : Bool := (colorLetters ++ formatLetters).contains c.toLower

theorem isCodeLetter_iff {c : Char} : isCodeLetter c ↔ ∃ code, LegacyCode.of? c = some code := by
  rw [isCodeLetter, List.contains_iff_mem, exists_of?_iff]

theorem isCodeLetter_toLower {c : Char} (h : isCodeLetter c) : isCodeLetter c.toLower := by
  obtain ⟨code, hcode⟩ := isCodeLetter_iff.1 h
  exact isCodeLetter_iff.2 ⟨code, of?_toLower hcode⟩

theorem toLower_toLower {c : Char} (h : isCodeLetter c) : c.toLower.toLower = c.toLower := by
  have hlower : (colorLetters ++ formatLetters).all fun letter => letter.toLower = letter := by decide
  exact of_decide_eq_true (List.all_eq_true.1 hlower _ (List.contains_iff_mem.1 h))

/-- What is written for a character between its neighbours. -/
def sectionChar (alt : Char) (previous : Option Char) (c : Char) (next : Option Char) : Char :=
  if c = alt ∧ next.any isCodeLetter then '§'
  else if isCodeLetter c ∧ previous = some alt then c.toLower
  else c

/-- What is written for each character of a text, the first of which stands behind `previous`. -/
def sectionChars (alt : Char) (previous : Option Char) : Text → Text
  | [] => []
  | c :: rest => sectionChar alt previous c rest.head? :: sectionChars alt (some c) rest

theorem length_sectionChars (alt : Char) (previous : Option Char) (text : Text) :
    (sectionChars alt previous text).length = text.length := by
  induction text generalizing previous with
  | nil => rfl
  | cons c rest ih => rw [sectionChars, List.length_cons, List.length_cons, ih]

/-- The character in front of a place of a text that stands behind `previous`. -/
def charBefore? (previous : Option Char) (text : Text) : Nat → Option Char
  | 0 => previous
  | place + 1 => text[place]?

theorem getElem?_sectionChars (alt : Char) (previous : Option Char) (text : Text) (place : Nat) :
    (sectionChars alt previous text)[place]? = text[place]?.map fun c =>
      sectionChar alt (charBefore? previous text place) c text[place + 1]? := by
  induction text generalizing previous place with
  | nil => rfl
  | cons c rest ih =>
    cases place with
    | zero =>
      rw [sectionChars, List.getElem?_cons_zero, List.getElem?_cons_zero, List.getElem?_cons_succ,
        ← List.head?_eq_getElem?]
      rfl
    | succ place =>
      rw [sectionChars, List.getElem?_cons_succ, List.getElem?_cons_succ, List.getElem?_cons_succ, ih]
      cases place <;> rfl

section

variable {alt : Char} {previous next : Option Char} {c : Char}

theorem sectionChar_eq_self (hmark : ¬ (c = alt ∧ next.any isCodeLetter))
    (hletter : ¬ (isCodeLetter c ∧ previous = some alt)) : sectionChar alt previous c next = c := by
  rw [sectionChar, if_neg hmark, if_neg hletter]

/-- The letter of a code is no marker, so each place belongs to at most one code. -/
theorem toSectionCodes_eq_sectionChars (halt : ¬ isCodeLetter alt) {text : Text}
    (h : previous = some alt → ¬ text.head?.any isCodeLetter) :
    toSectionCodes alt text = sectionChars alt previous text := by
  have hother : ∀ {letter : Char}, isCodeLetter letter → letter ≠ alt := by
    rintro letter hletter rfl
    exact halt hletter
  -- the reader does not see `previous`; `h` says that no code has begun there
  fun_induction readCodes (· == alt) LegacyCode.of? text generalizing previous with
  | case1 => rfl
  | case2 c =>
    have hc : sectionChar alt previous c none = c :=
      sectionChar_eq_self (by simp) fun hcode => h hcode.2 hcode.1
    rw [sectionChars, List.head?_nil, hc]
    rfl
  | case3 c letter rest hmark code hcode ih =>
    obtain rfl : c = alt := eq_of_beq hmark
    have hletter : isCodeLetter letter := isCodeLetter_iff.2 ⟨code, hcode⟩
    have hsection : sectionChar c previous c (some letter) = '§' := if_pos ⟨rfl, hletter⟩
    have hlower : sectionChar c (some c) letter rest.head? = letter.toLower := by
      rw [sectionChar, if_neg fun hmark => hother hletter hmark.1, if_pos ⟨hletter, rfl⟩]
    have hrest := ih fun hprevious => absurd (Option.some.inj hprevious) (hother hletter)
    rw [toSectionCodes_code c hcode, sectionChars, sectionChars, List.head?_cons, hsection, hlower, hrest]
  | case4 c letter rest hmark hnone ih =>
    obtain rfl : c = alt := eq_of_beq hmark
    have hletter : ¬ isCodeLetter letter := by simp [isCodeLetter_iff, hnone]
    have hc : sectionChar c previous c (some letter) = c :=
      sectionChar_eq_self (fun hmark => hletter hmark.2) fun hcode => halt hcode.1
    rw [toSectionCodes_cons fun d hd _ => by rwa [← Option.some.inj hd], sectionChars, List.head?_cons, hc,
      ih fun _ => hletter]
  | case5 c letter rest hmark ih =>
    have hne : c ≠ alt := fun heq => hmark (beq_iff_eq.2 heq)
    have hc : sectionChar alt previous c (some letter) = c :=
      sectionChar_eq_self (fun hcode => hne hcode.1) fun hcode => h hcode.2 hcode.1
    rw [toSectionCodes_cons fun _ _ heq => absurd heq hne, sectionChars, List.head?_cons, hc,
      ih fun hprevious => absurd (Option.some.inj hprevious) hne]

theorem toSectionCodes_eq (halt : ¬ isCodeLetter alt) (text : Text) :
    toSectionCodes alt text = sectionChars alt none text :=
  toSectionCodes_eq_sectionChars halt fun hnone => by cases hnone

theorem sectionChar_cases (alt : Char) (previous : Option Char) (c : Char) (next : Option Char) :
    (c = alt ∧ next.any isCodeLetter ∧ sectionChar alt previous c next = '§') ∨
    (isCodeLetter c ∧ previous = some alt ∧ sectionChar alt previous c next = c.toLower) ∨
    (¬ (c = alt ∧ next.any isCodeLetter) ∧ sectionChar alt previous c next = c) := by
  by_cases hmark : c = alt ∧ next.any isCodeLetter
  · exact .inl ⟨hmark.1, hmark.2, if_pos hmark⟩
  · by_cases hletter : isCodeLetter c ∧ previous = some alt
    · exact .inr (.inl ⟨hletter.1, hletter.2, by rw [sectionChar, if_neg hmark, if_pos hletter]⟩)
    · exact .inr (.inr ⟨hmark, sectionChar_eq_self hmark hletter⟩)

/-- Letters of codes are written where letters of codes were. -/
theorem isCodeLetter_sectionChar (halt : ¬ isCodeLetter alt) :
    isCodeLetter (sectionChar alt previous c next) = isCodeLetter c := by
  obtain ⟨rfl, -, h⟩ | ⟨hletter, -, h⟩ | ⟨-, h⟩ := sectionChar_cases alt previous c next
  · rw [h, Bool.eq_false_iff.2 halt]
    decide
  · rw [h, hletter, isCodeLetter_toLower hletter]
  · rw [h]

theorem any_head?_sectionChars (halt : ¬ isCodeLetter alt) (text : Text) :
    (sectionChars alt previous text).head?.any isCodeLetter = text.head?.any isCodeLetter := by
  cases text with
  | nil => rfl
  | cons c rest => exact isCodeLetter_sectionChar halt

/-- A marker is only written for itself. -/
theorem eq_of_sectionChar_eq (halt : ¬ isCodeLetter alt) (h : sectionChar alt previous c next = alt) :
    c = alt ∧ (next.any isCodeLetter → alt = '§') := by
  obtain ⟨hc, -, hsection⟩ | ⟨hletter, -, hlower⟩ | ⟨hmark, hself⟩ := sectionChar_cases alt previous c next
  · exact ⟨hc, fun _ => h.symm.trans hsection⟩
  · rw [h] at hlower
    exact absurd (hlower ▸ isCodeLetter_toLower hletter) halt
  · have hc : c = alt := hself.symm.trans h
    exact ⟨hc, fun hnext => absurd ⟨hc, hnext⟩ hmark⟩

theorem not_infix_sectionChars (halt : ¬ isCodeLetter alt) (hne : alt ≠ '§') {letter : Char}
    (hletter : isCodeLetter letter) (text : Text) : ¬ [alt, letter] <:+: sectionChars alt previous text := by
  induction text generalizing previous with
  | nil => exact fun h => absurd (List.infix_nil.1 h) (List.cons_ne_nil _ _)
  | cons c rest ih =>
    intro h
    rw [sectionChars, List.infix_cons_iff] at h
    cases h with
    | inl hprefix =>
      obtain ⟨hchar, after, hafter⟩ := List.cons_prefix_cons.1 hprefix
      have hnext : (sectionChars alt (some c) rest).head?.any isCodeLetter = rest.head?.any isCodeLetter :=
        any_head?_sectionChars halt rest
      rw [← hafter] at hnext
      exact hne ((eq_of_sectionChar_eq halt hchar.symm).2 (hnext.symm.trans hletter))
    | inr hlater => exact ih hlater

theorem not_infix_toSectionCodes (halt : ¬ isCodeLetter alt) (hne : alt ≠ '§') {letter : Char}
    (hletter : isCodeLetter letter) (text : Text) : ¬ [alt, letter] <:+: toSectionCodes alt text := by
  rw [toSectionCodes_eq halt]
  exact not_infix_sectionChars halt hne hletter text

/-- A second time the rule changes nothing, if it sees a marker only where it saw one the first time. -/
theorem sectionChar_sectionChar (halt : ¬ isCodeLetter alt) {previous' next' : Option Char}
    (hprevious : previous' = some alt → previous = some alt)
    (hnext : next'.any isCodeLetter = next.any isCodeLetter) :
    sectionChar alt previous' (sectionChar alt previous c next) next' = sectionChar alt previous c next := by
  obtain ⟨hmark, hafter, h⟩ | ⟨hletter, hbefore, h⟩ | ⟨-, h⟩ :=
    sectionChar_cases alt previous' (sectionChar alt previous c next) next'
  · rw [h, hmark]
    exact ((eq_of_sectionChar_eq halt hmark).2 (hnext ▸ hafter)).symm
  · rw [isCodeLetter_sectionChar halt] at hletter
    have hlower : sectionChar alt previous c next = c.toLower := by
      rw [sectionChar, if_neg, if_pos ⟨hletter, hprevious hbefore⟩]
      rintro ⟨rfl, -⟩
      exact halt hletter
    rw [h, hlower, toLower_toLower hletter]
  · exact h

theorem sectionChars_sectionChars (halt : ¬ isCodeLetter alt) {previous' : Option Char}
    (hprevious : previous' = some alt → previous = some alt) (text : Text) :
    sectionChars alt previous' (sectionChars alt previous text) = sectionChars alt previous text := by
  induction text generalizing previous previous' with
  | nil => rfl
  | cons c rest ih =>
    have hlater : some (sectionChar alt previous c rest.head?) = some alt → some c = some alt := fun h => by
      rw [(eq_of_sectionChar_eq halt (Option.some.inj h)).1]
    rw [sectionChars, sectionChars, ih hlater,
      sectionChar_sectionChar halt hprevious (any_head?_sectionChars halt rest)]

end

/-- A marker that is no letter of a code is written as a section sign where a letter of a code is behind
it, such a letter in lower case where the marker is in front of it, and every other character as it is. So
no marker but a section sign is left in front of such a letter, and a second time nothing is changed. -/
theorem codes_written_by_place {alt : Char} (halt : ¬ isCodeLetter alt) (text : Text) :
    (toSectionCodes alt text).length = text.length ∧
    (∀ (place : Nat) (c : Char), text[place]? = some c → (toSectionCodes alt text)[place]? = some
      (if c = alt ∧ text[place + 1]?.any isCodeLetter then '§'
        else if isCodeLetter c ∧ 0 < place ∧ text[place - 1]? = some alt then c.toLower
        else c)) ∧
    (alt ≠ '§' → ∀ letter, isCodeLetter letter → ¬ [alt, letter] <:+: toSectionCodes alt text) ∧
    toSectionCodes alt (toSectionCodes alt text) = toSectionCodes alt text := by
  have hrule := toSectionCodes_eq halt text
  refine ⟨?_, fun place c hc => ?_, fun hne _ hletter => not_infix_toSectionCodes halt hne hletter text, ?_⟩
  · rw [hrule, length_sectionChars]
  · have hbefore : charBefore? none text place = some alt ↔ 0 < place ∧ text[place - 1]? = some alt := by
      cases place <;> simp [charBefore?]
    rw [hrule, getElem?_sectionChars, hc, Option.map_some, sectionChar]
    simp only [hbefore]
  · rw [toSectionCodes_eq halt, hrule]
    exact sectionChars_sectionChars halt id text

/-- Two markers in front of a letter, a code behind a section sign, and a marker at the end. -/
theorem codes_written_by_place_runs :
    let text : Text := "&&C&z§A&L&".toList
    ¬ isCodeLetter '&' ∧ toSectionCodes '&' text = "&§c&z§A§l&".toList ∧
      (toSectionCodes '&' text)[2]? = some 'c' ∧
      toSectionCodes '&' (toSectionCodes '&' text) = toSectionCodes '&' text := by
  intro text
  have halt : ¬ isCodeLetter '&' := by decide
  obtain ⟨-, hplaces, -, hagain⟩ := codes_written_by_place halt text
  exact ⟨halt, by decide, hplaces 2 'C' rfl, hagain⟩

end ColorMarkup
