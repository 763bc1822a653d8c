import ColorMarkup.Code.Reading
/-!
Which letters have a meaning after a marker, and what reading a text for codes finds.
-/
namespace ColorMarkup

/-- The letters that set the colour, in lower case. -/
def colorLetters : Text := "0123456789abcdefx".toList
/-- The letters about decorations, in lower case. -/
def formatLetters : Text := "klmnor".toList

theorem isMarker_iff {c : Char} : isMarker c ↔ c = '&' ∨ c = '§' := by simp [isMarker]

theorem exists_ofCode?_iff {c : Char} :
    (∃ color, NamedColor.ofCode? c = some color) ↔ c.toLower ∈ "0123456789abcdef".toList := by
  have hcodes : "0123456789abcdef".toList = NamedColor.all.map NamedColor.code := by decide
  rw [hcodes, List.mem_map, ← Option.isSome_iff_exists, NamedColor.ofCode?, List.find?_isSome]
  simp only [decide_eq_true_eq]

theorem exists_colorOf?_iff {c : Char} :
    (∃ code, LegacyCode.colorOf? c = some code) ↔ c.toLower ∈ colorLetters := by
  have hletters : colorLetters = "0123456789abcdef".toList ++ ['x'] := rfl
  rw [hletters, List.mem_append, ← exists_ofCode?_iff, LegacyCode.colorOf?]
  cases NamedColor.ofCode? c with
  | some color => simp
  | none => by_cases hx : c.toLower = 'x' <;> simp [hx]

theorem exists_formatOf?_iff {c : Char} :
    (∃ code, LegacyCode.formatOf? c = some code) ↔ c.toLower ∈ formatLetters := by
  have hformat : (FormatCode.ofCode? c).isSome ↔ c.toLower ∈ formatLetters := by
    have hcodes : formatLetters = FormatCode.all.map FormatCode.code := by decide
    rw [hcodes, List.mem_map, FormatCode.ofCode?, List.find?_isSome]
    simp only [decide_eq_true_eq]
  rw [← hformat, LegacyCode.formatOf?]
  cases FormatCode.ofCode? c <;> simp

theorem exists_of?_iff {c : Char} :
    (∃ code, LegacyCode.of? c = some code) ↔ c.toLower ∈ colorLetters ++ formatLetters := by
  rw [List.mem_append, ← exists_colorOf?_iff, ← exists_formatOf?_iff, LegacyCode.of?]
  cases LegacyCode.colorOf? c <;> simp

theorem toLower_eq_of_hex {c : Char} (h : LegacyCode.of? c = some .hex) : c.toLower = 'x' := by
  rw [LegacyCode.of?, LegacyCode.colorOf?] at h
  cases hcolor : NamedColor.ofCode? c with
  | some named => simp [hcolor] at h
  | none =>
    by_cases hx : c.toLower = 'x'
    · exact hx
    · simp [hcolor, hx, LegacyCode.formatOf?] at h

/-- The case of a letter does not matter. -/
theorem of?_congr {c d : Char} (h : c.toLower = d.toLower) : LegacyCode.of? c = LegacyCode.of? d := by
  simp only [LegacyCode.of?, LegacyCode.colorOf?, LegacyCode.formatOf?, NamedColor.ofCode?,
    FormatCode.ofCode?, h]

theorem of?_toLower {c : Char} {code : LegacyCode} (h : LegacyCode.of? c = some code) :
    LegacyCode.of? c.toLower = some code := by
  have hlower : (colorLetters ++ formatLetters).all fun c => c.toLower = c := by decide
  have hletter := List.all_eq_true.1 hlower _ (exists_of?_iff.1 ⟨code, h⟩)
  rw [of?_congr (of_decide_eq_true hletter), h]

variable {α : Type} {isMark : Char → Bool} {accept : Char → Option α}

/-- A character that does not begin a code stands for itself. -/
theorem readCodes_cons {c : Char} {rest : Text}
    (h : isMark c → ∀ letter ∈ rest.head?, accept letter = none) :
    readCodes isMark accept (c :: rest) = .plain c :: readCodes isMark accept rest := by
  cases rest with
  | nil => rfl
  | cons letter rest =>
    rw [readCodes]
    by_cases hmark : isMark c
    · rw [if_pos hmark, h hmark letter rfl]
    · rw [if_neg hmark]

theorem of_mem_readCodes {text : Text} {marker letter : Char} {value : α}
    (h : .code marker letter value ∈ readCodes isMark accept text) :
    isMark marker ∧ accept letter = some value := by
  fun_induction readCodes isMark accept text with
  | case1 => cases h
  | case2 c => simp at h
  | case3 c letter' rest hmark found haccept ih =>
    cases List.mem_cons.1 h with
    | inl h =>
      cases h
      exact ⟨hmark, haccept⟩
    | inr h => exact ih h
  | case4 c letter' rest _ _ ih => exact ih (by simpa using h)
  | case5 c letter' rest _ ih => exact ih (by simpa using h)

theorem toSectionCodes_code (alt : Char) {letter : Char} {code : LegacyCode} (h : LegacyCode.of? letter = some code)
    (rest : Text) : toSectionCodes alt (alt :: letter :: rest) = '§' :: letter.toLower :: toSectionCodes alt rest := by
  rw [toSectionCodes, readCodes, if_pos (beq_self_eq_true alt), h]
  rfl

theorem toSectionCodes_cons {alt c : Char} {rest : Text}
    (h : ∀ letter ∈ rest.head?, c = alt → LegacyCode.of? letter = none) :
    toSectionCodes alt (c :: rest) = c :: toSectionCodes alt rest := by
  have hread : readCodes (· == alt) LegacyCode.of? (c :: rest) =
      .plain c :: readCodes (· == alt) LegacyCode.of? rest :=
    readCodes_cons fun hmark letter hletter => h letter hletter (eq_of_beq hmark)
  rw [toSectionCodes, hread]
  rfl

end ColorMarkup
