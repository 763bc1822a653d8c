import ColorMarkup.Legacy
import ColorMarkup.Proofs.CodeReading
import ColorMarkup.Proofs.ColoredText
/-!
Codes after `&` written with a section sign, compared with the pieces of the text. A
section sign is part of no tag and is no letter of a code, so what is written in front of
one and behind it can be told apart; and codes are where no tag is.
-/
namespace ColorMarkup

section Codes

variable {α : Type} {isMark : Char → Bool} {accept : Char → Option α}

/-- No code reaches over a place unless a marker in front of it meets a letter behind it. -/
theorem readCodes_append_of_boundary {front back : Text}
    (h : ∀ c ∈ front.getLast?, ∀ letter ∈ back.head?, isMark c → accept letter = none) :
    readCodes isMark accept (front ++ back) = readCodes isMark accept front ++ readCodes isMark accept back := by
  have hlater : ∀ {c : Char} {rest : Text},
      (∀ d ∈ (c :: rest).getLast?, ∀ letter ∈ back.head?, isMark d → accept letter = none) →
        ∀ d ∈ rest.getLast?, ∀ letter ∈ back.head?, isMark d → accept letter = none := by
    intro c rest h d hd
    refine h d ?_
    rw [List.getLast?_cons, Option.mem_def.1 hd]
    rfl
  fun_induction readCodes isMark accept front with
  | case1 => rfl
  | case2 d => exact readCodes_cons fun hmark letter hletter => h d rfl letter hletter hmark
  | case3 d letter rest hmark value hvalue ih =>
    rw [List.cons_append, List.cons_append, readCodes, if_pos hmark, hvalue]
    exact congrArg _ (ih (hlater (hlater h)))
  | case4 d letter rest hmark hnone ih =>
    rw [List.cons_append, List.cons_append, readCodes, if_pos hmark, hnone]
    exact congrArg _ (ih (hlater h))
  | case5 d letter rest hmark ih =>
    rw [List.cons_append, List.cons_append, readCodes, if_neg hmark]
    exact congrArg _ (ih (hlater h))

/-- No code reaches over a character that is no letter. -/
theorem readCodes_append {c : Char} (h : accept c = none) (front back : Text) :
    readCodes isMark accept (front ++ c :: back) =
      readCodes isMark accept front ++ readCodes isMark accept (c :: back) := by
  apply readCodes_append_of_boundary
  intro _ _ letter hletter _
  obtain rfl : c = letter := Option.some.inj hletter
  exact h

theorem readCodes_append_of_forall {front : Text} (h : ∀ c ∈ front, ¬ isMark c) (back : Text) :
    readCodes isMark accept (front ++ back) = front.map .plain ++ readCodes isMark accept back := by
  induction front with
  | nil => rfl
  | cons c front ih =>
    have ih := ih fun d hd => h d (List.mem_cons_of_mem _ hd)
    have hc := h c List.mem_cons_self
    rw [List.map_cons, List.cons_append, List.cons_append, ← ih]
    cases front ++ back with
    | nil => rfl
    | cons d rest => rw [readCodes, if_neg hc]

end Codes

theorem of?_section : LegacyCode.of? '§' = none := by decide

namespace Legacy

theorem convertCodes_append_section (front back : Text) :
    convertCodes (front ++ '§' :: back) = convertCodes front ++ convertCodes ('§' :: back) := by
  rw [convertCodes, toSectionCodes, readCodes_append of?_section, List.flatMap_append]
  rfl

theorem convertCodes_append_of_forall {front : Text} (h : ∀ c ∈ front, c ≠ '&') (back : Text) :
    convertCodes (front ++ back) = front ++ convertCodes back := by
  have hmark : ∀ c ∈ front, ¬ (c == '&') = true := by simpa using h
  rw [convertCodes, toSectionCodes, readCodes_append_of_forall hmark, List.flatMap_append,
    List.flatMap_map, List.flatMap_singleton']
  rfl

theorem convertCodes_code {letter : Char} {code : LegacyCode} (h : LegacyCode.of? letter = some code)
    (rest : Text) : convertCodes ('&' :: letter :: rest) = '§' :: letter.toLower :: convertCodes rest :=
  toSectionCodes_code '&' h rest

theorem convertCodes_cons {c : Char} {rest : Text}
    (h : ∀ letter ∈ rest.head?, c = '&' → LegacyCode.of? letter = none) :
    convertCodes (c :: rest) = c :: convertCodes rest :=
  toSectionCodes_cons h

/-- A text starts with a code, or with a character that stays. -/
theorem code_or_plain (c : Char) (rest : Text) :
    (∃ letter later code, c = '&' ∧ rest = letter :: later ∧ LegacyCode.of? letter = some code) ∨
      ∀ letter ∈ rest.head?, c = '&' → LegacyCode.of? letter = none := by
  by_cases hmark : c = '&'
  · cases rest with
    | nil => exact .inr (by simp)
    | cons letter later =>
      cases hcode : LegacyCode.of? letter with
      | some code => exact .inl ⟨letter, later, code, hmark, rfl, hcode⟩
      | none => exact .inr fun letter' hletter' _ => by cases hletter'; exact hcode
  · exact .inr fun _ _ hmark' => absurd hmark' hmark

end Legacy

/-- Where no tag is read, none is read in front of another rest either, if that starts
with no text without section signs but what the first rest starts with. -/
theorem ColorTag.exists_read_error {c : Char} {rest other : Text} {error : TagError}
    (h : read (c :: rest) = .error error)
    (hstart : ∀ word, (∀ d ∈ word, d ≠ '§') → word <+: other → word <+: rest) :
    ∃ error, read (c :: other) = .error error := by
  cases hread : read (c :: other) with
  | error error => exact ⟨error, rfl⟩
  | ok found =>
    obtain ⟨tag, after⟩ := found
    have hsource := eq_of_read hread
    have hplain : ∀ d ∈ tag.source, d ≠ '§' := by
      rintro d hd rfl
      exact not_isMarker_of_mem_source hd (by decide)
    cases htag : tag.source with
    | nil => simp [source, opening] at htag
    | cons d word =>
      rw [htag, List.cons_append, List.cons.injEq] at hsource
      obtain ⟨rfl, rfl⟩ := hsource
      rw [htag] at hplain
      have hword : ∀ d ∈ word, d ≠ '§' := fun d hd => hplain d (List.mem_cons_of_mem _ hd)
      obtain ⟨after', rfl⟩ := hstart word hword (List.prefix_append _ _)
      rw [← List.cons_append, ← htag, read_source_append] at h
      cases h

theorem prefix_of_prefix_append_section {word front back : Text} (hword : ∀ d ∈ word, d ≠ '§')
    (h : word <+: front ++ '§' :: back) : word <+: front := by
  induction front generalizing word with
  | nil =>
    cases word with
    | nil => exact List.nil_prefix
    | cons d word => exact absurd (List.cons_prefix_cons.1 h).1 (hword d List.mem_cons_self)
  | cons c front ih =>
    cases word with
    | nil => exact List.nil_prefix
    | cons d word =>
      obtain ⟨rfl, hrest⟩ := List.cons_prefix_cons.1 h
      exact List.cons_prefix_cons.2 ⟨rfl, ih (fun e he => hword e (List.mem_cons_of_mem _ he)) hrest⟩

/-- No tag reaches over a section sign. -/
theorem tagPieces_append_section (front back : Text) :
    tagPieces (front ++ '§' :: back) = tagPieces front ++ tagPieces ('§' :: back) := by
  fun_induction tagPieces front with
  | case1 => rfl
  | case2 c rest tag after h _ ih =>
    rw [ColorTag.eq_of_read h, List.append_assoc, tagPieces_source_append, ih]
    rfl
  | case3 c rest error h ih =>
    have hstart : ∀ word : Text, (∀ d ∈ word, d ≠ '§') → word <+: rest ++ '§' :: back → word <+: rest :=
      fun _ => prefix_of_prefix_append_section
    obtain ⟨error, herror⟩ := ColorTag.exists_read_error h hstart
    rw [List.cons_append, tagPieces_cons_of_error herror, ih]
    rfl

theorem prefix_of_prefix_convertCodes {word text : Text} (hword : ∀ d ∈ word, d ≠ '§')
    (h : word <+: Legacy.convertCodes text) : word <+: text := by
  induction text generalizing word with
  | nil => exact h
  | cons c text ih =>
    cases word with
    | nil => exact List.nil_prefix
    | cons d word =>
      rcases Legacy.code_or_plain c text with ⟨letter, later, code, rfl, rfl, hcode⟩ | hplain
      · rw [Legacy.convertCodes_code hcode] at h
        exact absurd (List.cons_prefix_cons.1 h).1 (hword d List.mem_cons_self)
      · rw [Legacy.convertCodes_cons hplain] at h
        obtain ⟨rfl, hrest⟩ := List.cons_prefix_cons.1 h
        exact List.cons_prefix_cons.2 ⟨rfl, ih (fun e he => hword e (List.mem_cons_of_mem _ he)) hrest⟩

/-- Writing codes in another way makes no tags. -/
theorem tagPieces_convertCodes_cons {c : Char} {rest : Text} {error : TagError}
    (h : ColorTag.read (c :: rest) = .error error) :
    tagPieces (c :: Legacy.convertCodes rest) = .plain c :: tagPieces (Legacy.convertCodes rest) := by
  obtain ⟨error, herror⟩ := ColorTag.exists_read_error h fun _ => prefix_of_prefix_convertCodes
  exact tagPieces_cons_of_error herror

theorem ne_brace_of_of? {letter : Char} {code : LegacyCode} (h : LegacyCode.of? letter = some code) :
    letter ≠ '{' := by
  rintro rfl
  exact absurd (exists_of?_iff.1 ⟨code, h⟩) (by decide)

theorem not_isMarker_of_of? {letter : Char} {code : LegacyCode} (h : LegacyCode.of? letter = some code) :
    ¬ isMarker letter := by
  rw [isMarker_iff]
  rintro (rfl | rfl) <;> exact absurd (exists_of?_iff.1 ⟨code, h⟩) (by decide)

theorem tagPieces_code {marker letter : Char} {code : LegacyCode} (hmarker : isMarker marker)
    (h : LegacyCode.of? letter = some code) (rest : Text) :
    tagPieces (marker :: letter :: rest) = .plain marker :: .plain letter :: tagPieces rest := by
  have hbrace : marker ≠ '{' := by
    rintro rfl
    exact absurd hmarker (by decide)
  rw [tagPieces_cons_of_ne hbrace, tagPieces_cons_of_ne (ne_brace_of_of? h)]

section Induction

variable {motive : Text → Prop} (nil : motive [])
  (tag : ∀ (t : ColorTag) (rest : Text), motive rest → motive (t.source ++ rest))
  (code : ∀ (marker letter : Char) (code : LegacyCode) (rest : Text), isMarker marker →
    LegacyCode.of? letter = some code → motive rest → motive (marker :: letter :: rest))
  (plain : ∀ (c : Char) (rest : Text) (error : TagError), ColorTag.read (c :: rest) = .error error →
    (∀ letter ∈ rest.head?, isMarker c → LegacyCode.of? letter = none) → motive rest →
    motive (c :: rest))
include nil tag code plain

/-- Induction on a text as tags, codes and other characters. -/
theorem text_induction (text : Text) : motive text := by
  induction hn : text.length using Nat.strongRecOn generalizing text with
  | ind n ih =>
    subst hn
    cases text with
    | nil => exact nil
    | cons c rest =>
      cases hread : ColorTag.read (c :: rest) with
      | ok found =>
        have hlength := ColorTag.length_of_read hread
        have hrest := ih _ hlength found.2 rfl
        rw [ColorTag.eq_of_read hread]
        exact tag found.1 found.2 hrest
      | error error =>
        have hrest := ih rest.length (Nat.lt_succ_self _) rest rfl
        by_cases hcode : ∀ letter ∈ rest.head?, isMarker c → LegacyCode.of? letter = none
        · exact plain c rest error hread hcode hrest
        · cases rest with
          | nil => simp at hcode
          | cons letter later =>
            have hboth : isMarker c ∧ LegacyCode.of? letter ≠ none := by simpa using hcode
            obtain ⟨hmarker, hletter⟩ := hboth
            obtain ⟨found, hfound⟩ := Option.ne_none_iff_exists'.1 hletter
            have hlater := ih later.length (by simp only [List.length_cons]; omega) later rfl
            exact code c letter found later hmarker hfound hlater

end Induction

theorem head?_convertCodes {text : Text} {d : Char} (h : d ∈ (Legacy.convertCodes text).head?) :
    d = '§' ∨ d ∈ text.head? := by
  cases text with
  | nil => exact .inr h
  | cons c rest =>
    rcases Legacy.code_or_plain c rest with ⟨letter, later, code, rfl, rfl, hcode⟩ | hplain
    · rw [Legacy.convertCodes_code hcode] at h
      exact .inl (Option.some.inj h).symm
    · rw [Legacy.convertCodes_cons hplain] at h
      exact .inr h

end ColorMarkup
