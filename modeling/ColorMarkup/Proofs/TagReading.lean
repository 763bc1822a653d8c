import ColorMarkup.ColorTag.Markup
/-!
Reading colour tags in front of any text. A tag that is written at the start of a
text is read back whole and with nothing after it touched; since only an opening
brace starts a tag, a text falls into tags and plain characters at its braces.
-/
namespace ColorMarkup

theorem Text.forall_mem_of_all {p : Char → Prop} [DecidablePred p] {text : Text}
    (h : text.all fun c => decide (p c)) : ∀ c ∈ text, p c := by simpa using h

/-- A hexadecimal digit in either case. -/
def IsHexDigit (c : Char) : Prop :=
  ('0' ≤ c ∧ c ≤ '9') ∨ ('a' ≤ c ∧ c ≤ 'f') ∨ ('A' ≤ c ∧ c ≤ 'F')

instance (c : Char) : Decidable (IsHexDigit c) := inferInstanceAs (Decidable (_ ∨ _))

theorem exists_hexValue?_iff {c : Char} : (∃ n, hexValue? c = some n) ↔ IsHexDigit c := by
  rw [hexValue?, IsHexDigit]
  split
  · next h => exact ⟨fun _ => .inl h, fun _ => ⟨_, rfl⟩⟩
  · next hdecimal =>
    split
    · next h => exact ⟨fun _ => .inr (.inl h), fun _ => ⟨_, rfl⟩⟩
    · next hlower =>
      split
      · next h => exact ⟨fun _ => .inr (.inr h), fun _ => ⟨_, rfl⟩⟩
      · next hupper => simp [hdecimal, hlower, hupper]

namespace Color

theorem exists_channel?_iff {high low : Char} :
    (∃ value, channel? high low = some value) ↔ IsHexDigit high ∧ IsHexDigit low := by
  rw [channel?, ← exists_hexValue?_iff, ← exists_hexValue?_iff]
  cases hexValue? high <;> cases hexValue? low <;> simp

theorem exists_of_length_six {digits : Text} (h : digits.length = 6) :
    ∃ r r' g g' b b', digits = [r, r', g, g', b, b'] := by
  match digits, h with
  | [r, r', g, g', b, b'], _ => exact ⟨r, r', g, g', b, b', rfl⟩

/-- Six hexadecimal digits denote a colour, and nothing else does. -/
theorem exists_ofHex?_iff {digits : Text} :
    (∃ color, ofHex? digits = some color) ↔ digits.length = 6 ∧ ∀ d ∈ digits, IsHexDigit d := by
  constructor
  · rintro ⟨color, h⟩
    rw [ofHex?.eq_def] at h
    split at h
    · next r r' g g' b b' =>
      split at h
      · next red green blue hred hgreen hblue =>
        have hr := exists_channel?_iff.1 ⟨red, hred⟩
        have hg := exists_channel?_iff.1 ⟨green, hgreen⟩
        have hb := exists_channel?_iff.1 ⟨blue, hblue⟩
        simp [hr, hg, hb]
      · cases h
    · cases h
  · rintro ⟨hlength, hdigits⟩
    obtain ⟨r, r', g, g', b, b', rfl⟩ := exists_of_length_six hlength
    simp only [List.mem_cons, List.not_mem_nil, or_false, forall_eq_or_imp, forall_eq] at hdigits
    obtain ⟨hr, hr', hg, hg', hb, hb'⟩ := hdigits
    obtain ⟨red, hred⟩ := exists_channel?_iff.2 ⟨hr, hr'⟩
    obtain ⟨green, hgreen⟩ := exists_channel?_iff.2 ⟨hg, hg'⟩
    obtain ⟨blue, hblue⟩ := exists_channel?_iff.2 ⟨hb, hb'⟩
    exact ⟨⟨red, green, blue⟩, by simp [ofHex?, hred, hgreen, hblue]⟩

/-- A colour is written with digits from 0 to f. -/
theorem exists_digitChar_of_mem_toHex {color : Color} {c : Char} (h : c ∈ color.toHex) :
    ∃ n < 16, c = n.digitChar := by
  have hchannel : ∀ value : UInt8, c ∈ channelHex value → ∃ n < 16, c = n.digitChar := by
    intro value hc
    have hlt := value.toNat_lt
    simp only [channelHex, List.mem_cons, List.not_mem_nil, or_false] at hc
    rcases hc with rfl | rfl
    · exact ⟨value.toNat / 16, by omega, rfl⟩
    · exact ⟨value.toNat % 16, by omega, rfl⟩
  simp only [toHex, List.mem_append] at h
  rcases h with (h | h) | h
  · exact hchannel _ h
  · exact hchannel _ h
  · exact hchannel _ h

end Color

theorem TagForm.mem_endings_iff {ending : Text} :
    ending ∈ [['}'], ['>', '}'], ['<', '}'], ['<', '>', '}']] ↔ ∃ form : TagForm, form.ending = ending := by
  constructor
  · intro h
    simp only [List.mem_cons, List.not_mem_nil, or_false] at h
    rcases h with rfl | rfl | rfl | rfl
    · exact ⟨.single, rfl⟩
    · exact ⟨.opener, rfl⟩
    · exact ⟨.closer, rfl⟩
    · exact ⟨.joint, rfl⟩
  · rintro ⟨form, rfl⟩
    cases form <;> simp [TagForm.ending]

/-- The endings exclude each other: none is the start of another. -/
theorem TagForm.eq_of_ending_start {form other : TagForm} {rest : Text}
    (h : form.ending.isPrefixOf (other.ending ++ rest)) : form = other := by
  cases form <;> cases other <;> first | rfl | simp [TagForm.ending, List.isPrefixOf] at h

/-- A tag is no tag of another form. -/
theorem TagForm.read_source_of_ne {form : TagForm} (tag : ColorTag) (rest : Text)
    (h : tag.form ≠ form) : ∃ error, form.read (tag.source ++ rest) = .error error := by
  refine ⟨⟨.literal, tag.form.ending ++ rest⟩, ?_⟩
  have hending : readLiteral form.ending (tag.form.ending ++ rest) =
      .error ⟨.literal, tag.form.ending ++ rest⟩ := by
    rw [readLiteral, if_neg fun hstart => h (eq_of_ending_start hstart).symm]
  simp only [read, ColorTag.source, List.append_assoc, readLiteral_append, readDigits_append,
    hending, bind, Except.bind]

namespace ColorTag

theorem read_source_append (tag : ColorTag) (rest : Text) :
    read (tag.source ++ rest) = .ok (tag, rest) := by
  have hown := TagForm.read_source tag rest
  have hother : ∀ form, tag.form ≠ form → ∃ error, form.read (tag.source ++ rest) = .error error :=
    fun form h => TagForm.read_source_of_ne tag rest h
  rw [read]
  cases hform : tag.form with
  | single =>
    rw [hform] at hown
    rw [hown]
    rfl
  | opener =>
    obtain ⟨_, hsingle⟩ := hother .single (by simp [hform])
    rw [hform] at hown
    rw [hown, hsingle]
    rfl
  | closer =>
    obtain ⟨_, hsingle⟩ := hother .single (by simp [hform])
    obtain ⟨_, hopener⟩ := hother .opener (by simp [hform])
    rw [hform] at hown
    rw [hown, hsingle, hopener]
    rfl
  | joint =>
    obtain ⟨_, hsingle⟩ := hother .single (by simp [hform])
    obtain ⟨_, hopener⟩ := hother .opener (by simp [hform])
    obtain ⟨_, hcloser⟩ := hother .closer (by simp [hform])
    rw [hform] at hown
    rw [hown, hsingle, hopener, hcloser]
    rfl

/-- Two tags at the start of one text are the same tag. -/
theorem eq_of_source_append {tag tag' : ColorTag} {s t : Text}
    (h : tag.source ++ s = tag'.source ++ t) : tag = tag' ∧ s = t := by
  have hread := read_source_append tag s
  rw [h, read_source_append] at hread
  cases hread
  exact ⟨rfl, rfl⟩

theorem read_error_of_ne {c : Char} (h : c ≠ '{') (rest : Text) :
    ∃ error, read (c :: rest) = .error error := by
  cases hread : read (c :: rest) with
  | error error => exact ⟨error, rfl⟩
  | ok found =>
    obtain ⟨tag, after⟩ := found
    have hsource := eq_of_read hread
    simp only [source, opening, List.cons_append, List.cons.injEq] at hsource
    exact absurd hsource.1 h

end ColorTag

theorem HexDigits.isHexDigit (digits : HexDigits) : ∀ d ∈ digits.text, IsHexDigit d :=
  (Color.exists_ofHex?_iff.1 ⟨digits.color, digits.denotes⟩).2

/-- A tag of one form as it is written, its digits in either case. -/
def IsTagOf (form : TagForm) (word : Text) : Prop :=
  ∃ digits : Text, digits.length = 6 ∧ (∀ d ∈ digits, IsHexDigit d) ∧ word = '{' :: '#' :: digits ++ form.ending

theorem isTagOf_iff {form : TagForm} {word : Text} :
    IsTagOf form word ↔ ∃ digits : HexDigits, word = (ColorTag.mk form digits).source := by
  constructor
  · rintro ⟨digits, hlength, hdigits, rfl⟩
    obtain ⟨color, hcolor⟩ := Color.exists_ofHex?_iff.2 ⟨hlength, hdigits⟩
    exact ⟨⟨digits, color, hcolor⟩, rfl⟩
  · rintro ⟨digits, rfl⟩
    exact ⟨digits.text, digits.length_text, digits.isHexDigit, rfl⟩

theorem ColorTag.cases_of_mem_source {tag : ColorTag} {c : Char} (h : c ∈ tag.source) :
    IsHexDigit c ∨ c ∈ ['{', '#', '<', '>', '}'] := by
  rw [source, List.mem_append, List.mem_append] at h
  rcases h with h | h | h
  · exact .inr (List.mem_append_left ['<', '>', '}'] h)
  · exact .inl (tag.digits.isHexDigit c h)
  · have hending : ∀ form : TagForm, form.ending ⊆ ['{', '#', '<', '>', '}'] := by
      intro form
      cases form <;> simp [TagForm.ending]
    exact .inr (hending tag.form h)

theorem tagPieces_cons_of_error {c : Char} {rest : Text} {error : TagError}
    (h : ColorTag.read (c :: rest) = .error error) :
    tagPieces (c :: rest) = .plain c :: tagPieces rest := by
  rw [tagPieces]
  split
  · next hread => rw [h] at hread; cases hread
  · rfl

theorem tagPieces_cons_of_ne {c : Char} (h : c ≠ '{') (rest : Text) :
    tagPieces (c :: rest) = .plain c :: tagPieces rest := by
  obtain ⟨error, herror⟩ := ColorTag.read_error_of_ne h rest
  exact tagPieces_cons_of_error herror

theorem tagPieces_source_append (tag : ColorTag) (rest : Text) :
    tagPieces (tag.source ++ rest) = .tag tag :: tagPieces rest := by
  have hread := ColorTag.read_source_append tag rest
  have hcons : tag.source ++ rest =
      '{' :: ('#' :: (tag.digits.text ++ tag.form.ending) ++ rest) := rfl
  rw [hcons] at hread ⊢
  rw [tagPieces]
  split
  · next hfound =>
    rw [hread] at hfound
    cases hfound
    rfl
  · next error herror =>
    rw [hread] at herror
    cases herror

/-- Plain characters that cannot start a tag, and tags, are read back as written. -/
theorem tagPieces_tagSource {pieces : List TagPiece}
    (h : ∀ c, .plain c ∈ pieces → c ≠ '{') : tagPieces (tagSource pieces) = pieces := by
  induction pieces with
  | nil => simp [tagPieces]
  | cons piece pieces ih =>
    have ih := ih fun c hc => h c (List.mem_cons_of_mem _ hc)
    rw [tagSource_cons]
    cases piece with
    | plain c =>
      change tagPieces (c :: tagSource pieces) = _
      rw [tagPieces_cons_of_ne (h c List.mem_cons_self), ih]
    | tag t =>
      change tagPieces (t.source ++ tagSource pieces) = _
      rw [tagPieces_source_append, ih]

theorem mem_occurrences_prepend {o : Occurrence} {text : Text} {cut : Cut}
    (h : o ∈ (cut.prepend text).occurrences) : ∃ o' ∈ cut.occurrences, o'.markup = o.markup := by
  obtain ⟨_ | ⟨first, rest⟩, tail⟩ := cut
  · simp [Cut.prepend] at h
  · rcases List.mem_cons.1 h with rfl | h
    · exact ⟨first, List.mem_cons_self, rfl⟩
    · exact ⟨o, List.mem_cons_of_mem _ h, rfl⟩

theorem exists_tag_of_mem_cutAtForm {form : TagForm} {pieces : List TagPiece} {o : Occurrence}
    (h : o ∈ (cutAtForm form pieces).occurrences) : ∃ t : ColorTag, t.form = form ∧ o.markup = .tag t := by
  induction pieces generalizing o with
  | nil => simp [cutAtForm] at h
  | cons piece pieces ih =>
    have hlater : ∀ text, o ∈ ((cutAtForm form pieces).prepend text).occurrences →
        ∃ t : ColorTag, t.form = form ∧ o.markup = .tag t := by
      intro text h
      obtain ⟨o', ho', hmarkup⟩ := mem_occurrences_prepend h
      exact hmarkup ▸ ih ho'
    cases piece with
    | plain c => exact hlater _ h
    | tag t =>
      rw [cutAtForm] at h
      split at h
      · next hform =>
        rcases List.mem_cons.1 h with rfl | h
        · exact ⟨t, hform, rfl⟩
        · exact ih h
      · exact hlater _ h

end ColorMarkup
