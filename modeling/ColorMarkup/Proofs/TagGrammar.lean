import ColorMarkup.Proofs.TagReading
/-!
The grammar of the colour tags: an opening brace, a number sign, six hexadecimal digits and one of
four endings, and behind them any text. Reading succeeds on exactly these texts, in exactly one form,
and gives the colour whose channels the digits spell in pairs.
-/
namespace ColorMarkup

/-- The place of the digit among the sixteen digits, in either case. -/
def digitValue (c : Char) : Nat := "0123456789abcdef".toList.idxOf c.toLower

/-- The values of digits taken in pairs, the higher one first. -/
def pairValues : Text → List Nat
  | high :: low :: rest => (16 * digitValue high + digitValue low) :: pairValues rest
  | _ => []

/-- Six digits in either case whose pairs are the channels of the colour. -/
structure Spells (digits : Text) (color : Color) : Prop where
  length : digits.length = 6
  isHexDigit : ∀ d ∈ digits, IsHexDigit d
  pairs : pairValues digits = [color.red.toNat, color.green.toNat, color.blue.toNat]

theorem hexValue?_of_isHexDigit {c : Char} (h : IsHexDigit c) :
    hexValue? c = some (digitValue c) ∧ digitValue c < 16 := by
  have hascii : ∀ n : Fin 128, IsHexDigit (Char.ofNat n) →
      hexValue? (Char.ofNat n) = some (digitValue (Char.ofNat n)) ∧ digitValue (Char.ofNat n) < 16 := by
    decide +kernel
  have hbound : c.toNat < 128 := by
    have hle : c ≤ 'f' := by
      rcases h with h | h | h
      · exact Char.le_trans h.2 (by decide)
      · exact h.2
      · exact Char.le_trans h.2 (by decide)
    exact Nat.lt_of_le_of_lt hle (by decide)
  have hc := hascii ⟨c.toNat, hbound⟩
  rw [Char.ofNat_toNat] at hc
  exact hc h

namespace Color

theorem toNat_of_channel? {high low : Char} {value : UInt8} (h : channel? high low = some value) :
    value.toNat = 16 * digitValue high + digitValue low := by
  obtain ⟨hhigh, hlow⟩ := exists_channel?_iff.1 ⟨value, h⟩
  obtain ⟨hhighValue, hhighLt⟩ := hexValue?_of_isHexDigit hhigh
  obtain ⟨hlowValue, hlowLt⟩ := hexValue?_of_isHexDigit hlow
  rw [channel?, hhighValue, hlowValue] at h
  rw [← Option.some.inj h]
  exact UInt8.toNat_ofNat_of_lt' (show _ < 256 by omega)

theorem spells_of_ofHex? {digits : Text} {color : Color} (h : ofHex? digits = some color) :
    Spells digits color := by
  obtain ⟨hlength, hdigits⟩ := exists_ofHex?_iff.1 ⟨color, h⟩
  refine ⟨hlength, hdigits, ?_⟩
  obtain ⟨r, r', g, g', b, b', rfl⟩ := exists_of_length_six hlength
  rw [ofHex?] at h
  split at h
  · next red green blue hred hgreen hblue =>
    cases h
    rw [toNat_of_channel? hred, toNat_of_channel? hgreen, toNat_of_channel? hblue]
    rfl
  · cases h

end Color

/-- Digits spell one colour only. -/
theorem Spells.eq {digits : Text} {color color' : Color} (h : Spells digits color) (h' : Spells digits color') :
    color = color' := by
  obtain ⟨red, green, blue⟩ := color
  have hsame := h.pairs.symm.trans h'.pairs
  simp only [List.cons.injEq, and_true, UInt8.toNat_inj] at hsame
  obtain ⟨rfl, rfl, rfl⟩ := hsame
  rfl

namespace Color

theorem ofHex?_eq_some_iff {digits : Text} {color : Color} :
    ofHex? digits = some color ↔ Spells digits color := by
  refine ⟨spells_of_ofHex?, fun h => ?_⟩
  obtain ⟨found, hfound⟩ := exists_ofHex?_iff.2 ⟨h.length, h.isHexDigit⟩
  rwa [h.eq (spells_of_ofHex? hfound)]

theorem spells_toHex (color : Color) : Spells color.toHex color := ofHex?_eq_some_iff.1 (ofHex?_toHex color)

theorem exists_ofHex_iff {digits : Text} :
    (∃ color, ofHex digits = .ok color) ↔ digits.length = 6 ∧ ∀ d ∈ digits, IsHexDigit d := by
  rw [← exists_ofHex?_iff, ofHex]
  cases ofHex? digits <;> simp

end Color

/-- A text that starts with a tag of the form and the colour, and what follows the tag. -/
def TagForm.Starts (form : TagForm) (color : Color) (rest text : Text) : Prop :=
  ∃ digits : Text, Spells digits color ∧ text = '{' :: '#' :: digits ++ form.ending ++ rest

theorem ColorTag.starts (tag : ColorTag) (rest : Text) : tag.form.Starts tag.color rest (tag.source ++ rest) :=
  ⟨tag.digits.text, Color.ofHex?_eq_some_iff.1 tag.digits.denotes, rfl⟩

namespace TagForm

variable {form other : TagForm} {text rest : Text} {color : Color}

theorem Starts.exists_source (h : form.Starts color rest text) :
    ∃ tag : ColorTag, tag.form = form ∧ tag.color = color ∧ text = tag.source ++ rest := by
  obtain ⟨digits, hspells, rfl⟩ := h
  exact ⟨⟨form, digits, color, Color.ofHex?_eq_some_iff.2 hspells⟩, rfl, rfl, rfl⟩

theorem exists_read_iff :
    (∃ tag, form.read text = .ok (tag, rest) ∧ tag.color = color) ↔ form.Starts color rest text := by
  constructor
  · rintro ⟨tag, hread, rfl⟩
    obtain ⟨rfl, rfl⟩ := eq_of_read hread
    exact tag.starts rest
  · intro h
    obtain ⟨tag, rfl, rfl, rfl⟩ := h.exists_source
    exact ⟨tag, read_source tag rest, rfl⟩

/-- No text starts with tags of two forms. -/
theorem eq_of_read_of_read {found found' : ColorTag × Text} (h : form.read text = .ok found)
    (h' : other.read text = .ok found') : other = form := by
  obtain ⟨tag, rest⟩ := found
  obtain ⟨tag', rest'⟩ := found'
  obtain ⟨rfl, hsource⟩ := eq_of_read h
  obtain ⟨rfl, hsource'⟩ := eq_of_read h'
  rw [(ColorTag.eq_of_source_append (hsource.symm.trans hsource')).1]

/-- A tag is read by its own form with what it is read as among all forms. -/
theorem read_eq_ok_iff {found : ColorTag × Text} :
    form.read text = .ok found ↔ ColorTag.read text = .ok found ∧ found.1.form = form := by
  obtain ⟨tag, rest⟩ := found
  constructor
  · intro h
    obtain ⟨rfl, rfl⟩ := eq_of_read h
    exact ⟨ColorTag.read_source_append tag rest, rfl⟩
  · rintro ⟨h, rfl⟩
    rw [ColorTag.eq_of_read h]
    exact read_source tag rest

/-- The form reads every colour that is written with the ending, in front of any text. -/
def ReadsBack (form : TagForm) (ending : Text) : Prop :=
  ∀ (color : Color) (rest : Text), ∃ tag,
    form.read ('{' :: '#' :: color.toHex ++ ending ++ rest) = .ok (tag, rest) ∧ tag.color = color

theorem readsBack_ending (form : TagForm) : form.ReadsBack form.ending := fun color _ =>
  exists_read_iff.2 ⟨color.toHex, color.spells_toHex, rfl⟩

end TagForm

namespace ColorTag

variable {text rest : Text} {color : Color}

theorem exists_read_iff :
    (∃ tag, read text = .ok (tag, rest) ∧ tag.color = color) ↔ ∃ form : TagForm, form.Starts color rest text := by
  constructor
  · rintro ⟨tag, hread, hcolor⟩
    exact ⟨tag.form, TagForm.exists_read_iff.1 ⟨tag, TagForm.read_eq_ok_iff.2 ⟨hread, rfl⟩, hcolor⟩⟩
  · rintro ⟨form, hstarts⟩
    obtain ⟨tag, hread, hcolor⟩ := TagForm.exists_read_iff.2 hstarts
    exact ⟨tag, (TagForm.read_eq_ok_iff.1 hread).1, hcolor⟩

/-- What is read is what one form reads, where all others fail. -/
theorem read_eq_ok_iff {found : ColorTag × Text} :
    read text = .ok found ↔ ∃ form : TagForm, form.read text = .ok found ∧
      ∀ (other : TagForm) (found' : ColorTag × Text), other.read text = .ok found' → other = form := by
  constructor
  · intro hread
    have hown : found.1.form.read text = .ok found := TagForm.read_eq_ok_iff.2 ⟨hread, rfl⟩
    exact ⟨found.1.form, hown, fun other found' => TagForm.eq_of_read_of_read hown⟩
  · rintro ⟨form, hread, -⟩
    exact (TagForm.read_eq_ok_iff.1 hread).1

end ColorTag

/-- Reading a tag succeeds on the texts that start with one of the four forms, and gives the colour that its
digits spell and what follows it. Exactly one form then succeeds, with that result. Each form reads back what
is written in it, whatever follows, and six hexadecimal digits are what is read as a colour. -/
theorem tags_read_by_one_form :
    (∀ (text : Text) (color : Color) (rest : Text),
      (∃ tag, ColorTag.read text = .ok (tag, rest) ∧ tag.color = color) ↔
        ∃ digits ending : Text, Spells digits color ∧
          ending ∈ [['}'], ['>', '}'], ['<', '}'], ['<', '>', '}']] ∧
          text = '{' :: '#' :: digits ++ ending ++ rest) ∧
    (∀ (text : Text) (found : ColorTag × Text), ColorTag.read text = .ok found ↔
      ∃ form : TagForm, form.read text = .ok found ∧
        ∀ (other : TagForm) (found' : ColorTag × Text), other.read text = .ok found' → other = form) ∧
    (TagForm.single.ReadsBack ['}'] ∧ TagForm.opener.ReadsBack ['>', '}'] ∧
      TagForm.closer.ReadsBack ['<', '}'] ∧ TagForm.joint.ReadsBack ['<', '>', '}']) ∧
    ∀ digits : Text, (∃ color, Color.ofHex digits = .ok color) ↔
      digits.length = 6 ∧ ∀ d ∈ digits, IsHexDigit d := by
  have hback := TagForm.readsBack_ending
  refine ⟨fun text color rest => ?_, fun _ _ => ColorTag.read_eq_ok_iff,
    ⟨hback .single, hback .opener, hback .closer, hback .joint⟩, fun _ => Color.exists_ofHex_iff⟩
  rw [ColorTag.exists_read_iff]
  constructor
  · rintro ⟨form, digits, hspells, htext⟩
    exact ⟨digits, form.ending, hspells, TagForm.mem_endings_iff.2 ⟨form, rfl⟩, htext⟩
  · rintro ⟨digits, ending, hspells, hending, htext⟩
    obtain ⟨form, rfl⟩ := TagForm.mem_endings_iff.1 hending
    exact ⟨form, digits, hspells, htext⟩

/-- A seventh digit, a character of two bytes in place of two digits, and a missing ending. -/
example : [r"{#ff00000}", r"{#ff00§}", r"{#ff0000<"].all
    fun text => ColorTag.read text.toList matches .error _ := by decide

end ColorMarkup
