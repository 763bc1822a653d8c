import ColorMarkup.Color.Basic
/-!
Colour tags: an opening brace, a number sign, six hexadecimal digits and one of
four endings. The endings exclude each other, so a text starts with at most one
tag, and reading is the inverse of writing (`read_source`, `eq_of_read`).
-/
namespace ColorMarkup

/-- A tag colours the text after it, opens or closes a gradient, or does both to
join two gradients. -/
inductive TagForm where
  | single | opener | closer | joint
  deriving DecidableEq, Repr

/-- What stands behind the digits. -/
def TagForm.ending : TagForm → Text
  | single => ['}']
  | opener => ['>', '}']
  | closer => ['<', '}']
  | joint => ['<', '>', '}']

/-- Six digits as they are written, and the colour they denote. -/
structure HexDigits where
  text : Text
  color : Color
  denotes : Color.ofHex? text = some color
  deriving DecidableEq, Repr

structure ColorTag where
  form : TagForm
  digits : HexDigits
  deriving DecidableEq, Repr

/-- What a reader did not find: a literal text, or six digits. -/
inductive TagFault where
  | literal | digits
  deriving DecidableEq, Repr

/-- A fault and the text at the place where it was noticed. -/
structure TagError where
  fault : TagFault
  rest : Text
  deriving DecidableEq, Repr

def HexDigits.ofColor (color : Color) : HexDigits :=
  ⟨color.toHex, color, Color.ofHex?_toHex color⟩

namespace ColorTag

def color (tag : ColorTag) : Color := tag.digits.color

/-- The tag of a form with the digits of a colour in lower case. -/
def ofColor (form : TagForm) (color : Color) : ColorTag := ⟨form, .ofColor color⟩

def opening : Text := ['{', '#']

def source (tag : ColorTag) : Text :=
  opening ++ (tag.digits.text ++ tag.form.ending)

end ColorTag

/-- What follows `literal` in a text that starts with it. -/
def readLiteral (literal text : Text) : Except TagError Text :=
  if literal.isPrefixOf text then .ok (text.drop literal.length)
  else .error ⟨.literal, text⟩

def readDigits (text : Text) : Except TagError (HexDigits × Text) :=
  match h : Color.ofHex? (text.take 6) with
  | some color => .ok (⟨text.take 6, color, h⟩, text.drop 6)
  | none => .error ⟨.digits, text⟩

/-- The tag of the given form at the start of a text, and what follows it. -/
def TagForm.read (form : TagForm) (text : Text) : Except TagError (ColorTag × Text) := do
  let text ← readLiteral ColorTag.opening text
  let (digits, text) ← readDigits text
  let text ← readLiteral form.ending text
  return (⟨form, digits⟩, text)

/-- The tag at the start of a text; of a text without one, the fault of the last form. -/
def ColorTag.read (text : Text) : Except TagError (ColorTag × Text) :=
  TagForm.single.read text <|> TagForm.opener.read text <|>
    TagForm.closer.read text <|> TagForm.joint.read text

theorem readLiteral_append (literal rest : Text) :
    readLiteral literal (literal ++ rest) = .ok rest := by
  simp [readLiteral]

theorem eq_of_readLiteral {literal text rest : Text}
    (h : readLiteral literal text = .ok rest) : text = literal ++ rest := by
  rw [readLiteral] at h
  split at h
  · next hstart =>
    obtain ⟨tail, rfl⟩ := List.isPrefixOf_iff_prefix.1 hstart
    simp only [List.drop_left, Except.ok.injEq] at h
    rw [h]
  · cases h

theorem HexDigits.length_text (digits : HexDigits) : digits.text.length = 6 := by
  have h := digits.denotes
  rw [Color.ofHex?.eq_def] at h
  split at h
  · next heq => rw [heq]; rfl
  · cases h

theorem readDigits_append (digits : HexDigits) (rest : Text) :
    readDigits (digits.text ++ rest) = .ok (digits, rest) := by
  have htake : (digits.text ++ rest).take 6 = digits.text := by
    rw [← digits.length_text, List.take_left]
  have hdrop : (digits.text ++ rest).drop 6 = rest := by
    rw [← digits.length_text, List.drop_left]
  rw [readDigits]
  split
  · next color h =>
    rw [htake, digits.denotes] at h
    cases digits with
    | mk text color' denotes =>
      cases h
      simp only [htake, hdrop]
  · next h =>
    rw [htake, digits.denotes] at h
    cases h

theorem eq_of_readDigits {text rest : Text} {digits : HexDigits}
    (h : readDigits text = .ok (digits, rest)) : text = digits.text ++ rest := by
  rw [readDigits] at h
  split at h
  · cases h
    exact (List.take_append_drop 6 text).symm
  · cases h

namespace TagForm

theorem read_source (tag : ColorTag) (rest : Text) :
    tag.form.read (tag.source ++ rest) = .ok (tag, rest) := by
  simp only [read, ColorTag.source, List.append_assoc, readLiteral_append, readDigits_append,
    bind, Except.bind, pure, Except.pure]

theorem eq_of_read {form : TagForm} {text rest : Text} {tag : ColorTag}
    (h : form.read text = .ok (tag, rest)) : tag.form = form ∧ text = tag.source ++ rest := by
  simp only [read, bind, Except.bind, pure, Except.pure] at h
  split at h
  · cases h
  · next hopening =>
    split at h
    · cases h
    · next hdigits =>
      split at h
      · cases h
      · next hending =>
        cases h
        refine ⟨rfl, ?_⟩
        rw [eq_of_readLiteral hopening, eq_of_readDigits hdigits, eq_of_readLiteral hending]
        simp [ColorTag.source]

end TagForm

namespace ColorTag

theorem eq_of_read {text rest : Text} {tag : ColorTag}
    (h : read text = .ok (tag, rest)) : text = tag.source ++ rest := by
  have hsome : ∃ form : TagForm, form.read text = .ok (tag, rest) := by
    rw [read] at h
    cases hsingle : TagForm.single.read text with
    | ok found => exact ⟨.single, by rw [hsingle, ← h, hsingle]; rfl⟩
    | error _ =>
      cases hopener : TagForm.opener.read text with
      | ok found => exact ⟨.opener, by rw [hopener, ← h, hsingle, hopener]; rfl⟩
      | error _ =>
        cases hcloser : TagForm.closer.read text with
        | ok found => exact ⟨.closer, by rw [hcloser, ← h, hsingle, hopener, hcloser]; rfl⟩
        | error _ =>
          rw [hsingle, hopener, hcloser] at h
          exact ⟨.joint, h⟩
  obtain ⟨form, hform⟩ := hsome
  exact (TagForm.eq_of_read hform).2

theorem length_source_pos (tag : ColorTag) : 0 < tag.source.length := by
  simp [source, opening]

end ColorTag
end ColorMarkup
