import ColorMarkup.Proofs.GradientReading
import ColorMarkup.Proofs.LegacyRemoval
import ColorMarkup.Proofs.StructuredPasses
/-!
Joint tags as a short spelling. A joint tag and the closer and opener of its colour are expanded to
the same text wherever they stand, and no conversion sees a text before it is expanded. Expanding
leaves no joint tag, also not one whose parts it brought together, so a second time changes nothing.
-/
namespace ColorMarkup

/-- A joint tag is written out in its place, whatever is around it. -/
theorem expandJoints_joint (before after : Text) (digits : HexDigits) :
    expandJoints (before ++ ((ColorTag.mk .joint digits).source ++ after)) =
      expandJoints (before ++ ((ColorTag.ofColor .closer digits.color).source ++
        ((ColorTag.ofColor .opener digits.color).source ++ after))) := by
  rw [expandJoints_eq_tagSource, expandJoints_eq_tagSource, tagPieces_append_source, tagPieces_append_source,
    tagPieces_source_append, List.flatMap_append, List.flatMap_append]
  rfl

/-- Expanding keeps tags of the other forms and writes closers and openers. -/
theorem form_of_mem_expand {a : Atom Text} {t : ColorTag} (h : .tag t ∈ Structured.expand a) :
    t.form ≠ .joint := by
  cases a with
  | code marker letter tag => simp [Structured.expand] at h
  | plain c => simp [Structured.expand] at h
  | tag u =>
    rw [Structured.expand] at h
    split at h
    · simp only [List.mem_cons, Atom.tag.injEq, List.not_mem_nil, or_false] at h
      obtain rfl | rfl := h <;> simp [ColorTag.ofColor]
    · next hform =>
      obtain rfl : t = u := by simpa using h
      exact hform

/-- The pieces of an expanded text are those of the text, each expanded. -/
theorem lacks_joint_expandJoints (text : Text) : Lacks .joint (tagPieces (expandJoints text)) := by
  intro t ht
  obtain ⟨atoms, hatoms, rfl⟩ := Structured.reader.exists_isReading text
  rw [Structured.expandJoints_atomSource hatoms,
    (hatoms.rewrites (Structured.rewrites_expand atoms)).tagPieces_eq] at ht
  obtain ⟨b, hb, ht⟩ := List.mem_flatMap.1 ht
  obtain ⟨a, -, ha⟩ := List.mem_flatMap.1 hb
  rw [Atom.eq_of_mem_pieces ht] at ha
  exact form_of_mem_expand ha

theorem free_expandJoints (text : Text) : Free (IsTagOf .joint) (expandJoints text) :=
  free_of_lacks (lacks_joint_expandJoints text)

theorem expandJoints_of_lacks {text : Text} (h : Lacks .joint (tagPieces text)) : expandJoints text = text := by
  rw [expandJoints, replaceMarkup, cut, fill_cutAtForm_of_forall h, tagSource_tagPieces]

/-- A joint tag, its digits in either case, means the closer and the opener of its colour in any context:
no conversion and no removal tells the two spellings apart. An expanded text holds no joint tag, so
expanding it again changes nothing. -/
theorem joint_tags_are_sugar :
    (∀ digits : Text, digits.length = 6 → (∀ d ∈ digits, IsHexDigit d) →
      ∃ color, Color.ofHex? digits = some color ∧ ∀ before after : Text,
        let short := before ++ ('{' :: '#' :: digits ++ ['<', '>', '}']) ++ after
        let long := before ++ ('{' :: '#' :: color.toHex ++ ['<', '}'] ++
          ('{' :: '#' :: color.toHex ++ ['>', '}'])) ++ after
        Legacy.convert short = Legacy.convert long ∧
        Legacy.convertGradients short = Legacy.convertGradients long ∧
        Structured.convert short = Structured.convert long ∧
        Structured.convertGradients short = Structured.convertGradients long ∧
        Strip.clear short = Strip.clear long) ∧
    ∀ text, Free (IsTagOf .joint) (expandJoints text) ∧ expandJoints (expandJoints text) = expandJoints text := by
  constructor
  · intro digits hlength hdigits
    obtain ⟨color, hcolor⟩ := Color.exists_ofHex?_iff.2 ⟨hlength, hdigits⟩
    refine ⟨color, hcolor, ?_⟩
    intro before after short long
    have hshort : short = before ++ ((ColorTag.mk .joint ⟨digits, color, hcolor⟩).source ++ after) :=
      List.append_assoc _ _ _
    have hlong : long = before ++ ((ColorTag.ofColor .closer color).source ++
        ((ColorTag.ofColor .opener color).source ++ after)) :=
      (List.append_assoc _ _ _).trans (congrArg (before ++ ·) (List.append_assoc _ _ _))
    have hexpand : expandJoints short = expandJoints long := by
      rw [hshort, hlong]
      exact expandJoints_joint before after ⟨digits, color, hcolor⟩
    have hlegacy : Legacy.convertGradients short = Legacy.convertGradients long := by
      rw [Legacy.convertGradients, Legacy.convertGradients, hexpand]
    have hstructured : Structured.convertGradients short = Structured.convertGradients long := by
      rw [Structured.convertGradients, Structured.convertGradients, hexpand]
    refine ⟨?_, hlegacy, ?_, hstructured, ?_⟩
    · rw [Legacy.convert, Legacy.convert, hlegacy]
    · rw [Structured.convert, Structured.convert, hstructured]
    · rw [← Strip.clear_expandJoints short, hexpand, Strip.clear_expandJoints]
  · exact fun text => ⟨free_expandJoints text, expandJoints_of_lacks (lacks_joint_expandJoints text)⟩

/-- Digits in both cases, between an open gradient with a lone brace and its end. -/
theorem joint_tags_are_sugar_in_gradient :
    let digits : Text := "AbCdEf".toList
    let before : Text := r"{#000000>}a{".toList
    let after : Text := r"b{#ffffff<}".toList
    digits.length = 6 ∧ (∀ d ∈ digits, IsHexDigit d) ∧
      Legacy.convert (before ++ r"{#AbCdEf<>}".toList ++ after) =
        Legacy.convert (before ++ r"{#abcdef<}{#abcdef>}".toList ++ after) ∧
      Strip.clear (before ++ r"{#AbCdEf<>}".toList ++ after) =
        Strip.clear (before ++ r"{#abcdef<}{#abcdef>}".toList ++ after) := by
  intro digits before after
  have hdigits : ∀ d ∈ digits, IsHexDigit d := Text.forall_mem_of_all (by decide)
  obtain ⟨color, hcolor, hsame⟩ := joint_tags_are_sugar.1 digits rfl hdigits
  obtain rfl : ⟨0xAB, 0xCD, 0xEF⟩ = color := Option.some.inj hcolor
  obtain ⟨hlegacy, -, -, -, hclear⟩ := hsame before after
  exact ⟨rfl, hdigits, hlegacy, hclear⟩

end ColorMarkup
