import ColorMarkup.Proofs.ColoredText
import ColorMarkup.Proofs.ShownText
/-!
The contents of the tags that are written for colours and codes. Each is read back as a
tag, and holds no character that would end the tag or escape what follows.
-/
namespace ColorMarkup

/-- The content of the tag for a code. -/
def codeContent? (c : Char) : Option Text :=
  match LegacyCode.of? c with
  | some (.color color) => some ("color:".toList ++ color.name)
  | some (.format format) => some format.name
  | some .hex => none
  | none => none

theorem Structured.codeTag?_eq_map (c : Char) : codeTag? c = (codeContent? c).map angleTag := by
  rw [codeTag?, codeContent?]
  rcases LegacyCode.of? c with _ | (color | format | _) <;> rfl

/-- A tag with this content is read as a tag wherever nothing escapes it. -/
structure IsTagContent (content : Text) : Prop where
  ne_nil : content ≠ []
  inner : ∀ c ∈ content, c ∉ ['<', '>', '\\', '/']
  readable : ∃ tag, StyleTag.read content = .ok tag

namespace IsTagContent

variable {content : Text} (h : IsTagContent content)
include h

theorem not_isBracket : ∀ c ∈ content, ¬ Token.isBracket c := by
  intro c hc
  have := h.inner c hc
  simp_all [Token.isBracket]

theorem not_isSpecial : ∀ c ∈ content, ¬ Token.isSpecial c := by
  intro c hc
  have := h.inner c hc
  simp_all [Token.isSpecial]

theorem tokens_append (rest : Text) :
    tokens (angleTag content ++ rest) = .opening content :: tokens rest := by
  refine tokens_opening_append h.ne_nil ?_ h.not_isBracket rest
  intro hhead
  exact h.inner '/' (List.mem_of_mem_head? hhead) (by decide)

theorem shownText_append (rest : Text) : shownText (angleTag content ++ rest) = shownText rest := by
  obtain ⟨tag, htag⟩ := h.readable
  have hnone : (Token.opening content).shown = [] := by simp [Token.shown, htag, Except.toBool]
  rw [shownText, h.tokens_append, List.flatMap_cons, hnone]
  rfl

end IsTagContent

theorem isTagContent_color {argument : Text} {found : Color}
    (hword : ∀ c ∈ argument, StyleTag.IsWordChar c) (hinner : ∀ c ∈ argument, c ∉ ['<', '>', '\\', '/'])
    (h : StyleTag.readColor argument = .ok found) : IsTagContent ("color:".toList ++ argument) where
  ne_nil := by simp
  inner := by
    intro c hc
    have hcolor : ∀ c ∈ "color:".toList, c ∉ ['<', '>', '\\', '/'] := Text.forall_mem_of_all (by decide)
    cases List.mem_append.1 hc with
    | inl hc => exact hcolor c hc
    | inr hc => exact hinner c hc
  readable := by
    have hcontent : "color:".toList ++ argument = StyleTag.content "color".toList [argument] := by
      simp [StyleTag.content]
    exact ⟨.color found, hcontent ▸ StyleTag.read_color hword h⟩

theorem isTagContent_toText (color : Color) : IsTagContent ("color:".toList ++ color.toText) := by
  refine isTagContent_color (fun _ => StyleTag.isWordChar_of_mem_toText) ?_ (StyleTag.readColor_toText color)
  intro c hc
  cases List.mem_cons.1 hc with
  | inl hc => rw [hc]; decide
  | inr hc =>
    obtain ⟨n, hn, rfl⟩ := Color.exists_digitChar_of_mem_toHex hc
    have all : ∀ m : Fin 16, m.val.digitChar ∉ ['<', '>', '\\', '/'] := by decide
    exact all ⟨n, hn⟩

theorem isTagContent_name (named : NamedColor) : IsTagContent ("color:".toList ++ named.name) := by
  refine isTagContent_color StyleTag.isWordChar_of_mem_name ?_ (StyleTag.readColor_name named)
  cases named <;> exact Text.forall_mem_of_all (by decide)

theorem isTagContent_format (format : FormatCode) : IsTagContent format.name where
  ne_nil := by rcases format with (_ | _) | _ <;> decide
  inner := by rcases format with (_ | _) | _ <;> exact Text.forall_mem_of_all (by decide)
  readable := ⟨_, StyleTag.read_format format⟩

theorem isTagContent_of_codeContent? {c : Char} {content : Text} (h : codeContent? c = some content) :
    IsTagContent content := by
  rw [codeContent?] at h
  split at h
  · cases h
    exact isTagContent_name _
  · cases h
    exact isTagContent_format _
  · cases h
  · cases h

end ColorMarkup
