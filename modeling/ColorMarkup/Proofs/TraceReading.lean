import ColorMarkup.Proofs.ColoredText
import ColorMarkup.Proofs.TokenReading
import ColorMarkup.Proofs.Trace
/-!
Reading a trace on over written markup: over characters that are text, and over the
tags that are written for colours, codes and gradients.
-/
namespace ColorMarkup

namespace Trace

variable (t : Trace)

@[simp] theorem read_nil : t.read [] = t := by rw [read, tokens_nil, List.foldl_nil]

theorem append_append (front back : Text) : (t.append front).append back = t.append (front ++ back) := by
  simp [append]

@[simp] theorem append_nil : t.append [] = t := by simp [append]

theorem read_angleTag {content : Text} (hne : content ≠ []) (h : ∀ c ∈ content, ¬ Token.isBracket c)
    (rest : Text) :
    t.read (angleTag content ++ rest) = (t.step (Token.ofTagContent content)).read rest := by
  rw [read, tokens_angleTag_append hne h]
  rfl

theorem read_append {text : Text} (h : ∀ c ∈ text, ¬ Token.isSpecial c) (rest : Text) :
    t.read (text ++ rest) = (t.append text).read rest :=
  foldl_tokens_append append_nil append_append h rest t

/-- A run of text may be read character by character. -/
theorem read_cons {c : Char} (h : ¬ Token.isSpecial c) (rest : Text) :
    t.read (c :: rest) = (t.append [c]).read rest :=
  read_append t (List.forall_mem_singleton.2 h) rest

theorem read_openingTag {content : Text} (hne : content ≠ []) (hslash : content.head? ≠ some '/')
    (h : ∀ c ∈ content, ¬ Token.isBracket c) (rest : Text) :
    t.read (angleTag content ++ rest) = (t.openTag content).read rest := by
  rw [read_angleTag t hne h, Token.ofTagContent_of_ne hslash, step]

/-- The tag of a colour sets the colour that its argument denotes. -/
theorem read_colorTag {argument : Text} {color : Color}
    (hargument : ∀ c ∈ argument, StyleTag.IsWordChar c)
    (h : StyleTag.readColor argument = .ok color) (rest : Text) :
    t.read (angleTag ("color:".toList ++ argument) ++ rest) =
      (t.push (.style (.colored color)) "color".toList).read rest := by
  have harguments : ∀ other ∈ [argument], ∀ c ∈ other, StyleTag.IsWordChar c := by simpa using hargument
  have hcontent : "color:".toList ++ argument = StyleTag.content "color".toList [argument] := by
    simp [StyleTag.content]
  rw [hcontent, read_openingTag t (by simp [StyleTag.content]) (by simp [StyleTag.content])
    fun c => StyleTag.not_isBracket_of_mem_content StyleTag.isWordChar_of_mem_color harguments]
  rw [openTag, StyleTag.read_color hargument h]
  rfl

theorem read_color (color : Color) (rest : Text) :
    t.read (color.render .structured ++ rest) =
      (t.push (.style (.colored color)) "color".toList).read rest :=
  read_colorTag t (fun _ => StyleTag.isWordChar_of_mem_toText) (StyleTag.readColor_toText color) rest

theorem read_namedColor (named : NamedColor) (rest : Text) :
    t.read (named.render .structured ++ rest) =
      (t.push (.style (.colored named.rgb)) "color".toList).read rest :=
  read_colorTag t StyleTag.isWordChar_of_mem_name (StyleTag.readColor_name named) rest

theorem read_decoration (d : Decoration) (rest : Text) :
    t.read ((FormatCode.decorate d).render .structured ++ rest) =
      (t.push (.style (.decorated (.single d))) d.name).read rest := by
  have hbracket : ∀ c ∈ d.name, ¬ Token.isBracket c := by
    cases d <;> exact Text.forall_mem_of_all (by decide)
  have hopening : t.read (angleTag d.name ++ rest) = (t.openTag d.name).read rest :=
    read_openingTag t (by cases d <;> decide) (by cases d <;> decide) hbracket rest
  have hread : StyleTag.read d.name = .ok (.decoration (.single d)) := StyleTag.read_format (.decorate d)
  have hclose : (StyleTag.decoration (.single d)).closeName = d.name := by cases d <;> rfl
  rw [FormatCode.render, FormatCode.name, hopening, openTag, hread]
  simp only [hclose]

theorem read_reset (rest : Text) :
    t.read (FormatCode.reset.render .structured ++ rest) = (t.close t.stack.length).read rest := by
  have hread : StyleTag.read "reset".toList = .ok .reset := StyleTag.read_format .reset
  rw [FormatCode.render, FormatCode.name,
    read_openingTag t (by decide) (by decide) (Text.forall_mem_of_all (by decide)), openTag, hread,
    close, List.drop_length]

theorem read_gradientOpening (first second : Color) (rest : Text) :
    t.read (Structured.gradientOpening first second ++ rest) =
      (t.push (.gradient [first, second]) "gradient".toList).read rest := by
  have harguments := StyleTag.isWordChar_of_mem_stops [first, second]
  rw [Structured.gradientOpening_eq, read_openingTag t (by simp [StyleTag.content])
    (by simp [StyleTag.content]) fun c =>
      StyleTag.not_isBracket_of_mem_content StyleTag.isWordChar_of_mem_gradient harguments]
  rw [openTag, StyleTag.read_gradient]
  rfl

/-- A tag that is closed by its name right behind text is the only one that closes. -/
theorem closeNamed_append_push (effect : TagEffect) (closeName text : Text) :
    ((t.push effect closeName).append text).closeNamed closeName =
      ((t.push effect closeName).append text).close 1 := by
  simp [closeNamed, close, append, push]

theorem read_gradientClosing (rest : Text) :
    t.read (Structured.gradientClosing ++ rest) = (t.closeNamed "gradient".toList).read rest := by
  rw [Structured.gradientClosing, read_angleTag t (by decide) (Text.forall_mem_of_all (by decide))]
  rfl

end Trace
end ColorMarkup
