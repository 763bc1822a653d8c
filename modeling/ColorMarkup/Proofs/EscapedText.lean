import ColorMarkup.Proofs.ClosingNames
/-!
Text carried through markup. With a backslash in front of every character that could start a
tag or an escape, any text is read as itself: no tag is found in it, and it takes nothing from
the markup around it.
-/
namespace ColorMarkup

/-- The text with a backslash in front of each opening bracket and each backslash. -/
def Text.escape (text : Text) : Text :=
  text.flatMap fun c => if c = '<' ∨ c = '\\' then ['\\', c] else [c]

namespace Reading

/-- Escaped text adds the text that was escaped, whatever is read before or follows. -/
theorem foldl_tokens_escape (text rest : Text) (r : Reading) :
    (tokens (text.escape ++ rest)).foldl step r = (tokens rest).foldl step (r.append text) := by
  induction text generalizing r with
  | nil => rw [append_nil]; rfl
  | cons c text ih =>
    have happend : (r.append [c]).append text = r.append (c :: text) := append_append r [c] text
    rw [Text.escape, List.flatMap_cons, List.append_assoc, ← happend, ← ih]
    split
    · next h =>
      have hspecial : Token.isSpecial c := by simpa [Token.isSpecial] using h
      exact congrArg (List.foldl step r) (tokens_escaped hspecial _)
    · next h =>
      have hplain : ∀ d ∈ [c], ¬ Token.isSpecial d := by simpa [Token.isSpecial] using h
      exact foldl_tokens_append append_nil append_append hplain _ r

section InTag

variable {content name : Text} {tag : StyleTag} {effect : TagEffect}
  (hread : StyleTag.read content = .ok tag) (hopen : ∀ r, openTag r content = r.push effect tag.closeName)
  (hblank : name.trim ≠ []) (hbracket : ∀ c ∈ name, ¬ Token.isBracket c)
  (hname : StyleTag.canonicalCloseName name = tag.closeName)
include hread hopen hblank hbracket hname

/-- A tag around escaped text is around that text alone, whatever is open or read before. -/
theorem foldl_tokens_escape_in_tag (text rest : Text) (r : Reading) :
    (tokens (angleTag content ++ (text.escape ++ (angleTag ('/' :: name) ++ rest)))).foldl step r =
      (tokens rest).foldl step ⟨r.text ++ text, r.stack, r.spans ++
        OpenTag.spans ⟨effect, r.text.length, tag.closeName⟩ (r.text ++ text) r.stack.length⟩ := by
  have hne : tag ≠ .reset := by
    rintro rfl
    have hstack := congrArg (List.length ∘ stack) (hopen .start)
    rw [openTag, hread] at hstack
    cases hstack
  have hclose : ∀ r : Reading, r.step (.closing name) = r.closeNamed tag.closeName := fun r => by
    rw [step, closeTag, if_neg hblank, hname]
  rw [StyleTag.tokens_own hread hne, List.foldl_cons, step, hopen, foldl_tokens_escape,
    tokens_closing_append hbracket, List.foldl_cons, hclose, closeNamed_append_push]

end InTag

end Reading

namespace Document

/-- Every text can be carried through markup as it is. Escaped and on its own it is a document
without spans, and in the tag of a colour it is that text with one span over all of it. -/
theorem escaped_text_carried (text : Text) :
    ofMarkup text.escape = plain text ∧
    ∀ color : Color, text ≠ [] →
      ofMarkup ("<color:#".toList ++ color.toHex ++ ">".toList ++ text.escape ++ "</color>".toList) =
        ⟨text, [⟨0, text.byteLength, .colored color, 0⟩]⟩ := by
  constructor
  · have hread := Reading.foldl_tokens_escape text [] .start
    rw [List.append_nil, tokens_nil, List.foldl_nil] at hread
    rw [ofMarkup, hread]
    simp [Reading.finish, Reading.closeAll, Reading.closeMany, Reading.append, Reading.start, plain]
  · intro color hne
    have hmarkup : "<color:#".toList ++ color.toHex ++ ">".toList ++ text.escape ++ "</color>".toList =
        angleTag (StyleTag.content "color".toList [color.toText]) ++
          (text.escape ++ (angleTag ('/' :: "color".toList) ++ [])) := by
      simp [angleTag, StyleTag.content, Color.toText]
    have hread : StyleTag.read (StyleTag.content "color".toList [color.toText]) = .ok (.color color) :=
      StyleTag.read_color (fun _ => StyleTag.isWordChar_of_mem_toText) (StyleTag.readColor_toText color)
    have hopen : ∀ r, Reading.openTag r (StyleTag.content "color".toList [color.toText]) =
        r.push (.style (.colored color)) (StyleTag.color color).closeName := fun r => by
      rw [Reading.openTag, hread]
    have hname : StyleTag.canonicalCloseName "color".toList = "color".toList := by decide
    rw [ofMarkup, hmarkup, Reading.foldl_tokens_escape_in_tag hread hopen (by decide)
      (Text.forall_mem_of_all (by decide)) hname, tokens_nil, List.foldl_nil]
    simp [Reading.finish, Reading.closeAll, Reading.closeMany, Reading.start, OpenTag.spans, hne]

/-- The text holds tags, a run of backslashes in front of one and a backslash at the end. -/
theorem escaped_text_carried_tags :
    let text : Text := "<b>\\\\<#00ff00></color>é\\".toList
    text ≠ [] ∧ text.escape = "\\<b>\\\\\\\\\\<#00ff00>\\</color>é\\\\".toList ∧
      ofMarkup ("<color:#12abff>".toList ++ text.escape ++ "</color>".toList) =
        ⟨text, [⟨0, 25, .colored ⟨0x12, 0xab, 0xff⟩, 0⟩]⟩ := by
  intro text
  have hne : text ≠ [] := List.cons_ne_nil _ _
  exact ⟨hne, by decide, (escaped_text_carried text).2 ⟨0x12, 0xab, 0xff⟩ hne⟩

end Document
end ColorMarkup
