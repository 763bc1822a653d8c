import ColorMarkup.Proofs.TagContent
import Mathlib.Algebra.Group.Nat.Even
import Mathlib.Data.List.Basic
import Mathlib.Data.List.Induction
/-!
The tags that are written for single colours and codes, read back. A text without an
opening angle bracket has no gradients, and all that is written is the tags, each in
the place of its markup. The characters between them are not escaped, so a backslash
in the text can escape the tag behind it.
-/
namespace ColorMarkup

/-- A part of a text without gradients: a character, or markup with the content of the
tag that is written in its place. -/
inductive Part where
  | plain (c : Char)
  | markup (source content : Text)
  deriving DecidableEq, Repr

namespace Part

def source : Part → Text
  | plain c => [c]
  | markup source _ => source

def written : Part → Text
  | plain c => [c]
  | markup _ content => angleTag content

def contents : Part → List Text
  | plain _ => []
  | markup _ content => [content]

end Part

/-- The parts of a text. A tag that is to open a gradient is plain where none closes it. -/
def parts : List TagPiece → List Part
  | [] => []
  | .plain c :: .plain letter :: rest =>
    match if isMarker c then codeContent? letter else none with
    | some content => .markup [c, letter] content :: parts rest
    | none => .plain c :: parts (.plain letter :: rest)
  | .plain c :: rest => .plain c :: parts rest
  | .tag t :: rest =>
    if t.form = .single then .markup t.source ("color:".toList ++ t.color.toText) :: parts rest
    else t.source.map .plain ++ parts rest

theorem source_parts (pieces : List TagPiece) :
    (parts pieces).flatMap Part.source = tagSource pieces := by
  have hplain : ∀ text : Text, (text.map Part.plain).flatMap Part.source = text := fun text => by
    simp [List.flatMap_map, Part.source]
  fun_induction parts pieces with
  | case1 => rfl
  | case2 c letter rest content _ ih => simp [Part.source, TagPiece.source, ih]
  | case3 c letter rest _ ih => simp [Part.source, TagPiece.source, ih]
  | case4 c rest _ ih => simp [Part.source, TagPiece.source, ih]
  | case5 t rest _ ih => simp [Part.source, TagPiece.source, ih]
  | case6 t rest _ ih => simp [TagPiece.source, ih, hplain]

namespace Structured

/-- Behind a character comes its letter, or a brace or bracket, which is none. -/
theorem codeTag?_head_colored {rest : List TagPiece} (h : ∀ letter later, rest ≠ .plain letter :: later) :
    ∀ letter ∈ (rest.flatMap colored).head?, codeTag? letter = none := by
  match rest with
  | [] => simp
  | .plain letter :: later => exact absurd rfl (h letter later)
  | .tag t :: later =>
    rw [List.flatMap_cons, colored]
    split
    · have hnone : codeTag? '<' = none := by decide
      simpa [Color.render, angleTag] using hnone
    · have hnone : codeTag? '{' = none := by decide
      simpa [ColorTag.source, ColorTag.opening] using hnone

theorem convertCodes_colored (pieces : List TagPiece) :
    convertCodes (pieces.flatMap colored) = (parts pieces).flatMap Part.written := by
  fun_induction parts pieces with
  | case1 => rfl
  | case2 c letter rest content h ih =>
    have hmarker : isMarker c := by
      by_contra hnot
      rw [if_neg hnot] at h
      cases h
    rw [if_pos hmarker] at h
    have htag : codeTag? letter = some (angleTag content) := by rw [codeTag?_eq_map, h]; rfl
    exact (convertCodes_code hmarker htag _).trans (congrArg (angleTag content ++ ·) ih)
  | case3 c letter rest h ih =>
    have hnone : ∀ d ∈ ((TagPiece.plain letter :: rest).flatMap colored).head?,
        isMarker c → codeTag? d = none := by
      intro d hd hmarker
      cases hd
      rw [if_pos hmarker] at h
      rw [codeTag?_eq_map, h]
      rfl
    exact (convertCodes_cons hnone).trans (congrArg (c :: ·) ih)
  | case4 c rest h ih =>
    have hnone : ∀ letter ∈ (rest.flatMap colored).head?, isMarker c → codeTag? letter = none :=
      fun letter hletter _ => codeTag?_head_colored h letter hletter
    exact (convertCodes_cons hnone).trans (congrArg (c :: ·) ih)
  | case5 t rest hform ih =>
    have hmarker : ∀ c ∈ t.color.render .structured, ¬ isMarker c := fun _ => not_isMarker_of_mem_render
    rw [List.flatMap_cons, List.flatMap_cons, ← ih, colored, if_pos hform, convertCodes_append hmarker]
    rfl
  | case6 t rest hform ih =>
    have hmarker : ∀ c ∈ t.source, ¬ isMarker c := fun _ => ColorTag.not_isMarker_of_mem_source
    have hplain : (t.source.map Part.plain).flatMap Part.written = t.source := by
      simp [List.flatMap_map, Part.written]
    rw [List.flatMap_cons, List.flatMap_append, ← ih, colored, if_neg hform,
      convertCodes_append hmarker, hplain]

theorem fill_cutAtGradients_of_forall {replace : Markup → Text} {pieces : List TagPiece}
    (h : ∀ t, .tag t ∈ pieces → t.form ≠ .closer) :
    (cutAtGradients pieces).fill replace = tagSource pieces := by
  fun_induction cutAtGradients pieces with
  | case1 => rfl
  | case2 c rest ih =>
    rw [Cut.fill_prepend, ih fun t ht => h t (List.mem_cons_of_mem _ ht)]
    rfl
  | case3 t rest _ content closer after hfound _ _ =>
    rw [firstCloser?_eq_none fun t ht => h t (List.mem_cons_of_mem _ ht)] at hfound
    cases hfound
  | case4 t rest _ _ => rfl
  | case5 t rest _ ih =>
    rw [Cut.fill_prepend, ih fun t ht => h t (List.mem_cons_of_mem _ ht)]
    rfl

section NoBracket

variable {text : Text} (h : '<' ∉ text)
include h

theorem form_of_mem_tagPieces {t : ColorTag} (ht : .tag t ∈ tagPieces text) :
    t.form ≠ .closer ∧ t.form ≠ .joint := by
  have hsource : t.source ⊆ text := by
    intro c hc
    rw [← tagSource_tagPieces text]
    exact List.mem_flatMap.2 ⟨.tag t, ht, hc⟩
  have hbracket : '<' ∉ t.source := fun hc => h (hsource hc)
  constructor
  · intro hform
    simp [ColorTag.source, hform, TagForm.ending] at hbracket
  · intro hform
    simp [ColorTag.source, hform, TagForm.ending] at hbracket

theorem expandJoints_eq_self : expandJoints text = text := by
  rw [expandJoints, replaceMarkup, cut, fill_cutAtForm_of_forall fun t ht => (form_of_mem_tagPieces h ht).2,
    tagSource_tagPieces]

theorem convertGradients_eq_self : convertGradients text = text := by
  rw [convertGradients, expandJoints_eq_self h, replaceMarkup, cut,
    fill_cutAtGradients_of_forall fun t ht => (form_of_mem_tagPieces h ht).1, tagSource_tagPieces]

/-- The conversion writes a tag in the place of all markup and leaves all else. -/
theorem convert_eq_written : convert text = (parts (tagPieces text)).flatMap Part.written := by
  rw [convert, convertGradients_eq_self h, convertColors_eq_colored, convertCodes_colored]

end NoBracket

end Structured

/-- The part has no bracket but those of its own tag. -/
def Part.IsWritten : Part → Prop
  | plain c => c ≠ '<'
  | markup _ content => IsTagContent content

theorem isWritten_of_mem_parts {pieces : List TagPiece} (h : '<' ∉ tagSource pieces) :
    ∀ part ∈ parts pieces, part.IsWritten := by
  have hrest : ∀ {piece : TagPiece} {rest : List TagPiece}, '<' ∉ tagSource (piece :: rest) →
      '<' ∉ piece.source ∧ '<' ∉ tagSource rest := by
    intro piece rest h
    simpa [not_or] using h
  fun_induction parts pieces with
  | case1 => simp
  | case2 c letter rest content hcode ih =>
    refine List.forall_mem_cons.2 ⟨?_, ih (hrest (hrest h).2).2⟩
    split at hcode
    · exact isTagContent_of_codeContent? hcode
    · cases hcode
  | case3 c letter rest _ ih =>
    refine List.forall_mem_cons.2 ⟨?_, ih (hrest h).2⟩
    rintro rfl
    exact (hrest h).1 List.mem_cons_self
  | case4 c rest _ ih =>
    refine List.forall_mem_cons.2 ⟨?_, ih (hrest h).2⟩
    rintro rfl
    exact (hrest h).1 List.mem_cons_self
  | case5 t rest _ ih =>
    exact List.forall_mem_cons.2 ⟨isTagContent_toText t.color, ih (hrest h).2⟩
  | case6 t rest _ ih =>
    refine List.forall_mem_append.2 ⟨fun part hpart => ?_, ih (hrest h).2⟩
    obtain ⟨c, hc, rfl⟩ := List.mem_map.1 hpart
    rintro rfl
    exact (hrest h).1 hc

namespace Part

/-- Whether a backslash waits for what it escapes behind the part, `pending` being
whether one does in front of it. -/
def next (pending : Bool) (part : Part) : Bool := !pending && part = .plain '\\'

def pendingText (pending : Bool) : Text := if pending then ['\\'] else []

/-- The tokens that are read up to the end of the part. -/
def tokensBack (pending : Bool) : Part → List Token
  | plain c =>
    if c = '\\' then if pending then [.escaped '\\'] else []
    else [.text (pendingText pending ++ [c])]
  | markup _ content =>
    if pending then [.escaped '<', .text (content ++ ['>'])] else [.opening content]

end Part

/-- The tokens of written parts, but for the division of text. -/
def readBack (pending : Bool) : List Part → List Token
  | [] => [.text (Part.pendingText pending)]
  | part :: rest => part.tokensBack pending ++ readBack (part.next pending) rest

section ReadBack

variable {α : Type} {f : Token → List α} (hnil : f (.text []) = [])
  (hjoin : ∀ front back, f (.text (front ++ back)) = f (.text front) ++ f (.text back))
include hnil hjoin

theorem flatMap_tokens_plain {c : Char} (h : c ≠ '<') (pending : Bool) (rest : Text) :
    (tokens (Part.pendingText pending ++ c :: rest)).flatMap f =
      ((Part.plain c).tokensBack pending).flatMap f ++
        (tokens (Part.pendingText ((Part.plain c).next pending) ++ rest)).flatMap f := by
  by_cases hc : c = '\\'
  · cases pending with
    | false => simp [hc, Part.tokensBack, Part.next, Part.pendingText]
    | true =>
      have hescaped : tokens ('\\' :: '\\' :: rest) = .escaped '\\' :: tokens rest :=
        tokens_escaped (by decide) rest
      simp [hc, Part.tokensBack, Part.next, Part.pendingText, hescaped]
  · have hspecial : ¬ Token.isSpecial c := by simp [Token.isSpecial, hc, h]
    have hrun : (tokens (c :: rest)).flatMap f = f (.text [c]) ++ (tokens rest).flatMap f :=
      flatMap_tokens_append hnil hjoin (List.forall_mem_singleton.2 hspecial) rest
    have hnext : (Part.plain c).next pending = false := by simp [Part.next, hc]
    rw [Part.tokensBack, if_neg hc, List.flatMap_singleton, hjoin, hnext]
    cases pending with
    | false =>
      rw [Part.pendingText, if_neg (by simp), hnil]
      exact hrun
    | true =>
      have hbackslash : tokens ('\\' :: c :: rest) = .text ['\\'] :: tokens (c :: rest) :=
        tokens_backslash (by simpa using hspecial)
      simp [Part.pendingText, hbackslash, hrun]

theorem flatMap_tokens_markup {content : Text} (h : IsTagContent content) (source : Text)
    (pending : Bool) (rest : Text) :
    (tokens (Part.pendingText pending ++ (angleTag content ++ rest))).flatMap f =
      ((Part.markup source content).tokensBack pending).flatMap f ++ (tokens rest).flatMap f := by
  cases pending with
  | false => simp [Part.pendingText, Part.tokensBack, h.tokens_append]
  | true =>
    have hescaped : tokens ('\\' :: '<' :: ((content ++ ['>']) ++ rest)) =
        .escaped '<' :: tokens ((content ++ ['>']) ++ rest) := tokens_escaped (by decide) _
    have hspecial : ∀ c ∈ content ++ ['>'], ¬ Token.isSpecial c :=
      List.forall_mem_append.2 ⟨h.not_isSpecial, List.forall_mem_singleton.2 (by decide)⟩
    have hrun := flatMap_tokens_append hnil hjoin hspecial rest
    have hsource : Part.pendingText true ++ (angleTag content ++ rest) =
        '\\' :: '<' :: ((content ++ ['>']) ++ rest) := by simp [Part.pendingText, angleTag]
    rw [hsource, hescaped, List.flatMap_cons, hrun, Part.tokensBack, if_pos rfl, List.flatMap_cons,
      List.flatMap_singleton, List.append_assoc]

theorem flatMap_tokens_written {list : List Part} (h : ∀ part ∈ list, part.IsWritten)
    (pending : Bool) : (tokens (Part.pendingText pending ++ list.flatMap Part.written)).flatMap f =
      (readBack pending list).flatMap f := by
  induction list generalizing pending with
  | nil =>
    cases pending with
    | false => simp [Part.pendingText, readBack, hnil]
    | true =>
      have hlast : tokens ['\\'] = .text ['\\'] :: tokens [] := tokens_backslash (by simp)
      simp [Part.pendingText, readBack, hlast]
  | cons part list ih =>
    have hpart := h part List.mem_cons_self
    have ih := ih (fun other hother => h other (List.mem_cons_of_mem _ hother)) (part.next pending)
    rw [List.flatMap_cons, readBack, List.flatMap_append, ← ih]
    cases part with
    | plain c => exact flatMap_tokens_plain hnil hjoin hpart pending _
    | markup source content =>
      have hnext : (Part.markup source content).next pending = false := by simp [Part.next]
      rw [hnext]
      exact flatMap_tokens_markup hnil hjoin hpart source pending _

end ReadBack

/-- The contents of the opening tags. -/
def Token.openings : Token → List Text
  | opening content => [content]
  | _ => []

/-- No tag is behind a backslash that escapes it. -/
def NoneEscaped (pending : Bool) : List Part → Prop
  | [] => True
  | .plain c :: rest => NoneEscaped ((Part.plain c).next pending) rest
  | .markup _ _ :: rest => pending = false ∧ NoneEscaped false rest

theorem Part.openings_tokensBack_plain (c : Char) (pending : Bool) :
    ((plain c).tokensBack pending).flatMap Token.openings = [] := by
  rw [tokensBack]
  split
  · split <;> rfl
  · rfl

theorem Part.not_mem_shown_tokensBack_plain {c : Char} (h : c ≠ '<') (pending : Bool) :
    '<' ∉ ((plain c).tokensBack pending).flatMap Token.shown := by
  rw [tokensBack]
  split
  · split <;> simp [Token.shown]
  · cases pending <;> simp [Token.shown, pendingText, h.symm]

theorem length_openings_readBack (pending : Bool) (list : List Part) :
    ((readBack pending list).flatMap Token.openings).length ≤ (list.flatMap Part.contents).length := by
  induction list generalizing pending with
  | nil => simp [readBack, Token.openings]
  | cons part list ih =>
    have ih := ih (part.next pending)
    rw [readBack, List.flatMap_append, List.flatMap_cons, List.length_append, List.length_append]
    cases part with
    | plain c =>
      rw [Part.openings_tokensBack_plain]
      exact Nat.add_le_add_left ih _
    | markup source content =>
      cases pending with
      | false => exact Nat.add_le_add_left ih _
      | true =>
        have hnone : ((Part.markup source content).tokensBack true).flatMap Token.openings = [] := rfl
        rw [hnone, List.length_nil, Nat.zero_add]
        exact Nat.le_trans ih (Nat.le_add_left _ _)

/-- All written tags are read back as tags if and only if none is escaped. -/
theorem openings_readBack_eq_iff (pending : Bool) (list : List Part) :
    (readBack pending list).flatMap Token.openings = list.flatMap Part.contents ↔
      NoneEscaped pending list := by
  induction list generalizing pending with
  | nil => simp [readBack, Token.openings, NoneEscaped]
  | cons part list ih =>
    rw [readBack, List.flatMap_append, List.flatMap_cons]
    cases part with
    | plain c =>
      rw [Part.openings_tokensBack_plain]
      exact ih _
    | markup source content =>
      cases pending with
      | false =>
        have hcontent : ((Part.markup source content).tokensBack false).flatMap Token.openings =
            (Part.markup source content).contents := rfl
        rw [hcontent, List.append_cancel_left_eq, NoneEscaped, ih]
        exact (and_iff_right rfl).symm
      | true =>
        -- the escaped tag is missing, and nothing is read that could stand for it
        refine iff_of_false (fun heq => ?_) (by simp [NoneEscaped])
        have hlength := congrArg List.length heq
        have hle := length_openings_readBack ((Part.markup source content).next true) list
        simp only [Part.tokensBack, Part.contents, Token.openings, List.length_append, if_true,
          List.flatMap_cons, List.flatMap_nil, List.append_nil, List.length_nil, List.length_singleton]
          at hlength
        omega

/-- An opening bracket is shown if and only if it is that of an escaped tag. -/
theorem not_mem_shown_readBack_iff {list : List Part} (h : ∀ part ∈ list, part.IsWritten)
    (pending : Bool) : '<' ∉ (readBack pending list).flatMap Token.shown ↔ NoneEscaped pending list := by
  induction list generalizing pending with
  | nil => cases pending <;> simp [readBack, Token.shown, Part.pendingText, NoneEscaped]
  | cons part list ih =>
    have hpart := h part List.mem_cons_self
    have ih := ih fun other hother => h other (List.mem_cons_of_mem _ hother)
    rw [readBack, List.flatMap_append, List.mem_append, not_or]
    cases part with
    | plain c =>
      have hplain := Part.not_mem_shown_tokensBack_plain hpart pending
      rw [NoneEscaped, ← ih]
      exact and_iff_right hplain
    | markup source content =>
      cases pending with
      | false =>
        obtain ⟨tag, htag⟩ := hpart.readable
        have hnone : ((Part.markup source content).tokensBack false).flatMap Token.shown = [] := by
          simp [Part.tokensBack, Token.shown, htag, Except.toBool]
        rw [hnone, NoneEscaped, ← ih]
        exact and_congr (by simp) Iff.rfl
      | true => simp [Part.tokensBack, Token.shown, NoneEscaped]

/-- The number of backslashes that the text of the parts ends in. -/
def backslashesAtEnd (list : List Part) : Nat :=
  (list.reverse.takeWhile (· = .plain '\\')).length

/-- Every tag is written behind an even number of backslashes, which escape each other. -/
def Unescaped (list : List Part) : Prop :=
  ∀ before source content after, list = before ++ .markup source content :: after →
    Even (backslashesAtEnd before)

theorem backslashesAtEnd_append (list : List Part) (part : Part) :
    backslashesAtEnd (list ++ [part]) = if part = .plain '\\' then backslashesAtEnd list + 1 else 0 := by
  rw [backslashesAtEnd, List.reverse_append, List.reverse_singleton, List.singleton_append,
    List.takeWhile_cons]
  by_cases hpart : part = .plain '\\' <;> simp [hpart, backslashesAtEnd]

theorem foldl_next_eq (list : List Part) :
    list.foldl Part.next false = decide (¬ Even (backslashesAtEnd list)) := by
  induction list using List.reverseRecOn with
  | nil => simp [backslashesAtEnd]
  | append_singleton list part ih =>
    rw [List.foldl_append, List.foldl_cons, List.foldl_nil, ih, Part.next, backslashesAtEnd_append]
    by_cases hpart : part = .plain '\\'
    · by_cases heven : Even (backslashesAtEnd list) <;> simp [hpart, heven, Nat.even_add_one]
    · simp [hpart]

theorem noneEscaped_cons {pending : Bool} {part : Part} {list : List Part} :
    NoneEscaped pending (part :: list) ↔
      (∀ source content, part = .markup source content → pending = false) ∧
        NoneEscaped (part.next pending) list := by
  cases part with
  | plain c => simp [NoneEscaped]
  | markup source content => simp [NoneEscaped, Part.next]

theorem noneEscaped_iff (pending : Bool) (list : List Part) :
    NoneEscaped pending list ↔ ∀ before source content after,
      list = before ++ .markup source content :: after → before.foldl Part.next pending = false := by
  induction list generalizing pending with
  | nil => simp [NoneEscaped]
  | cons part list ih =>
    rw [noneEscaped_cons, ih]
    constructor
    · rintro ⟨hfirst, hrest⟩ before source content after heq
      cases before with
      | nil =>
        cases heq
        exact hfirst _ _ rfl
      | cons other before =>
        cases heq
        exact hrest before source content after rfl
    · intro hall
      exact ⟨fun source content heq => hall [] source content list (by rw [heq]; rfl),
        fun before source content after heq =>
          hall (part :: before) source content after (by rw [heq]; rfl)⟩

theorem noneEscaped_false_iff (list : List Part) : NoneEscaped false list ↔ Unescaped list := by
  simp [noneEscaped_iff, foldl_next_eq, Unescaped]

/-- In a text without an opening angle bracket each single colour and each code gets its
tag, and all the tags are read back as tags, none of them shown, if and only if no tag
comes behind an odd number of backslashes. -/
theorem tags_read_back_iff {text : Text} (h : '<' ∉ text) :
    let list := parts (tagPieces text)
    list.flatMap Part.source = text ∧ Structured.convert text = list.flatMap Part.written ∧
      ((tokens (Structured.convert text)).flatMap Token.openings = list.flatMap Part.contents ↔
        Unescaped list) ∧
      ('<' ∉ (Document.ofColored text).text ↔ Unescaped list) := by
  intro list
  have hsource : tagSource (tagPieces text) = text := tagSource_tagPieces text
  have hwritten : ∀ part ∈ list, part.IsWritten := isWritten_of_mem_parts (by rwa [hsource])
  have hconvert : Structured.convert text = list.flatMap Part.written :=
    Structured.convert_eq_written h
  have hopenings : (tokens (Structured.convert text)).flatMap Token.openings =
      (readBack false list).flatMap Token.openings := by
    rw [hconvert]
    exact flatMap_tokens_written rfl (fun _ _ => rfl) hwritten false
  have hshown : (Document.ofColored text).text = (readBack false list).flatMap Token.shown := by
    rw [Document.ofColored, text_ofMarkup_eq_shownText, hconvert]
    exact flatMap_tokens_written rfl (fun _ _ => rfl) hwritten false
  refine ⟨(source_parts _).trans hsource, hconvert, ?_, ?_⟩
  · rw [hopenings, openings_readBack_eq_iff, noneEscaped_false_iff]
  · rw [hshown, not_mem_shown_readBack_iff hwritten, noneEscaped_false_iff]

theorem tags_read_back_pairs :
    let text : Text := r"\\&lHi\> {#FF0000}§x§Kyou{#00ff00>}".toList
    '<' ∉ text ∧ Unescaped (parts (tagPieces text)) ∧
      (tokens (Structured.convert text)).flatMap Token.openings =
        ["bold".toList, "color:#ff0000".toList, "obfuscated".toList] ∧
      '<' ∉ (Document.ofColored text).text := by
  intro text
  have hnone : '<' ∉ text := by decide
  obtain ⟨-, -, hopenings, hshown⟩ := tags_read_back_iff hnone
  have hcontents : (parts (tagPieces text)).flatMap Part.contents =
      ["bold".toList, "color:#ff0000".toList, "obfuscated".toList] := by decide +kernel
  have htokens : (tokens (Structured.convert text)).flatMap Token.openings =
      ["bold".toList, "color:#ff0000".toList, "obfuscated".toList] := by decide +kernel
  have hunescaped : Unescaped (parts (tagPieces text)) := hopenings.1 (htokens.trans hcontents.symm)
  exact ⟨hnone, hunescaped, htokens, hshown.2 hunescaped⟩

/-- A single backslash in front of a code makes text of the tag. -/
theorem tag_shown_behind_backslash :
    let text : Text := "\\&cHi".toList
    '<' ∉ text ∧ (parts (tagPieces text)).flatMap Part.contents = ["color:red".toList] ∧
      tokens (Structured.convert text) = [.escaped '<', .text "color:red>Hi".toList] ∧
      Document.ofColored text = .plain "<color:red>Hi".toList := by
  decide +kernel

end ColorMarkup
