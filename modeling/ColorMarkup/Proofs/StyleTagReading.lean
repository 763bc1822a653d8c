import ColorMarkup.Output
import ColorMarkup.Proofs.TagReading
import ColorMarkup.StyleTag.Basic
import ColorMarkup.StyleTag.Token
/-!
What opening tags mean. A gradient tag always has stops, and every tag that is written
for a colour, a code or a gradient is read back as just that.
-/
namespace ColorMarkup

namespace Text

theorem dropWhile_eq_self {text : Text} (h : ∀ c ∈ text, ¬ isBlank c) :
    text.dropWhile isBlank = text := by
  cases text with
  | nil => rfl
  | cons c rest => rw [List.dropWhile_cons, if_neg (h c List.mem_cons_self)]

theorem trim_eq_self {text : Text} (h : ∀ c ∈ text, ¬ isBlank c) : text.trim = text := by
  have hreverse : ∀ c ∈ text.reverse, ¬ isBlank c := fun c hc => h c (List.mem_reverse.1 hc)
  rw [trim, dropWhile_eq_self h, dropWhile_eq_self hreverse, List.reverse_reverse]

theorem pieces_of_forall_ne {mark : Char} {text : Text} (h : ∀ c ∈ text, c ≠ mark) :
    text.pieces mark = (text, []) := by
  induction text with
  | nil => rfl
  | cons c rest ih =>
    rw [pieces, ih fun d hd => h d (List.mem_cons_of_mem _ hd)]
    exact if_neg (h c List.mem_cons_self)

theorem pieces_append {mark : Char} {text : Text} (h : ∀ c ∈ text, c ≠ mark) (rest : Text) :
    pieces mark (text ++ mark :: rest) = (text, (pieces mark rest).1 :: (pieces mark rest).2) := by
  induction text with
  | nil => exact if_pos rfl
  | cons c text ih =>
    rw [List.cons_append, pieces, ih fun d hd => h d (List.mem_cons_of_mem _ hd)]
    exact if_neg (h c List.mem_cons_self)

/-- Pieces that do not hold the mark are told apart by the marks between them. -/
theorem pieces_flatMap {mark : Char} {first : Text} {others : List Text}
    (hfirst : ∀ c ∈ first, c ≠ mark) (hothers : ∀ other ∈ others, ∀ c ∈ other, c ≠ mark) :
    pieces mark (first ++ others.flatMap (mark :: ·)) = (first, others) := by
  induction others generalizing first with
  | nil => rw [List.flatMap_nil, List.append_nil, pieces_of_forall_ne hfirst]
  | cons other others ih =>
    have hrest := ih (hothers other List.mem_cons_self) fun text htext =>
      hothers text (List.mem_cons_of_mem _ htext)
    rw [List.flatMap_cons, List.cons_append, pieces_append hfirst, hrest]

end Text

namespace StyleTag

theorem ne_nil_of_readGradient {name : Text} {arguments : List Text} {stops : List Color}
    (h : readGradient name arguments = .ok (.gradient stops)) : stops ≠ [] := by
  rw [readGradient] at h
  cases hread : arguments.mapM readColor with
  | error error => rw [hread] at h; cases h
  | ok colors =>
    rw [hread] at h
    match colors, h with
    | first :: second :: rest, h =>
      cases h
      simp

theorem readBare_ne_gradient (name content : Text) (stops : List Color) :
    readBare name content ≠ .ok (.gradient stops) := by
  rw [readBare]
  cases Decoration.ofTagName? name with
  | some d => simp
  | none => cases readColor name <;> simp

theorem ne_nil_of_read_gradient {content : Text} {stops : List Color}
    (h : read content = .ok (.gradient stops)) : stops ≠ [] := by
  have hcolor : ∀ argument, (readColor argument).map color ≠ .ok (.gradient stops) := by
    intro argument
    cases readColor argument <;> simp [Except.map]
  rw [read] at h
  simp only at h
  split at h
  · cases h
  · split at h
    · split at h
      · exact absurd h (hcolor _)
      · cases h
    · split at h
      · exact ne_nil_of_readGradient h
      · split at h
        · cases h
        · split at h
          · exact absurd h (readBare_ne_gradient _ _ _)
          · cases h

/-- A character that tags can have in their names and arguments, and that has no
meaning outside tags either. -/
structure IsWordChar (c : Char) : Prop where
  not_blank : ¬ isBlank c
  ne_colon : c ≠ ':'
  not_bracket : ¬ Token.isBracket c
  not_marker : ¬ isMarker c
  ne_brace : c ≠ '{'

instance (c : Char) : Decidable (IsWordChar c) :=
  decidable_of_iff (¬ isBlank c ∧ c ≠ ':' ∧ ¬ Token.isBracket c ∧ ¬ isMarker c ∧ c ≠ '{')
    ⟨fun ⟨hblank, hcolon, hbracket, hmarker, hbrace⟩ => ⟨hblank, hcolon, hbracket, hmarker, hbrace⟩,
      fun ⟨hblank, hcolon, hbracket, hmarker, hbrace⟩ => ⟨hblank, hcolon, hbracket, hmarker, hbrace⟩⟩

theorem isWordChar_of_mem_color : ∀ c ∈ "color".toList, IsWordChar c :=
  Text.forall_mem_of_all (by decide)

theorem isWordChar_of_mem_gradient : ∀ c ∈ "gradient".toList, IsWordChar c :=
  Text.forall_mem_of_all (by decide)

theorem isWordChar_of_mem_toText {color : Color} {c : Char} (h : c ∈ color.toText) : IsWordChar c := by
  rcases List.mem_cons.1 h with rfl | h
  · decide
  · obtain ⟨n, hn, rfl⟩ := Color.exists_digitChar_of_mem_toHex h
    have all : ∀ m : Fin 16, IsWordChar m.val.digitChar := by decide
    exact all ⟨n, hn⟩

theorem readColor_toText (color : Color) : readColor color.toText = .ok color := by
  have htrim : color.toText.trim = color.toText :=
    Text.trim_eq_self fun c hc => (isWordChar_of_mem_toText hc).not_blank
  rw [readColor, htrim]
  simp [Color.toText, Color.ofHex]

/-- The content of a tag, its name and its arguments. -/
def content (name : Text) (arguments : List Text) : Text := name ++ arguments.flatMap (':' :: ·)

section Words

variable {name : Text} {arguments : List Text} (hname : ∀ c ∈ name, IsWordChar c)
  (harguments : ∀ argument ∈ arguments, ∀ c ∈ argument, IsWordChar c)
include hname harguments

theorem isWordChar_of_mem_content {c : Char} (h : c ∈ content name arguments) :
    c = ':' ∨ IsWordChar c := by
  cases List.mem_append.1 h with
  | inl h => exact .inr (hname c h)
  | inr h =>
    obtain ⟨argument, hargument, h⟩ := List.mem_flatMap.1 h
    cases List.mem_cons.1 h with
    | inl h => exact .inl h
    | inr h => exact .inr (harguments argument hargument c h)

theorem not_isBracket_of_mem_content {c : Char} (h : c ∈ content name arguments) :
    ¬ Token.isBracket c := by
  rcases isWordChar_of_mem_content hname harguments h with rfl | h
  · decide
  · exact h.not_bracket

/-- A written tag has no place for a colour tag or a code. -/
theorem free_of_mem_angleTag {c : Char} (h : c ∈ angleTag (content name arguments)) :
    ¬ isMarker c ∧ c ≠ '{' := by
  rw [angleTag, List.mem_append, List.mem_cons, List.mem_singleton] at h
  rcases h with (rfl | h) | rfl
  · decide
  · rcases isWordChar_of_mem_content hname harguments h with rfl | h
    · decide
    · exact ⟨h.not_marker, h.ne_brace⟩
  · decide

theorem pieces_trim_content : (content name arguments).trim.pieces ':' = (name, arguments) := by
  have htrim : (content name arguments).trim = content name arguments := by
    apply Text.trim_eq_self
    intro c hc
    rcases isWordChar_of_mem_content hname harguments hc with rfl | hc
    · decide
    · exact hc.not_blank
  rw [htrim, content]
  exact Text.pieces_flatMap (fun c hc => (hname c hc).ne_colon)
    fun argument hargument c hc => (harguments argument hargument c hc).ne_colon

theorem trim_content_ne_nil (hne : name ≠ []) : (content name arguments).trim ≠ [] := by
  intro hnil
  have hpieces := pieces_trim_content hname harguments
  rw [hnil] at hpieces
  exact hne (congrArg Prod.fst hpieces).symm

end Words

/-- The tag of a colour is that of its argument. -/
theorem read_color {argument : Text} {color : Color} (hargument : ∀ c ∈ argument, IsWordChar c)
    (h : readColor argument = .ok color) :
    read (content "color".toList [argument]) = .ok (.color color) := by
  have harguments : ∀ other ∈ [argument], ∀ c ∈ other, IsWordChar c := by simpa using hargument
  have hword : colorWords.contains (Text.lower "color".toList) = true := by decide
  rw [read]
  simp only [trim_content_ne_nil isWordChar_of_mem_color harguments (by decide), if_false,
    pieces_trim_content isWordChar_of_mem_color harguments, hword, if_true, h, Except.map]

theorem isWordChar_of_mem_stops (stops : List Color) :
    ∀ argument ∈ stops.map Color.toText, ∀ c ∈ argument, IsWordChar c := by
  intro argument hargument c hc
  obtain ⟨stop, -, rfl⟩ := List.mem_map.1 hargument
  exact isWordChar_of_mem_toText hc

theorem read_gradient (first second : Color) :
    read (content "gradient".toList ([first, second].map Color.toText)) =
      .ok (.gradient [first, second]) := by
  have harguments := isWordChar_of_mem_stops [first, second]
  have hword : colorWords.contains "gradient".toList = false := by decide
  have hgradient : Text.lower "gradient".toList = "gradient".toList := by decide
  have hstops : readGradient "gradient".toList ([first, second].map Color.toText) =
      .ok (.gradient [first, second]) := by
    simp [readGradient, readColor_toText, bind, Except.bind, pure, Except.pure]
  rw [read]
  simp only [trim_content_ne_nil isWordChar_of_mem_gradient harguments (by decide), if_false,
    pieces_trim_content isWordChar_of_mem_gradient harguments, hgradient, hword, Bool.false_eq_true,
    if_true, hstops]

theorem isWordChar_of_mem_name {named : NamedColor} : ∀ c ∈ named.name, IsWordChar c := by
  cases named <;> exact Text.forall_mem_of_all (by decide)

theorem readColor_name (named : NamedColor) : readColor named.name = .ok named.rgb := by
  cases named <;> rfl

theorem read_format (format : FormatCode) :
    read format.name = .ok (match format with
      | .decorate d => .decoration (.single d)
      | .reset => .reset) := by
  cases format with
  | decorate d => cases d <;> rfl
  | reset => rfl

end StyleTag
end ColorMarkup
