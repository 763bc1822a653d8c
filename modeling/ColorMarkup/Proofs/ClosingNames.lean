import ColorMarkup.Proofs.SpansAt
import ColorMarkup.Proofs.TagMeaning
/-!
Closing a tag by the name it was opened with. What opens a tag is read by one function
and what closes it by another; they agree on all spellings but one. A gradient tag
with a single stop opens a colour, and its own name does not close that.
-/
namespace ColorMarkup

namespace StyleTag

/-- The tag of a gradient with a single stop. -/
def IsOneStop (content : Text) : Prop :=
  ∃ name stop, content.trim.pieces ':' = (name, [stop]) ∧ name.lower = "gradient".toList

section Means

variable {content first : Text} {arguments : List Text} {tag : StyleTag}

theorem canonicalCloseName_eq (h : content.trim.pieces ':' = (first, arguments))
    (hfirst : arguments = [] ∨ ∀ c ∈ first.lower, ¬ isBlank c) :
    canonicalCloseName content =
      if closesColor first.lower then "color".toList
      else ((Decoration.ofTagName? first.lower).map Decoration.name).getD first.lower := by
  have hblank : arguments = [] ∨ ∀ c ∈ first, ¬ isBlank c :=
    hfirst.imp_right fun h => Text.forall_mem_of_lower
      (fun c hc => toLower_eq_of_isBlank (Decidable.not_not.1 hc)) h
  rw [canonicalCloseName, Text.trim_fst_pieces (by decide) h hblank]
  cases Decoration.ofTagName? first.lower <;> rfl

theorem not_isBlank_of_mem_colorWords {name : Text} (h : colorWords.contains name) :
    ∀ c ∈ name, ¬ isBlank c := by
  have hwords : ∀ name ∈ colorWords, ∀ c ∈ name, ¬ isBlank c := forall_mem_words (by decide)
  exact hwords name (List.contains_iff_mem.1 h)

/-- The two readings of a name differ for gradients of one stop, and for nothing else. -/
theorem canonicalCloseName_of_means (h : content.trim.pieces ':' = (first, arguments))
    (hmeans : Means first.lower arguments tag) :
    (¬ IsOneStop content ∧ canonicalCloseName content = tag.closeName) ∨
      (IsOneStop content ∧ canonicalCloseName content = "gradient".toList ∧
        tag.closeName = "color".toList) := by
  have hoption : IsOneStop content ↔ ∃ stop, arguments = [stop] ∧ first.lower = "gradient".toList := by
    simp only [IsOneStop, h, Prod.mk.injEq]
    constructor
    · rintro ⟨name, stop, ⟨rfl, rfl⟩, hname⟩
      exact ⟨stop, rfl, hname⟩
    · rintro ⟨stop, rfl, hname⟩
      exact ⟨first, stop, ⟨rfl, rfl⟩, hname⟩
  have hcanonical := canonicalCloseName_eq h
  rw [hoption]
  generalize first.lower = name at hmeans hcanonical ⊢
  cases hmeans with
  | @color _ argument found hword _ =>
    refine .inl ⟨?_, ?_⟩
    · rintro ⟨stop, -, rfl⟩
      exact absurd hword (by decide)
    · rw [hcanonical (.inr (not_isBlank_of_mem_colorWords hword)), closesColor, hword]
      rfl
  | @oneStop argument found _ =>
    refine .inr ⟨⟨argument, rfl, rfl⟩, ?_, rfl⟩
    rw [hcanonical (.inr (Text.forall_mem_of_all (by decide)))]
    decide
  | @gradient _ stops hall hlength =>
    refine .inl ⟨?_, ?_⟩
    · rintro ⟨stop, rfl, -⟩
      have hlengths := congrArg List.length hall
      rw [List.length_map, List.length_map] at hlengths
      simp [← hlengths] at hlength
    · rw [hcanonical (.inr (Text.forall_mem_of_all (by decide)))]
      rfl
  | reset =>
    refine .inl ⟨?_, ?_⟩
    · rintro ⟨stop, -, hname⟩
      exact absurd hname (by decide)
    · rw [hcanonical (.inr (Text.forall_mem_of_all (by decide)))]
      decide
  | @decoration _ d hword hd =>
    refine .inl ⟨by simp, ?_⟩
    have hcolor : closesColor name = false := by
      rw [closesColor, Bool.eq_false_iff.2 hword, hd]
      rfl
    have hclose : (decoration (.single d)).closeName = d.name := by cases d <;> rfl
    rw [hcanonical (.inl rfl), hcolor, hd, hclose]
    rfl
  | @bare _ found hnone hcolor =>
    refine .inl ⟨by simp, ?_⟩
    have hcolor : closesColor name = true := by
      rw [closesColor, hnone, hcolor]
      simp [Except.toBool]
    rw [hcanonical (.inl rfl), hcolor]
    rfl

/-- Naming a tag and closing it by that name agree, unless the tag is a gradient with a
single stop. -/
theorem canonicalCloseName_eq_iff (h : read content = .ok tag) :
    canonicalCloseName content = tag.closeName ↔ ¬ IsOneStop content := by
  obtain ⟨first, arguments, hpieces, hmeans⟩ := means_of_read h
  rcases canonicalCloseName_of_means hpieces hmeans with ⟨hmore, hname⟩ | ⟨hone, hname, hclose⟩
  · exact iff_of_true hname hmore
  · rw [hname, hclose]
    exact iff_of_false (by decide) (not_not_intro hone)

end Means

end StyleTag

namespace Reading

theorem append_nil (r : Reading) : r.append [] = r := by
  rw [append, List.append_nil]

theorem append_append (r : Reading) (front back : Text) :
    (r.append front).append back = r.append (front ++ back) := by
  rw [append, append, append, List.append_assoc]

variable {content : Text} {tag : StyleTag}

/-- All tags but a reset open an entry, which carries the tag's name. -/
theorem exists_openTag_eq_push (h : StyleTag.read content = .ok tag) (hne : tag ≠ .reset) :
    ∃ effect, ∀ r : Reading, r.openTag content = r.push effect tag.closeName := by
  cases tag with
  | reset => exact absurd rfl hne
  | color color => exact ⟨.style (.colored color), fun r => by rw [openTag, h]⟩
  | decoration set => exact ⟨.style (.decorated set), fun r => by rw [openTag, h]⟩
  | gradient stops => exact ⟨.gradient stops, fun r => by rw [openTag, h]⟩

theorem closeTag_of_read (h : StyleTag.read content = .ok tag) (r : Reading) :
    r.closeTag content = r.closeNamed (StyleTag.canonicalCloseName content) :=
  if_neg (StyleTag.trim_ne_nil_of_read h)

/-- Behind text in a tag, the tag's name closes that tag alone. -/
theorem closeNamed_append_push (r : Reading) (effect : TagEffect) (closeName inner : Text) :
    ((r.push effect closeName).append inner).closeNamed closeName =
      ⟨r.text ++ inner, r.stack, r.spans ++
        OpenTag.spans ⟨effect, r.text.length, closeName⟩ (r.text ++ inner) r.stack.length⟩ := by
  have hfound : ((r.push effect closeName).append inner).stack.findIdx?
      (fun entry => entry.closeName = closeName) = some 0 := by
    simp [append, push, List.findIdx?_cons]
  rw [closeNamed, hfound]
  rfl

theorem closeNamed_eq_self {r : Reading} {name : Text} (h : ∀ entry ∈ r.stack, entry.closeName ≠ name) :
    r.closeNamed name = r := by
  have hnone : r.stack.findIdx? (fun entry => entry.closeName = name) = none :=
    List.findIdx?_eq_none_iff.2 fun entry hentry => by simpa using h entry hentry
  rw [closeNamed, hnone]

end Reading

namespace StyleTag

/-- Behind text in the tag, the tag's own name closes it: one entry more is open within
the tag and no longer open behind it, and its spans end where the text in the tag ends. -/
def ClosesItself (content inner : Text) : Prop :=
  ∀ (r : Reading) (after : Text), ∃ entry : OpenTag,
    r.step (.opening content) = { r with stack := entry :: r.stack } ∧
    (tokens (angleTag content ++ inner ++ angleTag ('/' :: content) ++ after)).foldl Reading.step r =
      (tokens after).foldl Reading.step
        ⟨r.text ++ inner, r.stack, r.spans ++ entry.spans (r.text ++ inner) r.stack.length⟩ ∧
    ∀ span ∈ entry.spans (r.text ++ inner) r.stack.length, span.stop ≤ (r.text ++ inner).byteLength

variable {content inner : Text} {tag : StyleTag}

/-- A tag around text, read up to the closing tag. -/
theorem foldl_own (h : read content = .ok tag) (hne : tag ≠ .reset)
    (hinner : ∀ c ∈ inner, ¬ Token.isSpecial c) (r : Reading) (after : Text) :
    (tokens (angleTag content ++ inner ++ angleTag ('/' :: content) ++ after)).foldl Reading.step r =
      (tokens after).foldl Reading.step
        (((r.openTag content).append inner).closeNamed (canonicalCloseName content)) := by
  rw [List.append_assoc, List.append_assoc, tokens_own h hne, List.foldl_cons,
    foldl_tokens_append Reading.append_nil Reading.append_append hinner, tokens_own_closing h hne,
    List.foldl_cons, Reading.step, Reading.step, Reading.step, Reading.closeTag_of_read h]

theorem closesItself_of_not_isOneStop (h : read content = .ok tag) (hne : tag ≠ .reset)
    (hinner : ∀ c ∈ inner, ¬ Token.isSpecial c) (hmore : ¬ IsOneStop content) :
    ClosesItself content inner := by
  obtain ⟨effect, hopen⟩ := Reading.exists_openTag_eq_push h hne
  intro r after
  refine ⟨⟨effect, r.text.length, tag.closeName⟩, hopen r, ?_,
    fun span hspan => (OpenTag.bounds_of_mem_spans hspan).2⟩
  rw [foldl_own h hne hinner, hopen, (canonicalCloseName_eq_iff h).2 hmore,
    Reading.closeNamed_append_push]

/-- A gradient tag with a single stop is not closed by its name: with no gradient around
it, the closing tag closes nothing. -/
theorem not_closesItself_of_isOneStop (h : read content = .ok tag) (hne : tag ≠ .reset)
    (hinner : ∀ c ∈ inner, ¬ Token.isSpecial c) (hone : IsOneStop content) :
    ¬ ClosesItself content inner := by
  obtain ⟨effect, hopen⟩ := Reading.exists_openTag_eq_push h hne
  intro hcloses
  obtain ⟨entry, -, hread, -⟩ := hcloses .start []
  have hother : ∀ entry ∈ ((Reading.start.push effect tag.closeName).append inner).stack,
      entry.closeName ≠ canonicalCloseName content := by
    have hname : canonicalCloseName content ≠ tag.closeName := fun heq =>
      (canonicalCloseName_eq_iff h).1 heq hone
    simpa [Reading.append, Reading.push, Reading.start] using hname.symm
  rw [foldl_own h hne hinner, hopen, Reading.closeNamed_eq_self hother] at hread
  have hstack := congrArg Reading.stack hread
  simp [Reading.append, Reading.push, Reading.start] at hstack

/-- Every tag that opens has the name by which its own content closes it, and is closed
by it, except for the gradient tag with a single stop. -/
theorem closed_by_own_name_iff (h : read content = .ok tag) :
    (canonicalCloseName content = tag.closeName ↔ ¬ IsOneStop content) ∧
      (tag ≠ .reset → ∀ inner, (∀ c ∈ inner, ¬ Token.isSpecial c) →
        (ClosesItself content inner ↔ ¬ IsOneStop content)) :=
  ⟨canonicalCloseName_eq_iff h, fun hne _ hinner =>
    ⟨fun hcloses hone => not_closesItself_of_isOneStop h hne hinner hone hcloses,
      closesItself_of_not_isOneStop h hne hinner⟩⟩

theorem closed_by_own_name_iff_stops :
    let content : Text := " Gradient: red:#0000FF ".toList
    read content = .ok (.gradient [NamedColor.red.rgb, ⟨0, 0, 255⟩]) ∧
      canonicalCloseName content = "gradient".toList ∧ ClosesItself content "a > b".toList := by
  intro content
  have hread : read content = .ok (.gradient [NamedColor.red.rgb, ⟨0, 0, 255⟩]) := by decide +kernel
  have hmore : ¬ IsOneStop content := by
    rintro ⟨name, stop, hpieces, -⟩
    have htwo : content.trim.pieces ':' = ("Gradient".toList, [" red".toList, "#0000FF".toList]) := by
      decide +kernel
    rw [htwo] at hpieces
    cases hpieces
  obtain ⟨hname, hcloses⟩ := closed_by_own_name_iff hread
  exact ⟨hread, hname.2 hmore, (hcloses (by simp) _ (Text.forall_mem_of_all (by decide))).2 hmore⟩

/-- The gradient tag with a single stop is read as a colour, so its name is none that
closes it and the colour goes on to the end. -/
theorem not_closed_by_own_name_gold :
    let content : Text := "gradient:gold".toList
    read content = .ok (.color NamedColor.gold.rgb) ∧
      canonicalCloseName content ≠ closeName (.color NamedColor.gold.rgb) ∧
      Document.ofMarkup (angleTag content ++ ['a'] ++ angleTag ('/' :: content) ++ ['b']) =
        ⟨['a', 'b'], [⟨0, 2, .colored NamedColor.gold.rgb, 0⟩]⟩ := by
  decide +kernel

end StyleTag

end ColorMarkup
