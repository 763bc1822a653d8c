import ColorMarkup.Proofs.StyleTagReading
import ColorMarkup.Proofs.TokenReading
import Mathlib.Tactic.ByContra
/-!
What a tag that is read says about the text between its brackets. The text is one of a
few forms, and apart from a reset, which takes any arguments, it holds no character that
would end the tag.
-/
namespace ColorMarkup

namespace Text

variable {mark : Char} {text first : Text} {others : List Text}

/-- Trimming cuts off blanks at the two ends. -/
theorem exists_trim_append (text : Text) : ∃ front back : Text,
    (∀ c ∈ front, isBlank c) ∧ (∀ c ∈ back, isBlank c) ∧ text = front ++ text.trim ++ back := by
  have hsplit : ∀ text : Text, text = text.takeWhile isBlank ++ text.dropWhile isBlank :=
    fun _ => List.takeWhile_append_dropWhile.symm
  have hblank : ∀ text : Text, ∀ c ∈ text.takeWhile isBlank, isBlank c :=
    fun _ => List.all_eq_true.1 List.all_takeWhile
  have hrest := congrArg List.reverse (hsplit (text.dropWhile isBlank).reverse)
  rw [List.reverse_reverse, List.reverse_append] at hrest
  have hback : ∀ c ∈ ((text.dropWhile isBlank).reverse.takeWhile isBlank).reverse, isBlank c :=
    fun c hc => hblank _ c (List.mem_reverse.1 hc)
  refine ⟨_, _, hblank text, hback, ?_⟩
  rw [trim, List.append_assoc, ← hrest]
  exact hsplit text

theorem trim_append_of_not_isBlank {front : Text} (hfront : ∀ c ∈ front, isBlank c)
    (h : ∀ c ∈ text, ¬ isBlank c) : (front ++ text).trim = text := by
  rw [trim, List.dropWhile_append_of_pos hfront]
  exact trim_eq_self h

/-- The pieces with the marks between them are the text. -/
theorem eq_of_pieces (h : text.pieces mark = (first, others)) :
    text = first ++ others.flatMap (mark :: ·) ∧ ∀ c ∈ first, c ≠ mark := by
  induction text generalizing first others with
  | nil =>
    cases h
    simp
  | cons c text ih =>
    obtain ⟨hsource, hfirst⟩ := ih rfl
    rw [pieces] at h
    by_cases hc : c = mark
    · simp only [if_pos hc] at h
      cases h
      rw [hc, List.nil_append, List.flatMap_cons, List.cons_append, ← hsource]
      exact ⟨rfl, by simp⟩
    · simp only [if_neg hc] at h
      cases h
      rw [List.cons_append, ← hsource]
      exact ⟨rfl, List.forall_mem_cons.2 ⟨hc, hfirst⟩⟩

/-- For the first piece it does not matter whether blanks are cut off before or after the
text is cut, if the piece is all of the text or has no blanks of its own. -/
theorem trim_fst_pieces (hmark : ¬ isBlank mark) (h : text.trim.pieces mark = (first, others))
    (hfirst : others = [] ∨ ∀ c ∈ first, ¬ isBlank c) : (text.pieces mark).1.trim = first := by
  obtain ⟨front, back, hfront, hback, htext⟩ := text.exists_trim_append
  obtain ⟨hsource, hmarks⟩ := eq_of_pieces h
  have hne : ∀ c, isBlank c → c ≠ mark := by
    rintro c hc rfl
    exact hmark hc
  cases others with
  | nil =>
    rw [List.flatMap_nil, List.append_nil] at hsource
    have hnone : ∀ c ∈ text, c ≠ mark := by
      intro c hc
      rw [htext, hsource, List.mem_append, List.mem_append] at hc
      rcases hc with (hc | hc) | hc
      · exact hne c (hfront c hc)
      · exact hmarks c hc
      · exact hne c (hback c hc)
    rw [pieces_of_forall_ne hnone, hsource]
  | cons other others =>
    have hnone : ∀ c ∈ front ++ first, c ≠ mark := by
      intro c hc
      cases List.mem_append.1 hc with
      | inl hc => exact hne c (hfront c hc)
      | inr hc => exact hmarks c hc
    have hpieces : (text.pieces mark).1 = front ++ first := by
      rw [htext, hsource, List.flatMap_cons, List.cons_append, ← List.append_assoc,
        List.append_assoc (front ++ first), List.cons_append, pieces_append hnone]
    rw [hpieces]
    exact trim_append_of_not_isBlank hfront (hfirst.resolve_left (List.cons_ne_nil _ _))

/-- What holds of the lower-case text holds of the text, if letters cannot fail it. -/
theorem forall_mem_of_lower {p : Char → Prop} (hp : ∀ c, ¬ p c → c.toLower = c)
    (h : ∀ c ∈ text.lower, p c) : ∀ c ∈ text, p c := by
  intro c hc
  by_contra hnot
  have hlower := h c.toLower (List.mem_map_of_mem hc)
  rw [hp c hnot] at hlower
  exact hnot hlower

end Text

theorem forall_mem_words {p : Char → Prop} [DecidablePred p] {words : List Text}
    (h : words.all fun word => word.all fun c => decide (p c)) : ∀ word ∈ words, ∀ c ∈ word, p c := by
  simpa using h

theorem toLower_eq_of_isBlank {c : Char} (h : isBlank c) : c.toLower = c := by
  have hcapital : ¬ (c.val ≥ 'A'.val ∧ c.val ≤ 'Z'.val) := by
    rintro ⟨hlow, hhigh⟩
    have hlow : 65 ≤ c.toNat := hlow
    have hhigh : c.toNat ≤ 90 := hhigh
    obtain ⟨r, hr, hle⟩ := CodeRanges.contains_iff.1 h
    have hranges : ∀ r ∈ blankRanges, r.2 < 65 ∨ 90 < r.1 := by decide
    have := hranges r hr
    omega
  exact dif_neg hcapital

namespace StyleTag

/-- What a tag means whose content is this name, in lower case, and these arguments. -/
inductive Means : Text → List Text → StyleTag → Prop where
  | color {name argument : Text} {found : Color} (hname : colorWords.contains name)
    (h : readColor argument = .ok found) : Means name [argument] (.color found)
  | oneStop {argument : Text} {found : Color} (h : readColor argument = .ok found) :
    Means "gradient".toList [argument] (.color found)
  | gradient {arguments : List Text} {stops : List Color}
    (h : arguments.map readColor = stops.map .ok) (hlength : 2 ≤ stops.length) :
    Means "gradient".toList arguments (.gradient stops)
  | reset (arguments : List Text) : Means "reset".toList arguments .reset
  | decoration {name : Text} {d : Decoration} (hname : ¬ colorWords.contains name)
    (h : Decoration.ofTagName? name = some d) : Means name [] (.decoration (.single d))
  | bare {name : Text} {found : Color} (hname : Decoration.ofTagName? name = none)
    (h : readColor name = .ok found) : Means name [] (.color found)

theorem map_eq_of_mapM {arguments : List Text} {stops : List Color}
    (h : arguments.mapM readColor = .ok stops) : arguments.map readColor = stops.map .ok := by
  induction arguments generalizing stops with
  | nil =>
    cases h
    rfl
  | cons argument arguments ih =>
    rw [List.mapM_cons] at h
    cases hfirst : readColor argument with
    | error error => rw [hfirst] at h; cases h
    | ok stop =>
      cases hrest : arguments.mapM readColor with
      | error error => rw [hfirst, hrest] at h; cases h
      | ok rest =>
        rw [hfirst, hrest] at h
        cases h
        rw [List.map_cons, List.map_cons, hfirst, ih hrest]

theorem means_of_readGradient {arguments : List Text} {tag : StyleTag}
    (h : readGradient "gradient".toList arguments = .ok tag) : Means "gradient".toList arguments tag := by
  rw [readGradient] at h
  cases hread : arguments.mapM readColor with
  | error error => rw [hread] at h; cases h
  | ok stops =>
    have hall := map_eq_of_mapM hread
    rw [hread] at h
    rcases stops with _ | ⟨first, _ | ⟨second, rest⟩⟩
    · cases h
    · cases h
      obtain ⟨argument, rfl, hargument⟩ := List.map_eq_singleton_iff.1 hall
      exact .oneStop hargument
    · cases h
      exact .gradient hall (by simp)

theorem means_of_readBare {name content : Text} {tag : StyleTag} (hname : ¬ colorWords.contains name)
    (h : readBare name content = .ok tag) : Means name [] tag := by
  rw [readBare] at h
  cases hdecoration : Decoration.ofTagName? name with
  | some d =>
    rw [hdecoration] at h
    cases h
    exact .decoration hname hdecoration
  | none =>
    rw [hdecoration] at h
    cases hcolor : readColor name with
    | error error => rw [hcolor] at h; cases h
    | ok found =>
      rw [hcolor] at h
      cases h
      exact .bare hdecoration hcolor

theorem means_of_read {content : Text} {tag : StyleTag} (h : read content = .ok tag) :
    ∃ first arguments, content.trim.pieces ':' = (first, arguments) ∧
      Means first.lower arguments tag := by
  refine ⟨_, _, rfl, ?_⟩
  rw [read] at h
  simp only at h
  split at h
  · cases h
  · split at h
    · next hword =>
      split at h
      · next argument harguments =>
        cases hcolor : readColor argument with
        | error error => rw [hcolor] at h; cases h
        | ok found =>
          rw [hcolor] at h
          cases h
          rw [harguments]
          exact .color hword hcolor
      · cases h
    · next hword =>
      split at h
      · next hgradient =>
        rw [hgradient] at h ⊢
        exact means_of_readGradient h
      · split at h
        · next hreset =>
          cases h
          rw [hreset]
          exact .reset _
        · split at h
          · next hnone =>
            rw [hnone]
            exact means_of_readBare hword h
          · cases h

/-- A character that can stand in a tag without ending it or making it a closing one. -/
def IsInner (c : Char) : Prop := ¬ Token.isBracket c ∧ c ≠ '/'

instance (c : Char) : Decidable (IsInner c) := inferInstanceAs (Decidable (_ ∧ _))

theorem eq_of_not_isInner {c : Char} (h : ¬ IsInner c) : c = '<' ∨ c = '>' ∨ c = '/' := by
  by_contra hne
  simp only [not_or] at hne
  exact h ⟨by simp [Token.isBracket, hne], hne.2.2⟩

theorem isInner_of_isBlank {c : Char} (h : isBlank c) : IsInner c := by
  by_contra hinner
  rcases eq_of_not_isInner hinner with rfl | rfl | rfl <;> exact absurd h (by decide)

theorem isInner_of_isHexDigit {c : Char} (h : IsHexDigit c) : IsInner c := by
  by_contra hinner
  rcases eq_of_not_isInner hinner with rfl | rfl | rfl <;> exact absurd h (by decide)

theorem isInner_of_lower {text : Text} (h : ∀ c ∈ text.lower, IsInner c) : ∀ c ∈ text, IsInner c := by
  refine Text.forall_mem_of_lower (fun c hc => ?_) h
  rcases eq_of_not_isInner hc with rfl | rfl | rfl <;> rfl

theorem isInner_of_trim {text : Text} (h : ∀ c ∈ text.trim, IsInner c) : ∀ c ∈ text, IsInner c := by
  obtain ⟨front, back, hfront, hback, htext⟩ := text.exists_trim_append
  intro c hc
  rw [htext, List.mem_append, List.mem_append] at hc
  rcases hc with (hc | hc) | hc
  · exact isInner_of_isBlank (hfront c hc)
  · exact h c hc
  · exact isInner_of_isBlank (hback c hc)

theorem isInner_of_ofName? {name : Text} {named : NamedColor}
    (h : NamedColor.ofName? name = some named) : ∀ c ∈ name, IsInner c := by
  have hname : ∀ c ∈ named.name, IsInner c := by
    cases named <;> exact Text.forall_mem_of_all (by decide)
  have halias : ∀ text ∈ named.alias?.toList, ∀ c ∈ text, IsInner c := by
    cases named <;> exact forall_mem_words (by decide)
  rw [NamedColor.ofName?] at h
  apply isInner_of_lower
  have hfound := List.find?_some h
  rw [decide_eq_true_eq] at hfound
  rcases hfound with hlower | hlower
  · exact hlower ▸ hname
  · exact halias _ (Option.mem_toList.2 hlower)

theorem isInner_of_readColor {argument : Text} {found : Color} (h : readColor argument = .ok found) :
    ∀ c ∈ argument, IsInner c := by
  apply isInner_of_trim
  rw [readColor] at h
  split at h
  · next digits htrim =>
    cases hdigits : Color.ofHex? digits with
    | none => simp [Color.ofHex, hdigits] at h
    | some color =>
      have hhex := (Color.exists_ofHex?_iff.1 ⟨color, hdigits⟩).2
      rw [htrim]
      exact List.forall_mem_cons.2 ⟨by decide, fun d hd => isInner_of_isHexDigit (hhex d hd)⟩
  · cases hname : NamedColor.ofName? argument.trim with
    | none => rw [hname] at h; cases h
    | some named => exact isInner_of_ofName? hname

/-- A tag that can be read, other than a reset, is one token wherever it is written: a
reset may be given any arguments. -/
theorem isInner_of_means {name : Text} {arguments : List Text} {tag : StyleTag}
    (h : Means name arguments tag) (hne : tag ≠ .reset) :
    (∀ c ∈ name, IsInner c) ∧ ∀ argument ∈ arguments, ∀ c ∈ argument, IsInner c := by
  have hgradient : ∀ c ∈ "gradient".toList, IsInner c := Text.forall_mem_of_all (by decide)
  have hwords : ∀ name ∈ colorWords, ∀ c ∈ name, IsInner c := forall_mem_words (by decide)
  have htags : ∀ d : Decoration, ∀ name ∈ d.tagNames, ∀ c ∈ name, IsInner c := by
    intro d
    cases d <;> exact forall_mem_words (by decide)
  cases h with
  | color hname h =>
    exact ⟨hwords name (List.contains_iff_mem.1 hname), by simpa using isInner_of_readColor h⟩
  | oneStop h => exact ⟨hgradient, by simpa using isInner_of_readColor h⟩
  | gradient hall _ =>
    refine ⟨hgradient, fun argument hargument => ?_⟩
    have hread := List.mem_map_of_mem (f := readColor) hargument
    rw [hall] at hread
    obtain ⟨stop, -, hstop⟩ := List.mem_map.1 hread
    exact isInner_of_readColor hstop.symm
  | reset => exact absurd rfl hne
  | decoration _ hd =>
    have hname := List.find?_some hd
    exact ⟨htags _ name (List.contains_iff_mem.1 hname), by simp⟩
  | bare _ h => exact ⟨isInner_of_readColor h, by simp⟩

theorem isInner_of_read {content : Text} {tag : StyleTag} (h : read content = .ok tag)
    (hne : tag ≠ .reset) : ∀ c ∈ content, IsInner c := by
  obtain ⟨first, arguments, hpieces, hmeans⟩ := means_of_read h
  obtain ⟨hfirst, harguments⟩ := isInner_of_means hmeans hne
  apply isInner_of_trim
  rw [(Text.eq_of_pieces hpieces).1]
  intro c hc
  cases List.mem_append.1 hc with
  | inl hc => exact isInner_of_lower hfirst c hc
  | inr hc =>
    obtain ⟨argument, hargument, hc⟩ := List.mem_flatMap.1 hc
    cases List.mem_cons.1 hc with
    | inl hc =>
      rw [hc]
      decide
    | inr hc => exact harguments argument hargument c hc

variable {content : Text} {tag : StyleTag}

theorem trim_ne_nil_of_read (h : read content = .ok tag) : content.trim ≠ [] := by
  intro hnil
  rw [read, hnil] at h
  cases h

theorem tokens_own (h : read content = .ok tag) (hne : tag ≠ .reset) (rest : Text) :
    tokens (angleTag content ++ rest) = .opening content :: tokens rest := by
  have hinner := isInner_of_read h hne
  refine tokens_opening_append ?_ ?_ (fun c hc => (hinner c hc).1) rest
  · rintro rfl
    exact trim_ne_nil_of_read h rfl
  · intro hhead
    exact (hinner '/' (List.mem_of_mem_head? hhead)).2 rfl

theorem tokens_own_closing (h : read content = .ok tag) (hne : tag ≠ .reset) (rest : Text) :
    tokens (angleTag ('/' :: content) ++ rest) = .closing content :: tokens rest :=
  tokens_closing_append (fun c hc => (isInner_of_read h hne c hc).1) rest

end StyleTag

end ColorMarkup
