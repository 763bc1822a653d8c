import ColorMarkup.Proofs.DecorationRuns
/-!
The decorations in force behind what is written in the legacy form. Reading for codes can be
cut in front of a character that is no letter and behind one that is no marker. A written
colour ends all decorations, and the codes of a set, written behind it, bring the set back.
-/
namespace ColorMarkup

namespace Decorations

section Append

variable (active : Decorations)

/-- Reading goes on behind a text that does not end in a marker. -/
theorem afterText_append_of_getLast? {front : Text} (h : ∀ c ∈ front.getLast?, ¬ isMarker c) (back : Text) :
    active.afterText (front ++ back) = (active.afterText front).afterText back := by
  have hboundary : ∀ c ∈ front.getLast?, ∀ letter ∈ back.head?, isMarker c → LegacyCode.of? letter = none :=
    fun c hc _ _ hmarker => absurd hmarker (h c hc)
  rw [afterText, readCodes_append_of_boundary hboundary, List.foldl_append]
  rfl

/-- Reading starts anew in front of a character that is no letter. -/
theorem afterText_append_cons {c : Char} (h : LegacyCode.of? c = none) (front back : Text) :
    active.afterText (front ++ c :: back) = (active.afterText front).afterText (c :: back) := by
  rw [afterText, readCodes_append h, List.foldl_append]
  rfl

end Append

theorem afterText_digits {digits : Text} (h : ∀ c ∈ digits, ∃ n < 16, c = n.digitChar) (rest : Text) :
    afterText ∅ (digits.flatMap legacyCode ++ rest) = afterText ∅ rest := by
  induction digits with
  | nil => rfl
  | cons c digits ih =>
    have ih := ih fun d hd => h d (List.mem_cons_of_mem _ hd)
    obtain ⟨n, hn, rfl⟩ := h c List.mem_cons_self
    obtain ⟨named, hcode⟩ := exists_of?_digitChar hn
    rw [List.flatMap_cons, List.append_assoc, ← ih]
    exact afterText_code ∅ isMarker_section hcode _

/-- Behind the code of a colour no decoration is in force. -/
theorem afterText_legacyHex (active : Decorations) (front : Text) (color : Color) (rest : Text) :
    active.afterText (front ++ (color.legacyHex ++ rest)) = afterText ∅ rest := by
  have hx : LegacyCode.of? 'x' = some .hex := by decide
  have hdigits : ∀ c ∈ color.toHex, ∃ n < 16, c = n.digitChar := fun _ =>
    Color.exists_digitChar_of_mem_toHex
  have hfront := active.afterText_append_cons of?_section front
    ('x' :: (color.toHex.flatMap legacyCode ++ rest))
  rw [afterText_code _ isMarker_section hx] at hfront
  rw [← afterText_digits hdigits]
  exact hfront

theorem IsNamed.after {active : Decorations} (h : active.IsNamed) (code : LegacyCode) :
    (active.after code).IsNamed := by
  rw [← next_true]
  exact h.next true code

theorem IsNamed.afterText {active : Decorations} (h : active.IsNamed) (text : Text) :
    (active.afterText text).IsNamed := by
  rw [Decorations.afterText]
  induction readCodes isMarker LegacyCode.of? text generalizing active with
  | nil => exact h
  | cons piece pieces ih =>
    cases piece with
    | plain c => exact ih h
    | code marker letter code => exact ih (h.after code)

/-- The codes of decorations as they are written. -/
def codes (list : List Decoration) : Text := list.flatMap fun d => (FormatCode.decorate d).render .legacy

theorem afterText_codes (active : Decorations) (list : List Decoration) (rest : Text) :
    active.afterText (codes list ++ rest) = (list.foldl (fun set d => set ∪ single d) active).afterText rest := by
  induction list generalizing active with
  | nil => rfl
  | cons d list ih =>
    have hcode : LegacyCode.of? d.code = some (.format (.decorate d)) := by cases d <;> decide
    rw [codes, List.flatMap_cons, List.append_assoc, List.foldl_cons, ← ih]
    exact active.afterText_code isMarker_section hcode _

theorem mem_foldl_union {active : Decorations} {list : List Decoration} {d : Decoration} :
    d ∈ list.foldl (fun set d => set ∪ single d) active ↔ d ∈ active ∨ d ∈ list := by
  induction list generalizing active with
  | nil => simp
  | cons e list ih => rw [List.foldl_cons, ih, mem_union, mem_single, List.mem_cons, or_assoc]

theorem IsNamed.foldl_union {active : Decorations} (h : active.IsNamed) (list : List Decoration) :
    (list.foldl (fun set d => set ∪ single d) active).IsNamed := by
  induction list generalizing active with
  | nil => exact h
  | cons d list ih => exact ih (h.after (.format (.decorate d)))

/-- The members of a set make up the set. -/
theorem IsNamed.foldl_toList {set : Decorations} (h : set.IsNamed) :
    set.toList.foldl (fun set d => set ∪ single d) ∅ = set := by
  refine eq_of_isNamed (isNamed_empty.foldl_union _) h fun d => ?_
  rw [mem_foldl_union, mem_toList]
  exact or_iff_right (not_mem_empty d)

/-- What is written for a single colour leaves the decorations in force that it was written
for, whatever stands in front of it. -/
theorem IsNamed.afterText_renderColor {set : Decorations} (h : set.IsNamed) (active : Decorations)
    (front : Text) (color : Color) (rest : Text) :
    active.afterText (front ++ (Legacy.renderColor color set ++ rest)) = set.afterText rest := by
  have hcodes := afterText_codes ∅ set.toList rest
  rw [h.foldl_toList] at hcodes
  rw [Legacy.renderColor, List.append_assoc, afterText_legacyHex]
  exact hcodes

end Decorations

end ColorMarkup
