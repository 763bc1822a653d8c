import Mathlib.Logic.Relation
import ColorMarkup.Text.Basic
/-!
Deleting words from a text, one at a time and at any place, as a rewriting relation.
Words that cannot overlap can be deleted in any order: two deletions from one text
are either the same or can be followed by each other, so all sequences of deletions
that end in a text without such words end in the same text.
-/
namespace ColorMarkup

open Relation (ReflTransGen ReflGen)

variable {R R' : Text → Prop} {s t u : Text}

/-- `t` is `s` without one word of `R`, whose two sides come together. -/
def Deletes (R : Text → Prop) (s t : Text) : Prop :=
  ∃ before word after, R word ∧ s = before ++ word ++ after ∧ t = before ++ after

/-- No part of the text is a word of `R`. -/
def Free (R : Text → Prop) (s : Text) : Prop := ∀ word, R word → ¬ word <:+: s

/-- Deletions lead from `s` to `t`, which is free, and to no other free text. -/
structure EndsOnlyIn (R : Text → Prop) (s t : Text) : Prop where
  free : Free R t
  reached : ReflTransGen (Deletes R) s t
  only : ∀ u, ReflTransGen (Deletes R) s u → Free R u → u = t

/-- Words that start with a head, hold no other head and do not continue each
other. Such words overlap only where they are the same occurrence. -/
structure Headed (isHead : Char → Bool) (R : Text → Prop) : Prop where
  shape : ∀ {word}, R word → ∃ c rest, word = c :: rest ∧ isHead c ∧ ∀ d ∈ rest, ¬ isHead d
  unique : ∀ {v w s t}, R v → R w → v ++ s = w ++ t → v = w

theorem Headed.mono {isHead : Char → Bool} (hR : Headed isHead R) (h : ∀ w, R' w → R w) :
    Headed isHead R' where
  shape hw := hR.shape (h _ hw)
  unique hv hw := hR.unique (h _ hv) (h _ hw)

theorem Deletes.mono (h : ∀ w, R' w → R w) (hd : Deletes R' s t) : Deletes R s t := by
  obtain ⟨before, word, after, hword, hs, ht⟩ := hd
  exact ⟨before, word, after, h word hword, hs, ht⟩

theorem reaches_mono (h : ∀ w, R' w → R w) (hr : ReflTransGen (Deletes R') s t) :
    ReflTransGen (Deletes R) s t :=
  ReflTransGen.mono (fun _ _ => Deletes.mono h) _ _ hr

/-- What can be deleted from a text can be deleted from it inside a longer one. -/
theorem Deletes.append (front back : Text) (h : Deletes R s t) :
    Deletes R (front ++ s ++ back) (front ++ t ++ back) := by
  obtain ⟨before, word, after, hword, rfl, rfl⟩ := h
  exact ⟨front ++ before, word, after ++ back, hword, by simp, by simp⟩

theorem reaches_append {s' t' : Text} (hs : ReflTransGen (Deletes R) s s')
    (ht : ReflTransGen (Deletes R) t t') : ReflTransGen (Deletes R) (s ++ t) (s' ++ t') := by
  have hleft : ReflTransGen (Deletes R) (s ++ t) (s' ++ t) :=
    hs.lift (· ++ t) fun a b h => by simpa using h.append [] t
  have hright : ReflTransGen (Deletes R) (s' ++ t) (s' ++ t') :=
    ht.lift (s' ++ ·) fun a b h => by simpa using h.append s' []
  exact hleft.trans hright

theorem reaches_nil_of_word {word : Text} (h : R word) : ReflTransGen (Deletes R) word [] :=
  .single ⟨[], word, [], h, by simp, rfl⟩

theorem Headed.length_pos {isHead : Char → Bool} (hR : Headed isHead R) {word : Text}
    (h : R word) : 0 < word.length := by
  obtain ⟨c, rest, rfl, -, -⟩ := hR.shape h
  simp

theorem Headed.length_lt {isHead : Char → Bool} (hR : Headed isHead R) (h : Deletes R s t) :
    t.length < s.length := by
  obtain ⟨before, word, after, hword, rfl, rfl⟩ := h
  have hpos := hR.length_pos hword
  simp only [List.length_append]
  omega

theorem Headed.length_le {isHead : Char → Bool} (hR : Headed isHead R)
    (h : ReflTransGen (Deletes R) s t) : t.length ≤ s.length := by
  induction h with
  | refl => exact Nat.le_refl _
  | tail _ hstep ih =>
    have := hR.length_lt hstep
    omega

/-- Deletions that leave the length as it was are none. -/
theorem Headed.eq_of_length_le {isHead : Char → Bool} (hR : Headed isHead R)
    (h : ReflTransGen (Deletes R) s t) (hlength : s.length ≤ t.length) : t = s := by
  rcases ReflTransGen.cases_head h with rfl | ⟨u, hstep, hrest⟩
  · rfl
  · have hlt := hR.length_lt hstep
    have hle := hR.length_le hrest
    omega

theorem Free.eq_of_reaches (hs : Free R s) (h : ReflTransGen (Deletes R) s t) : t = s := by
  rcases ReflTransGen.cases_head h with rfl | ⟨u, ⟨before, word, after, hword, rfl, -⟩, -⟩
  · rfl
  · exact absurd ⟨before, after, rfl⟩ (hs word hword)

/-- Two occurrences, the second no earlier than the first: they are the same, or
the second comes after the end of the first. -/
theorem Headed.eq_or_after {isHead : Char → Bool} (hR : Headed isHead R)
    {v w gap after after' : Text} (hv : R v) (hw : R w)
    (h : v ++ after = gap ++ (w ++ after')) :
    (gap = [] ∧ v = w ∧ after = after') ∨
      ∃ between, gap = v ++ between ∧ after = between ++ (w ++ after') := by
  rcases List.append_eq_append_iff.1 h with ⟨between, hgap, hafter⟩ | ⟨inner, hinner, hrest⟩
  · exact .inr ⟨between, hgap, hafter⟩
  · cases gap with
    | nil =>
      have heq : v = w := hR.unique hv hw h
      subst heq
      exact .inl ⟨rfl, rfl, by simpa using h⟩
    | cons c gap =>
      right
      cases inner with
      | nil => exact ⟨[], by simpa using hinner.symm, by simpa using hrest.symm⟩
      | cons d inner =>
        -- the head of `w` would stand inside `v`, where no head may stand
        obtain ⟨e, tail, rfl, he, -⟩ := hR.shape hw
        obtain ⟨f, rest, rfl, -, hnone⟩ := hR.shape hv
        have hd : e = d := (List.cons.inj hrest).1
        have hmem : d ∈ rest := by
          rw [(List.cons.inj hinner).2]
          simp
        exact absurd (hd ▸ he) (hnone d hmem)

/-- Two deletions from one text are the same, or can be followed by each other. -/
theorem Headed.diamond {isHead : Char → Bool} (hR : Headed isHead R)
    (ht : Deletes R s t) (hu : Deletes R s u) :
    t = u ∨ ∃ v, Deletes R t v ∧ Deletes R u v := by
  obtain ⟨before, v, after, hv, rfl, rfl⟩ := ht
  obtain ⟨before', w, after', hw, hs, rfl⟩ := hu
  rw [List.append_assoc, List.append_assoc] at hs
  -- the two places in either order; the first one's deletion leaves the other word whole
  rcases List.append_eq_append_iff.1 hs with ⟨gap, rfl, h⟩ | ⟨gap, rfl, h⟩
  · rcases hR.eq_or_after hv hw h with ⟨rfl, -, rfl⟩ | ⟨between, rfl, rfl⟩
    · simp
    · exact .inr ⟨before ++ between ++ after', ⟨before ++ between, w, after', hw, by simp, rfl⟩,
        ⟨before, v, between ++ after', hv, by simp, by simp⟩⟩
  · rcases hR.eq_or_after hw hv h with ⟨rfl, -, rfl⟩ | ⟨between, rfl, rfl⟩
    · simp
    · exact .inr ⟨before' ++ between ++ after, ⟨before', w, between ++ after, hw, by simp, by simp⟩,
        ⟨before' ++ between, v, after, hv, by simp, rfl⟩⟩

/-- All deletions from one text can be continued to a common text. -/
theorem Headed.confluent {isHead : Char → Bool} (hR : Headed isHead R)
    (ht : ReflTransGen (Deletes R) s t) (hu : ReflTransGen (Deletes R) s u) :
    ∃ v, ReflTransGen (Deletes R) t v ∧ ReflTransGen (Deletes R) u v := by
  refine Relation.church_rosser (fun a b c hb hc => ?_) ht hu
  rcases hR.diamond hb hc with rfl | ⟨v, hbv, hcv⟩
  · exact ⟨b, .refl, .refl⟩
  · exact ⟨v, .single hbv, .single hcv⟩

/-- A free text that deletions reach is the only one. -/
theorem Headed.endsOnlyIn {isHead : Char → Bool} (hR : Headed isHead R)
    (hreached : ReflTransGen (Deletes R) s t) (hfree : Free R t) : EndsOnlyIn R s t where
  free := hfree
  reached := hreached
  only := by
    intro u hu hfreeu
    obtain ⟨v, htv, huv⟩ := hR.confluent hreached hu
    rw [← hfree.eq_of_reaches htv, hfreeu.eq_of_reaches huv]

/-- One sweep from left to right: a word of `R` is deleted wherever one starts, and
all other characters are kept. -/
inductive Sweeps (R : Text → Prop) : Text → Text → Prop where
  | nil : Sweeps R [] []
  | keep {c : Char} {s t : Text} (h : ∀ word, R word → ¬ word <+: c :: s) (rest : Sweeps R s t) :
    Sweeps R (c :: s) (c :: t)
  | delete {word s t : Text} (h : R word) (rest : Sweeps R s t) : Sweeps R (word ++ s) t

theorem Sweeps.reaches (h : Sweeps R s t) : ReflTransGen (Deletes R) s t := by
  induction h with
  | nil => exact .refl
  | @keep c s t _ _ ih => simpa using reaches_append (.refl (a := [c])) ih
  | delete hword _ ih => simpa using reaches_append (reaches_nil_of_word hword) ih

/-- A sweep that does not shorten the text found no word. -/
theorem Sweeps.free {isHead : Char → Bool} (hR : Headed isHead R) (h : Sweeps R s t)
    (hlength : s.length ≤ t.length) : Free R s := by
  induction h with
  | nil =>
    intro word hword hinfix
    have hpos := hR.length_pos hword
    rw [List.infix_nil.1 hinfix] at hpos
    simp at hpos
  | keep hnone _ ih =>
    intro word hword hinfix
    cases List.infix_cons_iff.1 hinfix with
    | inl hstart => exact hnone word hword hstart
    | inr hlater => exact ih (by simpa using hlength) word hword hlater
  | delete hword hrest _ =>
    have hpos := hR.length_pos hword
    have hle := hR.length_le hrest.reaches
    rw [List.length_append] at hlength
    omega

end ColorMarkup
