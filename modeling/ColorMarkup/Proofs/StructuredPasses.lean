import ColorMarkup.Proofs.AtomReading
import ColorMarkup.Proofs.Blocks
import ColorMarkup.Proofs.TagContent
/-!
The structured passes on the atoms of a text. Each replaces its own atoms by angle-bracket
tags, which join nothing around them, and leaves all other atoms in place.
-/
namespace ColorMarkup
namespace Structured

theorem exists_of?_of_codeTag? {letter : Char} {tag : Text} (h : codeTag? letter = some tag) :
    ∃ code, LegacyCode.of? letter = some code := by
  cases hcode : LegacyCode.of? letter with
  | some code => exact ⟨code, rfl⟩
  | none =>
    rw [codeTag?, hcode] at h
    cases h

/-- The codes that the structured pass replaces. -/
def reader : CodeReader Text where
  isMark := isMarker
  accept := codeTag?
  isMarker_of_isMark := id
  not_isHead_of_accept h := not_isHead_of_mem_letters (exists_of?_iff.1 (exists_of?_of_codeTag? h))

theorem isInert_angleTag {content : Text} (hstart : ∃ d ∈ content.head?, d ≠ '>' ∧ d ≠ '}')
    (hfree : ∀ c ∈ angleTag content, ¬ isMarker c ∧ c ≠ '{') : reader.IsInert (angleTag content) where
  ne_nil := by simp [angleTag]
  begins_none c hc := (hfree c hc).symm
  ends_no_code c hc := by
    obtain rfl : '<' = c := by simpa [angleTag] using hc
    decide
  ends_no_tag word after hword hword_start := by
    cases word with
    | nil => rfl
    | cons c word =>
      obtain ⟨d, hd, hclose, hbrace⟩ := hstart
      obtain ⟨content', rfl⟩ := List.head?_eq_some_iff.1 hd
      obtain ⟨hc, hrest⟩ := List.cons_prefix_cons.1 hword_start
      -- behind a bracket a tag can only end, and this one goes on with its name
      obtain ⟨e, he, hend⟩ := hword.2.1 hc
      obtain ⟨later, rfl⟩ := List.head?_eq_some_iff.1 he
      have hed : e = d := (List.cons_prefix_cons.1 hrest).1
      rw [hed] at hend
      cases hend with
      | inl h => exact absurd h hclose
      | inr h => exact absurd h hbrace

theorem isInert_render (color : Color) : reader.IsInert (color.render .structured) := by
  refine isInert_angleTag ⟨'c', rfl, by decide⟩ fun c hc => ?_
  rw [← Color.render, color_render_eq] at hc
  refine StyleTag.free_of_mem_angleTag StyleTag.isWordChar_of_mem_color ?_ hc
  simpa using fun _ => StyleTag.isWordChar_of_mem_toText

theorem isInert_gradientOpening (first second : Color) : reader.IsInert (gradientOpening first second) :=
  isInert_angleTag ⟨'g', rfl, by decide⟩ fun _ => free_of_mem_gradientOpening

theorem isInert_gradientClosing : reader.IsInert gradientClosing :=
  isInert_angleTag ⟨'/', rfl, by decide⟩ fun _ => free_of_mem_gradientClosing

theorem isInert_of_codeTag? {letter : Char} {tag : Text} (h : codeTag? letter = some tag) :
    reader.IsInert tag := by
  have hfree : ∀ text : Text, (text.all fun c => decide (¬ isMarker c ∧ c ≠ '{')) →
      ∀ c ∈ text, ¬ isMarker c ∧ c ≠ '{' := fun _ => Text.forall_mem_of_all
  rw [codeTag?] at h
  split at h
  · next named _ =>
    cases h
    exact isInert_angleTag ⟨'c', rfl, by decide⟩ (hfree _ (by cases named <;> decide))
  · next format _ =>
    cases h
    refine isInert_angleTag ?_ (hfree _ (by rcases format with (_ | _) | _ <;> decide))
    rcases format with (_ | _) | _ <;> exact ⟨_, rfl, by decide⟩
  · cases h
  · cases h

/-- An atom with joint tags written out. -/
def expand : Atom Text → List (Atom Text)
  | .tag t =>
    if t.form = .joint then [.tag (.ofColor .closer t.color), .tag (.ofColor .opener t.color)]
    else [.tag t]
  | a => [a]

/-- An atom with single tags replaced. -/
def recolor : Atom Text → List (Atom Text)
  | .tag t => if t.form = .single then (t.color.render .structured).map .plain else [.tag t]
  | a => [a]

/-- An atom with codes replaced. -/
def decode : Atom Text → List (Atom Text) := CodeReader.decode fun _ tag => tag

variable {atoms : List (Atom Text)}

theorem expandJoints_atomSource (h : reader.IsReading atoms) :
    expandJoints (atomSource atoms) = atomSource (atoms.flatMap expand) := by
  rw [expandJoints_eq_tagSource, h.tagPieces_eq, ← tagSource_flatMap_pieces, List.flatMap_assoc,
    List.flatMap_assoc]
  congr
  funext a
  cases a with
  | tag t => by_cases hform : t.form = .joint <;> simp [Atom.pieces, expand, expandJoint, hform]
  | code marker letter tag => rfl
  | plain c => rfl

theorem convertColors_atomSource (h : reader.IsReading atoms) :
    convertColors (atomSource atoms) = atomSource (atoms.flatMap recolor) := by
  rw [convertColors_eq_colored, h.tagPieces_eq, atomSource_flatMap, List.flatMap_assoc]
  congr
  funext a
  cases a with
  | tag t =>
    by_cases hform : t.form = .single <;> simp [Atom.pieces, recolor, colored, hform, Atom.source]
  | code marker letter tag => rfl
  | plain c => rfl

theorem convertCodes_atomSource (h : reader.IsReading atoms) :
    convertCodes (atomSource atoms) = atomSource (atoms.flatMap decode) := by
  refine Eq.trans ?_ (h.flatMap_readCodes fun _ tag => tag)
  rw [convertCodes]
  congr
  funext piece
  cases piece <;> rfl

theorem rewrites_expand (atoms : List (Atom Text)) : reader.Rewrites atoms (atoms.flatMap expand) := by
  induction atoms with
  | nil => exact .nil
  | cons a atoms ih =>
    cases a with
    | tag t =>
      by_cases hform : t.form = .joint
      · simpa [expand, hform] using CodeReader.Rewrites.split t _ _ ih
      · simpa [expand, hform] using CodeReader.Rewrites.keep (.tag t) ih
    | code marker letter tag => exact .keep _ ih
    | plain c => exact .keep _ ih

theorem rewrites_recolor (atoms : List (Atom Text)) : reader.Rewrites atoms (atoms.flatMap recolor) := by
  induction atoms with
  | nil => exact .nil
  | cons a atoms ih =>
    cases a with
    | tag t =>
      by_cases hform : t.form = .single
      · simpa [recolor, hform] using CodeReader.Rewrites.write (.tag t) (isInert_render t.color) ih
      · simpa [recolor, hform] using CodeReader.Rewrites.keep (.tag t) ih
    | code marker letter tag => exact .keep _ ih
    | plain c => exact .keep _ ih

theorem rewrites_decode (h : reader.IsReading atoms) : reader.Rewrites atoms (atoms.flatMap decode) :=
  h.rewrites_decode fun _ _ => isInert_of_codeTag?

/-- A pass that leaves plain characters and the tags of gradients, and makes no tags. -/
structure KeepsGradients (f : Atom Text → List (Atom Text)) : Prop where
  plain : ∀ c, f (.plain c) = [.plain c]
  opener : ∀ t : ColorTag, t.form = .opener → f (.tag t) = [.tag t]
  closer : ∀ t : ColorTag, t.form = .closer → f (.tag t) = [.tag t]
  eq_of_mem : ∀ a t, .tag t ∈ f a → a = .tag t

namespace KeepsGradients

variable {f : Atom Text → List (Atom Text)} (hf : KeepsGradients f)
include hf

theorem flatMap_map_plain (text : Text) : (text.map .plain).flatMap f = text.map .plain := by
  simp [List.flatMap_map, hf.plain, ← List.map_eq_flatMap]

theorem mem_of_mem_flatMap {t : ColorTag} (h : .tag t ∈ atoms.flatMap f) : .tag t ∈ atoms := by
  obtain ⟨a, ha, ht⟩ := List.mem_flatMap.1 h
  rwa [hf.eq_of_mem a t ht] at ha

end KeepsGradients

theorem keepsGradients_recolor : KeepsGradients recolor where
  plain _ := rfl
  opener t h := by simp [recolor, h]
  closer t h := by simp [recolor, h]
  eq_of_mem a t h := by
    cases a with
    | tag u => by_cases hform : u.form = .single <;> simp_all [recolor]
    | code marker letter tag => simp [recolor] at h
    | plain c => simp [recolor] at h

theorem keepsGradients_decode : KeepsGradients decode where
  plain _ := rfl
  opener _ _ := rfl
  closer _ _ := rfl
  eq_of_mem _ _ := CodeReader.eq_of_mem_decode

theorem flatMap_comm {f g : Atom Text → List (Atom Text)} (h : ∀ a, (f a).flatMap g = (g a).flatMap f)
    (atoms : List (Atom Text)) : (atoms.flatMap f).flatMap g = (atoms.flatMap g).flatMap f := by
  rw [List.flatMap_assoc, List.flatMap_assoc]
  congr
  funext a
  exact h a

theorem expand_comm_recolor (atoms : List (Atom Text)) :
    (atoms.flatMap expand).flatMap recolor = (atoms.flatMap recolor).flatMap expand := by
  refine flatMap_comm (fun a => ?_) atoms
  cases a with
  | tag t =>
    have hplain : ∀ text : Text, (text.map Atom.plain).flatMap expand = text.map .plain := fun text => by
      simp [List.flatMap_map, expand, ← List.map_eq_flatMap]
    cases hform : t.form <;> simp [expand, recolor, hform, ColorTag.ofColor, hplain]
  | code marker letter tag => rfl
  | plain c => rfl

theorem expand_comm_decode (atoms : List (Atom Text)) :
    (atoms.flatMap expand).flatMap decode = (atoms.flatMap decode).flatMap expand := by
  refine flatMap_comm (fun a => ?_) atoms
  cases a with
  | tag t => by_cases hform : t.form = .joint <;> simp [expand, decode, CodeReader.decode, hform]
  | code marker letter tag => simp [expand, decode, CodeReader.decode, List.flatMap_map, ← List.map_eq_flatMap]
  | plain c => rfl

theorem recolor_comm_decode (atoms : List (Atom Text)) :
    (atoms.flatMap recolor).flatMap decode = (atoms.flatMap decode).flatMap recolor := by
  refine flatMap_comm (fun a => ?_) atoms
  cases a with
  | tag t =>
    have hplain := keepsGradients_decode.flatMap_map_plain
    have htag : decode (.tag t) = [.tag t] := rfl
    by_cases hform : t.form = .single <;> simp [recolor, hform, hplain, htag]
  | code marker letter tag =>
    have hplain := keepsGradients_recolor.flatMap_map_plain
    simp [recolor, decode, CodeReader.decode, hplain]
  | plain c => rfl

/-- An opener and the closer that ends it. -/
structure AtomGradient where
  opener : ColorTag
  inner : List (Atom Text)
  closer : ColorTag

namespace AtomGradient

def markup (g : AtomGradient) : Markup := .gradient g.opener g.closer (atomSource g.inner)

/-- The gradient after a pass over its content. -/
def mapInner (f : Atom Text → List (Atom Text)) (g : AtomGradient) : AtomGradient :=
  { g with inner := g.inner.flatMap f }

end AtomGradient

/-- The gradients of the atoms, and the atoms with each of their tags replaced. -/
inductive Paired : List (Atom Text) → List AtomGradient → List (Atom Text) → Prop
  | nil : Paired [] [] []
  | other {a : Atom Text} (ha : ∀ t, a = .tag t → t.form ≠ .opener) {atoms atoms' : List (Atom Text)}
      {gradients : List AtomGradient} (h : Paired atoms gradients atoms') :
      Paired (a :: atoms) gradients (a :: atoms')
  | gradient {opener closer : ColorTag} (hopener : opener.form = .opener) {inner : List (Atom Text)}
      (hinner : ∀ t, .tag t ∈ inner → t.form ≠ .closer) (hcloser : closer.form = .closer)
      {atoms atoms' : List (Atom Text)} {gradients : List AtomGradient} (h : Paired atoms gradients atoms') :
      Paired (.tag opener :: (inner ++ .tag closer :: atoms)) (⟨opener, inner, closer⟩ :: gradients)
        ((gradientOpening opener.color closer.color).map .plain ++
          (inner ++ (gradientClosing.map .plain ++ atoms')))
  | unclosed {opener : ColorTag} (hopener : opener.form = .opener) {inner : List (Atom Text)}
      (hinner : ∀ t, .tag t ∈ inner → t.form ≠ .closer) :
      Paired (.tag opener :: inner) [] (.tag opener :: inner)

/-- The first closer, or none. -/
theorem exists_closer_or_none (atoms : List (Atom Text)) :
    (∃ inner closer after, atoms = inner ++ .tag closer :: after ∧ closer.form = .closer ∧
      ∀ t, .tag t ∈ inner → t.form ≠ .closer) ∨ ∀ t, .tag t ∈ atoms → t.form ≠ .closer := by
  induction atoms with
  | nil => exact .inr (by simp)
  | cons a atoms ih =>
    by_cases ha : ∃ t : ColorTag, a = .tag t ∧ t.form = .closer
    · obtain ⟨t, rfl, hform⟩ := ha
      exact .inl ⟨[], t, atoms, rfl, hform, by simp⟩
    · have hfirst : ∀ t, .tag t = a → t.form ≠ .closer := fun t ht hform => ha ⟨t, ht.symm, hform⟩
      cases ih with
      | inl h =>
        obtain ⟨inner, closer, after, rfl, hcloser, hinner⟩ := h
        refine .inl ⟨a :: inner, closer, after, rfl, hcloser, fun t ht => ?_⟩
        cases List.mem_cons.1 ht with
        | inl h => exact hfirst t h
        | inr h => exact hinner t h
      | inr h =>
        refine .inr fun t ht => ?_
        cases List.mem_cons.1 ht with
        | inl h => exact hfirst t h
        | inr h' => exact h t h'

theorem exists_paired (atoms : List (Atom Text)) : ∃ gradients atoms', Paired atoms gradients atoms' := by
  induction hn : atoms.length using Nat.strongRecOn generalizing atoms with
  | ind n ih =>
    subst hn
    cases atoms with
    | nil => exact ⟨[], [], .nil⟩
    | cons a atoms =>
      by_cases ha : ∃ t : ColorTag, a = .tag t ∧ t.form = .opener
      · obtain ⟨opener, rfl, hopener⟩ := ha
        cases exists_closer_or_none atoms with
        | inl h =>
          obtain ⟨inner, closer, after, rfl, hcloser, hinner⟩ := h
          have hlength : after.length < (Atom.tag opener :: (inner ++ .tag closer :: after)).length := by
            simp only [List.length_cons, List.length_append]
            omega
          obtain ⟨gradients, after', hafter⟩ := ih _ hlength after rfl
          exact ⟨_, _, .gradient hopener hinner hcloser hafter⟩
        | inr h => exact ⟨_, _, .unclosed hopener h⟩
      · obtain ⟨gradients, atoms', hatoms⟩ := ih _ (Nat.lt_succ_self _) atoms rfl
        exact ⟨_, _, .other (fun t ht hform => ha ⟨t, ht, hform⟩) hatoms⟩

theorem mem_of_mem_pieces {t : ColorTag} (h : .tag t ∈ atoms.flatMap Atom.pieces) : .tag t ∈ atoms := by
  obtain ⟨a, ha, ht⟩ := List.mem_flatMap.1 h
  rwa [Atom.eq_of_mem_pieces ht] at ha

@[simp] theorem Cut.map_markup_prepend (text : Text) (parts : Cut) :
    (parts.prepend text).occurrences.map Occurrence.markup = parts.occurrences.map Occurrence.markup := by
  obtain ⟨_ | ⟨o, rest⟩, tail⟩ := parts <;> rfl

namespace Paired

variable {atoms' : List (Atom Text)} {gradients : List AtomGradient}

theorem append_left {front : List (Atom Text)} (hfront : ∀ t, .tag t ∈ front → t.form ≠ .opener)
    (h : Paired atoms gradients atoms') : Paired (front ++ atoms) gradients (front ++ atoms') := by
  induction front with
  | nil => exact h
  | cons a front ih =>
    refine .other ?_ (ih fun t ht => hfront t (List.mem_cons_of_mem _ ht))
    rintro t rfl
    exact hfront t List.mem_cons_self

theorem rewrites (h : Paired atoms gradients atoms') : reader.Rewrites atoms atoms' := by
  induction h with
  | nil => exact .nil
  | other _ _ ih => exact .keep _ ih
  | gradient _ _ _ _ ih =>
    exact .write _ (isInert_gradientOpening _ _)
      (CodeReader.Rewrites.append_left _ (.write _ isInert_gradientClosing ih))
  | unclosed => exact .refl _

/-- A pass that leaves gradients finds the same ones, their contents passed over. -/
theorem flatMap {f : Atom Text → List (Atom Text)} (hf : KeepsGradients f)
    (h : Paired atoms gradients atoms') :
    Paired (atoms.flatMap f) (gradients.map (AtomGradient.mapInner f)) (atoms'.flatMap f) := by
  have hclosers : ∀ {inner : List (Atom Text)}, (∀ t, .tag t ∈ inner → t.form ≠ .closer) →
      ∀ t, .tag t ∈ inner.flatMap f → t.form ≠ .closer :=
    fun hinner t ht => hinner t (hf.mem_of_mem_flatMap ht)
  induction h with
  | nil => exact .nil
  | @other a ha _ _ _ _ ih =>
    rw [List.flatMap_cons, List.flatMap_cons]
    exact append_left (fun t ht => ha t (hf.eq_of_mem a t ht)) ih
  | gradient hopener hinner hcloser _ ih =>
    simp only [List.flatMap_cons, List.flatMap_append, hf.flatMap_map_plain, hf.opener _ hopener,
      hf.closer _ hcloser]
    exact .gradient hopener (hclosers hinner) hcloser ih
  | unclosed hopener hinner =>
    rw [List.flatMap_cons, hf.opener _ hopener]
    exact .unclosed hopener (hclosers hinner)

/-- Cutting at gradients finds the same ones. -/
theorem cutAtGradients_eq (h : Paired atoms gradients atoms') :
    (cutAtGradients (atoms.flatMap Atom.pieces)).occurrences.map Occurrence.markup =
      gradients.map AtomGradient.markup ∧
    (cutAtGradients (atoms.flatMap Atom.pieces)).fill (fun
      | .gradient opener closer content =>
        gradientOpening opener.color closer.color ++ content ++ gradientClosing
      | .tag t => t.source) = atomSource atoms' := by
  induction h with
  | nil => simp [cutAtGradients, Cut.fill]
  | @other a ha _ _ _ _ ih =>
    have hpieces : ∀ t, .tag t ∈ a.pieces → t.form ≠ .opener := fun t ht =>
      ha t (Atom.eq_of_mem_pieces ht)
    rw [List.flatMap_cons, cutAtGradients_append hpieces, Cut.map_markup_prepend, Cut.fill_prepend,
      Atom.tagSource_pieces, ih.1, ih.2]
    exact ⟨rfl, rfl⟩
  | @gradient opener closer hopener inner hinner hcloser atoms _ _ _ ih =>
    obtain ⟨form, last⟩ := closer
    obtain rfl : form = .closer := hcloser
    have hpieces : ∀ t, .tag t ∈ inner.flatMap Atom.pieces → t.form ≠ .closer :=
      fun t ht => hinner t (mem_of_mem_pieces ht)
    have hfound := firstCloser?_closer hpieces last (atoms.flatMap Atom.pieces)
    rw [tagSource_flatMap_pieces] at hfound
    have hcut : cutAtGradients ((Atom.tag opener :: (inner ++ .tag ⟨.closer, last⟩ :: atoms)).flatMap
        Atom.pieces) = (cutAtGradients (atoms.flatMap Atom.pieces)).push
          (.gradient opener ⟨.closer, last⟩ (atomSource inner)) := by
      rw [List.flatMap_cons, List.flatMap_append, List.flatMap_cons]
      exact cutAtGradients_opener hopener hfound
    rw [hcut, Cut.fill_push, ih.2]
    constructor
    · rw [Cut.push, List.map_cons, ih.1]
      rfl
    · simp
  | @unclosed opener hopener inner hinner =>
    have hnone : firstCloser? (inner.flatMap Atom.pieces) = none :=
      firstCloser?_eq_none fun t ht => hinner t (mem_of_mem_pieces ht)
    have hcut : cutAtGradients ((Atom.tag opener :: inner).flatMap Atom.pieces) =
        ⟨[], opener.source ++ atomSource inner⟩ := by
      rw [List.flatMap_cons, Atom.pieces, List.singleton_append, cutAtGradients, if_pos hopener]
      split
      · next hfound =>
        rw [hnone] at hfound
        cases hfound
      · rw [tagSource_flatMap_pieces]
    rw [hcut]
    exact ⟨rfl, rfl⟩

end Paired

theorem convertGradients_atomSource {atoms' : List (Atom Text)} {gradients : List AtomGradient}
    (h : reader.IsReading atoms) (hpaired : Paired (atoms.flatMap expand) gradients atoms') :
    convertGradients (atomSource atoms) = atomSource atoms' := by
  have hexpanded := h.rewrites (rewrites_expand atoms)
  rw [convertGradients, expandJoints_atomSource h, replaceMarkup, cut, hexpanded.tagPieces_eq]
  exact hpaired.cutAtGradients_eq.2

end Structured
end ColorMarkup
