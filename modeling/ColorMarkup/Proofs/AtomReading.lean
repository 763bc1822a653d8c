import ColorMarkup.Proofs.Removal
import ColorMarkup.Proofs.SectionCodes
/-!
A text as tags, codes and other characters, with nothing asked of the characters: a brace
may begin no tag, and a marker no code. Where some of the tags and codes are replaced by
text that cannot join what is around it, the result is read as just that. So a pass that
replaces one kind of markup neither makes nor breaks markup of another kind.

A brace begins a tag by the digits and the ending behind it, a marker a code by the letter behind
it. Where atoms are replaced, neither finds behind itself what it did not find there before.
-/
namespace ColorMarkup

/-- Which characters begin a code and what letters it can have. -/
structure CodeReader (α : Type) where
  isMark : Char → Bool
  accept : Char → Option α
  isMarker_of_isMark : ∀ {c}, isMark c → isMarker c
  not_isHead_of_accept : ∀ {c value}, accept c = some value → ¬ isHead c

inductive Atom (α : Type) where
  | tag (t : ColorTag)
  | code (marker letter : Char) (value : α)
  | plain (c : Char)

variable {α : Type}

namespace Atom

/-- The atom as it is written. -/
def source : Atom α → Text
  | tag t => t.source
  | code marker letter _ => [marker, letter]
  | plain c => [c]

def pieces : Atom α → List TagPiece
  | tag t => [.tag t]
  | code marker letter _ => [.plain marker, .plain letter]
  | plain c => [.plain c]

def codePieces : Atom α → List (CodePiece α)
  | tag t => t.source.map .plain
  | code marker letter value => [.code marker letter value]
  | plain c => [.plain c]

theorem tagSource_pieces (a : Atom α) : tagSource a.pieces = a.source := by
  cases a <;> simp [pieces, source, TagPiece.source]

theorem eq_of_mem_pieces {a : Atom α} {t : ColorTag} (h : .tag t ∈ a.pieces) : a = .tag t := by
  cases a <;> simp_all [pieces]

end Atom

def atomSource (atoms : List (Atom α)) : Text := atoms.flatMap Atom.source

@[simp] theorem atomSource_nil : atomSource ([] : List (Atom α)) = [] := rfl
@[simp] theorem atomSource_cons (a : Atom α) (atoms : List (Atom α)) :
    atomSource (a :: atoms) = a.source ++ atomSource atoms := rfl
@[simp] theorem atomSource_append (front back : List (Atom α)) :
    atomSource (front ++ back) = atomSource front ++ atomSource back := List.flatMap_append

@[simp] theorem atomSource_map_plain (text : Text) :
    atomSource (text.map .plain : List (Atom α)) = text := by
  induction text with
  | nil => rfl
  | cons c text ih =>
    rw [List.map_cons, atomSource_cons, ih]
    rfl

theorem atomSource_flatMap (f : Atom α → List (Atom α)) (atoms : List (Atom α)) :
    atomSource (atoms.flatMap f) = atoms.flatMap fun a => atomSource (f a) := List.flatMap_assoc

theorem tagSource_flatMap_pieces (atoms : List (Atom α)) :
    tagSource (atoms.flatMap Atom.pieces) = atomSource atoms := by
  rw [tagSource_flatMap, atomSource]
  congr
  funext a
  exact a.tagSource_pieces

/-- A word that begins with a character that is not in front is behind it. -/
theorem infix_of_infix_append {c : Char} {word front rest : Text} (hfront : c ∉ front)
    (h : c :: word <:+: front ++ rest) : c :: word <:+: rest := by
  induction front with
  | nil => exact h
  | cons d front ih =>
    have hne : c ≠ d ∧ c ∉ front := by simpa using hfront
    cases List.infix_cons_iff.1 h with
    | inl hstart => exact absurd (List.cons_prefix_cons.1 hstart).1 hne.1
    | inr hsub => exact ih hne.2 hsub

/-- Text that can be the end of a tag: no brace or marker begins in it, and an angle
bracket that opens is near the end. -/
def IsTagTail : Text → Prop
  | [] => True
  | c :: rest => ¬ isHead c ∧ (c = '<' → ∃ d ∈ rest.head?, d = '>' ∨ d = '}') ∧ IsTagTail rest

/-- Where a brace or a marker follows, no tag ends. -/
theorem IsTagTail.eq_nil {word rest : Text} {c : Char} (hword : IsTagTail word) (hc : isHead c)
    (hstart : word <+: c :: rest) : word = [] := by
  cases word with
  | nil => rfl
  | cons d word =>
    rw [(List.cons_prefix_cons.1 hstart).1] at hword
    exact absurd hc hword.1

theorem isTagTail_append {digits ending : Text} (hdigits : ∀ d ∈ digits, IsHexDigit d)
    (hending : IsTagTail ending) : IsTagTail (digits ++ ending) := by
  induction digits with
  | nil => exact hending
  | cons d digits ih =>
    have hdigit := hdigits d List.mem_cons_self
    refine ⟨not_isHead_of_isHexDigit hdigit, ?_, ih fun e he => hdigits e (List.mem_cons_of_mem _ he)⟩
    rintro rfl
    exact absurd hdigit (by decide)

namespace ColorTag

/-- A tag without its first character. -/
def tail (t : ColorTag) : Text := '#' :: (t.digits.text ++ t.form.ending)

theorem source_eq_cons (t : ColorTag) : t.source = '{' :: t.tail := rfl

theorem isTagTail_tail (t : ColorTag) : IsTagTail t.tail := by
  have hending : IsTagTail t.form.ending := by
    cases t.form <;> simp [TagForm.ending, IsTagTail, isHead, isMarker]
  exact ⟨by decide, by simp, isTagTail_append t.digits.isHexDigit hending⟩

theorem not_mem_tail (t : ColorTag) : '{' ∉ t.tail := by
  have hdigits : '{' ∉ t.digits.text := fun h => absurd (t.digits.isHexDigit _ h) (by decide)
  have hending : '{' ∉ t.form.ending := by cases t.form <;> simp [TagForm.ending]
  simp [tail, hdigits, hending]

/-- No tag is read where none is written. -/
theorem exists_read_error_iff {text : Text} :
    (∃ error, read text = .error error) ↔ ∀ t : ColorTag, ¬ t.source <+: text := by
  constructor
  · rintro ⟨error, herror⟩ t ⟨after, rfl⟩
    rw [read_source_append] at herror
    cases herror
  · intro h
    cases hread : read text with
    | error error => exact ⟨error, rfl⟩
    | ok found => exact absurd ⟨found.2, (eq_of_read hread).symm⟩ (h found.1)

end ColorTag

/-- A piece with a code replaced. -/
def CodePiece.written (write : Char → α → Text) : CodePiece α → Text
  | plain c => [c]
  | code _ letter value => write letter value

namespace CodeReader

variable (reader : CodeReader α)

/-- The atoms are what their source is read as: a tag or code is read wherever one is
written, and no other character begins one. -/
inductive IsReading : List (Atom α) → Prop
  | nil : IsReading []
  | tag (t : ColorTag) {rest : List (Atom α)} (h : IsReading rest) : IsReading (.tag t :: rest)
  | code {marker letter : Char} {value : α} {rest : List (Atom α)} (hmark : reader.isMark marker)
      (hletter : reader.accept letter = some value) (h : IsReading rest) :
      IsReading (.code marker letter value :: rest)
  | plain {c : Char} {rest : List (Atom α)} (htag : ∀ t : ColorTag, ¬ t.source <+: c :: atomSource rest)
      (hcode : reader.isMark c → ∀ letter ∈ (atomSource rest).head?, reader.accept letter = none)
      (h : IsReading rest) : IsReading (.plain c :: rest)

/-- Every text can be read. -/
theorem exists_isReading (text : Text) : ∃ atoms, reader.IsReading atoms ∧ atomSource atoms = text := by
  induction hn : text.length using Nat.strongRecOn generalizing text with
  | ind n ih =>
    subst hn
    cases text with
    | nil => exact ⟨[], .nil, rfl⟩
    | cons c rest =>
      cases hread : ColorTag.read (c :: rest) with
      | ok found =>
        obtain ⟨atoms, hatoms, hsource⟩ := ih _ (ColorTag.length_of_read hread) found.2 rfl
        refine ⟨.tag found.1 :: atoms, .tag found.1 hatoms, ?_⟩
        rw [ColorTag.eq_of_read hread, ← hsource]
        rfl
      | error error =>
        have htag := ColorTag.exists_read_error_iff.1 ⟨error, hread⟩
        by_cases hcode : reader.isMark c → ∀ letter ∈ rest.head?, reader.accept letter = none
        · obtain ⟨atoms, hatoms, rfl⟩ := ih rest.length (Nat.lt_succ_self _) rest rfl
          exact ⟨.plain c :: atoms, .plain htag hcode hatoms, rfl⟩
        · obtain ⟨hmark, letter, hletter, haccept⟩ : reader.isMark c ∧
              ∃ letter ∈ rest.head?, reader.accept letter ≠ none := by simpa using hcode
          obtain ⟨value, hvalue⟩ := Option.ne_none_iff_exists'.1 haccept
          obtain ⟨later, rfl⟩ := List.head?_eq_some_iff.1 hletter
          obtain ⟨atoms, hatoms, rfl⟩ := ih later.length (by simp only [List.length_cons]; omega) later rfl
          exact ⟨.code c letter value :: atoms, .code hmark hvalue hatoms, rfl⟩

variable {reader}

theorem ne_brace_of_isMark {c : Char} (h : reader.isMark c) : c ≠ '{' := by
  rintro rfl
  exact absurd (reader.isMarker_of_isMark h) (by decide)

theorem not_isMark_of_mem_source {t : ColorTag} {c : Char} (h : c ∈ t.source) : ¬ reader.isMark c :=
  fun hmark => ColorTag.not_isMarker_of_mem_source h (reader.isMarker_of_isMark hmark)

theorem ne_brace_of_accept {c : Char} {value : α} (h : reader.accept c = some value) : c ≠ '{' := by
  rintro rfl
  exact reader.not_isHead_of_accept h (by decide)

theorem not_isMark_of_accept {c : Char} {value : α} (h : reader.accept c = some value) :
    ¬ reader.isMark c := fun hmark =>
  reader.not_isHead_of_accept h (by simp [isHead, reader.isMarker_of_isMark hmark])

namespace IsReading

variable {atoms : List (Atom α)}

theorem front {front back : List (Atom α)} (h : reader.IsReading (front ++ back)) : reader.IsReading front := by
  induction front with
  | nil => exact .nil
  | cons a front ih =>
    cases h with
    | tag t h => exact .tag t (ih h)
    | code hmark hletter h => exact .code hmark hletter (ih h)
    | @plain c _ htag hcode h =>
      have happend : atomSource (front.append back) = atomSource front ++ atomSource back :=
        atomSource_append front back
      rw [happend] at htag hcode
      -- what is not written in front of more text is not written at the end either
      refine .plain (fun t ht => htag t (ht.trans ?_)) (fun hmark letter hletter => ?_) (ih h)
      · exact List.cons_prefix_cons.2 ⟨rfl, List.prefix_append _ _⟩
      · obtain ⟨later, hlater⟩ := List.head?_eq_some_iff.1 hletter
        exact hcode hmark letter (by rw [hlater]; rfl)

theorem tail {a : Atom α} (h : reader.IsReading (a :: atoms)) : reader.IsReading atoms := by
  cases h <;> assumption

theorem back {front back : List (Atom α)} (h : reader.IsReading (front ++ back)) : reader.IsReading back := by
  induction front with
  | nil => exact h
  | cons a front ih => exact ih h.tail

theorem tagPieces_eq (h : reader.IsReading atoms) :
    tagPieces (atomSource atoms) = atoms.flatMap Atom.pieces := by
  induction h with
  | nil =>
    rw [atomSource_nil, tagPieces]
    rfl
  | tag t _ ih =>
    rw [atomSource_cons, Atom.source, tagPieces_source_append, ih]
    rfl
  | code hmark hletter _ ih =>
    rw [atomSource_cons, Atom.source, List.cons_append, List.singleton_append,
      tagPieces_cons_of_ne (ne_brace_of_isMark hmark), tagPieces_cons_of_ne (ne_brace_of_accept hletter), ih]
    rfl
  | plain htag _ _ ih =>
    obtain ⟨error, herror⟩ := ColorTag.exists_read_error_iff.2 htag
    rw [atomSource_cons, Atom.source, List.singleton_append, tagPieces_cons_of_error herror, ih]
    rfl

theorem readCodes_eq (h : reader.IsReading atoms) :
    readCodes reader.isMark reader.accept (atomSource atoms) = atoms.flatMap Atom.codePieces := by
  induction h with
  | nil => rfl
  | tag t _ ih =>
    have hmark : ∀ c ∈ t.source, ¬ reader.isMark c := fun _ => not_isMark_of_mem_source
    rw [atomSource_cons, Atom.source, readCodes_append_of_forall hmark, ih]
    rfl
  | code hmark hletter _ ih =>
    rw [atomSource_cons, Atom.source, List.cons_append, List.singleton_append, readCodes, if_pos hmark,
      hletter, ih]
    rfl
  | plain _ hcode _ ih =>
    rw [atomSource_cons, Atom.source, List.singleton_append, readCodes_cons hcode, ih]
    rfl

/-- A tag that is written anywhere in the text is one of the atoms. -/
theorem mem_of_source_infix (h : reader.IsReading atoms) {t : ColorTag}
    (hsub : t.source <:+: atomSource atoms) : .tag t ∈ atoms := by
  induction h with
  | nil =>
    have hnil := List.infix_nil.1 hsub
    rw [t.source_eq_cons] at hnil
    cases hnil
  | tag u _ ih =>
    cases List.infix_cons_iff.1 hsub with
    | inl hstart =>
      obtain ⟨after, hafter⟩ := hstart
      have heq := @ColorTag.eq_of_source_append t u _ _ hafter
      rw [heq.1]
      exact List.mem_cons_self
    | inr hlater => exact List.mem_cons_of_mem _ (ih (infix_of_infix_append u.not_mem_tail hlater))
  | @code marker letter _ _ hmark hletter _ ih =>
    have hfront : '{' ∉ [marker, letter] := by
      simp [(ne_brace_of_isMark hmark).symm, (ne_brace_of_accept hletter).symm]
    exact List.mem_cons_of_mem _ (ih (infix_of_infix_append hfront hsub))
  | plain htag _ _ ih =>
    cases List.infix_cons_iff.1 hsub with
    | inl hstart => exact absurd hstart (htag t)
    | inr hlater => exact List.mem_cons_of_mem _ (ih hlater)

/-- A code that is written anywhere in the text is one of the atoms. -/
theorem mem_of_code_infix (h : reader.IsReading atoms) {marker letter : Char} {value : α}
    (hmark : reader.isMark marker) (hletter : reader.accept letter = some value)
    (hsub : [marker, letter] <:+: atomSource atoms) : .code marker letter value ∈ atoms := by
  induction h with
  | nil => simp at hsub
  | tag u _ ih =>
    have hfront : marker ∉ u.source := fun hmem => not_isMark_of_mem_source hmem hmark
    exact List.mem_cons_of_mem _ (ih (infix_of_infix_append hfront hsub))
  | @code _ letter' _ _ _ hletter' _ ih =>
    cases List.infix_cons_iff.1 hsub with
    | inl hstart =>
      obtain ⟨hm, hstart⟩ := List.cons_prefix_cons.1 hstart
      obtain ⟨hl, -⟩ := List.cons_prefix_cons.1 hstart
      subst hm hl
      rw [hletter, Option.some.injEq] at hletter'
      rw [hletter']
      exact List.mem_cons_self
    | inr hlater =>
      have hfront : marker ∉ [letter'] := by
        rw [List.mem_singleton]
        intro hm
        rw [hm] at hmark
        exact not_isMark_of_accept hletter' hmark
      exact List.mem_cons_of_mem _ (ih (infix_of_infix_append hfront hlater))
  | @plain c rest _ hcode _ ih =>
    cases List.infix_cons_iff.1 hsub with
    | inl hstart =>
      obtain ⟨hm, after, hafter⟩ := List.cons_prefix_cons.1 hstart
      subst hm
      have hhead : letter ∈ (atomSource rest).head? := by
        rw [show atomSource rest = [letter] ++ after from hafter.symm]
        rfl
      rw [hcode hmark letter hhead] at hletter
      cases hletter
    | inr hlater => exact List.mem_cons_of_mem _ (ih hlater)

end IsReading

variable (reader)

/-- Text that joins nothing around it: it begins no tag and no code, and nothing in front
of it can go on into it. -/
structure IsInert (text : Text) : Prop where
  ne_nil : text ≠ []
  begins_none : ∀ c ∈ text, c ≠ '{' ∧ ¬ reader.isMark c
  ends_no_code : ∀ c ∈ text.head?, reader.accept c = none
  ends_no_tag : ∀ word after, IsTagTail word → word <+: text ++ after → word = []

/-- Some atoms are replaced, by inert text or a tag by two tags. -/
inductive Rewrites : List (Atom α) → List (Atom α) → Prop
  | nil : Rewrites [] []
  | keep (a : Atom α) {atoms atoms' : List (Atom α)} (h : Rewrites atoms atoms') :
      Rewrites (a :: atoms) (a :: atoms')
  | write (a : Atom α) {text : Text} (htext : reader.IsInert text) {atoms atoms' : List (Atom α)}
      (h : Rewrites atoms atoms') : Rewrites (a :: atoms) (text.map .plain ++ atoms')
  | split (t front back : ColorTag) {atoms atoms' : List (Atom α)} (h : Rewrites atoms atoms') :
      Rewrites (.tag t :: atoms) (.tag front :: .tag back :: atoms')

variable {reader} {atoms atoms' : List (Atom α)}

namespace Rewrites

theorem refl (atoms : List (Atom α)) : reader.Rewrites atoms atoms := by
  induction atoms with
  | nil => exact .nil
  | cons a atoms ih => exact .keep a ih

theorem append_left (front : List (Atom α)) (h : reader.Rewrites atoms atoms') :
    reader.Rewrites (front ++ atoms) (front ++ atoms') := by
  induction front with
  | nil => exact h
  | cons a front ih => exact .keep a ih

/-- The end of a tag is found behind a character only where it was found before. -/
theorem prefix_source (hatoms : reader.IsReading atoms) (h : reader.Rewrites atoms atoms') {word : Text}
    (hword : IsTagTail word) (hstart : word <+: atomSource atoms') : word <+: atomSource atoms := by
  induction h generalizing word with
  | nil => exact hstart
  | keep a h ih =>
    cases hatoms with
    | tag t _ =>
      rw [hword.eq_nil (by decide) hstart]
      exact List.nil_prefix
    | code hmark _ _ =>
      have hmarker := reader.isMarker_of_isMark hmark
      rw [hword.eq_nil (by simp [isHead, hmarker]) hstart]
      exact List.nil_prefix
    | plain _ _ hrest =>
      cases word with
      | nil => exact List.nil_prefix
      | cons d word =>
        obtain ⟨hd, hstart⟩ := List.cons_prefix_cons.1 hstart
        exact List.cons_prefix_cons.2 ⟨hd, ih hrest hword.2.2 hstart⟩
  | write a htext h _ =>
    rw [atomSource_append, atomSource_map_plain] at hstart
    rw [htext.ends_no_tag word _ hword hstart]
    exact List.nil_prefix
  | split t front back h _ =>
    rw [hword.eq_nil (by decide) hstart]
    exact List.nil_prefix

/-- What stands in front of the atoms finds no letter that it did not find before. -/
theorem accept_head (h : reader.Rewrites atoms atoms')
    (hnone : ∀ c ∈ (atomSource atoms).head?, reader.accept c = none) :
    ∀ c ∈ (atomSource atoms').head?, reader.accept c = none := by
  cases h with
  | nil => exact hnone
  | keep a h => cases a <;> exact hnone
  | write a htext h =>
    obtain ⟨c, text, rfl⟩ := List.exists_cons_of_ne_nil htext.ne_nil
    exact htext.ends_no_code
  | split t front back h => exact hnone

end Rewrites

theorem isReading_map_plain_append {text : Text}
    (htext : ∀ c ∈ text, c ≠ '{' ∧ ¬ reader.isMark c) (h : reader.IsReading atoms) :
    reader.IsReading (text.map .plain ++ atoms) := by
  induction text with
  | nil => exact h
  | cons c text ih =>
    have hc := htext c List.mem_cons_self
    refine .plain ?_ (fun hmark => absurd hmark hc.2) (ih fun d hd => htext d (List.mem_cons_of_mem _ hd))
    rintro t ⟨after, hafter⟩
    exact hc.1 (List.cons.inj hafter).1.symm

/-- Replacing atoms makes and breaks no others. -/
theorem IsReading.rewrites (hatoms : reader.IsReading atoms) (h : reader.Rewrites atoms atoms') :
    reader.IsReading atoms' := by
  induction h with
  | nil => exact .nil
  | keep a h ih =>
    cases hatoms with
    | tag t hrest => exact .tag t (ih hrest)
    | code hmark hletter hrest => exact .code hmark hletter (ih hrest)
    | plain htag hcode hrest =>
      refine .plain ?_ (fun hmark => h.accept_head (hcode hmark)) (ih hrest)
      -- a tag that begins here would end as it did before anything was replaced
      intro t hstart
      obtain ⟨hbrace, hstart⟩ := List.cons_prefix_cons.1 hstart
      exact htag t (List.cons_prefix_cons.2 ⟨hbrace, h.prefix_source hrest t.isTagTail_tail hstart⟩)
  | write a htext h ih =>
    exact isReading_map_plain_append htext.begins_none (ih hatoms.tail)
  | split t front back h ih => exact .tag front (.tag back (ih hatoms.tail))

/-- An atom with codes replaced. -/
def decode (write : Char → α → Text) : Atom α → List (Atom α)
  | .code _ letter value => (write letter value).map .plain
  | a => [a]

variable {write : Char → α → Text}

theorem IsReading.flatMap_readCodes (h : reader.IsReading atoms) (write : Char → α → Text) :
    (readCodes reader.isMark reader.accept (atomSource atoms)).flatMap (CodePiece.written write) =
      atomSource (atoms.flatMap (decode write)) := by
  rw [h.readCodes_eq, atomSource_flatMap, List.flatMap_assoc]
  congr
  funext a
  cases a with
  | tag t => simp [Atom.codePieces, decode, Atom.source, List.flatMap_map, CodePiece.written]
  | code marker letter value => simp [Atom.codePieces, decode, CodePiece.written]
  | plain c => rfl

theorem IsReading.rewrites_decode (h : reader.IsReading atoms)
    (hwrite : ∀ letter value, reader.accept letter = some value → reader.IsInert (write letter value)) :
    reader.Rewrites atoms (atoms.flatMap (decode write)) := by
  induction h with
  | nil => exact .nil
  | tag t _ ih => exact .keep _ ih
  | code _ hletter _ ih => exact .write _ (hwrite _ _ hletter) ih
  | plain _ _ _ ih => exact .keep _ ih

theorem code_not_mem_decode (marker letter : Char) (value : α) (atoms : List (Atom α)) :
    .code marker letter value ∉ atoms.flatMap (decode write) := by
  intro h
  obtain ⟨a, -, ha⟩ := List.mem_flatMap.1 h
  cases a <;> simp [decode] at ha

theorem eq_of_mem_decode {a : Atom α} {t : ColorTag} (h : .tag t ∈ decode write a) : a = .tag t := by
  cases a <;> simp_all [decode]

end CodeReader
end ColorMarkup
