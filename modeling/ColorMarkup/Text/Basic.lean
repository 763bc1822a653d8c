/-!
Text as a list of characters, measured and cut in UTF-8 bytes. Offsets of this
library count bytes, so a cut is only possible between two characters:
`splitAtByte?_eq_some_iff` says that it succeeds exactly there.
-/
namespace ColorMarkup

/-- A text is the list of its Unicode scalar values. -/
abbrev Text := List Char

namespace Text

/-- Number of bytes of the UTF-8 encoding. -/
def byteLength : Text → Nat
  | [] => 0
  | c :: rest => c.utf8Size + byteLength rest

@[simp] theorem byteLength_nil : byteLength [] = 0 := rfl
@[simp] theorem byteLength_cons (c : Char) (rest : Text) :
    byteLength (c :: rest) = c.utf8Size + byteLength rest := rfl
@[simp] theorem byteLength_append (s t : Text) :
    byteLength (s ++ t) = byteLength s + byteLength t := by
  induction s with
  | nil => simp
  | cons c s ih => simp [ih, Nat.add_assoc]

@[simp] theorem byteLength_eq_zero {t : Text} : byteLength t = 0 ↔ t = [] := by
  cases t with
  | nil => simp
  | cons c t =>
    have := c.utf8Size_pos
    simp only [byteLength_cons, reduceCtorEq, iff_false]
    omega

/-- ASCII letters in lower case, every other character as it is. -/
def lower (text : Text) : Text := text.map Char.toLower

/-- The pieces between the occurrences of `mark`. There is always a first one. -/
def pieces (mark : Char) : Text → Text × List Text
  | [] => ([], [])
  | c :: rest =>
    let (first, others) := pieces mark rest
    if c = mark then ([], first :: others) else (c :: first, others)

/-- The text before and after a byte offset, none when the offset lies inside a
character or past the end. -/
def splitAtByte? : Nat → Text → Option (Text × Text)
  | 0, text => some ([], text)
  | _ + 1, [] => none
  | n + 1, c :: rest =>
    if c.utf8Size ≤ n + 1 then
      (splitAtByte? (n + 1 - c.utf8Size) rest).map fun (before, after) => (c :: before, after)
    else none

theorem splitAtByte?_byteLength (before after : Text) :
    splitAtByte? (byteLength before) (before ++ after) = some (before, after) := by
  induction before with
  | nil => simp [splitAtByte?]
  | cons c before ih =>
    have hpos := c.utf8Size_pos
    obtain ⟨n, hn⟩ : ∃ n, byteLength (c :: before) = n + 1 :=
      Nat.exists_eq_succ_of_ne_zero (by rw [byteLength_cons]; omega)
    have hsize : c.utf8Size + byteLength before = n + 1 := hn
    rw [hn, List.cons_append, splitAtByte?, if_pos (by omega),
      show n + 1 - c.utf8Size = byteLength before by omega, ih]
    rfl

theorem append_of_splitAtByte? {n : Nat} {text before after : Text}
    (h : splitAtByte? n text = some (before, after)) :
    text = before ++ after ∧ byteLength before = n := by
  induction text generalizing n before after with
  | nil =>
    cases n with
    | zero => simp_all [splitAtByte?]
    | succ n => simp [splitAtByte?] at h
  | cons c text ih =>
    cases n with
    | zero => simp_all [splitAtByte?]
    | succ n =>
      rw [splitAtByte?] at h
      split at h
      · obtain ⟨⟨front, back⟩, hsplit, heq⟩ := Option.map_eq_some_iff.1 h
        obtain ⟨rfl, hlength⟩ := ih hsplit
        simp only [Prod.mk.injEq] at heq
        obtain ⟨rfl, rfl⟩ := heq
        exact ⟨rfl, by rw [byteLength_cons]; omega⟩
      · simp at h

theorem splitAtByte?_eq_some_iff {n : Nat} {text before after : Text} :
    splitAtByte? n text = some (before, after) ↔
      text = before ++ after ∧ byteLength before = n :=
  ⟨append_of_splitAtByte?, fun ⟨h, hn⟩ => by rw [h, ← hn, splitAtByte?_byteLength]⟩

end Text
end ColorMarkup
