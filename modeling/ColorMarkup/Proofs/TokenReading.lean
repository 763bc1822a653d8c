import ColorMarkup.Output
import ColorMarkup.StyleTag.Token
/-!
The tokens of a text whose beginning is known. A written tag is one token whatever
follows it, and a run of text may be cut off character by character.
-/
namespace ColorMarkup

namespace Token

theorem firstTag_append {content : Text} (hne : content ≠ []) (h : ∀ c ∈ content, ¬ isBracket c)
    (rest : Text) : firstTag (content ++ '>' :: rest) = (ofTagContent content, rest) := by
  have hall : ∀ c ∈ content, !isBracket c := by simpa using h
  have hstop : ¬ (!isBracket '>') = true := by decide
  have htake : (content ++ '>' :: rest).takeWhile (fun c => !isBracket c) = content := by
    rw [List.takeWhile_append_of_pos hall, List.takeWhile_cons, if_neg hstop, List.append_nil]
  have hdrop : (content ++ '>' :: rest).dropWhile (fun c => !isBracket c) = '>' :: rest := by
    rw [List.dropWhile_append_of_pos hall, List.dropWhile_cons, if_neg hstop]
  rw [firstTag, htake, hdrop]
  exact if_neg hne

theorem first_of_not_isSpecial {c : Char} (h : ¬ isSpecial c) (rest : Text) :
    first c rest = (.text (c :: rest.takeWhile fun c => !isSpecial c),
      rest.dropWhile fun c => !isSpecial c) := by
  have hspecial : c ≠ '<' ∧ c ≠ '\\' := by simpa [isSpecial] using h
  rw [first, if_neg hspecial.1, if_neg hspecial.2]

theorem ofTagContent_of_ne {content : Text} (h : content.head? ≠ some '/') :
    ofTagContent content = .opening content := by
  rw [ofTagContent.eq_def]
  split
  · exact absurd rfl h
  · rfl

end Token

theorem tokens_angleTag_append {content : Text} (hne : content ≠ [])
    (h : ∀ c ∈ content, ¬ Token.isBracket c) (rest : Text) :
    tokens (angleTag content ++ rest) = Token.ofTagContent content :: tokens rest := by
  have hsource : angleTag content ++ rest = '<' :: (content ++ '>' :: rest) := by simp [angleTag]
  rw [hsource, tokens_cons, Token.first, if_pos rfl, Token.firstTag_append hne h]

theorem tokens_opening_append {content : Text} (hne : content ≠ []) (hslash : content.head? ≠ some '/')
    (h : ∀ c ∈ content, ¬ Token.isBracket c) (rest : Text) :
    tokens (angleTag content ++ rest) = .opening content :: tokens rest := by
  rw [tokens_angleTag_append hne h, Token.ofTagContent_of_ne hslash]

theorem tokens_closing_append {name : Text} (h : ∀ c ∈ name, ¬ Token.isBracket c) (rest : Text) :
    tokens (angleTag ('/' :: name) ++ rest) = .closing name :: tokens rest := by
  have hslash : ¬ Token.isBracket '/' := by decide
  have hcontent : ∀ c ∈ '/' :: name, ¬ Token.isBracket c := List.forall_mem_cons.2 ⟨hslash, h⟩
  rw [tokens_angleTag_append (List.cons_ne_nil _ _) hcontent]
  rfl

theorem tokens_escaped {c : Char} (h : Token.isSpecial c) (rest : Text) :
    tokens ('\\' :: c :: rest) = .escaped c :: tokens rest := by
  have hspecial : c = '<' ∨ c = '\\' := by simpa [Token.isSpecial] using h
  rw [tokens_cons]
  rcases hspecial with rfl | rfl <;> rfl

/-- In front of other text a backslash is text. -/
theorem tokens_backslash {rest : Text} (h : ∀ c ∈ rest.head?, ¬ Token.isSpecial c) :
    tokens ('\\' :: rest) = .text ['\\'] :: tokens rest := by
  have hfirst : Token.firstEscape rest = (.text ['\\'], rest) := by
    rw [Token.firstEscape.eq_def]
    split
    · exact absurd (by decide) (h '<' rfl)
    · exact absurd (by decide) (h '\\' rfl)
    · rfl
  rw [tokens_cons, Token.first, if_neg (by decide), if_pos rfl, hfirst]

/-- The first character of a run of text can be read on its own: behind it, the rest
of the run is what the next token holds, if anything is left of it. -/
theorem exists_tokens_cons {c : Char} (h : ¬ Token.isSpecial c) (rest : Text) :
    ∃ run later, tokens (c :: rest) = .text (c :: run) :: later ∧
      (run = [] ∧ tokens rest = later ∨ tokens rest = .text run :: later) := by
  rw [tokens_cons, Token.first_of_not_isSpecial h]
  refine ⟨_, _, rfl, ?_⟩
  cases rest with
  | nil => exact .inl ⟨rfl, rfl⟩
  | cons d rest =>
    by_cases hd : Token.isSpecial d
    · rw [List.takeWhile_cons, List.dropWhile_cons, hd]
      exact .inl ⟨rfl, rfl⟩
    · -- the run goes on, so the rest starts with the rest of the run
      rw [tokens_cons, Token.first_of_not_isSpecial hd, List.takeWhile_cons, List.dropWhile_cons,
        if_pos (by simp [hd]), if_pos (by simp [hd])]
      exact .inr rfl

section Runs

variable {State : Type} {step : State → Token → State}
  (hnil : ∀ state, step state (.text []) = state)
  (hjoin : ∀ state front back,
    step (step state (.text front)) (.text back) = step state (.text (front ++ back)))
include hnil hjoin

/-- To a reader for which a run of text is no more than its parts, text in front of a
rest is one run, even where the rest goes on with text. -/
theorem foldl_tokens_append {text : Text} (h : ∀ c ∈ text, ¬ Token.isSpecial c) (rest : Text)
    (state : State) : (tokens (text ++ rest)).foldl step state =
      (tokens rest).foldl step (step state (.text text)) := by
  induction text generalizing state with
  | nil => rw [hnil, List.nil_append]
  | cons c text ih =>
    have ih := ih (fun d hd => h d (List.mem_cons_of_mem _ hd)) (step state (.text [c]))
    rw [hjoin, List.singleton_append] at ih
    rw [← ih, List.cons_append]
    obtain ⟨run, later, hcons, ⟨rfl, hrest⟩ | hrest⟩ :=
      exists_tokens_cons (h c List.mem_cons_self) (text ++ rest)
    · rw [hcons, hrest, List.foldl_cons]
    · rw [hcons, hrest, List.foldl_cons, List.foldl_cons, hjoin, List.singleton_append]

end Runs

theorem foldl_append_eq_flatMap {α : Type} (f : Token → List α) (list : List Token) (front : List α) :
    list.foldl (fun front token => front ++ f token) front = front ++ list.flatMap f := by
  induction list generalizing front with
  | nil => exact (List.append_nil front).symm
  | cons token list ih => rw [List.foldl_cons, ih, List.flatMap_cons, List.append_assoc]

theorem flatMap_tokens_append {α : Type} {f : Token → List α} (hnil : f (.text []) = [])
    (hjoin : ∀ front back, f (.text (front ++ back)) = f (.text front) ++ f (.text back))
    {text : Text} (h : ∀ c ∈ text, ¬ Token.isSpecial c) (rest : Text) :
    (tokens (text ++ rest)).flatMap f = f (.text text) ++ (tokens rest).flatMap f := by
  let step : List α → Token → List α := fun front token => front ++ f token
  have hempty : ∀ front, step front (.text []) = front := by simp [step, hnil]
  have hparts : ∀ front s t, step (step front (.text s)) (.text t) = step front (.text (s ++ t)) := by
    simp [step, hjoin]
  have hfold := foldl_tokens_append hempty hparts h rest []
  rwa [foldl_append_eq_flatMap, foldl_append_eq_flatMap] at hfold

end ColorMarkup
