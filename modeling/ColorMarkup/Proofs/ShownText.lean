import ColorMarkup.Document.Reading
import ColorMarkup.Proofs.TokenReading
/-!
The text of a document, token by token. What a token adds to the text does not depend
on the tags that are open, so the text can be read off the tokens alone.
-/
namespace ColorMarkup

/-- What a token adds to the text: itself if it is text, or if it is a tag that cannot
be read. -/
def Token.shown : Token → Text
  | .text t => t
  | .escaped c => [c]
  | .opening content => if (StyleTag.read content).toBool then [] else angleTag content
  | .closing _ => []

namespace Reading

@[simp] theorem text_closeInnermost (r : Reading) : r.closeInnermost.text = r.text := by
  rw [closeInnermost]
  split <;> rfl

@[simp] theorem text_closeMany (n : Nat) (r : Reading) : (r.closeMany n).text = r.text := by
  induction n generalizing r with
  | zero => rfl
  | succ n ih => rw [closeMany, ih, text_closeInnermost]

@[simp] theorem text_closeNamed (r : Reading) (name : Text) : (r.closeNamed name).text = r.text := by
  rw [closeNamed]
  split
  · exact text_closeMany _ r
  · rfl

theorem text_openTag (r : Reading) (content : Text) :
    (r.openTag content).text = r.text ++ (Token.opening content).shown := by
  rw [openTag, Token.shown]
  cases StyleTag.read content with
  | error _ => rfl
  | ok tag =>
    have hnone : r.text = r.text ++ [] := (List.append_nil _).symm
    cases tag with
    | reset => exact (text_closeMany _ r).trans hnone
    | color color => exact hnone
    | decoration set => exact hnone
    | gradient stops => exact hnone

theorem text_step (r : Reading) (token : Token) : (r.step token).text = r.text ++ token.shown := by
  cases token with
  | text text => rfl
  | escaped c => rfl
  | opening content => exact r.text_openTag content
  | closing name =>
    rw [step, closeTag, Token.shown, List.append_nil]
    split
    · exact text_closeInnermost r
    · exact text_closeNamed r _

theorem text_foldl_step (r : Reading) (list : List Token) :
    (list.foldl step r).text = r.text ++ list.flatMap Token.shown := by
  induction list generalizing r with
  | nil => exact (List.append_nil _).symm
  | cons token list ih => rw [List.foldl_cons, ih, text_step, List.flatMap_cons, List.append_assoc]

end Reading

/-- The text that markup shows. -/
def shownText (markup : Text) : Text := (tokens markup).flatMap Token.shown

theorem text_ofMarkup_eq_shownText (markup : Text) : (Document.ofMarkup markup).text = shownText markup :=
  (Reading.text_closeMany _ _).trans (Reading.text_foldl_step .start _)

@[simp] theorem shownText_nil : shownText [] = [] := by rw [shownText, tokens_nil, List.flatMap_nil]

theorem shownText_append {text : Text} (h : ∀ c ∈ text, ¬ Token.isSpecial c) (rest : Text) :
    shownText (text ++ rest) = text ++ shownText rest :=
  flatMap_tokens_append (f := Token.shown) rfl (fun _ _ => rfl) h rest

theorem shownText_opening {content : Text} (hne : content ≠ []) (hslash : content.head? ≠ some '/')
    (h : ∀ c ∈ content, ¬ Token.isBracket c) {tag : StyleTag} (hread : StyleTag.read content = .ok tag)
    (rest : Text) : shownText (angleTag content ++ rest) = shownText rest := by
  have hnone : (Token.opening content).shown = [] := by
    rw [Token.shown, hread]
    rfl
  rw [shownText, tokens_opening_append hne hslash h, List.flatMap_cons, hnone]
  rfl

theorem shownText_closing {name : Text} (h : ∀ c ∈ name, ¬ Token.isBracket c) (rest : Text) :
    shownText (angleTag ('/' :: name) ++ rest) = shownText rest := by
  rw [shownText, tokens_closing_append h, List.flatMap_cons]
  rfl

end ColorMarkup
