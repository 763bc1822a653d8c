import ColorMarkup.Text.Basic
/-!
Tokens of structured markup. A tag runs from an opening angle bracket to the next
closing one, holds at least one character and no further bracket; a backslash
escapes an opening bracket or a backslash. Every other character is text, so
reading tokens never fails, and it loses nothing (`source_first`).
-/
namespace ColorMarkup

inductive Token where
  | text (text : Text)
  /-- What stands between the brackets of an opening tag. -/
  | opening (content : Text)
  /-- What stands behind the slash of a closing tag. -/
  | closing (name : Text)
  /-- The character behind an escaping backslash. -/
  | escaped (c : Char)
  deriving DecidableEq, Repr

namespace Token

/-- The token as it is written. -/
def source : Token → Text
  | text t => t
  | opening content => '<' :: content ++ ['>']
  | closing name => '<' :: '/' :: name ++ ['>']
  | escaped c => ['\\', c]

def isBracket (c : Char) : Bool := c == '<' || c == '>'

/-- A character at which a run of text ends. -/
def isSpecial (c : Char) : Bool := c == '<' || c == '\\'

def ofTagContent : Text → Token
  | '/' :: name => closing name
  | content => opening content

/-- The token that starts with an opening bracket, `rest` being what follows it. -/
def firstTag (rest : Text) : Token × Text :=
  let content := rest.takeWhile fun c => !isBracket c
  match rest.dropWhile fun c => !isBracket c with
  | '>' :: after => if content = [] then (text ['<'], rest) else (ofTagContent content, after)
  | _ => (text ['<'], rest)

/-- The token that starts with a backslash. -/
def firstEscape : Text → Token × Text
  | '<' :: after => (escaped '<', after)
  | '\\' :: after => (escaped '\\', after)
  | rest => (text ['\\'], rest)

/-- The first token of a text, given as its first character and the rest, and
what follows the token. -/
def first (c : Char) (rest : Text) : Token × Text :=
  if c = '<' then firstTag rest
  else if c = '\\' then firstEscape rest
  else (text (c :: rest.takeWhile fun c => !isSpecial c), rest.dropWhile fun c => !isSpecial c)

theorem source_ofTagContent (content : Text) :
    (ofTagContent content).source = '<' :: content ++ ['>'] := by
  rw [ofTagContent.eq_def]
  split <;> rfl

theorem source_firstTag (rest : Text) :
    (firstTag rest).1.source ++ (firstTag rest).2 = '<' :: rest := by
  rw [firstTag]
  split
  · next after h =>
    split
    · rfl
    · rw [source_ofTagContent]
      have hsplit := List.takeWhile_append_dropWhile (p := fun c => !isBracket c) (l := rest)
      rw [h] at hsplit
      simp only [List.cons_append, List.append_assoc, List.nil_append, hsplit]
  · rfl

theorem source_firstEscape (rest : Text) :
    (firstEscape rest).1.source ++ (firstEscape rest).2 = '\\' :: rest := by
  rw [firstEscape.eq_def]
  split <;> rfl

theorem source_first (c : Char) (rest : Text) :
    (first c rest).1.source ++ (first c rest).2 = c :: rest := by
  rw [first]
  split
  · next h => rw [h, source_firstTag]
  · split
    · next h => rw [h, source_firstEscape]
    · simp [source]

theorem length_source_pos (c : Char) (rest : Text) : 0 < (first c rest).1.source.length := by
  rw [first]
  split
  · rw [firstTag]
    split
    · split
      · simp [source]
      · simp [source_ofTagContent]
    · simp [source]
  · split
    · rw [firstEscape.eq_def]
      split <;> simp [source]
    · simp [source]

theorem length_first (c : Char) (rest : Text) :
    (first c rest).2.length < (c :: rest).length := by
  have hpos := length_source_pos c rest
  have hlength := congrArg List.length (source_first c rest)
  rw [List.length_append] at hlength
  omega

end Token

/-- The tokens of a text, in order. -/
def tokens : Text → List Token
  | [] => []
  | c :: rest =>
    (Token.first c rest).1 :: tokens (Token.first c rest).2
termination_by text => text.length
decreasing_by exact Token.length_first c rest

@[simp] theorem tokens_nil : tokens [] = [] := by rw [tokens]

theorem tokens_cons (c : Char) (rest : Text) :
    tokens (c :: rest) = (Token.first c rest).1 :: tokens (Token.first c rest).2 := by
  rw [tokens]

end ColorMarkup
