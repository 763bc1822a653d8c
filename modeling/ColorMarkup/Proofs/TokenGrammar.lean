import ColorMarkup.Proofs.TokenReading
import Mathlib.Data.List.TakeWhile
/-!
The grammar of the tokens. Together the tokens are the text, and each has the form of its
kind. An opening bracket belongs to an escape if and only if an odd number of backslashes
stands in front of it. No token reaches over any other opening bracket, so the tokens behind
it are those of the text that starts there: first a tag, if a closing bracket is the next
bracket and something stands between the two.
-/
namespace ColorMarkup

namespace Token

/-- The form that the grammar gives each kind of token. -/
def IsWellFormed : Token → Prop
  | text t => t = ['<'] ∨ t = ['\\'] ∨ t ≠ [] ∧ '<' ∉ t ∧ '\\' ∉ t
  | opening content => content ≠ [] ∧ content.head? ≠ some '/' ∧ '<' ∉ content ∧ '>' ∉ content
  | closing name => '<' ∉ name ∧ '>' ∉ name
  | escaped c => c = '<' ∨ c = '\\'

def IsTag : Token → Prop
  | opening _ => True
  | closing _ => True
  | text _ => False
  | escaped _ => False

theorem isTag_ofTagContent (content : Text) : (ofTagContent content).IsTag := by
  rw [ofTagContent.eq_def]
  split <;> trivial

theorem isWellFormed_ofTagContent {content : Text} (hne : content ≠ []) (hopen : '<' ∉ content)
    (hclose : '>' ∉ content) : (ofTagContent content).IsWellFormed := by
  rw [ofTagContent.eq_def]
  split
  · exact ⟨fun hc => hopen (List.mem_cons_of_mem _ hc), fun hc => hclose (List.mem_cons_of_mem _ hc)⟩
  · next hslash =>
    refine ⟨hne, fun hhead => ?_, hopen, hclose⟩
    obtain ⟨name, hname⟩ := List.head?_eq_some_iff.1 hhead
    exact hslash name hname

/-- Behind an opening bracket: a closing one is the next bracket, and not the next character. -/
def StartsTag (rest : Text) : Prop :=
  ∃ content after : Text, rest = content ++ '>' :: after ∧ content ≠ [] ∧ '<' ∉ content ∧ '>' ∉ content

theorem not_isBracket_of_not_mem {content : Text} (hopen : '<' ∉ content) (hclose : '>' ∉ content) :
    ∀ c ∈ content, ¬ isBracket c := by
  intro c hc hbracket
  have hcases : c = '<' ∨ c = '>' := by simpa [isBracket] using hbracket
  rcases hcases with rfl | rfl
  · exact hopen hc
  · exact hclose hc

theorem not_mem_takeWhile {p : Char → Bool} {c : Char} (h : ¬ p c) (text : Text) :
    c ∉ text.takeWhile p := fun hc => h (List.mem_takeWhile_imp hc)

theorem firstTag_of_not_startsTag {rest : Text} (h : ¬ StartsTag rest) :
    firstTag rest = (text ['<'], rest) := by
  rw [firstTag]
  split
  · next after hdrop =>
    refine if_pos (Classical.byContradiction fun hne => h ?_)
    refine ⟨_, after, ?_, hne, not_mem_takeWhile (by decide) rest, not_mem_takeWhile (by decide) rest⟩
    rw [← hdrop, List.takeWhile_append_dropWhile]
  · rfl

/-- What an opening bracket starts: a tag with all that stands between it and the next bracket,
or text that is the bracket alone. -/
theorem firstTag_cases (rest : Text) :
    (∃ content after : Text, rest = content ++ '>' :: after ∧ content ≠ [] ∧ '<' ∉ content ∧
      '>' ∉ content ∧ firstTag rest = (ofTagContent content, after)) ∨
    ¬ StartsTag rest ∧ firstTag rest = (text ['<'], rest) := by
  by_cases h : StartsTag rest
  · obtain ⟨content, after, rfl, hne, hopen, hclose⟩ := h
    exact .inl ⟨content, after, rfl, hne, hopen, hclose,
      firstTag_append hne (not_isBracket_of_not_mem hopen hclose) after⟩
  · exact .inr ⟨h, firstTag_of_not_startsTag h⟩

theorem isTag_firstTag_iff (rest : Text) : (firstTag rest).1.IsTag ↔ StartsTag rest := by
  rcases firstTag_cases rest with ⟨content, after, rfl, hne, hopen, hclose, hfirst⟩ | ⟨hnot, hfirst⟩
  · rw [hfirst]
    exact iff_of_true (isTag_ofTagContent content) ⟨content, after, rfl, hne, hopen, hclose⟩
  · rw [hfirst]
    exact iff_of_false id hnot

theorem isWellFormed_first (c : Char) (rest : Text) : (first c rest).1.IsWellFormed := by
  rw [first]
  split
  · rcases firstTag_cases rest with ⟨content, after, -, hne, hopen, hclose, hfirst⟩ | ⟨-, hfirst⟩
    · rw [hfirst]
      exact isWellFormed_ofTagContent hne hopen hclose
    · rw [hfirst]
      exact .inl rfl
  · next hbracket =>
    split
    · rw [firstEscape.eq_def]
      split
      · exact .inl rfl
      · exact .inr rfl
      · exact .inr (.inl rfl)
    · next hbackslash =>
      refine .inr (.inr ⟨List.cons_ne_nil _ _, ?_, ?_⟩)
      · rw [List.mem_cons, not_or]
        exact ⟨fun heq => hbracket heq.symm, not_mem_takeWhile (by decide) rest⟩
      · rw [List.mem_cons, not_or]
        exact ⟨fun heq => hbackslash heq.symm, not_mem_takeWhile (by decide) rest⟩

theorem IsWellFormed.source_ne_nil {token : Token} (h : token.IsWellFormed) : token.source ≠ [] := by
  cases token with
  | text t => rcases h with rfl | rfl | ⟨hne, -⟩ <;> simp_all [source]
  | opening content => exact List.cons_ne_nil _ _
  | closing name => exact List.cons_ne_nil _ _
  | escaped c => exact List.cons_ne_nil _ _

/-- A token ends in a backslash only if it starts with one. -/
theorem IsWellFormed.getLast?_source_ne {token : Token} (h : token.IsWellFormed)
    (hhead : token.source.head? ≠ some '\\') : token.source.getLast? ≠ some '\\' := by
  cases token with
  | text t =>
    rcases h with rfl | rfl | ⟨-, -, hbackslash⟩
    · decide
    · exact absurd rfl hhead
    · exact fun hlast => hbackslash (List.mem_of_getLast? hlast)
  | opening content => simp [source, List.getLast?_cons]
  | closing name => simp [source, List.getLast?_cons]
  | escaped c => exact absurd rfl hhead

end Token

theorem isWellFormed_of_mem_tokens {text : Text} : ∀ token ∈ tokens text, token.IsWellFormed := by
  fun_induction tokens text with
  | case1 => exact fun token htoken => absurd htoken List.not_mem_nil
  | case2 c rest ih => exact List.forall_mem_cons.2 ⟨Token.isWellFormed_first c rest, ih⟩

theorem flatMap_source_tokens (text : Text) : (tokens text).flatMap Token.source = text := by
  fun_induction tokens text with
  | case1 => rfl
  | case2 c rest ih => rw [List.flatMap_cons, ih, Token.source_first]

section Stop

variable {p : Char → Bool} {stop : Char}

theorem takeWhile_append_stop (h : ¬ p stop) (front back : Text) :
    (front ++ stop :: back).takeWhile p = front.takeWhile p := by
  induction front with
  | nil => simp [h]
  | cons c front ih => rw [List.cons_append, List.takeWhile_cons, List.takeWhile_cons, ih]

theorem dropWhile_append_stop (h : ¬ p stop) (front back : Text) :
    (front ++ stop :: back).dropWhile p = front.dropWhile p ++ stop :: back := by
  induction front with
  | nil => simp [h]
  | cons c front ih =>
    rw [List.cons_append, List.dropWhile_cons, List.dropWhile_cons, ih]
    split <;> rfl

end Stop

namespace Token

theorem firstTag_append_bracket (rest back : Text) :
    firstTag (rest ++ '<' :: back) = ((firstTag rest).1, (firstTag rest).2 ++ '<' :: back) := by
  have hstop : ¬ (fun c => !isBracket c) '<' = true := by decide
  rw [firstTag, takeWhile_append_stop hstop, dropWhile_append_stop hstop, firstTag]
  cases rest.dropWhile fun c => !isBracket c with
  | nil => rfl
  | cons c after =>
    by_cases hc : c = '>'
    · subst hc
      simp only [List.cons_append]
      split <;> rfl
    · simp [hc]

theorem firstEscape_append_bracket {rest : Text} (h : rest ≠ []) (back : Text) :
    firstEscape (rest ++ '<' :: back) = ((firstEscape rest).1, (firstEscape rest).2 ++ '<' :: back) := by
  cases rest with
  | nil => exact absurd rfl h
  | cons c rest =>
    by_cases hbracket : c = '<'
    · subst hbracket
      rfl
    · by_cases hbackslash : c = '\\'
      · subst hbackslash
        rfl
      · simp [firstEscape, hbracket, hbackslash]

/-- Only a last backslash waits for the bracket. -/
theorem first_append_bracket {c : Char} {rest : Text} (h : c :: rest ≠ ['\\']) (back : Text) :
    first c (rest ++ '<' :: back) = ((first c rest).1, (first c rest).2 ++ '<' :: back) := by
  by_cases hbracket : c = '<'
  · rw [first, first, if_pos hbracket, if_pos hbracket, firstTag_append_bracket]
  · by_cases hbackslash : c = '\\'
    · have hrest : rest ≠ [] := by
        rintro rfl
        exact h (by rw [hbackslash])
      rw [first, first, if_neg hbracket, if_neg hbracket, if_pos hbackslash, if_pos hbackslash,
        firstEscape_append_bracket hrest]
    · have hstop : ¬ (fun c => !isSpecial c) '<' = true := by decide
      rw [first, first, if_neg hbracket, if_neg hbracket, if_neg hbackslash, if_neg hbackslash,
        takeWhile_append_stop hstop, dropWhile_append_stop hstop]

end Token

namespace Text

/-- The number of backslashes that the text ends in. -/
def backslashesAtEnd (text : Text) : Nat := (text.reverse.takeWhile (· = '\\')).length

theorem backslashesAtEnd_append {front : Text} (h : front.getLast? ≠ some '\\') (back : Text) :
    backslashesAtEnd (front ++ back) = backslashesAtEnd back := by
  have hfront : front.reverse.takeWhile (· = '\\') = [] := by
    rw [← List.head?_reverse] at h
    cases hreverse : front.reverse with
    | nil => rfl
    | cons c later =>
      rw [hreverse, List.head?_cons] at h
      exact List.takeWhile_cons_of_neg (by simpa using h)
  rw [backslashesAtEnd, List.reverse_append, List.takeWhile_append, hfront, backslashesAtEnd]
  split
  · next hall => rw [List.append_nil, (List.takeWhile_prefix _).eq_of_length hall]
  · rfl

theorem backslashesAtEnd_pair (back : Text) :
    backslashesAtEnd ('\\' :: '\\' :: back) % 2 = backslashesAtEnd back % 2 := by
  have hsplit : ('\\' :: '\\' :: back).reverse = back.reverse ++ ['\\', '\\'] := by simp
  rw [backslashesAtEnd, hsplit, List.takeWhile_append, backslashesAtEnd]
  split
  · next hall => simp [hall]
  · rfl

/-- The first token takes backslashes off the end in pairs, unless it is the last backslash. -/
theorem backslashesAtEnd_first {c : Char} {rest : Text} (h : c :: rest ≠ ['\\']) :
    backslashesAtEnd (c :: rest) % 2 = backslashesAtEnd (Token.first c rest).2 % 2 := by
  by_cases hc : c = '\\'
  · subst hc
    cases rest with
    | nil => exact absurd rfl h
    | cons d rest =>
      by_cases hbackslash : d = '\\'
      · subst hbackslash
        exact backslashesAtEnd_pair rest
      · have hlast : [d].getLast? ≠ some '\\' := by simpa using hbackslash
        have hrest := backslashesAtEnd_append hlast rest
        have hboth : backslashesAtEnd ('\\' :: d :: rest) = backslashesAtEnd rest :=
          @backslashesAtEnd_append ['\\', d] hlast rest
        by_cases hbracket : d = '<'
        · subst hbracket
          exact congrArg (· % 2) hboth
        · have hfirst : (Token.first '\\' (d :: rest)).2 = [d] ++ rest := by
            simp [Token.first, Token.firstEscape, hbackslash, hbracket]
          rw [hfirst, hrest, hboth]
  · have hsource := Token.source_first c rest
    have hhead : (Token.first c rest).1.source.head? ≠ some '\\' := by
      obtain ⟨d, more, hd⟩ := List.exists_cons_of_ne_nil (Token.isWellFormed_first c rest).source_ne_nil
      rw [hd, List.cons_append] at hsource
      rw [hd, (List.cons.inj hsource).1]
      simpa using hc
    rw [← hsource, backslashesAtEnd_append ((Token.isWellFormed_first c rest).getLast?_source_ne hhead)]

end Text

/-- An odd number of backslashes in front of a bracket escapes it. Otherwise no token reaches
over the bracket, so what is behind it is read on its own. -/
theorem tokens_append_bracket (front back : Text) :
    (front.backslashesAtEnd % 2 = 0 → tokens (front ++ '<' :: back) = tokens front ++ tokens ('<' :: back)) ∧
    (front.backslashesAtEnd % 2 = 1 → ∃ before, front = before.flatMap Token.source ++ ['\\'] ∧
      tokens (front ++ '<' :: back) = before ++ .escaped '<' :: tokens back) := by
  fun_induction tokens front with
  | case1 => exact ⟨fun _ => rfl, fun h => absurd h (by decide)⟩
  | case2 c rest ih =>
    by_cases hlone : c :: rest = ['\\']
    · -- the backslash in front of the bracket is left over from the pairs, so it takes the bracket
      rw [hlone]
      exact ⟨fun h => absurd h (by decide), fun _ => ⟨[], rfl, tokens_escaped (by decide) back⟩⟩
    · rw [Text.backslashesAtEnd_first hlone, List.cons_append, tokens_cons, Token.first_append_bracket hlone]
      refine ⟨fun h => ?_, fun h => ?_⟩
      · rw [ih.1 h, List.cons_append]
      · obtain ⟨before, hfront, htokens⟩ := ih.2 h
        refine ⟨(Token.first c rest).1 :: before, ?_, by rw [htokens, List.cons_append]⟩
        rw [List.flatMap_cons, List.append_assoc, ← hfront, Token.source_first]

/-- The token stands in the text, behind `front`. -/
def TokenAt (text front : Text) (token : Token) : Prop :=
  ∃ before after, tokens text = before ++ token :: after ∧ before.flatMap Token.source = front

/-- What stands behind `front` is escaped by a backslash at its end. -/
def InEscape (text front : Text) : Prop :=
  ∃ before c, front = before ++ ['\\'] ∧ TokenAt text before (.escaped c)

namespace TokenAt

variable {text front front' : Text} {token token' : Token}

theorem length_source_pos (h : TokenAt text front token) : 0 < token.source.length := by
  obtain ⟨before, after, htokens, -⟩ := h
  have hmem : token ∈ tokens text := by
    rw [htokens]
    exact List.mem_append_right _ List.mem_cons_self
  exact List.length_pos_iff.2 (isWellFormed_of_mem_tokens token hmem).source_ne_nil

/-- Of two tokens of one list, the later one starts where the earlier one ends or behind that. -/
theorem eq_or_behind {between after after' : List Token} (h : token :: after = between ++ token' :: after')
    (before : List Token) : between = [] ∧ token = token' ∨
      (before.flatMap Token.source).length + token.source.length ≤
        ((before ++ between).flatMap Token.source).length := by
  cases between with
  | nil => exact .inl ⟨rfl, (List.cons.inj h).1⟩
  | cons other between =>
    rw [(List.cons.inj h).1, List.flatMap_append, List.flatMap_cons, List.length_append, List.length_append]
    exact .inr (Nat.add_le_add_left (Nat.le_add_right _ _) _)

/-- Tokens do not overlap. -/
theorem eq_or_apart (h : TokenAt text front token) (h' : TokenAt text front' token') :
    front = front' ∧ token = token' ∨ front.length + token.source.length ≤ front'.length ∨
      front'.length + token'.source.length ≤ front.length := by
  obtain ⟨before, after, htokens, rfl⟩ := h
  obtain ⟨before', after', htokens', rfl⟩ := h'
  rw [htokens] at htokens'
  rcases List.append_eq_append_iff.1 htokens' with ⟨between, rfl, hbetween⟩ | ⟨between, rfl, hbetween⟩
  · rcases eq_or_behind hbetween before with ⟨rfl, heq⟩ | hle
    · exact .inl ⟨by rw [List.append_nil], heq⟩
    · exact .inr (.inl hle)
  · rcases eq_or_behind hbetween before' with ⟨rfl, heq⟩ | hle
    · exact .inl ⟨by rw [List.append_nil], heq.symm⟩
    · exact .inr (.inr hle)

theorem unique (h : TokenAt text front token) (h' : TokenAt text front token') : token = token' := by
  have hpos := h.length_source_pos
  have hpos' := h'.length_source_pos
  rcases h.eq_or_apart h' with ⟨-, heq⟩ | hle | hle
  · exact heq
  · omega
  · omega

end TokenAt

section Bracket

variable {front : Text}

/-- A bracket that is not escaped starts a token. -/
theorem tokenAt_bracket (h : front.backslashesAtEnd % 2 = 0) (back : Text) :
    TokenAt (front ++ '<' :: back) front (Token.firstTag back).1 := by
  refine ⟨tokens front, tokens (Token.firstTag back).2, ?_, flatMap_source_tokens front⟩
  rw [(tokens_append_bracket front back).1 h, tokens_cons, Token.first, if_pos rfl]

theorem inEscape_bracket_iff {back : Text} :
    InEscape (front ++ '<' :: back) front ↔ front.backslashesAtEnd % 2 = 1 := by
  constructor
  · rintro ⟨before, c, hfront, hescape⟩
    refine Classical.byContradiction fun hodd => ?_
    -- otherwise a token would start within the escape
    have htoken := @tokenAt_bracket front (by omega) back
    have hpos := htoken.length_source_pos
    have hlength : front.length = before.length + 1 := by rw [hfront, List.length_append]; rfl
    have htwo : (Token.escaped c).source.length = 2 := rfl
    rcases hescape.eq_or_apart htoken with ⟨heq, -⟩ | hle | hle
    · rw [heq] at hlength
      omega
    · omega
    · omega
  · intro hodd
    obtain ⟨before, hfront, htokens⟩ := (tokens_append_bracket front back).2 hodd
    exact ⟨_, '<', hfront, before, tokens back, htokens, rfl⟩

theorem exists_tag_bracket_iff (h : front.backslashesAtEnd % 2 = 0) (back : Text) :
    (∃ token : Token, token.IsTag ∧ TokenAt (front ++ '<' :: back) front token) ↔ Token.StartsTag back := by
  have htoken := tokenAt_bracket h back
  rw [← Token.isTag_firstTag_iff]
  constructor
  · rintro ⟨token, htag, hat⟩
    exact hat.unique htoken ▸ htag
  · exact fun htag => ⟨_, htag, htoken⟩

end Bracket

/-- The tokens of a text are the text, cut into pieces of the forms that the grammar gives. An
opening bracket belongs to an escape if and only if an odd number of backslashes stands in front
of it; any other one starts a tag if and only if the next bracket is a closing one that does not
follow at once. -/
theorem tokens_lossless_and_exact (text : Text) :
    (tokens text).flatMap Token.source = text ∧
    (∀ token ∈ tokens text, token.IsWellFormed) ∧
    ∀ front back : Text, text = front ++ '<' :: back →
      (InEscape text front ↔ front.backslashesAtEnd % 2 = 1) ∧
      (¬ InEscape text front →
        ((∃ token : Token, token.IsTag ∧ TokenAt text front token) ↔ Token.StartsTag back)) := by
  refine ⟨flatMap_source_tokens text, isWellFormed_of_mem_tokens, ?_⟩
  rintro front back rfl
  refine ⟨inEscape_bracket_iff, fun hfree => exists_tag_bracket_iff ?_ back⟩
  rw [inEscape_bracket_iff] at hfree
  omega

/-- Behind two backslashes a tag that ends in one, behind an escape a lone bracket. -/
theorem tokens_lossless_and_exact_backslashes :
    let front : Text := "\\\\".toList
    let back : Text := "b\\>\\<<>".toList
    let text : Text := front ++ '<' :: back
    text = front ++ '<' :: back ∧ ¬ InEscape text front ∧
      (∃ token : Token, token.IsTag ∧ TokenAt text front token) ∧
      (tokens text).flatMap Token.source = text := by
  intro front back text
  obtain ⟨hsource, -, hbracket⟩ := tokens_lossless_and_exact text
  obtain ⟨hescape, htag⟩ := hbracket front back rfl
  have hfree : ¬ InEscape text front := by
    rw [hescape]
    decide
  have hstarts : Token.StartsTag back :=
    ⟨"b\\".toList, "\\<<>".toList, rfl, by decide, by decide, by decide⟩
  exact ⟨rfl, hfree, (htag hfree).2 hstarts, hsource⟩

end ColorMarkup
