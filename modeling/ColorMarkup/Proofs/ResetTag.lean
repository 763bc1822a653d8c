import ColorMarkup.Proofs.SpanLayout
import ColorMarkup.Proofs.TagContent
import ColorMarkup.Proofs.TokenGrammar
/-!
A reset tag parts markup in two. No token reaches over an opening bracket that is not
escaped, so the tokens in front of the tag and those behind it are read apart. The reset
closes all tags, and what is read from there on is what would be read from the start, moved
behind the text in front of it. Spans of the two halves share no byte, so sorting all of them
by depth sorts, at each byte, those of one half.
-/
namespace ColorMarkup

/-- The span, moved behind a number of bytes. -/
def Span.behind (offset : Nat) (span : Span) : Span :=
  { span with start := offset + span.start, stop := offset + span.stop }

/-- The tag, moved behind a number of characters. -/
def OpenTag.behind (length : Nat) (tag : OpenTag) : OpenTag := { tag with start := length + tag.start }

@[simp] theorem Span.contains_behind (offset o : Nat) (span : Span) :
    (span.behind offset).contains (offset + o) = span.contains o := by
  simp [behind, contains]

theorem gradientSpans_behind (depth front offset : Nat) (graphemes : List Text) (colors : List Color) :
    gradientSpans depth (front + offset) graphemes colors =
      (gradientSpans depth offset graphemes colors).map (.behind front) := by
  fun_induction gradientSpans depth offset graphemes colors with
  | case1 offset grapheme graphemes color colors stop ih =>
    rw [gradientSpans, List.map_cons, ← ih, Nat.add_assoc]
    rfl
  | case2 offset graphemes colors h =>
    rw [List.map_nil, gradientSpans.eq_def]
    split
    · exact (h _ _ _ _ rfl rfl).elim
    · rfl

theorem OpenTag.spans_behind (front : Text) (tag : OpenTag) (text : Text) (depth : Nat) :
    (tag.behind front.length).spans (front ++ text) depth =
      (tag.spans text depth).map (.behind front.byteLength) := by
  rw [spans, spans, behind, List.take_length_add_append, List.drop_length_add_append,
    Text.byteLength_append]
  split
  · rfl
  · cases tag.effect with
    | style style => simp [Span.behind, Nat.add_assoc]
    | gradient stops => exact gradientSpans_behind _ _ _ _ _

namespace Reading

/-- The reading, moved behind another one. Of the other one only closed tags are left. -/
def behind (front r : Reading) : Reading :=
  ⟨front.text ++ r.text, r.stack.map (.behind front.text.length),
    front.spans ++ r.spans.map (.behind front.text.byteLength)⟩

variable (front r : Reading)

theorem behind_append (text : Text) : (front.behind r).append text = front.behind (r.append text) := by
  simp [behind, append]

theorem behind_push (effect : TagEffect) (closeName : Text) :
    (front.behind r).push effect closeName = front.behind (r.push effect closeName) := by
  simp [behind, push, OpenTag.behind]

theorem behind_closeInnermost : (front.behind r).closeInnermost = front.behind r.closeInnermost := by
  obtain ⟨text, stack, spans⟩ := r
  cases stack with
  | nil => rfl
  | cons tag rest => simp [behind, closeInnermost, OpenTag.spans_behind]

theorem behind_closeMany (n : Nat) : closeMany n (front.behind r) = front.behind (closeMany n r) := by
  induction n generalizing r with
  | zero => rfl
  | succ n ih => rw [closeMany, behind_closeInnermost, ih, closeMany]

theorem behind_closeAll : (front.behind r).closeAll = front.behind r.closeAll := by
  have hlength : (front.behind r).stack.length = r.stack.length := List.length_map _
  rw [closeAll, closeAll, hlength, behind_closeMany]

theorem behind_closeNamed (name : Text) : (front.behind r).closeNamed name = front.behind (r.closeNamed name) := by
  have hfind : (front.behind r).stack.findIdx? (fun tag => tag.closeName = name) =
      r.stack.findIdx? fun tag => tag.closeName = name := by
    rw [behind, List.findIdx?_map]
    rfl
  rw [closeNamed, closeNamed, hfind]
  cases r.stack.findIdx? fun tag => tag.closeName = name with
  | none => rfl
  | some i => exact behind_closeMany front r (i + 1)

theorem behind_openTag (content : Text) : (front.behind r).openTag content = front.behind (r.openTag content) := by
  rw [openTag, openTag]
  cases StyleTag.read content with
  | error _ => exact behind_append front r _
  | ok tag =>
    cases tag with
    | reset => exact behind_closeAll front r
    | color color => exact behind_push front r _ _
    | decoration set => exact behind_push front r _ _
    | gradient stops => exact behind_push front r _ _

/-- What a token does behind another reading is what it does from the start. -/
theorem behind_step (token : Token) : (front.behind r).step token = front.behind (r.step token) := by
  cases token with
  | text text => exact behind_append front r text
  | escaped c => exact behind_append front r [c]
  | opening content => exact behind_openTag front r content
  | closing name =>
    rw [step, step, closeTag, closeTag]
    split
    · exact behind_closeInnermost front r
    · exact behind_closeNamed front r _

theorem foldl_step_behind (list : List Token) :
    list.foldl step (front.behind r) = front.behind (list.foldl step r) := by
  induction list generalizing r with
  | nil => rfl
  | cons token list ih => rw [List.foldl_cons, List.foldl_cons, behind_step, ih]

theorem stack_closeMany (n : Nat) (r : Reading) : (closeMany n r).stack = r.stack.drop n := by
  induction n generalizing r with
  | zero => rfl
  | succ n ih =>
    obtain ⟨text, stack, spans⟩ := r
    rw [closeMany, ih]
    cases stack with
    | nil => simp [closeInnermost]
    | cons tag rest => rfl

/-- A reading without open tags is where another one can start. -/
theorem behind_start (h : front.stack = []) : front.behind start = front := by
  obtain ⟨text, stack, spans⟩ := front
  cases h
  simp [behind, start]

end Reading

theorem tokens_reset (back : Text) :
    tokens ("<reset>".toList ++ back) = .opening "reset".toList :: tokens back :=
  @tokens_opening_append "reset".toList (by decide) (by decide) (Text.forall_mem_of_all (by decide)) back

/-- The markup in front of a reset is read to its end, and the markup behind it from there on. -/
theorem foldl_tokens_reset {front : Text} (h : front.getLast? ≠ some '\\') (back : Text) :
    (tokens (front ++ "<reset>".toList ++ back)).foldl Reading.step .start =
      ((tokens front).foldl Reading.step .start).closeAll.behind ((tokens back).foldl Reading.step .start) := by
  have hread : StyleTag.read "reset".toList = .ok .reset := StyleTag.read_format .reset
  have hopen : ∀ r : Reading, r.step (.opening "reset".toList) = r.closeAll := fun r => by
    rw [Reading.step, Reading.openTag, hread]
  have hclosed : ∀ r : Reading, r.closeAll.stack = [] := fun r => by
    rw [Reading.closeAll, Reading.stack_closeMany, List.drop_length]
  have htokens : tokens (front ++ "<reset>".toList ++ back) =
      tokens front ++ .opening "reset".toList :: tokens back := by
    have hnone : front.backslashesAtEnd = 0 := by
      rw [← List.append_nil front, Text.backslashesAtEnd_append h]
      rfl
    rw [List.append_assoc, ← tokens_reset]
    exact (tokens_append_bracket front _).1 (by rw [hnone])
  rw [htokens, List.foldl_append, List.foldl_cons, hopen, ← Reading.foldl_step_behind,
    Reading.behind_start _ (hclosed _)]

namespace Document

/-- The depths of the spans at a byte grow. -/
theorem pairwise_depth_spansAt (markup : Text) (o : Nat) :
    (((ofMarkup markup).spansAt o).map Span.depth).Pairwise (· < ·) := by
  have hordered : (ofMarkup markup).spans.Pairwise fun a b =>
      a.depth < b.depth ∨ a.depth = b.depth ∧ a.stop ≤ b.start :=
    pairwise_mergeSort_of_inTurn (Reading.laid_closeAll markup).inTurn
  have hcontains : ∀ span ∈ (ofMarkup markup).spansAt o, span.start ≤ o ∧ o < span.stop := by
    simp [spansAt, Span.contains]
  rw [List.pairwise_map]
  refine (hordered.filter _).imp_of_mem fun {a b} ha hb hab => ?_
  have ha := hcontains a ha
  have hb := hcontains b hb
  omega

/-- The spans of a markup in the order in which they are made. -/
def madeSpans (markup : Text) : List Span := ((tokens markup).foldl Reading.step .start).closeAll.spans

/-- The document of two halves: texts and spans of both, sorted together. -/
theorem ofMarkup_reset {front : Text} (h : front.getLast? ≠ some '\\') (back : Text) :
    ofMarkup (front ++ "<reset>".toList ++ back) =
      ⟨(ofMarkup front).text ++ (ofMarkup back).text,
        (madeSpans front ++ (madeSpans back).map (Span.behind (ofMarkup front).byteLength)).mergeSort
          fun a b => a.depth ≤ b.depth⟩ := by
  rw [ofMarkup, foldl_tokens_reset h, Reading.finish, Reading.behind_closeAll]
  rfl

theorem stop_le_of_mem_madeSpans {markup : Text} {span : Span} (h : span ∈ madeSpans markup) :
    span.stop ≤ (ofMarkup markup).byteLength :=
  ((Reading.laid_closeAll markup).fits span h).stop_le

/-- In front of the reset the spans are those of the first half. -/
theorem spansAt_reset_of_lt {front : Text} (h : front.getLast? ≠ some '\\') (back : Text) {o : Nat}
    (ho : o < (ofMarkup front).byteLength) :
    (ofMarkup (front ++ "<reset>".toList ++ back)).spansAt o = (ofMarkup front).spansAt o := by
  have hback : ((madeSpans back).map (Span.behind (ofMarkup front).byteLength)).filter (·.contains o) = [] := by
    apply filter_eq_nil_of_lt_start
    intro span hspan
    obtain ⟨own, -, rfl⟩ := List.mem_map.1 hspan
    simp only [Span.behind]
    omega
  rw [ofMarkup_reset h, spansAt]
  apply filter_mergeSort_depth _ (pairwise_depth_spansAt front o)
  rw [List.filter_append, hback, List.append_nil]
  exact ((List.mergeSort_perm (madeSpans front) _).filter _).symm

/-- Behind it they are those of the second half. -/
theorem spansAt_reset_add {front : Text} (h : front.getLast? ≠ some '\\') (back : Text) (o : Nat) :
    (ofMarkup (front ++ "<reset>".toList ++ back)).spansAt ((ofMarkup front).byteLength + o) =
      ((ofMarkup back).spansAt o).map (Span.behind (ofMarkup front).byteLength) := by
  have hfront : (madeSpans front).filter (·.contains ((ofMarkup front).byteLength + o)) = [] := by
    apply filter_eq_nil_of_stop_le
    intro span hspan
    have := stop_le_of_mem_madeSpans hspan
    omega
  have hdepths : (((ofMarkup back).spansAt o).map (Span.behind (ofMarkup front).byteLength)).map Span.depth =
      ((ofMarkup back).spansAt o).map Span.depth := List.map_map
  have hgrow := pairwise_depth_spansAt back o
  rw [← hdepths] at hgrow
  rw [ofMarkup_reset h, spansAt]
  apply filter_mergeSort_depth _ hgrow
  rw [List.filter_append, hfront, List.nil_append, List.filter_map, Function.comp_def]
  simp only [Span.contains_behind]
  exact (((List.mergeSort_perm (madeSpans back) _).filter _).map _).symm

/-- A reset tag separates what is in front of it from what is behind it: each half has the text,
the spans and the styles that it has on its own. -/
theorem reset_separates {front : Text} (h : front.getLast? ≠ some '\\') (back : Text) :
    let doc := ofMarkup (front ++ "<reset>".toList ++ back)
    let first := ofMarkup front
    let second := ofMarkup back
    doc.text = first.text ++ second.text ∧
      (∀ o < first.byteLength, doc.spansAt o = first.spansAt o ∧ doc.styleAt o = first.styleAt o) ∧
      ∀ o, doc.spansAt (first.byteLength + o) = (second.spansAt o).map (Span.behind first.byteLength) ∧
        doc.styleAt (first.byteLength + o) = second.styleAt o := by
  intro doc first second
  have hfirst : ∀ o < first.byteLength, doc.spansAt o = first.spansAt o := fun _ =>
    spansAt_reset_of_lt h back
  have hsecond : ∀ o, doc.spansAt (first.byteLength + o) =
      (second.spansAt o).map (Span.behind first.byteLength) := spansAt_reset_add h back
  refine ⟨congrArg text (ofMarkup_reset h back), fun o ho => ⟨hfirst o ho, ?_⟩, fun o => ⟨hsecond o, ?_⟩⟩
  · rw [styleAt, hfirst o ho, styleAt]
  · rw [styleAt, hsecond, List.foldl_map, styleAt]
    rfl

/-- The first half ends in a tag that is not closed, behind a tag that is. -/
theorem reset_separates_unclosed :
    let front := "<bold>❤<red><gradient:red:blue".toList
    let back := "</bold><italic>a<b".toList
    let doc := ofMarkup (front ++ "<reset>".toList ++ back)
    let first := ofMarkup front
    let second := ofMarkup back
    front.getLast? ≠ some '\\' ∧ doc.text = first.text ++ second.text ∧
      (∀ o < first.byteLength, doc.spansAt o = first.spansAt o ∧ doc.styleAt o = first.styleAt o) ∧
      ∀ o, doc.spansAt (first.byteLength + o) = (second.spansAt o).map (Span.behind first.byteLength) ∧
        doc.styleAt (first.byteLength + o) = second.styleAt o := by
  intro front back doc first second
  have hlast : front.getLast? ≠ some '\\' := by decide
  exact ⟨hlast, reset_separates hlast back⟩

end Document
end ColorMarkup
