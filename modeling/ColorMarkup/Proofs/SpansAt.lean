import Mathlib.Data.List.Forall2
import Mathlib.Data.List.Nodup
import ColorMarkup.Proofs.Gradient
import ColorMarkup.Proofs.StyleTagReading
import ColorMarkup.Proofs.Trace
/-!
The spans of a document at a byte, compared with the tags open at that byte. A
reading makes the spans of a tag when it closes, with its depth at that time; for one
byte the tags around it close from the innermost to the outermost, so the spans made
so far are those of its closed tags in reverse order. Sorting by depth puts them in
the order of the tags.
-/
namespace ColorMarkup

/-- What a span says about a byte that it holds. -/
def Span.view (span : Span) : Nat × Option Style := (span.depth, some span.style)

/-- What a live tag with its depth says about a byte. -/
def LiveTag.view (cells : List Cell) (o : Nat) (placed : LiveTag × Nat) : Nat × Option Style :=
  (placed.2, placed.1.styleAt? cells o)

theorem bounds_of_mem_gradientSpans {depth offset : Nat} {graphemes : List Text}
    {colors : List Color} {span : Span} (h : span ∈ gradientSpans depth offset graphemes colors) :
    offset ≤ span.start ∧ span.stop ≤ offset + Text.byteLength graphemes.flatten := by
  fun_induction gradientSpans depth offset graphemes colors with
  | case1 offset grapheme graphemes color colors stop ih =>
    have hflatten : Text.byteLength (grapheme :: graphemes).flatten =
        grapheme.byteLength + Text.byteLength graphemes.flatten := by simp
    rw [hflatten]
    rcases List.mem_cons.1 h with rfl | h
    · simp only [stop]
      omega
    · have := ih h
      omega
  | case2 => cases h

theorem filter_eq_nil_of_stop_le {spans : List Span} {o : Nat} (h : ∀ span ∈ spans, span.stop ≤ o) :
    spans.filter (·.contains o) = [] := by
  rw [List.filter_eq_nil_iff]
  intro span hspan
  have := h span hspan
  simp only [Span.contains, Bool.and_eq_true, decide_eq_true_eq]
  omega

theorem filter_eq_nil_of_lt_start {spans : List Span} {o : Nat} (h : ∀ span ∈ spans, o < span.start) :
    spans.filter (·.contains o) = [] := by
  rw [List.filter_eq_nil_iff]
  intro span hspan
  have := h span hspan
  simp only [Span.contains, Bool.and_eq_true, decide_eq_true_eq]
  omega

/-- A byte of the graphemes is held by one span, that of its grapheme. -/
theorem filter_gradientSpans {graphemes : List Text} {colors : List Color} {depth offset o : Nat}
    (hcolors : colors.length = graphemes.length)
    (h : o < Text.byteLength graphemes.flatten) :
    ((gradientSpans depth offset graphemes colors).filter (·.contains (offset + o))).map Span.view =
      [(depth, colors[pieceIndex graphemes o]?.map Style.colored)] := by
  induction graphemes generalizing colors offset o with
  | nil => simp at h
  | cons grapheme graphemes ih =>
    match colors, hcolors with
    | color :: colors, hcolors =>
      have hlater : ∀ span ∈ gradientSpans depth (offset + grapheme.byteLength) graphemes colors,
          offset + grapheme.byteLength ≤ span.start := fun span hspan =>
        (bounds_of_mem_gradientSpans hspan).1
      rw [gradientSpans, pieceIndex]
      by_cases hfirst : o < grapheme.byteLength
      · have hnone := filter_eq_nil_of_lt_start (o := offset + o) fun span hspan => by
          have := hlater span hspan
          omega
        rw [List.filter_cons_of_pos (by simp [Span.contains, hfirst]), hnone, if_pos hfirst]
        rfl
      · have hlength : o - grapheme.byteLength < Text.byteLength graphemes.flatten := by
          rw [List.flatten_cons, Text.byteLength_append] at h
          omega
        have hoffset : offset + o = offset + grapheme.byteLength + (o - grapheme.byteLength) := by omega
        rw [List.filter_cons_of_neg (by simp [Span.contains, hfirst]), hoffset,
          ih (Nat.succ.inj hcolors) hlength, if_neg hfirst, List.getElem?_cons_succ]

/-- The stops of a gradient are never none. -/
def TagEffect.HasStops : TagEffect → Prop
  | .style _ => True
  | .gradient stops => stops ≠ []

namespace OpenTag

variable {tag : OpenTag} {text : Text} {depth o : Nat}

theorem bounds_of_mem_spans {span : Span} (h : span ∈ tag.spans text depth) :
    Text.byteLength (text.take tag.start) ≤ span.start ∧ span.stop ≤ text.byteLength := by
  have hlength : text.byteLength =
      Text.byteLength (text.take tag.start) + Text.byteLength (text.drop tag.start) := by
    rw [← Text.byteLength_append, List.take_append_drop]
  rw [spans] at h
  split at h
  · cases h
  · split at h
    · rw [List.mem_singleton.1 h]
      simp only
      omega
    · have := bounds_of_mem_gradientSpans h
      rw [Text.flatten_graphemes] at this
      omega

/-- A byte in front of the tag is in none of its spans. -/
theorem filter_spans_of_lt (h : o < Text.byteLength (text.take tag.start)) :
    (tag.spans text depth).filter (·.contains o) = [] := by
  apply filter_eq_nil_of_lt_start
  intro span hspan
  have := (bounds_of_mem_spans hspan).1
  omega

/-- A byte behind the start of the tag is in one of its spans. -/
theorem filter_spans_of_le (hstops : tag.effect.HasStops)
    (hstart : Text.byteLength (text.take tag.start) ≤ o) (ho : o < text.byteLength) :
    ((tag.spans text depth).filter (·.contains o)).map Span.view =
      [(depth, tag.effect.styleAt? (text.drop tag.start) (o - Text.byteLength (text.take tag.start)))] := by
  have hlength : text.byteLength =
      Text.byteLength (text.take tag.start) + Text.byteLength (text.drop tag.start) := by
    rw [← Text.byteLength_append, List.take_append_drop]
  have hne : text.drop tag.start ≠ [] := by
    intro hnil
    rw [hnil, Text.byteLength_nil] at hlength
    omega
  rw [spans, if_neg hne]
  cases heffect : tag.effect with
  | style own =>
    have hcontains : Span.contains
        ⟨Text.byteLength (text.take tag.start),
          Text.byteLength (text.take tag.start) + Text.byteLength (text.drop tag.start), own, depth⟩ o := by
      simp only [Span.contains, Bool.and_eq_true, decide_eq_true_eq]
      omega
    rw [List.filter_cons, if_pos hcontains]
    rfl
  | gradient stops =>
    rw [heffect] at hstops
    have hcolors := Color.length_interpolateStops hstops (Text.graphemes (text.drop tag.start)).length
    have hoffset : o = Text.byteLength (text.take tag.start) +
        (o - Text.byteLength (text.take tag.start)) := by omega
    have hinside : o - Text.byteLength (text.take tag.start) <
        Text.byteLength (Text.graphemes (text.drop tag.start)).flatten := by
      rw [Text.flatten_graphemes]
      omega
    rw [hoffset, Nat.add_sub_cancel_left]
    exact filter_gradientSpans hcolors hinside

end OpenTag

/-- An open tag of a reading is a live tag of a trace: it starts where the cells begin
to carry the live tag. -/
structure Tracks (cells : List Cell) (tag : OpenTag) (live : LiveTag) : Prop where
  effect : tag.effect = live.effect
  closeName : tag.closeName = live.closeName
  start_le : tag.start ≤ cells.length
  before : ∀ cell ∈ cells.take tag.start, live ∉ cell.tags
  since : ∀ cell ∈ cells.drop tag.start, live ∈ cell.tags

namespace Tracks

variable {cells : List Cell} {tag : OpenTag} {live : LiveTag}

theorem enclosed_eq (h : Tracks cells tag live) :
    Cell.enclosed cells live = (Cell.textOf cells).drop tag.start := by
  have henclosed := Cell.enclosed_of_mem h.before h.since
  rwa [List.take_append_drop, Cell.textOf, List.map_drop] at henclosed

theorem before_eq (h : Tracks cells tag live) :
    Cell.before cells live = (Cell.textOf cells).take tag.start := by
  have hbefore := Cell.before_of_mem h.before h.since
  rwa [List.take_append_drop, Cell.textOf, List.map_take] at hbefore

/-- The bytes from the start of the tag on are those of the cells that carry it. -/
theorem mem_iff (h : Tracks cells tag live) {o : Nat} {cell : Cell} (hcell : Cell.at? cells o = some cell) :
    live ∈ cell.tags ↔ Text.byteLength ((Cell.textOf cells).take tag.start) ≤ o := by
  have hsplit := Cell.at?_append (cells.take tag.start) (cells.drop tag.start) o
  rw [List.take_append_drop, hcell, Cell.textOf, List.map_take] at hsplit
  rw [Cell.textOf]
  by_cases ho : o < Text.byteLength ((cells.map Cell.char).take tag.start)
  · rw [if_pos ho] at hsplit
    have hnot := h.before cell (Cell.mem_of_at? hsplit.symm)
    exact ⟨fun hmem => absurd hmem hnot, fun hle => by omega⟩
  · rw [if_neg ho] at hsplit
    exact ⟨fun _ => by omega, fun _ => h.since cell (Cell.mem_of_at? hsplit.symm)⟩

theorem append (h : Tracks cells tag live) {more : List Cell} (hmore : ∀ cell ∈ more, live ∈ cell.tags) :
    Tracks (cells ++ more) tag live where
  effect := h.effect
  closeName := h.closeName
  start_le := by
    have := h.start_le
    rw [List.length_append]
    omega
  before := by
    rw [List.take_append_of_le_length h.start_le]
    exact h.before
  since := by
    rw [List.drop_append_of_le_length h.start_le]
    intro cell hcell
    cases List.mem_append.1 hcell with
    | inl hcell => exact h.since cell hcell
    | inr hcell => exact hmore cell hcell

theorem forall₂_append {stack : List OpenTag} {lives : List LiveTag} {more : List Cell}
    (h : List.Forall₂ (Tracks cells) stack lives)
    (hmore : ∀ cell ∈ more, ∀ live ∈ lives, live ∈ cell.tags) :
    List.Forall₂ (Tracks (cells ++ more)) stack lives := by
  induction h with
  | nil => exact .nil
  | cons hfirst _ ih =>
    exact .cons (hfirst.append fun cell hcell => hmore cell hcell _ List.mem_cons_self)
      (ih fun cell hcell live hlive => hmore cell hcell live (List.mem_cons_of_mem _ hlive))

theorem map_closeName {stack : List OpenTag} {lives : List LiveTag}
    (h : List.Forall₂ (Tracks cells) stack lives) :
    stack.map OpenTag.closeName = lives.map LiveTag.closeName := by
  induction h with
  | nil => rfl
  | cons hfirst _ ih => rw [List.map_cons, List.map_cons, hfirst.closeName, ih]

end Tracks

/-- At a byte whose cell is given, the tags of the cell are outer ones, which are still
open, and then closed ones; the spans that hold the byte are those of the closed tags,
from the innermost to the outermost. -/
def Settled (t : Trace) (spans : List Span) (cell : Cell) (o : Nat) : Prop :=
  ∃ inner outer closed, t.stack = inner ++ outer ∧ cell.tags = outer.reverse ++ closed ∧
    (∀ tag ∈ inner, tag ∉ cell.tags) ∧ (∀ tag ∈ closed, tag ∉ t.stack) ∧
    (spans.filter (·.contains o)).reverse.map Span.view =
      (closed.zipIdx outer.length).map (LiveTag.view t.cells o)

/-- A reading and a trace of the same tokens. -/
structure Follows (t : Trace) (r : Reading) : Prop where
  text : r.text = Cell.textOf t.cells
  stack : List.Forall₂ (Tracks t.cells) r.stack t.stack
  stops : ∀ tag ∈ r.stack, tag.effect.HasStops
  inside : ∀ span ∈ r.spans, span.stop ≤ r.text.byteLength
  numbered : t.Numbered
  settled : ∀ o cell, Cell.at? t.cells o = some cell → Settled t r.spans cell o

theorem start_follows : Follows .start .start where
  text := rfl
  stack := .nil
  stops := by simp [Reading.start]
  inside := by simp [Reading.start]
  numbered := Trace.numbered_start
  settled := by simp [Trace.start, Cell.at?]

namespace Follows

variable {t : Trace} {r : Reading}

theorem append (h : Follows t r) (text : Text) : Follows (t.append text) (r.append text) where
  text := by rw [Trace.textOf_append, ← h.text, Reading.append]
  stack := by
    apply Tracks.forall₂_append h.stack
    intro cell hcell live hlive
    obtain ⟨c, -, rfl⟩ := List.mem_map.1 hcell
    exact List.mem_reverse.2 hlive
  stops := h.stops
  inside := by
    intro span hspan
    have := h.inside span hspan
    simp only [Reading.append, Text.byteLength_append]
    omega
  numbered := h.numbered.append text
  settled := by
    intro o cell hcell
    rw [Trace.append, Cell.at?_append] at hcell
    by_cases ho : o < (Cell.textOf t.cells).byteLength
    · -- an older byte: none of its closed tags is on the stack of the new cells
      rw [if_pos ho] at hcell
      obtain ⟨inner, outer, closed, hstack, htags, hinner, hclosed, hspans⟩ := h.settled o cell hcell
      refine ⟨inner, outer, closed, hstack, htags, hinner, hclosed, ?_⟩
      rw [Reading.append, hspans]
      apply List.map_congr_left
      rintro ⟨tag, depth⟩ hpair
      have htag : tag ∈ closed := List.fst_mem_of_mem_zipIdx hpair
      have hcarried : ∃ cell ∈ t.cells, tag ∈ cell.tags :=
        ⟨cell, Cell.mem_of_at? hcell, by rw [htags]; exact List.mem_append_right _ htag⟩
      have hnew : ∀ cell ∈ text.map fun c => Cell.mk c t.stack.reverse, tag ∉ cell.tags := by
        intro cell hcell
        obtain ⟨c, -, rfl⟩ := List.mem_map.1 hcell
        exact fun hmem => hclosed tag htag (List.mem_reverse.1 hmem)
      exact congrArg (Prod.mk depth) (LiveTag.styleAt?_append hcarried hnew o).symm
    · -- a new byte: all its tags are open and no span reaches it
      rw [if_neg ho] at hcell
      obtain ⟨c, -, rfl⟩ := List.mem_map.1 (Cell.mem_of_at? hcell)
      refine ⟨[], t.stack, [], rfl, by simp, by simp, by simp, ?_⟩
      have hnone : r.spans.filter (·.contains o) = [] := by
        apply filter_eq_nil_of_stop_le
        intro span hspan
        have hstop := h.inside span hspan
        rw [h.text] at hstop
        omega
      simp [Reading.append, hnone]

theorem push (h : Follows t r) {effect : TagEffect} (closeName : Text) (heffect : effect.HasStops) :
    Follows (t.push effect closeName) (r.push effect closeName) where
  text := h.text
  stack := by
    refine .cons ⟨rfl, rfl, ?_, ?_, ?_⟩ h.stack
    · simp [h.text, Trace.push]
    · intro cell hcell hmem
      have := h.numbered.cells cell (List.mem_of_mem_take hcell) _ hmem
      simp at this
    · simp [h.text, Trace.push]
  stops := by
    intro tag htag
    rcases List.mem_cons.1 htag with rfl | htag
    · exact heffect
    · exact h.stops tag htag
  inside := h.inside
  numbered := h.numbered.push effect closeName
  settled := by
    intro o cell hcell
    obtain ⟨inner, outer, closed, hstack, htags, hinner, hclosed, hspans⟩ := h.settled o cell hcell
    have hnew : ∀ tag ∈ cell.tags, tag ≠ ⟨t.opened, effect, closeName⟩ := by
      rintro tag htag rfl
      have := h.numbered.cells cell (Cell.mem_of_at? hcell) _ htag
      simp at this
    refine ⟨⟨t.opened, effect, closeName⟩ :: inner, outer, closed, ?_, htags, ?_, ?_, hspans⟩
    · rw [Trace.push, hstack, List.cons_append]
    · intro tag htag
      rcases List.mem_cons.1 htag with rfl | htag
      · exact fun hmem => hnew _ hmem rfl
      · exact hinner tag htag
    · intro tag htag hmem
      rcases List.mem_cons.1 hmem with rfl | hmem
      · exact hnew _ (by rw [htags]; exact List.mem_append_right _ htag) rfl
      · exact hclosed tag htag hmem

/-- Closing the innermost tag makes its spans, at a byte that it encloses one whose
depth is the number of tags around it. -/
theorem closeInnermost (h : Follows t r) : Follows (t.close 1) r.closeInnermost := by
  obtain ⟨text, stack, spans⟩ := r
  obtain ⟨cells, lives, opened⟩ := t
  cases h.stack with
  | nil => exact h
  | @cons tag live stack lives htracks hstack =>
    have hnodup := List.nodup_cons.1 h.numbered.nodup
    have hdepth : stack.length = lives.length := hstack.length_eq
    have htext : text = Cell.textOf cells := h.text
    refine ⟨h.text, hstack, fun tag htag => h.stops tag (List.mem_cons_of_mem _ htag), ?_,
      h.numbered.close 1, ?_⟩
    · intro span hspan
      cases List.mem_append.1 hspan with
      | inl hspan => exact h.inside span hspan
      | inr hspan => exact (OpenTag.bounds_of_mem_spans hspan).2
    · intro o cell hcell
      obtain ⟨inner, outer, closed, hlives, htags, hinner, hclosed, hspans⟩ := h.settled o cell hcell
      have hmem := htracks.mem_iff hcell
      have ho : o < (Cell.textOf cells).byteLength := Cell.exists_at?_iff.1 ⟨cell, hcell⟩
      rw [← htext] at hmem ho
      cases inner with
      | nil =>
        -- the tag encloses the byte: it is the innermost of its open tags
        obtain rfl : live :: lives = outer := hlives
        have hlive : live ∈ cell.tags := by simp [htags]
        have hone : ((tag.spans text stack.length).filter (·.contains o)).map Span.view = _ :=
          OpenTag.filter_spans_of_le (h.stops tag List.mem_cons_self) (hmem.1 hlive) ho
        refine ⟨[], lives, live :: closed, rfl, by simp [htags], by simp, ?_, ?_⟩
        · intro tag htag
          rcases List.mem_cons.1 htag with rfl | htag
          · exact hnodup.1
          · exact fun hlater => hclosed tag htag (List.mem_cons_of_mem _ hlater)
        · have hview : LiveTag.view cells o (live, lives.length) =
              (stack.length, tag.effect.styleAt? (text.drop tag.start)
                (o - Text.byteLength (text.take tag.start))) := by
            rw [LiveTag.view, LiveTag.styleAt?, htracks.enclosed_eq, htracks.before_eq, hdepth,
              htracks.effect, htext]
          change ((spans ++ tag.spans text stack.length).filter (·.contains o)).reverse.map Span.view =
            LiveTag.view cells o (live, lives.length) ::
              (closed.zipIdx (lives.length + 1)).map (LiveTag.view cells o)
          rw [hview, List.filter_append, List.reverse_append, List.map_append, List.map_reverse, hone]
          exact congrArg _ hspans
      | cons first inner =>
        -- the byte is in front of the tag
        obtain ⟨rfl, rfl⟩ := List.cons.inj hlives
        have hnone : (tag.spans text stack.length).filter (·.contains o) = [] := by
          apply OpenTag.filter_spans_of_lt
          have := mt hmem.2 (hinner live List.mem_cons_self)
          omega
        refine ⟨inner, outer, closed, rfl, htags,
          fun tag htag => hinner tag (List.mem_cons_of_mem _ htag),
          fun tag htag hlater => hclosed tag htag (List.mem_cons_of_mem _ hlater), ?_⟩
        simp only [Reading.closeInnermost, List.filter_append, hnone, List.append_nil]
        exact hspans

theorem closeMany (h : Follows t r) (n : Nat) : Follows (t.close n) (r.closeMany n) := by
  induction n generalizing t r with
  | zero => exact h
  | succ n ih =>
    have hnext := ih h.closeInnermost
    simp only [Trace.close, List.drop_drop] at hnext ⊢
    rwa [Nat.add_comm] at hnext

theorem closeAll (h : Follows t r) : Follows { t with stack := [] } r.closeAll := by
  have hall := h.closeMany r.stack.length
  rwa [Trace.close, h.stack.length_eq, List.drop_length, ← h.stack.length_eq] at hall

theorem closeNamed (h : Follows t r) (name : Text) : Follows (t.closeNamed name) (r.closeNamed name) := by
  have hindex : r.stack.findIdx? (fun tag => tag.closeName = name) =
      t.stack.findIdx? (fun tag => tag.closeName = name) := by
    have hnames := Tracks.map_closeName h.stack
    have hfind := congrArg (List.findIdx? (· = name)) hnames
    simpa only [List.findIdx?_map, Function.comp_def] using hfind
  have hdrop : t.stack.dropWhile (fun tag => tag.closeName ≠ name) =
      t.stack.drop (t.stack.findIdx fun tag => tag.closeName = name) := by
    simp [List.dropWhile_eq_drop_findIdx_not]
  rw [Reading.closeNamed, Trace.closeNamed, hindex, hdrop]
  cases hfind : t.stack.findIdx? (fun tag => tag.closeName = name) with
  | none =>
    rw [List.findIdx?_eq_none_iff_findIdx_eq] at hfind
    rw [hfind, List.drop_length]
    exact h
  | some i =>
    obtain ⟨hlt, rfl⟩ := List.findIdx?_eq_some_iff_findIdx_eq.1 hfind
    rw [List.drop_eq_getElem_cons hlt]
    exact h.closeMany _

theorem openTag (h : Follows t r) (content : Text) : Follows (t.openTag content) (r.openTag content) := by
  rw [Reading.openTag, Trace.openTag]
  cases hread : StyleTag.read content with
  | error _ => exact h.append _
  | ok tag =>
    cases tag with
    | reset => exact h.closeAll
    | color color => exact h.push _ trivial
    | decoration set => exact h.push _ trivial
    | gradient stops => exact h.push _ (StyleTag.ne_nil_of_read_gradient hread)

theorem step (h : Follows t r) (token : Token) : Follows (t.step token) (r.step token) := by
  cases token with
  | text text => exact h.append text
  | escaped c => exact h.append [c]
  | opening content => exact h.openTag content
  | closing name =>
    rw [Reading.step, Reading.closeTag, Trace.step]
    split
    · exact h.closeInnermost
    · exact h.closeNamed _

theorem foldl (h : Follows t r) (list : List Token) :
    Follows (list.foldl Trace.step t) (list.foldl Reading.step r) := by
  induction list generalizing t r with
  | nil => exact h
  | cons token list ih => exact ih (h.step token)

end Follows

theorem Span.depth_le_trans (a b c : Span) (hab : decide (a.depth ≤ b.depth))
    (hbc : decide (b.depth ≤ c.depth)) : decide (a.depth ≤ c.depth) := by
  simp only [decide_eq_true_eq] at hab hbc ⊢
  omega

theorem Span.depth_le_total (a b : Span) : decide (a.depth ≤ b.depth) || decide (b.depth ≤ a.depth) := by
  simp only [Bool.or_eq_true, decide_eq_true_eq]
  omega

theorem pairwise_mergeSort_depth (spans : List Span) :
    (spans.mergeSort fun a b => a.depth ≤ b.depth).Pairwise fun a b => a.depth ≤ b.depth := by
  simpa using List.pairwise_mergeSort Span.depth_le_trans Span.depth_le_total spans

/-- Sorting by depth puts spans of different depths into the order of their depths. -/
theorem filter_mergeSort_depth {spans list : List Span} {p : Span → Bool}
    (hperm : (spans.filter p).Perm list) (hlist : (list.map Span.depth).Pairwise (· < ·)) :
    (spans.mergeSort fun a b => a.depth ≤ b.depth).filter p = list := by
  have hsorted := pairwise_mergeSort_depth spans
  have hnodup : (list.map Span.depth).Nodup := hlist.imp Nat.ne_of_lt
  have hsort := ((List.mergeSort_perm spans fun a b => a.depth ≤ b.depth).filter p).trans hperm
  refine List.Perm.eq_of_pairwise ?_ (hsorted.filter p)
    ((List.pairwise_map.1 hlist).imp Nat.le_of_lt) hsort
  intro a b ha hb hab hba
  exact List.inj_on_of_nodup_map hnodup (hsort.mem_iff.1 ha) hb (Nat.le_antisymm hab hba)

theorem follows_ofMarkup (markup : Text) :
    Follows (Trace.start.read markup) ((tokens markup).foldl Reading.step .start) :=
  start_follows.foldl (tokens markup)

theorem text_ofMarkup (markup : Text) :
    (Document.ofMarkup markup).text = Cell.textOf (Trace.ofMarkup markup) :=
  (follows_ofMarkup markup).closeAll.text

/-- The spans at a byte say in order what its open tags say, from the outermost at
depth 0 to the innermost. -/
theorem view_spansAt {markup : Text} {o : Nat} {cell : Cell}
    (h : Cell.at? (Trace.ofMarkup markup) o = some cell) :
    ((Document.ofMarkup markup).spansAt o).map Span.view =
      cell.tags.zipIdx.map (LiveTag.view (Trace.ofMarkup markup) o) := by
  obtain ⟨inner, outer, closed, hstack, htags, -, -, hspans⟩ :=
    (follows_ofMarkup markup).closeAll.settled o cell h
  obtain ⟨rfl, rfl⟩ := List.append_eq_nil_iff.1 hstack.symm
  obtain rfl : cell.tags = closed := htags
  have hdepths := congrArg (List.map Prod.fst) hspans
  have hplaces : (cell.tags.zipIdx.map (LiveTag.view (Trace.ofMarkup markup) o)).map Prod.fst =
      List.range' 0 cell.tags.length := by
    rw [List.map_map]
    exact List.zipIdx_map_snd 0 cell.tags
  have hincreasing : (((List.foldl Reading.step .start (tokens markup)).closeAll.spans.filter
      (·.contains o)).reverse.map Span.depth).Pairwise (· < ·) := by
    have heq : _ = List.range' 0 cell.tags.length := hdepths.trans hplaces
    rw [List.map_map] at heq
    rw [show Span.depth = Prod.fst ∘ Span.view from rfl, heq]
    exact List.pairwise_lt_range'
  rw [Document.spansAt, Document.ofMarkup, Reading.finish,
    filter_mergeSort_depth (List.reverse_perm _).symm hincreasing]
  exact hspans

theorem map_depth_spansAt {markup : Text} {o : Nat} {cell : Cell}
    (h : Cell.at? (Trace.ofMarkup markup) o = some cell) :
    ((Document.ofMarkup markup).spansAt o).map Span.depth = List.range cell.tags.length := by
  have hdepths := congrArg (List.map Prod.fst) (view_spansAt h)
  rw [List.map_map, List.map_map] at hdepths
  rw [List.range_eq_range']
  exact hdepths.trans (List.zipIdx_map_snd 0 cell.tags)

theorem map_style_spansAt {markup : Text} {o : Nat} {cell : Cell}
    (h : Cell.at? (Trace.ofMarkup markup) o = some cell) :
    cell.tags.map (·.styleAt? (Trace.ofMarkup markup) o) =
      (((Document.ofMarkup markup).spansAt o).map Span.style).map some := by
  have hstyles := congrArg (List.map Prod.snd) (view_spansAt h)
  have htags := congrArg (List.map (LiveTag.styleAt? · (Trace.ofMarkup markup) o))
    (List.zipIdx_map_fst 0 cell.tags)
  rw [List.map_map, List.map_map] at hstyles
  rw [List.map_map] at htags
  rw [List.map_map]
  exact htags.symm.trans hstyles.symm

/-- At every byte a document has one span for each tag that was open when the byte was
appended, the outermost first and at depth 0, each with the style that its tag gives
the byte; the style of the byte is these styles laid over each other in that order. -/
theorem spansAt_eq_openTags (markup : Text) (o : Nat) (h : o < (Document.ofMarkup markup).byteLength) :
    let doc := Document.ofMarkup markup
    let cells := Trace.ofMarkup markup
    doc.text = Cell.textOf cells ∧ ∃ cell styles, Cell.at? cells o = some cell ∧
      cell.tags.map (·.styleAt? cells o) = styles.map some ∧
      (doc.spansAt o).map Span.depth = List.range cell.tags.length ∧
      (doc.spansAt o).map Span.style = styles ∧
      doc.styleAt o = styles.foldl Style.overlay ∅ := by
  intro doc cells
  have htext : doc.text = Cell.textOf cells := text_ofMarkup markup
  rw [Document.byteLength, htext] at h
  obtain ⟨cell, hcell⟩ := Cell.exists_at?_iff.2 h
  refine ⟨htext, cell, (doc.spansAt o).map Span.style, hcell, map_style_spansAt hcell,
    map_depth_spansAt hcell, rfl, ?_⟩
  rw [Document.styleAt, List.foldl_map]

theorem spansAt_eq_openTags_gradient :
    let markup := "<bold>❤<gradient:red:blue>ab</bold>c".toList
    let doc := Document.ofMarkup markup
    let cells := Trace.ofMarkup markup
    4 < doc.byteLength ∧ doc.text = Cell.textOf cells ∧
      ∃ cell styles, Cell.at? cells 4 = some cell ∧
        cell.tags.map (·.styleAt? cells 4) = styles.map some ∧
        (doc.spansAt 4).map Span.depth = List.range cell.tags.length ∧
        (doc.spansAt 4).map Span.style = styles ∧
        doc.styleAt 4 = styles.foldl Style.overlay ∅ := by
  intro markup doc cells
  have hinside : 4 < doc.byteLength := by decide +kernel
  exact ⟨hinside, spansAt_eq_openTags markup 4 hinside⟩

end ColorMarkup
