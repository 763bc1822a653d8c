import ColorMarkup.Document.Reading
/-!
Structured markup read as a stream. Of each character it is recorded which tags are
open when it is appended, the outermost first; nothing is computed when a tag closes.
What a tag does to a byte then depends on the text appended while the tag was open
and on the place of the byte in that text.
-/
namespace ColorMarkup

/-- A tag that was opened, known by the number of tags opened before it. -/
structure LiveTag where
  number : Nat
  effect : TagEffect
  closeName : Text
  deriving DecidableEq, Repr

/-- A character of the text and the tags that were open when it was appended, the
outermost first. -/
structure Cell where
  char : Char
  tags : List LiveTag
  deriving DecidableEq, Repr

structure Trace where
  cells : List Cell
  /-- The open tags, the innermost first. -/
  stack : List LiveTag
  /-- The number of tags opened so far. -/
  opened : Nat
  deriving DecidableEq, Repr

namespace Trace

def start : Trace := ⟨[], [], 0⟩

def append (t : Trace) (text : Text) : Trace :=
  { t with cells := t.cells ++ text.map fun c => ⟨c, t.stack.reverse⟩ }

def push (t : Trace) (effect : TagEffect) (closeName : Text) : Trace :=
  ⟨t.cells, ⟨t.opened, effect, closeName⟩ :: t.stack, t.opened + 1⟩

/-- Closes the innermost `n` tags. -/
def close (n : Nat) (t : Trace) : Trace := { t with stack := t.stack.drop n }

/-- Closes the innermost tag of the given name and all tags inside it. -/
def closeNamed (t : Trace) (name : Text) : Trace :=
  match t.stack.dropWhile fun tag => tag.closeName ≠ name with
  | [] => t
  | _ :: outer => { t with stack := outer }

def openTag (t : Trace) (content : Text) : Trace :=
  match StyleTag.read content with
  | .error _ => t.append (angleTag content)
  | .ok tag =>
    match tag with
    | .reset => { t with stack := [] }
    | .color color => t.push (.style (.colored color)) tag.closeName
    | .decoration set => t.push (.style (.decorated set)) tag.closeName
    | .gradient stops => t.push (.gradient stops) tag.closeName

def step (t : Trace) : Token → Trace
  | .text text => t.append text
  | .escaped c => t.append [c]
  | .opening content => t.openTag content
  | .closing name =>
    if name.trim = [] then t.close 1 else t.closeNamed (StyleTag.canonicalCloseName name)

/-- The trace of a markup text read from `t` on. -/
def read (t : Trace) (markup : Text) : Trace := (tokens markup).foldl step t

/-- The characters of structured markup with their open tags. -/
def ofMarkup (markup : Text) : List Cell := (start.read markup).cells

end Trace

namespace Cell

def textOf (cells : List Cell) : Text := cells.map Cell.char

/-- The text appended while the tag was open. -/
def enclosed (cells : List Cell) (tag : LiveTag) : Text :=
  textOf (cells.filter fun cell => tag ∈ cell.tags)

/-- The text in front of what the tag encloses. -/
def before (cells : List Cell) (tag : LiveTag) : Text :=
  textOf (cells.takeWhile fun cell => tag ∉ cell.tags)

/-- The cell whose character holds the byte at an offset. -/
def at? : List Cell → Nat → Option Cell
  | [], _ => none
  | cell :: rest, offset =>
    if offset < cell.char.utf8Size then some cell else at? rest (offset - cell.char.utf8Size)

end Cell

/-- The index of the piece that holds the byte at an offset. -/
def pieceIndex : List Text → Nat → Nat
  | [], _ => 0
  | piece :: rest, offset =>
    if offset < piece.byteLength then 0 else pieceIndex rest (offset - piece.byteLength) + 1

theorem pieceIndex_lt_iff {pieces : List Text} {o : Nat} :
    pieceIndex pieces o < pieces.length ↔ o < Text.byteLength pieces.flatten := by
  induction pieces generalizing o with
  | nil => simp
  | cons piece rest ih =>
    rw [pieceIndex, List.length_cons, List.flatten_cons, Text.byteLength_append]
    by_cases hfirst : o < piece.byteLength
    · rw [if_pos hfirst]
      omega
    · have ih := ih (o := o - piece.byteLength)
      rw [if_neg hfirst]
      omega

theorem pieceIndex_append (front back : List Text) (o : Nat) :
    pieceIndex (front ++ back) o =
      if o < Text.byteLength front.flatten then pieceIndex front o
      else front.length + pieceIndex back (o - Text.byteLength front.flatten) := by
  induction front generalizing o with
  | nil => simp
  | cons piece front ih =>
    rw [List.cons_append, pieceIndex, pieceIndex, List.flatten_cons, Text.byteLength_append,
      List.length_cons]
    by_cases hfirst : o < piece.byteLength
    · rw [if_pos hfirst, if_pos hfirst, if_pos (by omega)]
    · rw [if_neg hfirst, if_neg hfirst, ih]
      by_cases hfront : o < piece.byteLength + Text.byteLength front.flatten
      · rw [if_pos hfront, if_pos (by omega)]
      · rw [if_neg hfront, if_neg (by omega), Nat.sub_sub]
        omega

/-- The style that a tag gives the byte at an offset of the text it encloses: its own
style, or the colour at the place of the grapheme that holds the byte. -/
def TagEffect.styleAt? (effect : TagEffect) (enclosed : Text) (offset : Nat) : Option Style :=
  match effect with
  | .style own => some own
  | .gradient stops =>
    let graphemes := enclosed.graphemes
    (Color.interpolateStops stops graphemes.length)[pieceIndex graphemes offset]?.map Style.colored

/-- The style that a tag gives the byte at an offset of the whole text. -/
def LiveTag.styleAt? (tag : LiveTag) (cells : List Cell) (offset : Nat) : Option Style :=
  tag.effect.styleAt? (Cell.enclosed cells tag) (offset - (Cell.before cells tag).byteLength)

namespace Cell

@[simp] theorem textOf_append (front back : List Cell) :
    textOf (front ++ back) = textOf front ++ textOf back := List.map_append

@[simp] theorem length_textOf (cells : List Cell) : (textOf cells).length = cells.length :=
  List.length_map _

theorem at?_append (front back : List Cell) (offset : Nat) :
    at? (front ++ back) offset =
      if offset < (textOf front).byteLength then at? front offset
      else at? back (offset - (textOf front).byteLength) := by
  induction front generalizing offset with
  | nil => simp [textOf]
  | cons cell front ih =>
    have hlength : (textOf (cell :: front)).byteLength =
        cell.char.utf8Size + (textOf front).byteLength := rfl
    rw [List.cons_append, at?, at?, hlength]
    by_cases hfirst : offset < cell.char.utf8Size
    · rw [if_pos hfirst, if_pos hfirst, if_pos (by omega)]
    · rw [if_neg hfirst, if_neg hfirst, ih]
      by_cases hfront : offset < cell.char.utf8Size + (textOf front).byteLength
      · rw [if_pos hfront, if_pos (by omega)]
      · rw [if_neg hfront, if_neg (by omega), Nat.sub_sub]

theorem mem_of_at? {cells : List Cell} {offset : Nat} {cell : Cell}
    (h : at? cells offset = some cell) : cell ∈ cells := by
  induction cells generalizing offset with
  | nil => cases h
  | cons first rest ih =>
    rw [at?] at h
    split at h
    · cases h
      exact List.mem_cons_self
    · exact List.mem_cons_of_mem _ (ih h)

/-- A cell is found exactly at the offsets inside the text. -/
theorem exists_at?_iff {cells : List Cell} {offset : Nat} :
    (∃ cell, at? cells offset = some cell) ↔ offset < (textOf cells).byteLength := by
  induction cells generalizing offset with
  | nil => simp [at?, textOf]
  | cons first rest ih =>
    have hlength : (textOf (first :: rest)).byteLength =
        first.char.utf8Size + (textOf rest).byteLength := rfl
    rw [at?, hlength]
    by_cases hfirst : offset < first.char.utf8Size
    · rw [if_pos hfirst]
      exact ⟨fun _ => by omega, fun _ => ⟨first, rfl⟩⟩
    · rw [if_neg hfirst, ih]
      omega

/-- A tag encloses the cells that carry it, where no cell before them does. -/
theorem enclosed_of_mem {front back : List Cell} {tag : LiveTag} (hfront : ∀ cell ∈ front, tag ∉ cell.tags)
    (hback : ∀ cell ∈ back, tag ∈ cell.tags) : enclosed (front ++ back) tag = textOf back := by
  have hnone : front.filter (fun cell => tag ∈ cell.tags) = [] := by simpa using hfront
  have hall : back.filter (fun cell => tag ∈ cell.tags) = back := by simpa using hback
  rw [enclosed, List.filter_append, hnone, hall, List.nil_append]

theorem before_of_mem {front back : List Cell} {tag : LiveTag} (hfront : ∀ cell ∈ front, tag ∉ cell.tags)
    (hback : ∀ cell ∈ back, tag ∈ cell.tags) : before (front ++ back) tag = textOf front := by
  have hall : ∀ cell ∈ front, decide (tag ∉ cell.tags) = true := by simpa using hfront
  have hnone : back.takeWhile (fun cell => tag ∉ cell.tags) = [] := by
    cases back with
    | nil => rfl
    | cons cell rest => simp [hback cell List.mem_cons_self]
  rw [before, List.takeWhile_append_of_pos hall, hnone, List.append_nil]

theorem enclosed_append {cells more : List Cell} {tag : LiveTag}
    (h : ∀ cell ∈ more, tag ∉ cell.tags) : enclosed (cells ++ more) tag = enclosed cells tag := by
  have hmore : more.filter (fun cell => tag ∈ cell.tags) = [] := by simpa using h
  rw [enclosed, List.filter_append, hmore, List.append_nil, enclosed]

theorem before_append {cells : List Cell} (more : List Cell) {tag : LiveTag}
    (h : ∃ cell ∈ cells, tag ∈ cell.tags) : before (cells ++ more) tag = before cells tag := by
  obtain ⟨cell, hcell, htag⟩ := h
  induction cells with
  | nil => cases hcell
  | cons first rest ih =>
    rw [before, List.cons_append, List.takeWhile_cons, before, List.takeWhile_cons]
    by_cases hfirst : tag ∈ first.tags
    · simp [hfirst]
    · have hrest : cell ∈ rest := by
        rcases List.mem_cons.1 hcell with rfl | hrest
        · exact absurd htag hfirst
        · exact hrest
      have ih : textOf _ = textOf _ := ih hrest
      simp only [hfirst, not_false_eq_true, decide_true, if_true]
      exact congrArg (first.char :: ·) ih

end Cell

namespace Trace

theorem textOf_append (t : Trace) (text : Text) :
    Cell.textOf (t.append text).cells = Cell.textOf t.cells ++ text := by
  simp [append, Cell.textOf, Function.comp_def]

theorem exists_closeNamed_eq_close (t : Trace) (name : Text) : ∃ n, t.closeNamed name = t.close n := by
  rw [closeNamed]
  cases hdrop : t.stack.dropWhile fun tag => tag.closeName ≠ name with
  | nil => exact ⟨0, rfl⟩
  | cons tag outer =>
    obtain ⟨inner, hinner⟩ := List.dropWhile_suffix (l := t.stack) fun tag => tag.closeName ≠ name
    rw [hdrop] at hinner
    refine ⟨inner.length + 1, ?_⟩
    have houter : t.stack.drop (inner.length + 1) = outer := by simp [← hinner, List.drop_append]
    rw [close, houter]

/-- All that a token can do. -/
theorem step_cases (t : Trace) (token : Token) :
    (∃ text, t.step token = t.append text) ∨ (∃ effect closeName, t.step token = t.push effect closeName) ∨
      ∃ n, t.step token = t.close n := by
  cases token with
  | text text => exact .inl ⟨text, rfl⟩
  | escaped c => exact .inl ⟨[c], rfl⟩
  | closing name =>
    right; right
    rw [step]
    split
    · exact ⟨1, rfl⟩
    · exact exists_closeNamed_eq_close t _
  | opening content =>
    rw [step, openTag]
    cases StyleTag.read content with
    | error _ => exact .inl ⟨_, rfl⟩
    | ok tag =>
      cases tag with
      | reset => exact .inr (.inr ⟨t.stack.length, by rw [close, List.drop_length]⟩)
      | color color => exact .inr (.inl ⟨_, _, rfl⟩)
      | decoration set => exact .inr (.inl ⟨_, _, rfl⟩)
      | gradient stops => exact .inr (.inl ⟨_, _, rfl⟩)

/-- No tag is open twice, and the numbers of all tags met so far have been given. -/
structure Numbered (t : Trace) : Prop where
  nodup : t.stack.Nodup
  stack : ∀ tag ∈ t.stack, tag.number < t.opened
  cells : ∀ cell ∈ t.cells, ∀ tag ∈ cell.tags, tag.number < t.opened

theorem numbered_start : Numbered start := ⟨.nil, by simp [start], by simp [start]⟩

namespace Numbered

variable {t : Trace}

theorem append (h : t.Numbered) (text : Text) : (t.append text).Numbered where
  nodup := h.nodup
  stack := h.stack
  cells := by
    intro cell hcell tag htag
    cases List.mem_append.1 hcell with
    | inl hcell => exact h.cells cell hcell tag htag
    | inr hcell =>
      obtain ⟨c, -, rfl⟩ := List.mem_map.1 hcell
      exact h.stack tag (List.mem_reverse.1 htag)

theorem push (h : t.Numbered) (effect : TagEffect) (closeName : Text) :
    (t.push effect closeName).Numbered where
  nodup := by
    refine List.nodup_cons.2 ⟨fun hmem => ?_, h.nodup⟩
    have := h.stack _ hmem
    simp at this
  stack := by
    intro tag htag
    rcases List.mem_cons.1 htag with rfl | htag
    · exact Nat.lt_succ_self _
    · exact Nat.lt_succ_of_lt (h.stack tag htag)
  cells := fun cell hcell tag htag => Nat.lt_succ_of_lt (h.cells cell hcell tag htag)

theorem close (h : t.Numbered) (n : Nat) : (t.close n).Numbered where
  nodup := h.nodup.sublist (List.drop_sublist n _)
  stack := fun tag htag => h.stack tag (List.mem_of_mem_drop htag)
  cells := h.cells

theorem step (h : t.Numbered) (token : Token) : (t.step token).Numbered := by
  rcases step_cases t token with ⟨text, heq⟩ | ⟨effect, closeName, heq⟩ | ⟨n, heq⟩
  · exact heq ▸ h.append text
  · exact heq ▸ h.push effect closeName
  · exact heq ▸ h.close n

end Numbered

/-- What a trace can become: the cells that are added and the tags that are open carry
nothing but tags that were open before and tags with new numbers. -/
structure Grows (t t' : Trace) : Prop where
  cells : ∃ more, t'.cells = t.cells ++ more ∧
    ∀ cell ∈ more, ∀ tag ∈ cell.tags, tag ∈ t.stack ∨ t.opened ≤ tag.number
  stack : ∀ tag ∈ t'.stack, tag ∈ t.stack ∨ t.opened ≤ tag.number
  opened : t.opened ≤ t'.opened

theorem Grows.refl (t : Trace) : Grows t t where
  cells := ⟨[], by simp, by simp⟩
  stack := fun _ htag => .inl htag
  opened := Nat.le_refl _

theorem Grows.trans {t t' t'' : Trace} (h : Grows t t') (h' : Grows t' t'') : Grows t t'' := by
  have hlater : ∀ tag : LiveTag, tag ∈ t'.stack ∨ t'.opened ≤ tag.number →
      tag ∈ t.stack ∨ t.opened ≤ tag.number := by
    rintro tag (htag | htag)
    · exact h.stack tag htag
    · exact .inr (Nat.le_trans h.opened htag)
  obtain ⟨more, hcells, hmore⟩ := h.cells
  obtain ⟨more', hcells', hmore'⟩ := h'.cells
  refine ⟨⟨more ++ more', ?_, ?_⟩, fun tag htag => hlater tag (h'.stack tag htag),
    Nat.le_trans h.opened h'.opened⟩
  · rw [hcells', hcells, List.append_assoc]
  · intro cell hcell tag htag
    cases List.mem_append.1 hcell with
    | inl hcell => exact hmore cell hcell tag htag
    | inr hcell => exact hlater tag (hmore' cell hcell tag htag)

theorem grows_step (t : Trace) (token : Token) : Grows t (t.step token) := by
  rcases step_cases t token with ⟨text, heq⟩ | ⟨effect, closeName, heq⟩ | ⟨n, heq⟩
  · rw [heq]
    refine ⟨⟨_, rfl, ?_⟩, fun _ htag => .inl htag, Nat.le_refl _⟩
    intro cell hcell tag htag
    obtain ⟨c, -, rfl⟩ := List.mem_map.1 hcell
    exact .inl (List.mem_reverse.1 htag)
  · rw [heq]
    refine ⟨⟨[], by simp [push], by simp⟩, ?_, Nat.le_succ _⟩
    intro tag htag
    rcases List.mem_cons.1 htag with rfl | htag
    · exact .inr (Nat.le_refl _)
    · exact .inl htag
  · rw [heq]
    exact ⟨⟨[], by simp [close], by simp⟩, fun _ htag => .inl (List.mem_of_mem_drop htag), Nat.le_refl _⟩

theorem grows_read (t : Trace) (markup : Text) : Grows t (t.read markup) := by
  rw [read]
  generalize tokens markup = list
  induction list generalizing t with
  | nil => exact .refl t
  | cons token list ih => exact (grows_step t token).trans (ih _)

end Trace

/-- Text appended after a tag has closed does not change what the tag does. -/
theorem LiveTag.styleAt?_append {cells more : List Cell} {tag : LiveTag}
    (hopen : ∃ cell ∈ cells, tag ∈ cell.tags) (hclosed : ∀ cell ∈ more, tag ∉ cell.tags)
    (offset : Nat) : tag.styleAt? (cells ++ more) offset = tag.styleAt? cells offset := by
  rw [styleAt?, Cell.enclosed_append hclosed, Cell.before_append more hopen, styleAt?]

/-- What a closed tag does to the text that it encloses. -/
theorem LiveTag.styleAt?_of_mem {front inside more : List Cell} {tag : LiveTag}
    (hfront : ∀ cell ∈ front, tag ∉ cell.tags) (hinside : ∀ cell ∈ inside, tag ∈ cell.tags)
    (hne : inside ≠ []) (hmore : ∀ cell ∈ more, tag ∉ cell.tags) (offset : Nat) :
    tag.styleAt? (front ++ inside ++ more) ((Cell.textOf front).byteLength + offset) =
      tag.effect.styleAt? (Cell.textOf inside) offset := by
  have hopen : ∃ cell ∈ front ++ inside, tag ∈ cell.tags := by
    obtain ⟨cell, hcell⟩ := List.exists_mem_of_ne_nil inside hne
    exact ⟨cell, List.mem_append_right front hcell, hinside cell hcell⟩
  rw [styleAt?_append hopen hmore, styleAt?, Cell.enclosed_of_mem hfront hinside,
    Cell.before_of_mem hfront hinside, Nat.add_sub_cancel_left]

end ColorMarkup
