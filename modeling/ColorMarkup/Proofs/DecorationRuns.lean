import Mathlib.Data.List.Induction
import ColorMarkup.Proofs.ColoredDocument
import ColorMarkup.Proofs.Drawing
import ColorMarkup.Proofs.VisibleText
/-!
How long a decoration stays in force. In the legacy form a colour ends all decorations, as a
reset does. In the structured form a colour is one more tag inside the tags of the decorations,
and only a reset closes them. So both forms decorate a character alike exactly when every
decoration since the last reset was opened again behind the last colour.
-/
namespace ColorMarkup

/-- Whether the code ends all decorations; `atColor` is whether colours do. -/
def LegacyCode.ends (atColor : Bool) : LegacyCode → Bool
  | .format (.decorate _) => false
  | .format .reset => true
  | _ => atColor

/-- A code opens the decoration, and none behind it ends all decorations. -/
def InEffect (atColor : Bool) (codes : List LegacyCode) (d : Decoration) : Prop :=
  ∃ front back, codes = front ++ .format (.decorate d) :: back ∧ ∀ code ∈ back, ¬ code.ends atColor

theorem InEffect.of_atColor {codes : List LegacyCode} {d : Decoration} (h : InEffect true codes d) :
    InEffect false codes d := by
  obtain ⟨front, back, hcodes, hback⟩ := h
  refine ⟨front, back, hcodes, fun code hcode hends => hback code hcode ?_⟩
  rcases code with _ | (_ | _) | _
  · cases hends
  · exact hends
  · exact hends
  · cases hends

theorem inEffect_concat {atColor : Bool} {codes : List LegacyCode} {code : LegacyCode} {d : Decoration} :
    InEffect atColor (codes ++ [code]) d ↔
      code = .format (.decorate d) ∨ (InEffect atColor codes d ∧ ¬ code.ends atColor) := by
  constructor
  · rintro ⟨front, back, hcodes, hback⟩
    -- the last code opened the decoration, or it is one of those that must not end it
    cases List.eq_nil_or_concat back with
    | inl hnil =>
      rw [hnil] at hcodes
      exact .inl (List.singleton_inj.1 (List.append_inj_right' hcodes rfl))
    | inr hconcat =>
      obtain ⟨back, last, rfl⟩ := hconcat
      rw [List.concat_eq_append] at hback
      rw [List.concat_eq_append, ← List.cons_append, ← List.append_assoc] at hcodes
      obtain ⟨rfl, hlast⟩ := List.append_inj' hcodes rfl
      obtain rfl := List.singleton_inj.1 hlast
      refine .inr ⟨⟨front, back, rfl, fun c hc => hback c (List.mem_append_left _ hc)⟩, ?_⟩
      exact hback code (List.mem_append_right _ List.mem_cons_self)
  · rintro (rfl | ⟨⟨front, back, rfl, hback⟩, hcode⟩)
    · exact ⟨codes, [], rfl, by simp⟩
    · refine ⟨front, back ++ [code], by simp, fun c hc => ?_⟩
      cases List.mem_append.1 hc with
      | inl hc => exact hback c hc
      | inr hc => rwa [List.mem_singleton.1 hc]

namespace Decorations

/-- The decorations in force behind a code. -/
def next (atColor : Bool) (active : Decorations) : LegacyCode → Decorations
  | .format (.decorate d) => active ∪ single d
  | code => if code.ends atColor then ∅ else active

theorem next_true (active : Decorations) (code : LegacyCode) : active.next true code = active.after code := by
  rcases code with _ | (_ | _) | _ <;> rfl

theorem mem_next {atColor : Bool} {active : Decorations} {code : LegacyCode} {d : Decoration} :
    d ∈ active.next atColor code ↔
      code = .format (.decorate d) ∨ (d ∈ active ∧ ¬ code.ends atColor) := by
  rcases code with _ | (e | _) | _
  · cases atColor <;> simp [next, LegacyCode.ends]
  · simp [next, LegacyCode.ends, or_comm, eq_comm]
  · simp [next, LegacyCode.ends]
  · cases atColor <;> simp [next, LegacyCode.ends]

/-- No bit is set that names nothing. -/
def IsNamed (s : Decorations) : Prop := s.bits.toNat < 32

instance (s : Decorations) : Decidable s.IsNamed := inferInstanceAs (Decidable (_ < _))

theorem isNamed_empty : IsNamed ∅ := by decide

theorem IsNamed.next {active : Decorations} (h : active.IsNamed) (atColor : Bool) (code : LegacyCode) :
    (active.next atColor code).IsNamed := by
  have hended : IsNamed (if code.ends atColor then ∅ else active) := by
    split
    · exact isNamed_empty
    · exact h
  rcases code with _ | (d | _) | _
  · exact hended
  · have hsingle : IsNamed (single d) := by cases d <;> decide
    have hor := @Nat.or_lt_two_pow _ _ 5 h hsingle
    rwa [← UInt8.toNat_or] at hor
  · exact hended
  · exact hended

theorem IsNamed.foldl_next {active : Decorations} (h : active.IsNamed) (atColor : Bool)
    (codes : List LegacyCode) : (codes.foldl (Decorations.next atColor) active).IsNamed := by
  induction codes generalizing active with
  | nil => exact h
  | cons code codes ih => exact ih (h.next atColor code)

theorem eq_of_isNamed {s t : Decorations} (hs : IsNamed s) (ht : IsNamed t) (h : ∀ d, d ∈ s ↔ d ∈ t) :
    s = t := by
  have hbits : s.bits.toNat = t.bits.toNat := by
    refine Nat.eq_of_testBit_eq fun i => ?_
    by_cases hi : i < 5
    · have hindex : ∀ j < 5, ∃ d ∈ Decoration.all, d.index = j := by decide
      obtain ⟨d, -, rfl⟩ := hindex i hi
      exact Bool.eq_iff_iff.2 (h d)
    · have hpow : 2 ^ 5 ≤ 2 ^ i := Nat.pow_le_pow_right (by decide) (by omega)
      rw [Nat.testBit_lt_two_pow (Nat.lt_of_lt_of_le hs hpow), Nat.testBit_lt_two_pow (Nat.lt_of_lt_of_le ht hpow)]
  obtain ⟨sbits⟩ := s
  obtain ⟨tbits⟩ := t
  exact congrArg mk (UInt8.toNat_inj.1 hbits)

/-- The decorations in force behind codes are those in effect. -/
theorem mem_foldl_next_iff {atColor : Bool} {codes : List LegacyCode} {d : Decoration} :
    d ∈ codes.foldl (next atColor) ∅ ↔ InEffect atColor codes d := by
  induction codes using List.reverseRecOn with
  | nil => simp [InEffect]
  | append_singleton codes code ih => rw [List.foldl_concat, mem_next, ih, inEffect_concat]

end Decorations

namespace Inline

def code? : Inline → Option LegacyCode
  | code _ letter _ _ => LegacyCode.of? letter
  | _ => none

end Inline

/-- The codes among the parts. -/
def codesOf (parts : List Inline) : List LegacyCode := parts.filterMap Inline.code?

theorem afterText_inlineSource (active : Decorations) (parts : List Inline) :
    active.afterText (inlineSource parts) = (codesOf parts).foldl (Decorations.next true) active := by
  induction parts generalizing active with
  | nil => rfl
  | cons part parts ih =>
    rw [inlineSource_cons]
    cases part with
    | char c free =>
      exact (active.afterText_append (List.forall_mem_singleton.2 (of_free free).2.1) _).trans (ih active)
    | code marker letter hmarker hletter =>
      obtain ⟨code, hcode, -⟩ := exists_of?_of_mem_codeLetters hletter
      have hcodes : codesOf (.code marker letter hmarker hletter :: parts) = code :: codesOf parts :=
        List.filterMap_cons_some hcode
      have htext := active.afterText_code hmarker hcode (inlineSource parts)
      rw [hcodes, List.foldl_cons, Decorations.next_true, ← ih]
      exact htext
    | single digits =>
      have hmarkers : ∀ c ∈ tagSource (Inline.single digits).pieces, ¬ isMarker c := fun c hc => by
        have hmem : c ∈ (ColorTag.mk .single digits).source := by simpa [Inline.pieces, TagPiece.source] using hc
        exact ColorTag.not_isMarker_of_mem_source hmem
      exact (active.afterText_append hmarkers _).trans (ih active)

/-- Reading a part on brings into force what stands behind it. -/
theorem exists_inForce_inline {t : Trace} {state : Style} (h : InForce t state) (part : Inline) :
    ∃ (t' : Trace) (state' : Style), InForce t' state' ∧
      Cell.textOf t'.cells = Cell.textOf t.cells ++ part.plain ∧
      state'.decorations = (codesOf [part]).foldl (Decorations.next false) state.decorations ∧
      ∀ rest, t.read (Structured.convertCodes (part.tagged ++ rest)) =
        t'.read (Structured.convertCodes rest) := by
  cases part with
  | char c free =>
    obtain ⟨hspecial, hmarker, -⟩ := of_free free
    refine ⟨t.append [c], state, h.append [c], t.textOf_append [c], rfl, fun rest => ?_⟩
    rw [Inline.tagged, Structured.convertCodes_append (List.forall_mem_singleton.2 hmarker)]
    exact t.read_cons hspecial _
  | code marker letter hmarker hletter =>
    obtain ⟨code, hcode, hne⟩ := exists_of?_of_mem_codeLetters hletter
    obtain ⟨after, hafter⟩ : ∃ after, state.afterCode? code = some after ∧
        after.decorations = state.decorations.next false code := by
      rcases code with named | (d | _) | _
      · exact ⟨_, rfl, rfl⟩
      · exact ⟨_, rfl, rfl⟩
      · exact ⟨_, rfl, rfl⟩
      · exact absurd rfl hne
    have hcharacters : state.afterCharacters? marker letter = some after := by
      rw [Style.afterCharacters?, if_pos hmarker, hcode]
      exact hafter.1
    obtain ⟨t', hcells, hforce, hread⟩ := exists_inForce_code h hcharacters
    have hcodes : codesOf [.code marker letter hmarker hletter] = [code] := List.filterMap_cons_some hcode
    refine ⟨t', after, hforce, ?_, ?_, hread⟩
    · rw [hcells]
      exact (List.append_nil _).symm
    · rw [hcodes]
      exact hafter.2
  | single digits =>
    refine ⟨_, _, h.push (.colored digits.color) "color".toList, (List.append_nil _).symm, ?_, fun rest => ?_⟩
    · rw [Style.overlay_colored]
      rfl
    · rw [Inline.tagged, Structured.convertCodes_append fun _ => Structured.not_isMarker_of_mem_render,
        Trace.read_color]

theorem exists_inForce_inlines {t : Trace} {state : Style} (h : InForce t state) (parts : List Inline) :
    ∃ (t' : Trace) (state' : Style), InForce t' state' ∧
      Cell.textOf t'.cells = Cell.textOf t.cells ++ parts.flatMap Inline.plain ∧
      state'.decorations = (codesOf parts).foldl (Decorations.next false) state.decorations ∧
      ∀ rest, t.read (Structured.convertCodes (parts.flatMap Inline.tagged ++ rest)) =
        t'.read (Structured.convertCodes rest) := by
  induction parts generalizing t state with
  | nil => exact ⟨t, state, h, (List.append_nil _).symm, rfl, fun _ => rfl⟩
  | cons part parts ih =>
    obtain ⟨t', state', hforce', htext', hset', hread'⟩ := exists_inForce_inline h part
    obtain ⟨t'', state'', hforce'', htext'', hset'', hread''⟩ := ih hforce'
    have hcodes : codesOf (part :: parts) = codesOf [part] ++ codesOf parts := by
      rw [codesOf, ← List.singleton_append, List.filterMap_append]
      rfl
    refine ⟨t'', state'', hforce'', ?_, ?_, fun rest => ?_⟩
    · rw [htext'', htext', List.append_assoc, List.flatMap_cons]
    · rw [hset'', hset', hcodes, List.foldl_append]
    · rw [List.flatMap_cons, List.append_assoc, hread', hread'']

theorem inlineSource_eq_blockSource (parts : List Inline) :
    inlineSource parts = blockSource (parts.map .inline) := by
  rw [inlineSource, blockSource, List.flatMap_map]
  rfl

theorem convert_inlineSource (parts : List Inline) : Structured.convert (inlineSource parts) =
    Structured.convertCodes (parts.flatMap Inline.tagged) := by
  have htagged : ((parts.map Block.inline).flatMap Block.flats).flatMap Flat.tagged =
      parts.flatMap Inline.tagged := by
    rw [List.flatMap_map, List.flatMap_assoc]
    simp [Block.flats, Flat.tagged]
  rw [Structured.convert, inlineSource_eq_blockSource, Structured.convertColors_blockSource, htagged]

theorem text_ofColored_inlineSource (parts : List Inline) :
    (Document.ofColored (inlineSource parts)).text = parts.flatMap Inline.plain := by
  rw [inlineSource_eq_blockSource, text_ofColored_blockSource, List.flatMap_map]
  rfl

/-- A character is decorated as the codes in front of it say, of which only resets end
decorations. -/
theorem decorations_styleAt (front back : List Inline) {c : Char} (free : c ∉ ['{', '&', '§', '<', '\\']) :
    ((Document.ofColored (inlineSource (front ++ .char c free :: back))).styleAt
        (Text.byteLength (front.flatMap Inline.plain))).decorations =
      (codesOf front).foldl (Decorations.next false) ∅ := by
  obtain ⟨hspecial, hmarker, -⟩ := of_free free
  obtain ⟨t, state, hforce, htext, hset, hread⟩ := exists_inForce_inlines inForce_start front
  have hofMarkup : Trace.ofMarkup (Structured.convert (inlineSource (front ++ .char c free :: back))) =
      ((t.append [c]).read (Structured.convertCodes (back.flatMap Inline.tagged))).cells := by
    rw [convert_inlineSource, List.flatMap_append, List.flatMap_cons, Inline.tagged, Trace.ofMarkup, hread,
      Structured.convertCodes_append (List.forall_mem_singleton.2 hmarker)]
    exact congrArg Trace.cells (t.read_cons hspecial _)
  obtain ⟨more, hcells, -⟩ := (Trace.grows_read (t.append [c]) _).cells
  have hsize : 0 < Text.byteLength [c] := by simpa using c.utf8Size_pos
  have hstyled := hforce.isStyled_append hsize more
  rw [← hcells, ← hofMarkup, htext, Nat.add_zero] at hstyled
  exact (congrArg Style.decorations (styleAt_of_isStyled hstyled)).trans hset

/-- The structured form decorates a character with what was opened since the last reset, the
legacy form with what was opened since the last reset or colour. So they agree exactly where
all that was opened since the last reset was opened again behind the last colour. -/
theorem decorations_agree_iff (front back : List Inline) {c : Char} (free : c ∉ ['{', '&', '§', '<', '\\']) :
    let doc := Document.ofColored (inlineSource (front ++ .char c free :: back))
    let o := Text.byteLength (front.flatMap Inline.plain)
    let structured := (doc.styleAt o).decorations
    let legacy := Decorations.afterText ∅ (inlineSource front)
    doc.text = front.flatMap Inline.plain ++ c :: back.flatMap Inline.plain ∧
      (∀ d, d ∈ structured ↔ InEffect false (codesOf front) d) ∧
      (∀ d, d ∈ legacy ↔ InEffect true (codesOf front) d) ∧
      (structured = legacy ↔ ∀ d, InEffect false (codesOf front) d → InEffect true (codesOf front) d) := by
  intro doc o structured legacy
  have hstructured : structured = (codesOf front).foldl (Decorations.next false) ∅ :=
    decorations_styleAt front back free
  have hlegacy : legacy = (codesOf front).foldl (Decorations.next true) ∅ := afterText_inlineSource ∅ front
  rw [hstructured, hlegacy]
  refine ⟨?_, fun d => Decorations.mem_foldl_next_iff, fun d => Decorations.mem_foldl_next_iff, ?_⟩
  · rw [text_ofColored_inlineSource, List.flatMap_append, List.flatMap_cons]
    rfl
  · constructor
    · intro heq d hd
      rwa [← Decorations.mem_foldl_next_iff, ← heq, Decorations.mem_foldl_next_iff]
    · intro hopened
      refine Decorations.eq_of_isNamed (Decorations.isNamed_empty.foldl_next _ _) (Decorations.isNamed_empty.foldl_next _ _)
        fun d => ?_
      rw [Decorations.mem_foldl_next_iff, Decorations.mem_foldl_next_iff]
      exact ⟨hopened d, InEffect.of_atColor⟩

/-- Bold is opened again behind the colour, so both forms show it. -/
theorem decorations_agree_iff_reopened :
    let front : List Inline := [.code '&' 'l' (by decide) (by decide), .code '§' 'C' (by decide) (by decide),
      .code '&' 'L' (by decide) (by decide)]
    let doc := Document.ofColored (inlineSource (front ++ [.char 'A' (by decide)]))
    'A' ∉ ['{', '&', '§', '<', '\\'] ∧ doc.text = "A".toList ∧
      (doc.styleAt 0).decorations = Decorations.afterText ∅ (inlineSource front) := by
  intro front doc
  have free : 'A' ∉ ['{', '&', '§', '<', '\\'] := by decide
  obtain ⟨htext, -, -, hagree⟩ := decorations_agree_iff front [] free
  refine ⟨free, htext, hagree.2 fun d hd => ?_⟩
  rw [← Decorations.mem_foldl_next_iff] at hd ⊢
  revert hd
  cases d <;> decide

/-- A colour behind a decoration ends it in the legacy form only. -/
theorem bold_outlives_color :
    let doc := Document.ofColored "&l&cA".toList
    doc.text = "A".toList ∧ (doc.styleAt 0).decorations = .single .bold ∧
      Decorations.afterText ∅ "&l&c".toList = ∅ ∧ Decorations.single .bold ≠ ∅ := by
  have hstyle : ((Document.ofColored "&l&cA".toList).styleAt 0).decorations =
      [LegacyCode.format (.decorate .bold), .color .red].foldl (Decorations.next false) ∅ :=
    decorations_styleAt [.code '&' 'l' (by decide) (by decide), .code '&' 'c' (by decide) (by decide)] []
      (c := 'A') (by decide)
  exact ⟨by decide +kernel, hstyle, by decide, by decide⟩

end ColorMarkup
