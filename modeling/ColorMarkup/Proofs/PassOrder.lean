import ColorMarkup.Pass
import ColorMarkup.Proofs.StructuredPasses
/-!
The order of the structured passes does not matter: each finds the same markup whether
another has run before it or not, and so any two can change places.
-/
namespace ColorMarkup

/-- Something that a pass replaces. -/
inductive Found where
  | markup (markup : Markup)
  | code (marker letter : Char)
  deriving DecidableEq

namespace Found

/-- The content of a gradient converted; other markup has no content. -/
def mapContent (f : Text → Text) : Found → Found
  | markup (.gradient opener closer content) => markup (.gradient opener closer (f content))
  | found => found

def ofCodePiece? {α : Type} : CodePiece α → Option Found
  | .plain _ => none
  | .code marker letter _ => some (code marker letter)

end Found

/-- All that a structured pass replaces in a text, from left to right. -/
def Pass.found : Pass → Text → List Found
  | gradients, text => (cut .gradient (expandJoints text)).occurrences.map fun o => .markup o.markup
  | colors, text => (cut .single text).occurrences.map fun o => .markup o.markup
  | codes, text => (readCodes isMarker Structured.codeTag? text).filterMap Found.ofCodePiece?

namespace Structured

variable {atoms atoms' : List (Atom Text)} {gradients : List AtomGradient}

theorem Paired.isReading_inner (hpaired : Paired atoms gradients atoms') (h : reader.IsReading atoms) :
    ∀ g ∈ gradients, reader.IsReading g.inner := by
  induction hpaired with
  | nil => simp
  | @other a _ atoms _ _ _ ih => exact ih h.tail
  | @gradient opener closer _ inner _ _ atoms _ _ _ ih =>
    have hrest : reader.IsReading (inner ++ .tag closer :: atoms) := h.tail
    have hatoms : reader.IsReading atoms := hrest.back.tail
    intro g hg
    cases List.mem_cons.1 hg with
    | inl hg =>
      rw [hg]
      exact hrest.front
    | inr hg => exact ih hatoms g hg
  | unclosed => simp

/-- The atom as a single tag. -/
def singles : Atom Text → List Found
  | .tag t => if t.form = .single then [.markup (.tag t)] else []
  | _ => []

/-- The atom as a code. -/
def codes : Atom Text → List Found
  | .code marker letter _ => [.code marker letter]
  | _ => []

theorem map_markup_cutAtForm (form : TagForm) (pieces : List TagPiece) :
    (cutAtForm form pieces).occurrences.map Occurrence.markup = pieces.flatMap fun
      | .plain _ => []
      | .tag t => if t.form = form then [.tag t] else [] := by
  induction pieces with
  | nil => rfl
  | cons piece pieces ih =>
    cases piece with
    | plain c => simpa [cutAtForm] using ih
    | tag t => by_cases hform : t.form = form <;> simp [cutAtForm, hform, Cut.push, ih]

theorem found_gradients (h : reader.IsReading atoms)
    (hpaired : Paired (atoms.flatMap expand) gradients atoms') :
    Pass.gradients.found (atomSource atoms) = gradients.map fun g => .markup g.markup := by
  have hpieces := (h.rewrites (rewrites_expand atoms)).tagPieces_eq
  have hmarkup := congrArg (List.map Found.markup) hpaired.cutAtGradients_eq.1
  rw [Pass.found, expandJoints_atomSource h, cut, hpieces]
  simpa [Function.comp_def] using hmarkup

theorem found_colors (h : reader.IsReading atoms) :
    Pass.colors.found (atomSource atoms) = atoms.flatMap singles := by
  have hmarkup := congrArg (List.map Found.markup) (map_markup_cutAtForm .single (atoms.flatMap Atom.pieces))
  rw [List.map_map, List.flatMap_assoc, List.map_flatMap] at hmarkup
  rw [Pass.found, cut, h.tagPieces_eq]
  refine hmarkup.trans ?_
  congr
  funext a
  cases a with
  | tag t => by_cases hform : t.form = .single <;> simp [Atom.pieces, singles, hform]
  | code marker letter tag => rfl
  | plain c => rfl

theorem found_codes (h : reader.IsReading atoms) :
    Pass.codes.found (atomSource atoms) = atoms.flatMap codes := by
  have hread : readCodes isMarker codeTag? (atomSource atoms) = atoms.flatMap Atom.codePieces := h.readCodes_eq
  rw [Pass.found, hread, List.filterMap_flatMap]
  congr
  funext a
  cases a with
  | tag t => simp [Atom.codePieces, codes, Found.ofCodePiece?]
  | code marker letter tag => rfl
  | plain c => rfl

/-- A property of atoms that neither plain characters nor the tags of gradients have is
as it was after the tags of gradients are replaced. -/
theorem Paired.flatMap_eq {α : Type} {g : Atom Text → List α} (hplain : ∀ c, g (.plain c) = [])
    (hopener : ∀ t : ColorTag, t.form = .opener → g (.tag t) = [])
    (hcloser : ∀ t : ColorTag, t.form = .closer → g (.tag t) = []) (h : Paired atoms gradients atoms') :
    atoms'.flatMap g = atoms.flatMap g := by
  have htext : ∀ text : Text, (text.map Atom.plain).flatMap g = [] := fun text => by
    simp [List.flatMap_map, hplain]
  induction h with
  | nil => rfl
  | other _ _ ih => rw [List.flatMap_cons, List.flatMap_cons, ih]
  | gradient hform _ hform' _ ih =>
    simp only [List.flatMap_append, List.flatMap_cons, htext, ih, hopener _ hform, hcloser _ hform',
      List.nil_append]
  | unclosed => rfl

/-- Every text with its gradients, before and after the gradient pass. -/
theorem exists_reading_paired (text : Text) : ∃ atoms gradients atoms', reader.IsReading atoms ∧
    Paired (atoms.flatMap expand) gradients atoms' ∧ reader.IsReading atoms' ∧ atomSource atoms = text ∧
    convertGradients text = atomSource atoms' := by
  obtain ⟨atoms, hatoms, rfl⟩ := reader.exists_isReading text
  obtain ⟨gradients, atoms', hpaired⟩ := exists_paired (atoms.flatMap expand)
  have hexpanded := hatoms.rewrites (rewrites_expand atoms)
  exact ⟨atoms, gradients, atoms', hatoms, hpaired, hexpanded.rewrites hpaired.rewrites, rfl,
    convertGradients_atomSource hatoms hpaired⟩

/-- A pass over a text that is a pass over its atoms and leaves gradients. -/
structure IsAtomPass (run : Text → Text) (f : Atom Text → List (Atom Text)) : Prop
    extends KeepsGradients f where
  run_eq : ∀ {atoms : List (Atom Text)}, reader.IsReading atoms →
    run (atomSource atoms) = atomSource (atoms.flatMap f)
  rewrites : ∀ {atoms : List (Atom Text)}, reader.IsReading atoms → reader.Rewrites atoms (atoms.flatMap f)
  expand_comm : ∀ atoms : List (Atom Text), (atoms.flatMap expand).flatMap f = (atoms.flatMap f).flatMap expand

theorem isAtomPass_recolor : IsAtomPass convertColors recolor :=
  { keepsGradients_recolor with
    run_eq := convertColors_atomSource
    rewrites := fun _ => rewrites_recolor _
    expand_comm := expand_comm_recolor }

theorem isAtomPass_decode : IsAtomPass convertCodes decode :=
  { keepsGradients_decode with
    run_eq := convertCodes_atomSource
    rewrites := rewrites_decode
    expand_comm := expand_comm_decode }

namespace IsAtomPass

variable {run : Text → Text} {f : Atom Text → List (Atom Text)} (hrun : IsAtomPass run f)
include hrun

theorem paired (hpaired : Paired (atoms.flatMap expand) gradients atoms') :
    Paired ((atoms.flatMap f).flatMap expand) (gradients.map (AtomGradient.mapInner f))
      (atoms'.flatMap f) := by
  rw [← hrun.expand_comm]
  exact hpaired.flatMap hrun.toKeepsGradients

theorem comm_convertGradients (text : Text) : convertGradients (run text) = run (convertGradients text) := by
  obtain ⟨atoms, gradients, atoms', hatoms, hpaired, hconverted, rfl, hconvert⟩ := exists_reading_paired text
  have hpassed := hatoms.rewrites (hrun.rewrites hatoms)
  rw [hconvert, hrun.run_eq hatoms, hrun.run_eq hconverted]
  exact convertGradients_atomSource hpassed (hrun.paired hpaired)

/-- The gradients are found as before, their contents converted. -/
theorem found_gradients (text : Text) :
    Pass.gradients.found (run text) = (Pass.gradients.found text).map (Found.mapContent run) := by
  obtain ⟨atoms, gradients, atoms', hatoms, hpaired, -, rfl, -⟩ := exists_reading_paired text
  have hpassed := hatoms.rewrites (hrun.rewrites hatoms)
  have hinner := hpaired.isReading_inner (hatoms.rewrites (rewrites_expand atoms))
  rw [hrun.run_eq hatoms, Structured.found_gradients hpassed (hrun.paired hpaired),
    Structured.found_gradients hatoms hpaired, List.map_map, List.map_map]
  refine List.map_congr_left fun g hg => ?_
  simp [AtomGradient.markup, AtomGradient.mapInner, Found.mapContent, hrun.run_eq (hinner g hg)]

end IsAtomPass

theorem convertColors_comm_convertCodes (text : Text) :
    convertColors (convertCodes text) = convertCodes (convertColors text) := by
  obtain ⟨atoms, hatoms, rfl⟩ := reader.exists_isReading text
  rw [convertCodes_atomSource hatoms, convertColors_atomSource (hatoms.rewrites (rewrites_decode hatoms)),
    convertColors_atomSource hatoms, convertCodes_atomSource (hatoms.rewrites (rewrites_recolor atoms)),
    recolor_comm_decode]

theorem mapContent_singles (run : Text → Text) (atoms : List (Atom Text)) :
    (atoms.flatMap singles).map (Found.mapContent run) = atoms.flatMap singles := by
  rw [List.map_flatMap]
  congr
  funext a
  cases a with
  | tag t => by_cases hform : t.form = .single <;> simp [singles, hform, Found.mapContent]
  | code marker letter tag => rfl
  | plain c => rfl

theorem mapContent_codes (run : Text → Text) (atoms : List (Atom Text)) :
    (atoms.flatMap codes).map (Found.mapContent run) = atoms.flatMap codes := by
  rw [List.map_flatMap]
  congr
  funext a
  cases a <;> rfl

/-- Replacing the tags of gradients neither makes nor breaks single tags and codes. -/
theorem flatMap_convertGradients {g : Atom Text → List Found}
    (hpaired : Paired (atoms.flatMap expand) gradients atoms') (hplain : ∀ c, g (.plain c) = [])
    (htag : ∀ t : ColorTag, t.form ≠ .single → g (.tag t) = []) : atoms'.flatMap g = atoms.flatMap g := by
  rw [hpaired.flatMap_eq hplain (fun t h => htag t (by simp [h])) (fun t h => htag t (by simp [h])),
    List.flatMap_assoc]
  congr
  funext a
  cases a with
  | tag t =>
    by_cases hform : t.form = .joint
    · simp [expand, hform, htag, ColorTag.ofColor]
    · simp [expand, hform]
  | code marker letter tag => simp [expand]
  | plain c => simp [expand]

theorem found_colors_convertGradients (text : Text) : Pass.colors.found (convertGradients text) =
    (Pass.colors.found text).map (Found.mapContent convertGradients) := by
  obtain ⟨atoms, gradients, atoms', hatoms, hpaired, hconverted, rfl, hconvert⟩ := exists_reading_paired text
  rw [hconvert, found_colors hconverted, found_colors hatoms, mapContent_singles]
  exact flatMap_convertGradients hpaired (fun _ => rfl) fun t h => by simp [singles, h]

theorem found_codes_convertGradients (text : Text) : Pass.codes.found (convertGradients text) =
    (Pass.codes.found text).map (Found.mapContent convertGradients) := by
  obtain ⟨atoms, gradients, atoms', hatoms, hpaired, hconverted, rfl, hconvert⟩ := exists_reading_paired text
  rw [hconvert, found_codes hconverted, found_codes hatoms, mapContent_codes]
  exact flatMap_convertGradients hpaired (fun _ => rfl) fun _ _ => rfl

theorem found_codes_convertColors (text : Text) :
    Pass.codes.found (convertColors text) = (Pass.codes.found text).map (Found.mapContent convertColors) := by
  obtain ⟨atoms, hatoms, rfl⟩ := reader.exists_isReading text
  rw [convertColors_atomSource hatoms, found_codes (hatoms.rewrites (rewrites_recolor atoms)),
    found_codes hatoms, mapContent_codes, List.flatMap_assoc]
  congr
  funext a
  cases a with
  | tag t =>
    by_cases hform : t.form = .single <;> simp [recolor, codes, hform, List.flatMap_map]
  | code marker letter tag => simp [recolor]
  | plain c => simp [recolor]

theorem found_colors_convertCodes (text : Text) :
    Pass.colors.found (convertCodes text) = (Pass.colors.found text).map (Found.mapContent convertCodes) := by
  obtain ⟨atoms, hatoms, rfl⟩ := reader.exists_isReading text
  rw [convertCodes_atomSource hatoms, found_colors (hatoms.rewrites (rewrites_decode hatoms)),
    found_colors hatoms, mapContent_singles, List.flatMap_assoc]
  congr
  funext a
  cases a with
  | tag t => simp [decode, CodeReader.decode]
  | code marker letter tag => simp [decode, CodeReader.decode, singles, List.flatMap_map]
  | plain c => simp [decode, CodeReader.decode]

end Structured

namespace Pass

open Structured

/-- A pass finds the same markup whether another has run before it or not. Only the
contents of the gradients are converted. -/
theorem found_run {p q : Pass} (hne : p ≠ q) (text : Text) :
    q.found (p.run .structured text) = (q.found text).map (Found.mapContent (p.run .structured)) := by
  cases p with
  | gradients =>
    cases q with
    | gradients => exact absurd rfl hne
    | colors => exact found_colors_convertGradients text
    | codes => exact found_codes_convertGradients text
  | colors =>
    cases q with
    | gradients => exact isAtomPass_recolor.found_gradients text
    | colors => exact absurd rfl hne
    | codes => exact found_codes_convertColors text
  | codes =>
    cases q with
    | gradients => exact isAtomPass_decode.found_gradients text
    | colors => exact found_colors_convertCodes text
    | codes => exact absurd rfl hne

theorem run_comm (p q : Pass) (text : Text) :
    q.run .structured (p.run .structured text) = p.run .structured (q.run .structured text) := by
  cases p with
  | gradients =>
    cases q with
    | gradients => rfl
    | colors => exact (isAtomPass_recolor.comm_convertGradients text).symm
    | codes => exact (isAtomPass_decode.comm_convertGradients text).symm
  | colors =>
    cases q with
    | gradients => exact isAtomPass_recolor.comm_convertGradients text
    | colors => rfl
    | codes => exact (convertColors_comm_convertCodes text).symm
  | codes =>
    cases q with
    | gradients => exact isAtomPass_decode.comm_convertGradients text
    | colors => exact convertColors_comm_convertCodes text
    | codes => rfl

/-- The three passes in any order convert a text, and none of them makes, breaks or
changes what another finds. -/
theorem runs_independent_of_order (text : Text) :
    (∀ order : List Pass, order.Perm all →
      order.foldl (fun text pass => pass.run .structured text) text = Structured.convert text) ∧
    ∀ p q : Pass, p ≠ q →
      q.found (p.run .structured text) = (q.found text).map (Found.mapContent (p.run .structured)) := by
  constructor
  · intro order horder
    have hcomm : ∀ p ∈ order, ∀ q ∈ order, ∀ text : Text,
        q.run .structured (p.run .structured text) = p.run .structured (q.run .structured text) :=
      fun p _ q _ text => run_comm p q text
    rw [horder.foldl_eq' hcomm]
    rfl
  · intro p q hne
    exact found_run hne text

/-- Codes and a single tag in a gradient, behind a brace and a marker of their own. -/
def nestedText : Text := r"{#{#ff0000>}a&l&{#0000ff}b{#00ff00<}".toList

theorem runs_independent_of_order_codes_first :
    [codes, colors, gradients].Perm all ∧ codes ≠ gradients ∧
    Structured.convertGradients (Structured.convertColors (Structured.convertCodes nestedText)) =
      Structured.convert nestedText ∧
    gradients.found (Structured.convertCodes nestedText) =
      (gradients.found nestedText).map (Found.mapContent Structured.convertCodes) := by
  have horder : [codes, colors, gradients].Perm all := by decide
  have hne : codes ≠ gradients := by decide
  have h := runs_independent_of_order nestedText
  exact ⟨horder, hne, h.1 _ horder, h.2 codes gradients hne⟩

end Pass
end ColorMarkup
