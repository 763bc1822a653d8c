import ColorMarkup.Text.Basic
/-!
The five text decorations and sets of them. A set is a byte with one bit for each
decoration; the three remaining bits name nothing, but a set that holds one of
them is not empty, and unions keep them.
-/
namespace ColorMarkup

inductive Decoration where
  | obfuscated | bold | strikethrough | underlined | italic
  deriving DecidableEq, Repr

namespace Decoration

/-- All decorations, in the order in which sets list their members. -/
def all : List Decoration := [obfuscated, bold, strikethrough, underlined, italic]

/-- The place of the decoration's bit. -/
def index : Decoration → Nat
  | obfuscated => 0
  | bold => 1
  | strikethrough => 2
  | underlined => 3
  | italic => 4

def code : Decoration → Char
  | obfuscated => 'k'
  | bold => 'l'
  | strikethrough => 'm'
  | underlined => 'n'
  | italic => 'o'

def name : Decoration → Text
  | obfuscated => "obfuscated".toList
  | bold => "bold".toList
  | strikethrough => "strikethrough".toList
  | underlined => "underlined".toList
  | italic => "italic".toList

end Decoration

structure Decorations where
  bits : UInt8
  deriving DecidableEq, Repr

namespace Decorations

instance : EmptyCollection Decorations := ⟨⟨0⟩⟩
instance : Inhabited Decorations := ⟨∅⟩
instance : Union Decorations := ⟨fun s t => ⟨s.bits ||| t.bits⟩⟩

def single (d : Decoration) : Decorations := ⟨UInt8.ofNat (1 <<< d.index)⟩

def contains (s : Decorations) (d : Decoration) : Bool := s.bits.toNat.testBit d.index

instance : Membership Decoration Decorations := ⟨fun s d => s.contains d⟩

instance (s : Decorations) (d : Decoration) : Decidable (d ∈ s) :=
  inferInstanceAs (Decidable (s.contains d = true))

def isEmpty (s : Decorations) : Bool := s.bits == 0

/-- The members, in the order of their bits. -/
def toList (s : Decorations) : List Decoration := Decoration.all.filter s.contains

theorem mem_iff {s : Decorations} {d : Decoration} : d ∈ s ↔ s.contains d := Iff.rfl

@[simp] theorem not_mem_empty (d : Decoration) : ¬ d ∈ (∅ : Decorations) := by
  cases d <;> decide

@[simp] theorem mem_union {s t : Decorations} {d : Decoration} :
    d ∈ s ∪ t ↔ d ∈ s ∨ d ∈ t := by
  change Nat.testBit (s.bits ||| t.bits).toNat d.index = true ↔ _
  rw [UInt8.toNat_or, Nat.testBit_or, Bool.or_eq_true]
  rfl

@[simp] theorem mem_single {d e : Decoration} : d ∈ single e ↔ d = e := by
  cases d <;> cases e <;> decide

@[simp] theorem mem_toList {s : Decorations} {d : Decoration} : d ∈ s.toList ↔ d ∈ s := by
  have hall : d ∈ Decoration.all := by cases d <;> decide
  simp [toList, mem_iff, hall]

end Decorations
end ColorMarkup
