import ColorMarkup.Text.Blank
/-!
Colours of 24 bits and their hexadecimal spelling. Six digits in either case
denote a colour; a colour is written in lower case, and reading what was written
gives the colour back (`ofHex?_toHex`).
-/
namespace ColorMarkup

structure Color where
  red : UInt8
  green : UInt8
  blue : UInt8
  deriving DecidableEq, Repr

/-- The value of a hexadecimal digit in either case. -/
def hexValue? (c : Char) : Option Nat :=
  if '0' ≤ c ∧ c ≤ '9' then some (c.toNat - 48)
  else if 'a' ≤ c ∧ c ≤ 'f' then some (c.toNat - 87)
  else if 'A' ≤ c ∧ c ≤ 'F' then some (c.toNat - 55)
  else none

theorem hexValue?_digitChar {n : Nat} (h : n < 16) : hexValue? n.digitChar = some n := by
  have all : ∀ m : Fin 16, hexValue? m.val.digitChar = some m.val := by decide
  exact all ⟨n, h⟩

namespace Color

/-- The channel that two digits denote. -/
def channel? (high low : Char) : Option UInt8 :=
  match hexValue? high, hexValue? low with
  | some h, some l => some (UInt8.ofNat (16 * h + l))
  | _, _ => none

def channelHex (value : UInt8) : Text :=
  [(value.toNat / 16).digitChar, (value.toNat % 16).digitChar]

/-- The colour that six hexadecimal digits denote; no other text denotes one. -/
def ofHex? : Text → Option Color
  | [r, r', g, g', b, b'] =>
    match channel? r r', channel? g g', channel? b b' with
    | some red, some green, some blue => some ⟨red, green, blue⟩
    | _, _, _ => none
  | _ => none

/-- Six digits in lower case. -/
def toHex (color : Color) : Text :=
  channelHex color.red ++ channelHex color.green ++ channelHex color.blue

/-- The digits after a number sign. -/
def toText (color : Color) : Text := '#' :: color.toHex

theorem channel?_digits (value : UInt8) :
    channel? (value.toNat / 16).digitChar (value.toNat % 16).digitChar = some value := by
  have hlt := value.toNat_lt
  rw [channel?, hexValue?_digitChar (by omega), hexValue?_digitChar (by omega)]
  simp only [Option.some.injEq]
  rw [show 16 * (value.toNat / 16) + value.toNat % 16 = value.toNat by omega]
  exact UInt8.ofNat_toNat

@[simp] theorem ofHex?_toHex (color : Color) : ofHex? color.toHex = some color := by
  simp only [toHex, channelHex, List.cons_append, List.nil_append, ofHex?, channel?_digits]

end Color

inductive ColorError where
  /-- Not exactly six hexadecimal digits. -/
  | invalidHex (digits : Text)
  deriving DecidableEq, Repr

def ColorError.message : ColorError → Text
  | .invalidHex digits => "invalid hex color: ".toList ++ digits

namespace Color

def ofHex (digits : Text) : Except ColorError Color :=
  match ofHex? digits with
  | some color => .ok color
  | none => .error (.invalidHex digits)

/-- The text without its first character if that is a number sign. -/
def dropNumberSign : Text → Text
  | '#' :: digits => digits
  | text => text

/-- Six digits, with a number sign before them or not, and blanks around. -/
def read (text : Text) : Except ColorError Color :=
  ofHex (dropNumberSign text.trim)

end Color
end ColorMarkup
