import ColorMarkup.Color.Basic
/-!
The sixteen named colours: the code character, the name and the colour of each.
Codes and names are looked up without regard to case, and looking up what a
colour is called finds that colour again.
-/
namespace ColorMarkup

inductive NamedColor where
  | black | darkBlue | darkGreen | darkAqua | darkRed | darkPurple | gold | gray
  | darkGray | blue | green | aqua | red | lightPurple | yellow | white
  deriving DecidableEq, Repr

namespace NamedColor

def all : List NamedColor :=
  [black, darkBlue, darkGreen, darkAqua, darkRed, darkPurple, gold, gray,
   darkGray, blue, green, aqua, red, lightPurple, yellow, white]

def code : NamedColor → Char
  | black => '0'
  | darkBlue => '1'
  | darkGreen => '2'
  | darkAqua => '3'
  | darkRed => '4'
  | darkPurple => '5'
  | gold => '6'
  | gray => '7'
  | darkGray => '8'
  | blue => '9'
  | green => 'a'
  | aqua => 'b'
  | red => 'c'
  | lightPurple => 'd'
  | yellow => 'e'
  | white => 'f'

def name : NamedColor → Text
  | black => "black".toList
  | darkBlue => "dark_blue".toList
  | darkGreen => "dark_green".toList
  | darkAqua => "dark_aqua".toList
  | darkRed => "dark_red".toList
  | darkPurple => "dark_purple".toList
  | gold => "gold".toList
  | gray => "gray".toList
  | darkGray => "dark_gray".toList
  | blue => "blue".toList
  | green => "green".toList
  | aqua => "aqua".toList
  | red => "red".toList
  | lightPurple => "light_purple".toList
  | yellow => "yellow".toList
  | white => "white".toList

/-- A second spelling of the name. -/
def alias? : NamedColor → Option Text
  | gray => some "grey".toList
  | darkGray => some "dark_grey".toList
  | _ => none

def rgb : NamedColor → Color
  | black => ⟨0x00, 0x00, 0x00⟩
  | darkBlue => ⟨0x00, 0x00, 0xAA⟩
  | darkGreen => ⟨0x00, 0xAA, 0x00⟩
  | darkAqua => ⟨0x00, 0xAA, 0xAA⟩
  | darkRed => ⟨0xAA, 0x00, 0x00⟩
  | darkPurple => ⟨0xAA, 0x00, 0xAA⟩
  | gold => ⟨0xFF, 0xAA, 0x00⟩
  | gray => ⟨0xAA, 0xAA, 0xAA⟩
  | darkGray => ⟨0x55, 0x55, 0x55⟩
  | blue => ⟨0x55, 0x55, 0xFF⟩
  | green => ⟨0x55, 0xFF, 0x55⟩
  | aqua => ⟨0x55, 0xFF, 0xFF⟩
  | red => ⟨0xFF, 0x55, 0x55⟩
  | lightPurple => ⟨0xFF, 0x55, 0xFF⟩
  | yellow => ⟨0xFF, 0xFF, 0x55⟩
  | white => ⟨0xFF, 0xFF, 0xFF⟩

def ofCode? (c : Char) : Option NamedColor :=
  all.find? fun color => color.code = c.toLower

def ofName? (text : Text) : Option NamedColor :=
  all.find? fun color => color.name = text.lower ∨ color.alias? = some text.lower

@[simp] theorem ofCode?_code (color : NamedColor) : ofCode? color.code = some color := by
  cases color <;> decide

@[simp] theorem ofName?_name (color : NamedColor) : ofName? color.name = some color := by
  cases color <;> decide

end NamedColor
end ColorMarkup
