import ColorMarkup.Legacy
import ColorMarkup.Structured
/-!
The passes of a conversion by name, and the choice of the output form.
-/
namespace ColorMarkup

/-- One conversion pass. -/
inductive Pass where
  | gradients | colors | codes
  deriving DecidableEq, Repr

inductive PassError where
  /-- No pass has this name. -/
  | unknown (name : Text)
  deriving DecidableEq, Repr

def PassError.message : PassError → Text
  | .unknown name => "unknown colorize type: ".toList ++ name

namespace Pass

def all : List Pass := [gradients, colors, codes]

def name : Pass → Text
  | gradients => "gradient".toList
  | colors => "rgb".toList
  | codes => "classic".toList

/-- The pass of a name, in either case and with blanks around it. The error keeps
the name as it was given. -/
def ofName (text : Text) : Except PassError Pass :=
  match all.find? fun pass => pass.name = text.trim.lower with
  | some pass => .ok pass
  | none => .error (.unknown text)

@[simp] theorem ofName_name (pass : Pass) : ofName pass.name = .ok pass := by
  cases pass <;> rfl

def run (mode : OutputMode) (pass : Pass) (text : Text) : Text :=
  match mode, pass with
  | .legacy, gradients => Legacy.convertGradients text
  | .legacy, colors => Legacy.convertColors text
  | .legacy, codes => Legacy.convertCodes text
  | .structured, gradients => Structured.convertGradients text
  | .structured, colors => Structured.convertColors text
  | .structured, codes => Structured.convertCodes text

end Pass

/-- All passes of a mode. -/
def convert : OutputMode → Text → Text
  | .legacy, text => Legacy.convert text
  | .structured, text => Structured.convert text

end ColorMarkup
