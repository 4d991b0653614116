import Bytecode.Text

/-!
# Diagnostics

A limit of the unit format that the source program exceeds, with the function and the place to
blame.

## Main definitions

* `Diagnostic`: a message with its place
* `Diagnostic.print`: the lines shown to the author, in color if wanted
-/

namespace Bytecode

/-- A message with the function and the place it is about. -/
structure Diagnostic where
  message : Text
  function : Text := []
  file : Text := []
  line : Int := 0
  col : Int := 0
  deriving DecidableEq, Repr, Inhabited

namespace Diagnostic

/-- A terminal sequence: an escape byte and its parameters. -/
def escape (parameters : Text) : Text := 27 :: parameters

/-- A text between a terminal sequence and its reset. -/
def styled (color : Bool) (style t : Text) : Text :=
  if color then escape style ++ t ++ escape "[0m" else t

/-- The place, which is left out when no file is known. -/
def place (d : Diagnostic) : Text :=
  d.file ++ ":" ++ Text.ofInt d.line ++ ":" ++ Text.ofInt d.col ++ ": "

/-- The line that names the function. -/
def functionLine (d : Diagnostic) : Text := "  in function '" ++ d.function ++ "'\n"

/-- The lines shown to the author of the program. -/
def print (d : Diagnostic) (color : Bool) : Text :=
  (if d.file.isEmpty then [] else styled color "[1m" d.place) ++
  (styled color "[31m" "error: " ++ d.message ++ "\n" : Text) ++
  (if d.function.isEmpty then [] else d.functionLine)

end Diagnostic

end Bytecode
