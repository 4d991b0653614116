import Bytecode.Text

/-!
# Access flags

Sixteen bits that say how a routine or a static field may be reached. Bits without a name are
kept.

## Main definitions

* `Flag`: the named bits
* `Flags`: a set of bits
* `Flags.toText`: the named bits that are set
-/

namespace Bytecode

/-- A named access bit. -/
inductive Flag
  | isPublic
  | isPrivate
  | isStatic
  | isFinal
  | isVarArgs
  deriving DecidableEq, Repr

namespace Flag

/-- All flags, in the order in which they are written. -/
def all : List Flag := [isPublic, isPrivate, isStatic, isFinal, isVarArgs]

/-- The bit of a flag. -/
def mask : Flag → UInt16
  | isPublic => 0x0001
  | isPrivate => 0x0002
  | isStatic => 0x0008
  | isFinal => 0x0010
  | isVarArgs => 0x0080

/-- The word for a flag. -/
def word : Flag → Text
  | isPublic => "public"
  | isPrivate => "private"
  | isStatic => "static"
  | isFinal => "final"
  | isVarArgs => "varargs"

end Flag

/-- A set of access bits. -/
structure Flags where
  bits : UInt16
  deriving DecidableEq, Repr, Inhabited

namespace Flags

/-- Whether a flag is set. -/
def has (flags : Flags) (flag : Flag) : Bool := flags.bits &&& flag.mask != 0

/-- The set with one more flag. -/
def insert (flags : Flags) (flag : Flag) : Flags := ⟨flags.bits ||| flag.mask⟩

/-- The set with the given flags. -/
def ofList (flags : List Flag) : Flags := flags.foldl insert ⟨0⟩

/-- The words of the named flags that are set, a space between them. -/
def toText (flags : Flags) : Text :=
  Text.joined " " ((Flag.all.filter flags.has).map Flag.word)

end Flags

end Bytecode
