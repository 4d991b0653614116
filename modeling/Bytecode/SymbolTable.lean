import Std.Data.TreeMap
import Bytecode.Wire

/-!
# Symbol tables

The references of a unit to static fields and routines, each kept once. A reference is text: the
owner, the name and the descriptor of a member.

## Main definitions

* `SymbolTable`: references in order of arrival
* `SymbolTable.intern`: the index of a reference, which is added when it is new
* `SymbolTable.get`: the reference at an index
* `SymbolTable.member`: the text of a reference to a member
-/

namespace Bytecode

/-- The references of one unit. -/
structure SymbolTable where
  /-- The unit, to which an overflow is attributed. -/
  owner : Text
  /-- The references, newest first. -/
  newest : List Text
  /-- The number of references. -/
  size : Nat
  size_eq : size = newest.length
  /-- The index of each reference. -/
  index : Std.TreeMap Text UInt16

namespace SymbolTable

/-- The table of a unit without references. -/
def empty (owner : Text) : SymbolTable where
  owner
  newest := []
  size := 0
  size_eq := List.length_nil.symm
  index := ∅

/-- The references, by index. -/
def entries (s : SymbolTable) : List Text := s.newest.reverse

/-- The index of a reference, which is added when it is new. -/
def intern (s : SymbolTable) (text : Text) : Except Error (UInt16 × SymbolTable) :=
  match s.index[text]? with
  | some i => .ok (i, s)
  | none => do
    Wire.requireName text s.owner
    if Wire.maxName ≤ s.size then throw (.unsupported s.owner .symbols)
    let i := s.size.toUInt16
    return (i, { s with
      newest := text :: s.newest
      size := s.size + 1
      size_eq := by simp [s.size_eq]
      index := s.index.insert text i })

/-- The reference at an index. -/
def get (s : SymbolTable) (i : UInt16) : Except Error Text :=
  match s.entries[i.toNat]? with
  | some text => .ok text
  | none => .error (.inconsistent (.symbolRange i.toNat))

/-- The text of a reference to a member. -/
def member (owner name descriptor : Text) : Text := owner ++ "." ++ name ++ ":" ++ descriptor

end SymbolTable

end Bytecode
