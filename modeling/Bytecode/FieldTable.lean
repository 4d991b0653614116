import Std.Data.TreeSet
import Bytecode.Image

/-!
# Field tables

The static fields of a unit under construction, in the order of their definition. No two of them
have the same name. The names are also kept in a set of their own, so that a new field is not
compared with every other one.

## Main definitions

* `FieldTable`: fields with distinct names
* `FieldTable.toList`: the fields in order
* `FieldTable.contains`: whether a name is taken
* `FieldTable.insert`: one more field, unless its name is taken

## Main results

* `FieldTable.contains_iff`: the taken names are those of the fields
* `FieldTable.toList_insert`: a field with a new name comes last
-/

namespace Bytecode

/-- Fields with distinct names. -/
structure FieldTable where
  /-- The fields, newest first. -/
  newest : List Field
  /-- Their names. -/
  names : Std.TreeSet Text
  mem_names : ∀ name, name ∈ names ↔ ∃ f ∈ newest, f.name = name
  nodup_names : (newest.map Field.name).Nodup

namespace FieldTable

/-- No field at all. -/
def empty : FieldTable where
  newest := []
  names := ∅
  mem_names _ :=
    ⟨fun h => absurd h Std.TreeSet.not_mem_emptyc, fun ⟨_, h, _⟩ => absurd h List.not_mem_nil⟩
  nodup_names := List.nodup_nil

/-- The fields in the order of their definition. -/
def toList (t : FieldTable) : List Field := t.newest.reverse

/-- Whether a field has the given name. -/
def contains (t : FieldTable) (name : Text) : Bool := t.names.contains name

theorem contains_iff (t : FieldTable) (name : Text) :
    t.contains name = true ↔ ∃ f ∈ t.toList, f.name = name := by
  simpa [contains, toList] using t.mem_names name

/-- The table with one more field, unless its name is taken. -/
def insert (t : FieldTable) (f : Field) : FieldTable :=
  if taken : t.contains f.name then t
  else {
    newest := f :: t.newest
    names := t.names.insert f.name
    mem_names := by simp [Std.TreeSet.mem_insert, t.mem_names]
    nodup_names := by
      simpa [contains_iff, toList, List.mem_map] using And.intro taken t.nodup_names }

/-- A field with a new name comes last. -/
theorem toList_insert {t : FieldTable} {f : Field} (h : t.contains f.name = false) :
    (t.insert f).toList = t.toList ++ [f] := by
  simp [insert, toList, h]

/-- The names of the fields differ from each other. -/
theorem nodup_toList (t : FieldTable) : (t.toList.map Field.name).Nodup := by
  simpa [toList, List.Nodup, List.pairwise_reverse, ne_comm] using t.nodup_names

end FieldTable

end Bytecode
