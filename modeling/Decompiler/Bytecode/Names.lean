/-!
# Name tables

The two tables that every unit of a batch shares: the strings (names of variables and functions, and
string literals) and the object names.
-/

namespace Decompiler.Bytecode

/-- The string table and the object table of a batch. -/
structure Names where
  strings : List String := []
  objects : List String := []

namespace Names

/-- The string at an index of the string table. -/
def string? (names : Names) (index : Nat) : Option String :=
  names.strings[index]?

/-- The name at an index of the object table. -/
def object? (names : Names) (index : Nat) : Option String :=
  names.objects[index]?

/-- The name of an instance as it is written in a program.  Negative numbers are the standing
instances; the others index the object table.  A number is negated in 32 bits, where the least one is
its own negative. -/
def instanceName (names : Names) (id : Int) : String :=
  match id with
  | .ofNat index => (names.object? index).getD ("object_" ++ toString index)
  | .negSucc 0 => "self"
  | .negSucc 1 => "other"
  | .negSucc 2 => "all"
  | .negSucc 3 => "noone"
  | .negSucc 4 => "global"
  | .negSucc 5 => "builtin"
  | .negSucc 6 => "local"
  | .negSucc n => "instance_" ++ toString (-Int32.ofInt (.negSucc n))

end Names

end Decompiler.Bytecode
