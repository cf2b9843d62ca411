import Std.Data.TreeMap
import OwnScript.Code.Chunk

/-!
Units: what is loaded into a machine. A unit is the function of the script, the names of the
global slots and the global functions that a host may call.
-/

namespace OwnScript

/-- The version of the encoding that verification accepts. -/
def formatVersion : Nat := 1

/-- A program in executable form. -/
structure CodeUnit where
  version : Nat := formatVersion
  script : Option Prototype := none
  globalNames : Array String := #[]
  /-- The slots of the global functions, by name. -/
  entryPoints : Std.TreeMap String Nat := {}

namespace CodeUnit

/-- The first global slot of that name. -/
def findGlobal? (unit : CodeUnit) (name : String) : Option Nat :=
  unit.globalNames.findIdx? (· == name)

end CodeUnit

end OwnScript
