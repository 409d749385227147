import Circuitry.Conversion.Link
import Circuitry.Json.Basic

/-!
# Constants

The named constants that schemas and commands may use. Each has a raw value with its conversion
chain, for inputs, and an expression, for generated sources.
-/

namespace Circuitry

structure Constant where
  name : String
  /-- The identifier of the constant where a program declares it. -/
  declaredName : String
  /-- The type of the constant where a program declares it. -/
  declaredType : String
  /-- The expression of the constant in a generated source. -/
  expression : String
  /-- The raw value. -/
  value : Nat
  chain : Chain
  deriving Repr, DecidableEq

namespace Constant

/-- The year of 365.25 days, in milliseconds. -/
def year : Constant where
  name := "year"
  declaredName := "YEAR"
  declaredType := "Field"
  expression := "Field(365.25 * 24 * 60 * 60 * 1000)"
  value := 31557600000
  chain := ⟨[], "uint64", "mina:field"⟩

def all : List Constant := [year]

def ofName? (name : String) : Option Constant :=
  all.find? fun constant => constant.name == name

def json (constant : Constant) : Json :=
  .ofNat constant.value

end Constant

end Circuitry
