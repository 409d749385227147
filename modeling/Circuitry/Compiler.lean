import Circuitry.Input.Call
import Circuitry.Program.Document
import Circuitry.Source.Basic

/-!
# The compiler

A compiler is a way to convert raw values together with its configuration. It translates programs
into sources and turns setup payloads into the inputs with which those sources are called.
-/

namespace Circuitry

structure Compiler where
  converter : Converter := Value.ofChain
  config : Config := {}

namespace Compiler

def translate (compiler : Compiler) (program : Program) : Except CompileError String :=
  program.source compiler.converter compiler.config

/-- The input that a schema and a setup give for a target. -/
def input (compiler : Compiler) (target : Target) (schema : Schema) (setup : Json) :
    Except CompileError CallInput := do
  let setup ← setupOfJson setup
  let values ← InputValues.ofSetup compiler.converter compiler.config.maxReferenceDepth schema setup
  CallInput.ofValues schema values target

def inputOfProgram (compiler : Compiler) (program : Program) (setup : Json) :
    Except CompileError CallInput :=
  compiler.input program.target program.schema setup

/-- The input that the documents of a schema and a setup give. The target is looked at first, and
the schema before the setup. -/
def inputOfDocuments (compiler : Compiler) (target : String) (schema setup : Json) :
    Except CompileError CallInput := do
  let target ← Target.parse target
  let schema ← Schema.ofJson schema
  compiler.input target schema setup

end Compiler

end Circuitry
