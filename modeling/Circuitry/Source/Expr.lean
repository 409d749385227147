import Circuitry.Path

/-!
# Expressions of generated sources

The expressions that commands become: calls of functions and methods over atoms, references,
lists and spread lists. An expression is printed with a function that spells its references, so
that the same expression can stand in a template, where references are placeholders, or in a
finished source, where they are names.
-/

namespace Circuitry

inductive Expr where
  /-- A text that stands for itself. -/
  | atom (text : String)
  | reference (path : Path)
  /-- The call of a method of `receiver`. -/
  | method (receiver : Expr) (name : String) (arguments : List Expr)
  /-- The call of a function. -/
  | call (function : String) (arguments : List Expr)
  | array (items : List Expr)
  /-- A list whose items become arguments or items of the list around it. -/
  | spread (list : Expr)

namespace Expr

mutual

/-- The text of an expression, with references as `spell` writes them. -/
def render (spell : Path → String) : Expr → String
  | .atom text => text
  | .reference path => spell path
  | .method receiver name arguments =>
    receiver.render spell ++ "." ++ name ++ "(" ++
      ", ".intercalate (renderAll spell arguments) ++ ")"
  | .call function arguments =>
    function ++ "(" ++ ", ".intercalate (renderAll spell arguments) ++ ")"
  | .array items => "[" ++ ", ".intercalate (renderAll spell items) ++ "]"
  | .spread list => "..." ++ list.render spell

def renderAll (spell : Path → String) : List Expr → List String
  | [] => []
  | item :: rest => item.render spell :: renderAll spell rest

end

end Expr

/-- An expression as a line of a source, with a name for its value if it has one. -/
structure Statement where
  out : Option String
  expr : Expr

def Statement.render (spell : Path → String) (statement : Statement) : String :=
  match statement.out with
  | some out => "const " ++ out ++ " = " ++ statement.expr.render spell
  | none => statement.expr.render spell

end Circuitry
