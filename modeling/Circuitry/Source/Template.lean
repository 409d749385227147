import Circuitry.Program.Error
import Circuitry.Text.Blank

/-!
# Templates

A template is a text with placeholders: a dotted path between two opening and two closing braces,
with blanks around it. Rendering puts the leaf at that path of a data tree in place of every
placeholder, from left to right, and never looks at the inserted text again. A placeholder
without a leaf is an error.
-/

namespace Circuitry

def Path.placeholder (path : Path) : String :=
  "\x7b\x7b " ++ path.display ++ " \x7d\x7d"

namespace Template

def isKeyChar (c : Char) : Bool :=
  !(c == '\x7b' || c == '\x7d' || Text.isBlank c)

/-- Reads a placeholder at the start of a text: its key, and the text behind it. -/
def placeholder? : List Char → Option (List Char × List Char)
  | '\x7b' :: '\x7b' :: rest =>
    let inner := rest.dropWhile Text.isBlank
    let key := inner.takeWhile isKeyChar
    if key.isEmpty then none
    else
      match (inner.dropWhile isKeyChar).dropWhile Text.isBlank with
      | '\x7d' :: '\x7d' :: rest => some (key, rest)
      | _ => none
  | _ => none

theorem length_dropWhile_le (p : Char → Bool) (cs : List Char) :
    (cs.dropWhile p).length ≤ cs.length :=
  (List.dropWhile_sublist p).length_le

theorem length_lt_of_placeholder? {cs key rest : List Char}
    (h : placeholder? cs = some (key, rest)) : rest.length < cs.length := by
  unfold placeholder? at h
  split at h
  · rename_i tail
    dsimp only at h
    split at h
    · cases h
    · split at h
      · rename_i heq
        cases h
        have h1 := length_dropWhile_le Text.isBlank tail
        have h2 := length_dropWhile_le isKeyChar (tail.dropWhile Text.isBlank)
        have h3 := length_dropWhile_le Text.isBlank
          ((tail.dropWhile Text.isBlank).dropWhile isKeyChar)
        rw [heq] at h3
        simp only [List.length_cons] at h3 ⊢
        omega
      · cases h
  · cases h

inductive Piece where
  /-- A character that stands for itself. -/
  | char (c : Char)
  /-- A placeholder with its key. -/
  | slot (key : List Char)
  deriving Repr, DecidableEq

/-- The pieces of a template, from left to right. -/
def pieces (cs : List Char) : List Piece :=
  match h : placeholder? cs with
  | some (key, rest) =>
    have := length_lt_of_placeholder? h
    .slot key :: pieces rest
  | none =>
    match cs with
    | [] => []
    | c :: rest => .char c :: pieces rest
termination_by cs.length

def Piece.fill (data : Tree String) : Piece → Except CompileError (List Char)
  | .char c => .ok [c]
  | .slot key =>
    match data.getLeaf? ((key.splitOn '.').map String.ofList) with
    | some text => .ok text.toList
    | none => .error (.undeclaredReference (String.ofList key))

/-- The template with the leaves of `data` in place of its placeholders. -/
def render (template : String) (data : Tree String) : Except CompileError String :=
  ((pieces template.toList).mapM (Piece.fill data)).map fun parts => String.ofList parts.flatten

end Template

end Circuitry
