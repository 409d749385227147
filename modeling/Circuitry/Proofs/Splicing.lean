import Circuitry.Proofs.Fallible
import Circuitry.Proofs.Template

/-!
# Rendering around a placeholder

A template can be cut in front of any two opening braces.  No placeholder reaches across the cut,
since behind its own two braces it holds no others (`IsSlot.not_across`), and the placeholders in
front of the cut are found whatever follows.  So the pieces of both parts are the pieces of the
whole (`pieces_append`), even if the first part ends in half a placeholder or in a row of braces.

Behind a placeholder the scanner starts anew, so a placeholder cuts a template on both sides, and
the template is rendered in three steps: what stands in front, the leaf of the path, and what stands
behind.  The leaf is never scanned.
-/

namespace Circuitry.Template

open Fallible

/-! ### Where a template can be cut -/

theorem IsSlot.exists_inside {text key : List Char} (h : IsSlot text key) :
    ∃ inside, text = '\x7b' :: '\x7b' :: inside ∧ inside ≠ [] ∧ '\x7b' ∉ inside := by
  obtain ⟨left, right, rfl, hleft, hright, -, hkey⟩ := h
  have hblank : Text.isBlank '\x7b' = false := by decide
  refine ⟨_, rfl, by simp, ?_⟩
  simp only [List.mem_append, not_or]
  refine ⟨⟨⟨fun hm => ?_, fun hm => (of_isKeyChar (hkey _ hm)).1 rfl⟩, fun hm => ?_⟩, by decide⟩
  · rw [hleft _ hm] at hblank
    cases hblank
  · rw [hright _ hm] at hblank
    cases hblank

/-- **No placeholder starts in front of two opening braces and ends behind them.** -/
theorem IsSlot.not_across {first middle rest behind key : List Char} (hfirst : first ≠ [])
    (hmiddle : middle ≠ []) (heq : middle ++ behind = '\x7b' :: '\x7b' :: rest) :
    ¬ IsSlot (first ++ middle) key := by
  intro h
  obtain ⟨inside, htext, hne, hbrace⟩ := h.exists_inside
  obtain ⟨c, front, rfl⟩ := List.exists_cons_of_ne_nil hfirst
  obtain ⟨d, back, rfl⟩ := List.exists_cons_of_ne_nil hmiddle
  obtain ⟨rfl, hback⟩ := List.cons.inj heq
  obtain ⟨-, htext⟩ := List.cons.inj htext
  cases front with
  | nil =>
    -- The second of the two braces would be the first character inside.
    obtain ⟨-, rfl⟩ := List.cons.inj htext
    obtain ⟨e, tail, rfl⟩ := List.exists_cons_of_ne_nil hne
    obtain ⟨rfl, -⟩ := List.cons.inj hback
    exact hbrace List.mem_cons_self
  | cons e front =>
    obtain ⟨-, rfl⟩ := List.cons.inj htext
    exact hbrace (List.mem_append_right front List.mem_cons_self)

/-- What the scanner finds in a text that is not empty does not depend on two opening braces
behind it. -/
theorem placeholder?_append {cs : List Char} (hne : cs ≠ []) (rest : List Char) :
    placeholder? (cs ++ '\x7b' :: '\x7b' :: rest)
      = (placeholder? cs).map fun found => (found.1, found.2 ++ '\x7b' :: '\x7b' :: rest) := by
  cases hcs : placeholder? cs with
  | some found =>
    obtain ⟨text, hslot, rfl⟩ := placeholder?_eq_some_iff.mp hcs
    rw [List.append_assoc, hslot.placeholder?_append]
    rfl
  | none =>
    cases hall : placeholder? (cs ++ '\x7b' :: '\x7b' :: rest) with
    | none => rfl
    | some found =>
      obtain ⟨text, hslot, heq⟩ := placeholder?_eq_some_iff.mp hall
      rcases List.append_eq_append_iff.mp heq with ⟨middle, rfl, hrest⟩ | ⟨behind, rfl, -⟩
      · by_cases hmiddle : middle = []
        · rw [hmiddle, List.append_nil] at hslot
          have hfound := hslot.placeholder?_append []
          rw [List.append_nil, hcs] at hfound
          cases hfound
        · exact absurd hslot (IsSlot.not_across hne hmiddle hrest.symm)
      · rw [hslot.placeholder?_append] at hcs
        cases hcs

/-- **A template can be cut in front of two opening braces.**  The induction follows the scanner
through the first part. -/
theorem pieces_append (cs rest : List Char) :
    pieces (cs ++ '\x7b' :: '\x7b' :: rest) = pieces cs ++ pieces ('\x7b' :: '\x7b' :: rest) := by
  fun_induction pieces cs with
  | case1 cs key behind hslot _ ih =>
    have hne : cs ≠ [] := by
      rintro rfl
      cases hslot
    have hfound := placeholder?_append hne rest
    rw [hslot, Option.map_some] at hfound
    rw [pieces_of_slot hfound, ih, List.cons_append]
  | case2 => rfl
  | case3 c cs hnone ih =>
    have hfound := placeholder?_append (List.cons_ne_nil c cs) rest
    rw [hnone, Option.map_none] at hfound
    rw [List.cons_append] at hfound
    rw [List.cons_append, pieces_of_char hfound, ih, List.cons_append]

theorem pieces_around {path : Path} (h : path.Spellable) (a b : String) :
    pieces (a ++ path.placeholder ++ b).toList
      = pieces a.toList ++ .slot path.display.toList :: pieces b.toList := by
  obtain ⟨rest, hrest⟩ : ∃ rest, path.placeholder.toList = '\x7b' :: '\x7b' :: rest :=
    ⟨_, by rw [Path.placeholder, String.toList_append, String.toList_append]; rfl⟩
  have hslot := pieces_placeholder h b.toList
  rw [hrest, List.cons_append, List.cons_append] at hslot
  rw [String.toList_append, String.toList_append, hrest, List.append_assoc, List.cons_append,
    List.cons_append, pieces_append, hslot]

/-! ### Rendering in steps -/

/-- **Rendering is compositional around placeholders.**  If there is a leaf at the path of a
placeholder, then what stands in front of it and what stands behind it are rendered as if they stood
alone, and the leaf is put between them as it is; an error in front comes before one behind.  If
there is none, the placeholder is the error, unless there is one in front of it. -/
theorem render_around (data : Tree String) (a b : String) {path : Path} (h : path.Spellable) :
    (∀ value, data.getLeaf? path = some value → render (a ++ path.placeholder ++ b) data = do
      let before ← render a data
      let behind ← render b data
      return before ++ value ++ behind) ∧
    (data.getLeaf? path = none → render (a ++ path.placeholder ++ b) data = do
      let _ ← render a data
      throw (.undeclaredReference path.display)) := by
  unfold render
  rw [pieces_around h, List.mapM_append, List.mapM_cons]
  constructor
  · intro value hvalue
    have hfill : (Piece.slot path.display.toList).fill data = .ok value.toList := by
      rw [Piece.fill, splitOn_display h, hvalue]
    rw [hfill]
    cases (pieces a.toList).mapM (Piece.fill data) with
    | error e => rfl
    | ok first =>
      cases (pieces b.toList).mapM (Piece.fill data) with
      | error e => rfl
      | ok second => exact congrArg Except.ok (String.toList_injective (by simp))
  · intro hnone
    have hfill : (Piece.slot path.display.toList).fill data
        = .error (.undeclaredReference path.display) := by
      rw [Piece.fill, splitOn_display h, hnone, String.ofList_toList]
    rw [hfill]
    cases (pieces a.toList).mapM (Piece.fill data) <;> rfl

/-- Data whose one leaf is the text of its own placeholder. -/
def loopData : Tree String :=
  ((Tree.empty.put ["private", "age"] (Path.placeholder ["private", "age"])).toOption).getD .empty

/-- Half a placeholder in front, loose braces behind and the braces of the leaf itself change
nothing. -/
theorem render_around_braces :
    Path.Spellable ["private", "age"] ∧
      loopData.getLeaf? ["private", "age"] = some "\x7b\x7b private.age \x7d\x7d" ∧
      render ("\x7b\x7b a \x7b" ++ Path.placeholder ["private", "age"] ++ "\x7d \x7b") loopData
        = .ok "\x7b\x7b a \x7b\x7b\x7b private.age \x7d\x7d\x7d \x7b" := by
  have hpath : Path.Spellable ["private", "age"] := ⟨by decide, by decide⟩
  have hleaf : loopData.getLeaf? ["private", "age"] = some "\x7b\x7b private.age \x7d\x7d" := by
    decide +kernel
  refine ⟨hpath, hleaf, ?_⟩
  rw [(render_around loopData _ _ hpath).1 _ hleaf]
  have hfront : (render "\x7b\x7b a \x7b" loopData).toOption = some "\x7b\x7b a \x7b" := by
    decide +kernel
  have hbehind : (render "\x7d \x7b" loopData).toOption = some "\x7d \x7b" := by decide +kernel
  rw [toOption_eq_some.mp hfront, toOption_eq_some.mp hbehind]
  rfl

end Circuitry.Template
