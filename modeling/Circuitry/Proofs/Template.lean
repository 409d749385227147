import Circuitry.Program.Document
import Circuitry.Source.Basic

/-!
# How a template is scanned

The scanner takes a placeholder wherever two opening braces, a key and two closing braces stand,
with blanks around the key (`placeholder?_eq_some_iff`), and a single character everywhere else.
Two facts say what it makes of the texts that a template is put together from, whatever stands
behind them.  A text in which every opening brace is
followed by some other character is taken character by character (`pieces_inert`), and the
placeholder of a path whose keys can stand in one is taken as one slot (`pieces_placeholder`),
whose key is the path again (`splitOn_display`).
-/

namespace Circuitry

/-- A path that a placeholder can spell: it has keys, and all of them can stand in one. -/
structure Path.Spellable (path : Path) : Prop where
  ne_nil : path ≠ []
  keys : ∀ key ∈ path, Schema.isKey key = true

namespace Template

/-! ### One step of the scanner -/

theorem pieces_nil : pieces [] = [] := by
  rw [pieces]
  rfl

theorem pieces_of_slot {cs key rest : List Char} (h : placeholder? cs = some (key, rest)) :
    pieces cs = .slot key :: pieces rest := by
  rw [pieces]
  split
  · rename_i found
    cases h.symm.trans found
    rfl
  · rename_i found
    cases h.symm.trans found

theorem pieces_of_char {c : Char} {rest : List Char} (h : placeholder? (c :: rest) = none) :
    pieces (c :: rest) = .char c :: pieces rest := by
  rw [pieces]
  split
  · rename_i found
    cases h.symm.trans found
  · rfl

theorem placeholder?_eq_none {c : Char} {rest : List Char}
    (h : c ≠ '\x7b' ∨ rest.head? ≠ some '\x7b') : placeholder? (c :: rest) = none := by
  unfold placeholder?
  split
  · rename_i heq
    cases heq
    rcases h with h | h
    · exact absurd rfl h
    · exact absurd rfl h
  · rfl

/-- A text that is one placeholder: a key between two opening and two closing braces, with blanks
around it. -/
def IsSlot (text key : List Char) : Prop :=
  ∃ left right, text = '\x7b' :: '\x7b' :: (left ++ key ++ right ++ ['\x7d', '\x7d']) ∧
    (∀ c ∈ left, Text.isBlank c = true) ∧ (∀ c ∈ right, Text.isBlank c = true) ∧
    key ≠ [] ∧ ∀ c ∈ key, isKeyChar c = true

theorem of_isKeyChar {c : Char} (h : isKeyChar c = true) :
    c ≠ '\x7b' ∧ c ≠ '\x7d' ∧ Text.isBlank c = false := by
  simpa [isKeyChar, and_assoc] using h

theorem span_boundary {p : Char → Bool} {run rest : List Char} (hrun : ∀ d ∈ run, p d = true)
    (hrest : ∀ c ∈ rest.head?, p c = false) :
    (run ++ rest).takeWhile p = run ∧ (run ++ rest).dropWhile p = rest := by
  rw [List.takeWhile_append_of_pos hrun, List.dropWhile_append_of_pos hrun]
  cases rest with
  | nil => simp
  | cons c rest => simp [hrest c rfl]

theorem exists_isSlot_of_placeholder? {cs key rest : List Char}
    (h : placeholder? cs = some (key, rest)) : ∃ text, IsSlot text key ∧ cs = text ++ rest := by
  unfold placeholder? at h
  split at h
  · rename_i inside
    dsimp only at h
    split at h
    · cases h
    · rename_i hkey
      split at h
      · rename_i behind hclose
        cases h
        have hall {p : Char → Bool} {cs : List Char} : ∀ c ∈ cs.takeWhile p, p c = true :=
          List.all_eq_true.mp List.all_takeWhile
        refine ⟨_, ⟨inside.takeWhile Text.isBlank,
          ((inside.dropWhile Text.isBlank).dropWhile isKeyChar).takeWhile Text.isBlank, rfl,
          hall, hall, by simpa using hkey, hall⟩, ?_⟩
        simp only [List.cons_append, List.append_assoc, List.nil_append]
        rw [← hclose, List.takeWhile_append_dropWhile, List.takeWhile_append_dropWhile,
          List.takeWhile_append_dropWhile]
      · cases h
  · cases h

theorem IsSlot.placeholder?_append {text key : List Char} (h : IsSlot text key)
    (rest : List Char) : placeholder? (text ++ rest) = some (key, rest) := by
  obtain ⟨left, right, rfl, hleft, hright, hne, hkey⟩ := h
  -- Blanks, characters of keys and closing braces are three kinds, so every run shows its end.
  have hbefore : ∀ c ∈ (key ++ (right ++ '\x7d' :: '\x7d' :: rest)).head?,
      Text.isBlank c = false := by
    obtain ⟨c, cs, rfl⟩ := List.exists_cons_of_ne_nil hne
    simpa using (of_isKeyChar (hkey c List.mem_cons_self)).2.2
  have hbehind : ∀ c ∈ (right ++ '\x7d' :: '\x7d' :: rest).head?, isKeyChar c = false := by
    cases right with
    | nil => simp [isKeyChar]
    | cons c cs => simp [isKeyChar, hright c List.mem_cons_self]
  have hend : ∀ c ∈ ('\x7d' :: '\x7d' :: rest).head?, Text.isBlank c = false := by
    simpa using (by decide : Text.isBlank '\x7d' = false)
  have hinner := span_boundary hleft hbefore
  have hmiddle := span_boundary hkey hbehind
  have hclose := span_boundary hright hend
  simp only [List.cons_append, List.append_assoc, List.nil_append, placeholder?, hinner.2,
    hmiddle.1, hmiddle.2, hclose.2, List.isEmpty_eq_false_iff.mpr hne]
  rfl

/-- **The scanner finds exactly the placeholders.** -/
theorem placeholder?_eq_some_iff {cs key rest : List Char} :
    placeholder? cs = some (key, rest) ↔ ∃ text, IsSlot text key ∧ cs = text ++ rest := by
  constructor
  · exact exists_isSlot_of_placeholder?
  · rintro ⟨text, hslot, rfl⟩
    exact hslot.placeholder?_append rest

/-! ### Texts without placeholders -/

/-- Whether no placeholder can start in a text, whatever stands behind it: every opening brace is
followed by some other character of the text. -/
def isInert : List Char → Bool
  | [] => true
  | c :: rest => (c != '\x7b' || (rest.head?.any (· != '\x7b'))) && isInert rest

theorem pieces_inert {cs : List Char} (h : isInert cs = true) (rest : List Char) :
    pieces (cs ++ rest) = cs.map .char ++ pieces rest := by
  induction cs with
  | nil => rfl
  | cons c cs ih =>
    rw [isInert, Bool.and_eq_true] at h
    obtain ⟨hc, hcs⟩ := h
    have hnone : placeholder? (c :: (cs ++ rest)) = none := by
      apply placeholder?_eq_none
      rcases Bool.or_eq_true_iff.mp hc with hc | hc
      · exact .inl (bne_iff_ne.mp hc)
      · refine .inr ?_
        -- A brace at the end is excluded: it could open a placeholder together with the rest.
        cases cs with
        | nil => cases hc
        | cons d ds =>
          intro heq
          cases Option.some.inj heq
          cases hc
    rw [List.cons_append, pieces_of_char hnone, ih hcs]
    rfl

theorem isInert_of_not_mem {cs : List Char} (h : '\x7b' ∉ cs) : isInert cs = true := by
  induction cs with
  | nil => rfl
  | cons c cs ih =>
    rw [List.mem_cons, not_or] at h
    rw [isInert, ih h.2, Bool.and_true, Bool.or_eq_true]
    exact .inl (bne_iff_ne.mpr (Ne.symm h.1))

/-! ### Placeholders -/

theorem of_isKey {key : String} (h : Schema.isKey key = true) :
    key.toList ≠ [] ∧ '.' ∉ key.toList ∧ ∀ c ∈ key.toList, isKeyChar c = true := by
  unfold Schema.isKey at h
  rw [Bool.and_eq_true] at h
  obtain ⟨hne, hall⟩ := h
  simp only [Bool.not_eq_true', List.any_eq_false, Bool.or_eq_true, not_or] at hall
  refine ⟨by simpa using hne, fun hm => (hall '.' hm).1.1.1 rfl, ?_⟩
  intro c hc
  obtain ⟨⟨⟨-, hopen⟩, hclose⟩, hblank⟩ := hall c hc
  simp [isKeyChar, hopen, hclose, hblank]

theorem toList_display (path : Path) :
    path.display.toList = ['.'].intercalate (path.map String.toList) := by
  rw [Path.display, String.toList_intercalate]
  rfl

theorem isKeyChar_display {path : Path} (h : path.Spellable) :
    path.display.toList ≠ [] ∧ ∀ c ∈ path.display.toList, isKeyChar c = true := by
  obtain ⟨hne, hkeys⟩ := h
  rw [toList_display]
  induction path with
  | nil => exact absurd rfl hne
  | cons key rest ih =>
    obtain ⟨hkey, -, hchars⟩ := of_isKey (hkeys key List.mem_cons_self)
    cases rest with
    | nil =>
      rw [List.map_singleton, List.intercalate_singleton]
      exact ⟨hkey, hchars⟩
    | cons next rest =>
      have hrest := (ih (by simp) fun k hk => hkeys k (List.mem_cons_of_mem _ hk)).2
      rw [List.map_cons, List.map_cons, List.intercalate_cons_cons]
      refine ⟨by simp, fun c hc => ?_⟩
      rcases List.mem_append.mp hc with hc | hc
      · rcases List.mem_append.mp hc with hc | hc
        · exact hchars c hc
        · rw [List.mem_singleton.mp hc]
          decide
      · exact hrest c hc

/-- **The key of a placeholder is its path**, spelled with dots. -/
theorem splitOn_display {path : Path} (h : path.Spellable) :
    (path.display.toList.splitOn '.').map String.ofList = path := by
  have hdots : ∀ cs ∈ path.map String.toList, '.' ∉ cs := by
    intro cs hcs
    obtain ⟨key, hkey, rfl⟩ := List.mem_map.mp hcs
    exact (of_isKey (h.keys key hkey)).2.1
  rw [toList_display, List.splitOn_intercalate '.' hdots (by simpa using h.ne_nil), List.map_map]
  simp [Function.comp_def]

theorem placeholder?_placeholder {path : Path} (h : path.Spellable) (rest : List Char) :
    placeholder? (path.placeholder.toList ++ rest) = some (path.display.toList, rest) := by
  obtain ⟨hne, hchars⟩ := isKeyChar_display h
  have hslot : IsSlot path.placeholder.toList path.display.toList :=
    ⟨[' '], [' '], by simp [Path.placeholder], List.all_eq_true.mp rfl, List.all_eq_true.mp rfl,
      hne, hchars⟩
  exact hslot.placeholder?_append rest

/-- **The placeholder of a path is taken as one slot.** -/
theorem pieces_placeholder {path : Path} (h : path.Spellable) (rest : List Char) :
    pieces (path.placeholder.toList ++ rest) = .slot path.display.toList :: pieces rest :=
  pieces_of_slot (placeholder?_placeholder h rest)

end Template

end Circuitry
