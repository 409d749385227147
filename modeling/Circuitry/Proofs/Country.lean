import Circuitry.Conversion.Country
import Circuitry.Keyed

/-!
# Looking up country codes

The table of country codes is searched by halving, which finds an entry because the two-letter codes
increase strictly.  `search_eq_some_iff` says so for any such table, and `numeric?_eq_some_iff` for
the table of the codes: a two-letter code has a number exactly if the table has an entry for it.
-/

namespace Circuitry.Country

theorem code_lt {table : Array (String × UInt16)} (hordered : Keyed.Ordered table.toList)
    {i j : Nat} {first second : String × UInt16} (hi : table[i]? = some first)
    (hj : table[j]? = some second) (hij : i < j) : first.1 < second.1 := by
  obtain ⟨hi', rfl⟩ := Array.getElem?_eq_some_iff.mp hi
  obtain ⟨hj', rfl⟩ := Array.getElem?_eq_some_iff.mp hj
  have hpair := List.pairwise_iff_getElem.mp hordered i j (by simpa using hi') (by simpa using hj')
    hij
  simpa only [List.getElem_map, Array.getElem_toList] using hpair

theorem lt_of_code_lt {table : Array (String × UInt16)} (hordered : Keyed.Ordered table.toList)
    {i j : Nat} {first second : String × UInt16} (hi : table[i]? = some first)
    (hj : table[j]? = some second) (hlt : first.1 < second.1) : i < j := by
  rcases Nat.lt_trichotomy i j with hij | rfl | hij
  · exact hij
  · rw [hi] at hj
    cases hj
    exact absurd hlt (String.lt_irrefl _)
  · exact absurd (code_lt hordered hj hi hij) (String.lt_asymm hlt)

/-- **Halving finds exactly the entries between its bounds.**  The half that is left out holds only
smaller codes, or only larger ones. -/
theorem search_eq_some_iff {table : Array (String × UInt16)} (hordered : Keyed.Ordered table.toList)
    {code : String} {low high : Nat} {number : UInt16} (hhigh : high ≤ table.size) :
    search table code low high = some number ↔
      ∃ i, low ≤ i ∧ i < high ∧ table[i]? = some (code, number) := by
  fun_induction search table code low high with
  | case1 low high hlt middle hnone =>
    have hsize := Array.getElem?_eq_none_iff.mp hnone
    omega
  | case2 low high hlt middle found hfound =>
    constructor
    · intro h
      cases h
      exact ⟨middle, by omega, by omega, hfound⟩
    · rintro ⟨i, -, -, hi⟩
      have hplace : i = middle := by
        rcases Nat.lt_trichotomy i middle with h | h | h
        · exact absurd (code_lt hordered hi hfound h) (String.lt_irrefl code)
        · exact h
        · exact absurd (code_lt hordered hfound hi h) (String.lt_irrefl code)
      rw [hplace, hfound] at hi
      cases hi
      rfl
  | case3 low high hlt middle other found hfound hne hless ih =>
    rw [ih hhigh]
    constructor
    · rintro ⟨i, hlow, hi⟩
      exact ⟨i, by omega, hi⟩
    · rintro ⟨i, hlow, hupper, hi⟩
      exact ⟨i, lt_of_code_lt hordered hfound hi hless, hupper, hi⟩
  | case4 low high hlt middle other found hfound hne hless ih =>
    have hmore : code < other := by
      apply Decidable.byContradiction
      intro hn
      exact hne (String.le_antisymm (String.not_lt.mp hn) (String.not_lt.mp hless))
    rw [ih (by omega)]
    constructor
    · rintro ⟨i, hlow, hupper, hi⟩
      exact ⟨i, hlow, by omega, hi⟩
    · rintro ⟨i, hlow, hupper, hi⟩
      exact ⟨i, hlow, lt_of_code_lt hordered hi hfound hmore, hi⟩
  | case5 low high hlt =>
    simp only [reduceCtorEq, false_iff, not_exists]
    omega

theorem search_size_eq_some_iff {table : Array (String × UInt16)}
    (hordered : Keyed.Ordered table.toList) {code : String} {number : UInt16} :
    search table code 0 table.size = some number ↔ (code, number) ∈ table := by
  rw [search_eq_some_iff hordered (Nat.le_refl _), Array.mem_iff_getElem?]
  constructor
  · rintro ⟨i, -, -, hi⟩
    exact ⟨i, hi⟩
  · rintro ⟨i, hi⟩
    exact ⟨i, Nat.zero_le i, (Array.getElem?_eq_some_iff.mp hi).1, hi⟩

theorem ordered_codes : Keyed.Ordered codes.toList := by
  have hpairs : (codes.toList.map Prod.fst).Pairwise (· < ·) := by decide +kernel
  exact hpairs

/-- **A code has a number exactly if the table says so.** -/
theorem numeric?_eq_some_iff {code : String} {number : UInt16} :
    numeric? code = some number ↔ (code, number) ∈ codes :=
  search_size_eq_some_iff ordered_codes

theorem isNumeric_iff {number : UInt16} :
    isNumeric number = true ↔ ∃ code, (code, number) ∈ codes := by
  simp only [isNumeric, Array.any_eq_true', beq_iff_eq]
  constructor
  · rintro ⟨⟨code, found⟩, hmem, rfl⟩
    exact ⟨code, hmem⟩
  · rintro ⟨code, hmem⟩
    exact ⟨(code, number), hmem, rfl⟩

end Circuitry.Country
