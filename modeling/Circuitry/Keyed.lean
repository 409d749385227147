/-!
# Keyed lists

Lists of pairs in strictly increasing order of their keys, the order of the keys' code points.
Objects and tree nodes keep their members in this form, so that every traversal visits the keys
in one order however they were inserted.
-/

namespace Circuitry.Keyed

universe u

variable {β : Type u}

def Ordered (entries : List (String × β)) : Prop :=
  (entries.map Prod.fst).Pairwise (· < ·)

/-- Puts `value` at `key`, in place of an entry that is already there. -/
def insert (key : String) (value : β) : List (String × β) → List (String × β)
  | [] => [(key, value)]
  | (k, v) :: rest =>
    if key = k then (key, value) :: rest
    else if key < k then (key, value) :: (k, v) :: rest
    else (k, v) :: insert key value rest

theorem mem_keys_insert {key x : String} {value : β} {entries : List (String × β)} :
    x ∈ (insert key value entries).map Prod.fst ↔ x = key ∨ x ∈ entries.map Prod.fst := by
  induction entries with
  | nil => simp [insert]
  | cons entry rest ih =>
    obtain ⟨k, v⟩ := entry
    unfold insert
    split
    · rename_i h; subst h; simp
    · split
      · simp
      · simp only [List.map_cons, List.mem_cons, ih]
        constructor <;> rintro (h | h | h) <;> simp [h]

theorem ordered_insert {key : String} {value : β} {entries : List (String × β)}
    (h : Ordered entries) : Ordered (insert key value entries) := by
  induction entries with
  | nil => simp [insert, Ordered]
  | cons entry rest ih =>
    obtain ⟨k, v⟩ := entry
    have hrest : Ordered rest := (List.pairwise_cons.1 h).2
    have hk : ∀ x ∈ rest.map Prod.fst, k < x := (List.pairwise_cons.1 h).1
    unfold insert
    split
    · rename_i heq; subst heq; exact h
    · rename_i hne
      split
      · rename_i hlt
        refine List.pairwise_cons.2 ⟨fun x hx => ?_, h⟩
        rcases List.mem_cons.1 hx with rfl | hx
        · exact hlt
        · exact String.lt_trans hlt (hk x hx)
      · rename_i hnlt
        refine List.pairwise_cons.2 ⟨fun x hx => ?_, ih hrest⟩
        rcases mem_keys_insert.1 hx with rfl | hx
        · apply Decidable.byContradiction
          intro hn
          exact hne (String.le_antisymm (String.not_lt.1 hn) (String.not_lt.1 hnlt))
        · exact hk x hx

end Circuitry.Keyed
