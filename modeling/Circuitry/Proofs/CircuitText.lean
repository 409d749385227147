import Circuitry.Proofs.RoundTrip
import Mathlib.Data.List.DropRight

/-!
# The fields of circuit strings

A circuit string becomes as many fields as it may have characters: its code points, cut to that
number or filled up with zeros.  How long it is was asked when the text was read or converted
(`Value.produced_circuitString_iff`), so nothing is cut (`Value.map_val_characterFields`).

The zeros hide the end of the text.  Characters with the code point zero there look like the zeros
behind them, and this is all that two texts with the same fields can differ in
(`Value.characterFields_inj`).
-/

namespace Circuitry

open Fallible

/-! ### Lists filled up at the end -/

section Filled

variable {α : Type} [DecidableEq α] {fill : α} {items other : List α} {length : Nat}

/-- The list without `fill` at its end. -/
def trimmed (fill : α) (items : List α) : List α :=
  items.rdropWhile (· = fill)

theorem trimmed_append_replicate (count : Nat) :
    trimmed fill (items ++ List.replicate count fill) = trimmed fill items := by
  induction count with
  | zero => rw [List.replicate_zero, List.append_nil]
  | succ count ih =>
    rw [List.replicate_succ', ← List.append_assoc, trimmed,
      List.rdropWhile_concat_pos _ _ _ (by simp)]
    exact ih

theorem exists_eq_trimmed_append (fill : α) (items : List α) :
    ∃ count, items = trimmed fill items ++ List.replicate count fill := by
  induction items using List.reverseRecOn with
  | nil => exact ⟨0, by simp [trimmed]⟩
  | append_singleton rest last ih =>
    by_cases hlast : last = fill
    · obtain ⟨count, hrest⟩ := ih
      refine ⟨count + 1, ?_⟩
      rw [trimmed, List.rdropWhile_concat_pos _ _ _ (by simpa using hlast), hlast,
        List.replicate_succ', ← List.append_assoc]
      exact congrArg (· ++ [fill]) hrest
    · refine ⟨0, ?_⟩
      rw [trimmed, List.rdropWhile_concat_neg _ _ _ (by simpa using hlast), List.replicate_zero,
        List.append_nil]

theorem resized_eq_trimmed_append (h : items.length ≤ length) :
    resized length fill items
      = trimmed fill items ++ List.replicate (length - (trimmed fill items).length) fill := by
  obtain ⟨count, hitems⟩ := exists_eq_trimmed_append fill items
  have hlength : items.length = (trimmed fill items).length + count := by
    have hboth := congrArg List.length hitems
    rwa [List.length_append, List.length_replicate] at hboth
  have hcount : count + (length - items.length) = length - (trimmed fill items).length := by
    omega
  calc resized length fill items
      = items ++ List.replicate (length - items.length) fill := resized_of_le h
    _ = trimmed fill items ++ List.replicate count fill ++
          List.replicate (length - items.length) fill :=
        congrArg (· ++ List.replicate (length - items.length) fill) hitems
    _ = trimmed fill items ++ List.replicate (length - (trimmed fill items).length) fill := by
        rw [List.append_assoc, List.replicate_append_replicate, hcount]

/-- **Lists that are filled up are equal if they differ in what stands at the end only.** -/
theorem resized_inj (h : items.length ≤ length) (hother : other.length ≤ length) :
    resized length fill items = resized length fill other ↔
      trimmed fill items = trimmed fill other := by
  constructor
  · intro heq
    rw [resized_of_le h, resized_of_le hother] at heq
    rw [← trimmed_append_replicate (length - items.length), heq, trimmed_append_replicate]
  · intro heq
    rw [resized_eq_trimmed_append h, resized_eq_trimmed_append hother, heq]

end Filled

/-! ### Circuit strings -/

namespace Value

/-- A value that reading a raw value or following an edge gives, whatever is read or converted. -/
def Produced (value : Value) : Prop :=
  (∃ node raw, ofJson node raw = .ok value) ∨ ∃ source target, convert source target = .ok value

/-- **The circuit strings are the texts of up to 128 characters**, whichever way they come. -/
theorem produced_circuitString_iff {text : String} :
    (circuitString text).Produced ↔ text.toList.length ≤ circuitStringLength := by
  constructor
  · intro h
    rcases h with ⟨node, raw, hread⟩ | ⟨source, target, hconvert⟩
    · exact (wellFormed_ofJson hread).2
    · cases (edge_of_convert hconvert).2 with
      | asciiString hfits => exact hfits
      | utf8String hfits => exact hfits
  · intro h
    have hcheck : Refusal.checkCircuitString text = .ok () :=
      Refusal.checkCircuitString_eq_ok.mpr h
    refine .inl ⟨.minaString, .string text, ?_⟩
    have hread : Raw.value .minaString (.string text) = .ok (.circuitString text) :=
      bind_eq_ok.mpr ⟨text, rfl, bind_eq_ok.mpr ⟨(), hcheck, rfl⟩⟩
    rw [ofJson, hread]
    rfl

theorem map_val_characterFields_resized {text : String}
    (h : text.toList.length ≤ circuitStringLength) :
    (characterFields text).map Fin.val
      = (resized circuitStringLength '\x00' text.toList).map Char.toNat := by
  rw [map_val_characterFields h, resized_of_le h, List.map_append, List.map_replicate]
  rfl

/-- **Two circuit strings have the same fields if they differ in zero characters at the end
only.** -/
theorem characterFields_inj {text other : String} (h : text.toList.length ≤ circuitStringLength)
    (hother : other.toList.length ≤ circuitStringLength) :
    characterFields text = characterFields other ↔
      trimmed '\x00' text.toList = trimmed '\x00' other.toList := by
  have hpoints : Function.Injective Char.toNat := fun _ _ h => Char.ext (UInt32.toNat_inj.mp h)
  have hvalues : Function.Injective (Fin.val : Field → Nat) := fun _ _ h => Fin.ext h
  rw [← resized_inj h hother, ← (List.map_injective_iff.mpr hpoints).eq_iff,
    ← map_val_characterFields_resized h, ← map_val_characterFields_resized hother,
    (List.map_injective_iff.mpr hvalues).eq_iff]

/-- **Circuit strings become fields without confusion.**  Whatever way a circuit string came, it has
128 fields: the code points of all its characters in their order, and zeros behind them.  So these
are also the fields that a list cut or filled up to that length has.  Another circuit string has the
same fields if and only if the two are equal without the zero characters at their ends. -/
theorem circuitString_fields_faithful {text : String} (h : (circuitString text).Produced) :
    ∃ fields, (circuitString text).convert .minaFields = .ok (.fields fields) ∧
      fields.length = 128 ∧ text.toList.length ≤ 128 ∧
      fields.map Fin.val
        = text.toList.map Char.toNat ++ List.replicate (128 - text.toList.length) 0 ∧
      fields = resized 128 (Field.ofNat 0) (text.toList.map fun c => .ofNat c.toNat) ∧
      ∀ other, (circuitString other).Produced →
        ((circuitString other).convert .minaFields = .ok (.fields fields) ↔
          text.toList.rdropWhile (· = '\x00') = other.toList.rdropWhile (· = '\x00')) := by
  have hfits := produced_circuitString_iff.mp h
  refine ⟨characterFields text, rfl, length_resized, hfits, map_val_characterFields hfits, rfl, ?_⟩
  intro other hother
  have hconvert : (circuitString other).convert .minaFields
      = .ok (.fields (characterFields other)) := rfl
  have hinj := characterFields_inj hfits (produced_circuitString_iff.mp hother)
  rw [hconvert, Except.ok.injEq, fields.injEq, eq_comm, hinj]
  rfl

/-- A name with a zero character at its end is taken for the name, and two names are told apart. -/
theorem circuitString_fields_faithful_names :
    ∃ fields, ofJson .minaString (.string "Ünal") = .ok (.circuitString "Ünal") ∧
      (circuitString "Ünal").convert .minaFields = .ok (.fields fields) ∧
      (circuitString "Ünal\x00").convert .minaFields = .ok (.fields fields) ∧
      (circuitString "Unal").convert .minaFields ≠ .ok (.fields fields) := by
  have hread (text : String) (hfits : text.toList.length ≤ circuitStringLength) :
      (circuitString text).Produced := produced_circuitString_iff.mpr hfits
  obtain ⟨fields, hconvert, -, -, -, -, hsame⟩ :=
    circuitString_fields_faithful (hread "Ünal" (by decide))
  refine ⟨fields, rfl, hconvert, (hsame _ (hread _ (by decide))).mpr (by decide), fun hplain => ?_⟩
  exact absurd ((hsame _ (hread _ (by decide))).mp hplain) (by decide)

end Value

end Circuitry
