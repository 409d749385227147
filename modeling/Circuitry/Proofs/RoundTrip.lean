import Circuitry.Proofs.WellFormed

/-!
# Values are read back from their JSON form

Typed values leave the library as JSON, each kind in a form of its own: texts as they are, bytes and
field elements as digits, numbers of fixed width as decimal text, times and country numbers as
integers.  The node of a value reads that form, and what it reads is the value again, as long as the
value is within the bounds of its node (`Value.WellFormed.reads_back`).  All values that reading
or a chain can produce are (`Value.ofJson_toJson`).
-/

namespace Circuitry

open Fallible

/-! ### The forms of raw values -/

namespace Raw

/-- Digits of bytes never look like digits behind `0x`. -/
theorem hexDigits?_encode (data : List UInt8) : hexDigits? (Text.Hex.encode data) = none := by
  unfold hexDigits?
  split
  · rename_i rest heq
    cases data with
    | nil => simp [Text.Hex.encode] at heq
    | cons b data =>
      have hall : ∀ m : Fin 16, Text.Hex.digit m.val ≠ 'x' := by decide
      rw [Text.Hex.encode, String.toList_ofList, List.flatMap_cons, Text.Hex.byteDigits] at heq
      simp only [List.cons_append, List.cons.injEq] at heq
      exact absurd heq.2.1 (hall ⟨b.toNat % 16, Nat.mod_lt _ (by decide)⟩)
  · rfl

theorem bytes_encode (data : List UInt8) : bytes (.string (Text.Hex.encode data)) = .ok data := by
  rw [bytes, hexDigits?_encode, Option.getD_none, hex, Text.Hex.decode_encode]
  rfl

theorem field_toHex (x : Field) : field (.string x.toHex) = .ok x := by
  have hdigits : hexDigits? x.toHex = some (Text.Hex.encode (bigEndian 32 x.val)).toList := by
    rw [hexDigits?, Field.toHex, String.toList_append]
    rfl
  have hcanonical : Field.ofCanonical? x.val = some x := by
    rw [Field.ofCanonical?, dif_pos x.isLt]
  have hread : hex (Text.Hex.encode (bigEndian 32 x.val)).toList = .ok (bigEndian 32 x.val) := by
    rw [hex, Text.Hex.decode_encode]
    rfl
  rw [field, Json.string?, Option.bind_some, hdigits]
  refine bind_eq_ok.mpr ⟨bigEndian 32 x.val, hread, ?_⟩
  rw [if_neg (by rw [length_bigEndian]; decide), ofBigEndian_bigEndian x.val_lt, hcanonical]

theorem natural_repr {n : Nat} (h : n < capacity 128) : natural (.string n.repr) = .ok n := by
  rw [natural, natural?, decimal?_repr h]

theorem natural_ofNat {n : Nat} (h : n < capacity 64) : natural (.ofNat n) = .ok n := by
  have hrange : (0 : Int) ≤ n ∧ (n : Int) < capacity 64 := by omega
  rw [natural, Json.ofNat, natural?, Number.unsigned?, if_pos hrange]
  rfl

end Raw

namespace Value

/-- **A well-formed value is what its node reads from its JSON form**: one case for every kind of
value. -/
theorem WellFormed.reads_back {value : Value} (h : value.WellFormed) :
    ofJson value.node value.toJson = .ok value := by
  apply mapError_eq_ok.mpr
  cases value with
  | ascii text => exact checked_eq_ok.mpr ⟨text, rfl, Refusal.checkAscii_eq_ok.mpr h, rfl⟩
  | utf8 text => rfl
  | bytes data => exact read_eq_ok.mpr ⟨data, Raw.bytes_encode data, rfl⟩
  | uint width n =>
    exact checked_eq_ok.mpr ⟨n.toNat, Raw.natural_repr n.isLt, Refusal.checkBits_eq_ok.mpr h,
      congrArg (Value.uint width) (Word.ofNat_toNat n)⟩
  | boolean b => rfl
  | base58 text => exact checked_eq_ok.mpr ⟨text, rfl, Refusal.checkBase58_eq_ok.mpr h, rfl⟩
  | isoDate text => rfl
  | unixTime millis =>
    have hsigned := Json.signed?_eq_some.mpr ⟨rfl, h⟩
    simp only [node, toJson, Raw.value, hsigned, Int64.ofInt_toInt]
    rfl
  | field x => exact read_eq_ok.mpr ⟨x, Raw.field_toHex x, rfl⟩
  | uint64 n =>
    have hword : n.toNat < capacity 128 := Nat.lt_of_lt_of_le h (capacity_le (by decide))
    exact checked_eq_ok.mpr ⟨n.toNat, Raw.natural_repr hword, Refusal.checkBits_eq_ok.mpr h,
      congrArg Value.uint64 UInt64.ofNat_toNat⟩
  | bool b => rfl
  | circuitString text =>
    exact checked_eq_ok.mpr ⟨text, rfl, Refusal.checkCircuitString_eq_ok.mpr h, rfl⟩
  | signature text => exact checked_eq_ok.mpr ⟨text, rfl, Refusal.checkBase58_eq_ok.mpr h, rfl⟩
  | publicKey text => exact checked_eq_ok.mpr ⟨text, rfl, Refusal.checkBase58_eq_ok.mpr h, rfl⟩
  | fields xs =>
    refine read_eq_ok.mpr ⟨xs, mapM_eq_ok.mpr ?_, rfl⟩
    rw [List.forall₂_map_left_iff]
    exact List.forall₂_same.mpr fun x _ => Raw.field_toHex x
  | countryCode code =>
    obtain ⟨number, hcode⟩ := h
    refine bind_eq_ok.mpr ⟨code, rfl, ?_⟩
    rw [Country.numeric?_eq_some_iff.mpr hcode]
    rfl
  | countryNumber number =>
    obtain ⟨code, hcode⟩ := h
    have hroom : number.toNat < capacity 16 := number.toNat_lt
    have hword : number.toNat < capacity 64 := Nat.lt_of_lt_of_le hroom (capacity_le (by decide))
    refine bind_eq_ok.mpr ⟨number.toNat, Raw.natural_ofNat hword, ?_⟩
    rw [UInt16.ofNat_toNat, decide_eq_true hroom, Country.isNumeric_iff.mpr ⟨code, hcode⟩]
    rfl

/-- A value that reading a raw value or a chain can produce. -/
def Producible (value : Value) : Prop :=
  (∃ node raw, ofJson node raw = .ok value) ∨ ∃ raw links, ofChain raw links = .ok value

theorem Producible.wellFormed {value : Value} (h : value.Producible) : value.WellFormed := by
  obtain ⟨node, raw, hread⟩ | ⟨raw, links, hchain⟩ := h
  · exact (wellFormed_ofJson hread).2
  · obtain ⟨-, -, node, start, values, -, -, hstart, hrun, hlast⟩ := ofChain_eq_ok.mp hchain
    have hmem : value ∈ start :: values := List.mem_cons_of_mem _ (List.mem_of_getLast? hlast)
    exact hrun.wellFormed hstart value hmem

/-- **Writing a value is undone by reading it.**  Every value that can be produced is what its node
reads from its JSON form.  So no other value of the node has that form. -/
theorem ofJson_toJson {value : Value} (h : value.Producible) :
    ofJson value.node value.toJson = .ok value ∧
      ∀ other, other.Producible → other.node = value.node → other.toJson = value.toJson →
        other = value := by
  have hread := h.wellFormed.reads_back
  refine ⟨hread, fun other hother hnode hform => ?_⟩
  have hback := hother.wellFormed.reads_back
  rw [hnode, hform, hread] at hback
  exact (Except.ok.inj hback).symm

/-- A number that went through a circuit type is read back as a list of one field element. -/
theorem ofJson_toJson_fields :
    ofChain (.string "500") [⟨"uint64", "mina:uint64"⟩, ⟨"mina:uint64", "mina:fields"⟩] =
        .ok (.fields [.ofNat 500]) ∧
      ofJson .minaFields (Value.fields [.ofNat 500]).toJson = .ok (.fields [.ofNat 500]) := by
  have hchain :
      ofChain (.string "500") [⟨"uint64", "mina:uint64"⟩, ⟨"mina:uint64", "mina:fields"⟩] =
        .ok (.fields [.ofNat 500]) :=
    toOption_eq_some.mp (by decide +kernel)
  exact ⟨hchain, (ofJson_toJson (Or.inr ⟨_, _, hchain⟩)).1⟩

end Value

end Circuitry
