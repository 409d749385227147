import Circuitry.Proofs.Calendar
import Circuitry.Proofs.Country
import Circuitry.Proofs.Graph
import Circuitry.Proofs.Numerals

/-!
# Values stay within the bounds of their nodes

A value says which node it belongs to, and every node has bounds: numbers have a width, texts an
alphabet or a greatest length, country codes a table.  The bounds are `Value.WellFormed`.  Reading a
raw value respects them (`wellFormed_ofJson`), every edge keeps them (`Edge.wellFormed`), and so all
values of a chain are well formed (`ofChain_wellFormed`).

The edges compute with words of fixed width.  What they compute is what they should only as long as
nothing is shifted out of a word, cut off or reduced, and that is what the bounds of the value in
front of the edge guarantee (`WellFormed.wordExact`).
-/

namespace Circuitry

open Fallible

theorem Raw.natural_eq_ok {raw : Json} {n : Nat} :
    natural raw = .ok n ↔ natural? raw = some n := by
  unfold natural
  cases natural? raw <;> simp

theorem Json.signed?_eq_some {raw : Json} {n : Int} :
    raw.signed? = some n ↔
      raw = .number (.integer n) ∧ -capacity 63 ≤ n ∧ n < capacity 63 := by
  cases raw with
  | number number =>
    cases number with
    | integer m =>
      simp only [signed?, Number.signed?, Option.ite_none_right_eq_some, Option.some.injEq,
        Json.number.injEq, Number.integer.injEq]
      constructor
      · rintro ⟨hm, rfl⟩
        exact ⟨rfl, hm⟩
      · rintro ⟨rfl, hm⟩
        exact ⟨hm, rfl⟩
    | double x => simp [signed?, Number.signed?]
  | _ => simp [signed?]

section

variable {α : Type} {length : Nat} {fill : α} {items : List α}

theorem length_resized : (resized length fill items).length = length := by
  rw [resized, List.length_append, List.length_take, List.length_replicate]
  omega

theorem resized_of_le (h : items.length ≤ length) :
    resized length fill items = items ++ List.replicate (length - items.length) fill := by
  rw [resized, List.take_of_length_le h]

end

namespace Value

/-- A value within the bounds of its node. -/
def WellFormed : Value → Prop
  | .ascii text => ∀ c ∈ text.toList, c.toNat < 128
  | .uint width n => n.toNat < capacity width.bits
  | .base58 text | .signature text | .publicKey text =>
    text.toList ≠ [] ∧ ∀ c ∈ text.toList, c ∈ Refusal.base58Alphabet
  | .unixTime millis => -capacity 63 ≤ millis.toInt ∧ millis.toInt < capacity 63
  | .field x => x.val < Field.modulus
  | .uint64 n => n.toNat < capacity 64
  | .circuitString text => text.toList.length ≤ circuitStringLength
  | .fields xs => ∀ x ∈ xs, x.val < Field.modulus
  | .countryCode code => ∃ number, (code, number) ∈ Country.codes
  | .countryNumber number => ∃ code, (code, number) ∈ Country.codes
  | .utf8 _ | .bytes _ | .boolean _ | .bool _ | .isoDate _ => True

/-! ### Edges -/

/-- **Every edge keeps values within bounds.** -/
theorem Edge.wellFormed {value result : Value} (h : Edge value result) (hv : value.WellFormed) :
    result.WellFormed := by
  cases h with
  | asciiBytes | asciiUtf8 | asciiBoolean | utf8Bytes | utf8Boolean | bytesUtf8 | uintBytes
  | booleanBool => trivial
  | asciiString h => exact h
  | utf8String h => exact h
  | utf8Ascii h => exact h
  | bytesAscii _ h => exact h
  | @bytesUint data width h =>
    have hlt := ofBigEndian_lt data
    rw [← capacity_bytes, ← Word.toNat_ofBytes (width.length_le h)] at hlt
    exact Nat.lt_of_lt_of_le hlt (capacity_le h)
  | uintUint h => exact h
  | timeUint _ h => exact h
  | numberUint h => exact h
  | uintUInt64 | fieldUInt64 => exact UInt64.toNat_lt _
  | booleanUint width b =>
    have hone : b.toNat < capacity 1 := b.toNat_lt
    refine Word.toNat_ofNat_lt (Nat.lt_of_lt_of_le hone (capacity_le ?_))
    cases width <;> decide
  | base58Signature => exact hv
  | base58PublicKey => exact hv
  | dateTime => exact ⟨Int64.le_toInt _, Int64.toInt_lt _⟩
  | uintField | uint64Field | boolField => exact Fin.isLt _
  | fieldFields | uint64Fields | boolFields | stringFields => exact fun x _ => x.isLt
  | @codeNumber code number h => exact ⟨code, Country.numeric?_eq_some_iff.mp h⟩

/-! ### Raw values -/

theorem read_eq_ok {α : Type} {read : Except Refusal α} {f : α → Value} {value : Value} :
    (do return f (← read) : Except Refusal Value) = .ok value ↔
      ∃ a, read = .ok a ∧ f a = value := by
  rw [bind_eq_ok]
  simp only [pure_eq_ok]

theorem checked_eq_ok {α : Type} {read : Except Refusal α} {check : α → Except Refusal Unit}
    {f : α → Value} {value : Value} :
    (do let a ← read; check a; return f a : Except Refusal Value) = .ok value ↔
      ∃ a, read = .ok a ∧ check a = .ok () ∧ f a = value := by
  rw [bind_eq_ok]
  simp only [bind_eq_ok, pure_eq_ok]
  exact exists_congr fun a => and_congr_right fun _ => ⟨fun ⟨_, h⟩ => h, fun h => ⟨(), h⟩⟩

/-- **Reading a raw value at a node gives a value of the node, within its bounds.** -/
theorem wellFormed_ofJson {node : Node} {raw : Json} {value : Value}
    (h : ofJson node raw = .ok value) : value.node = node ∧ value.WellFormed := by
  have h := mapError_eq_ok.mp h
  cases node with
  | ascii =>
    obtain ⟨text, -, hascii, rfl⟩ := checked_eq_ok.mp h
    exact ⟨rfl, Refusal.checkAscii_eq_ok.mp hascii⟩
  | utf8 =>
    obtain ⟨text, -, rfl⟩ := read_eq_ok.mp h
    exact ⟨rfl, trivial⟩
  | bytes =>
    obtain ⟨data, -, rfl⟩ := read_eq_ok.mp h
    exact ⟨rfl, trivial⟩
  | uint width =>
    obtain ⟨n, -, hbits, rfl⟩ := checked_eq_ok.mp h
    exact ⟨rfl, Word.toNat_ofNat_lt (Refusal.checkBits_eq_ok.mp hbits)⟩
  | boolean =>
    obtain ⟨b, -, rfl⟩ := read_eq_ok.mp h
    exact ⟨rfl, trivial⟩
  | base58 =>
    obtain ⟨text, -, hbase, rfl⟩ := checked_eq_ok.mp h
    exact ⟨rfl, Refusal.checkBase58_eq_ok.mp hbase⟩
  | isoDate =>
    obtain ⟨text, -, rfl⟩ := read_eq_ok.mp h
    exact ⟨rfl, trivial⟩
  | unixTime =>
    simp only [Raw.value] at h
    split at h
    · cases h
      exact ⟨rfl, Int64.le_toInt _, Int64.toInt_lt _⟩
    · cases h
  | minaField =>
    obtain ⟨x, -, rfl⟩ := read_eq_ok.mp h
    exact ⟨rfl, x.isLt⟩
  | minaUInt64 =>
    obtain ⟨n, -, -, rfl⟩ := checked_eq_ok.mp h
    exact ⟨rfl, UInt64.toNat_lt _⟩
  | minaBool =>
    obtain ⟨b, -, rfl⟩ := read_eq_ok.mp h
    exact ⟨rfl, trivial⟩
  | minaString =>
    obtain ⟨text, -, hlength, rfl⟩ := checked_eq_ok.mp h
    exact ⟨rfl, Refusal.checkCircuitString_eq_ok.mp hlength⟩
  | minaSignature =>
    obtain ⟨text, -, hbase, rfl⟩ := checked_eq_ok.mp h
    exact ⟨rfl, Refusal.checkBase58_eq_ok.mp hbase⟩
  | minaPublicKey =>
    obtain ⟨text, -, hbase, rfl⟩ := checked_eq_ok.mp h
    exact ⟨rfl, Refusal.checkBase58_eq_ok.mp hbase⟩
  | minaFields =>
    simp only [Raw.value] at h
    split at h
    · obtain ⟨xs, -, rfl⟩ := read_eq_ok.mp h
      exact ⟨rfl, fun x _ => x.isLt⟩
    · cases h
  | iso3166Alpha2 =>
    obtain ⟨code, -, h⟩ := bind_eq_ok.mp h
    split at h
    · rename_i number hnumber
      cases h
      exact ⟨rfl, number, Country.numeric?_eq_some_iff.mp hnumber⟩
    · cases h
  | iso3166Numeric =>
    obtain ⟨n, -, h⟩ := bind_eq_ok.mp h
    split at h
    · rename_i hnumeric
      rw [Bool.and_eq_true] at hnumeric
      cases h
      exact ⟨rfl, Country.isNumeric_iff.mp hnumeric.2⟩
    · cases h

/-! ### Arithmetic on words -/

/-- The test by which a number is refused at a width: it is shifted out of a word of 128 bits,
unless the width has all of them.  The number is a word, and the test tells whether it fits. -/
def TestsWidth (n : Nat) (width : Width) : Prop :=
  n < capacity 128 ∧
    (width.bits < 128 ∧ BitVec.ofNat 128 n >>> width.bits ≠ 0 ↔ capacity width.bits ≤ n)

/-- **The arithmetic of the edge to a node is exact**: bytes are shifted into a word without loss,
the bytes that are cut off in front of a number are zeros, the test for a width is right, a number
is the representative of its field element, a field element is cut to a word exactly if nothing of
it gets lost, what is cut to sixty-four bits has no more of them, and all characters of a text have
their places. -/
def WordExact : Value → Node → Prop
  | .bytes data, .uint width =>
    data.length * 8 ≤ width.bits → (Word.ofBytes data).toNat = ofBigEndian data
  | .uint width n, .bytes =>
    n.toNat < capacity 128 ∧ width.bytes ≤ 16 ∧
      bigEndian 16 n.toNat = List.replicate (16 - width.bytes) 0 ++ bigEndian width.bytes n.toNat
  | .uint _ n, .uint width => TestsWidth n.toNat width
  | .countryNumber number, .uint width => TestsWidth number.toNat width
  | .unixTime millis, .uint width => 0 ≤ millis.toInt → TestsWidth millis.toInt.toNat width
  | .uint _ n, .minaField => (Field.ofNat n.toNat).val = n.toNat
  | .uint _ n, .minaUInt64 => n.toNat < capacity 64 → (UInt64.ofNat n.toNat).toNat = n.toNat
  | .uint64 n, .minaField | .uint64 n, .minaFields => (Field.ofNat n.toNat).val = n.toNat
  | .bool b, .minaField | .bool b, .minaFields => (Field.ofNat b.toNat).val = b.toNat
  | .field x, .minaUInt64 =>
    (bigEndian 32 x.val = List.replicate 16 0 ++ bigEndian 16 x.val ↔ x.val < capacity 128) ∧
      (x.val < capacity 64 → (UInt64.ofNat x.val).toNat = x.val)
  | .isoDate text, .unixTime =>
    ∀ millis, Calendar.millis? text = some millis → (Int64.ofInt millis).toInt = millis
  | .circuitString text, .minaFields =>
    (characterFields text).length = circuitStringLength ∧
      (characterFields text).map Fin.val = text.toList.map Char.toNat ++
        List.replicate (circuitStringLength - text.toList.length) 0
  | _, _ => True

theorem testsWidth {n : Nat} (h : n < capacity 128) (width : Width) : TestsWidth n width := by
  refine ⟨h, ?_⟩
  rw [Word.shiftRight_ne_zero, Word.toNat_ofNat h]
  constructor
  · exact fun hover => hover.2
  · intro hover
    refine ⟨Nat.lt_of_le_of_ne width.bits_le fun hall => ?_, hover⟩
    rw [hall] at hover
    exact Nat.not_lt.mpr hover h

theorem map_val_characterFields {text : String} (h : text.toList.length ≤ circuitStringLength) :
    (characterFields text).map Fin.val = text.toList.map Char.toNat ++
      List.replicate (circuitStringLength - text.toList.length) 0 := by
  have hpoint (c : Char) : (Field.ofNat c.toNat).val = c.toNat :=
    Field.val_ofNat (Nat.lt_trans c.val.toNat_lt (by decide))
  have hzero : (Field.ofNat 0).val = 0 := rfl
  rw [characterFields, resized_of_le (by rwa [List.length_map])]
  simp [Function.comp_def, hpoint, hzero]

theorem countryNumber_lt {code : String} {number : UInt16} (h : (code, number) ∈ Country.codes) :
    number.toNat < capacity 10 := by
  have hall : ∀ entry ∈ Country.codes, entry.2.toNat < capacity 10 := by decide +kernel
  exact hall _ h

/-- **The edges out of a well-formed value compute exactly.** -/
theorem WellFormed.wordExact {value : Value} (h : value.WellFormed) (target : Node) :
    value.WordExact target := by
  cases value with
  | bytes data =>
    cases target with
    | uint width =>
      intro hfits
      exact Word.toNat_ofBytes (width.length_le hfits)
    | _ => trivial
  | uint width n =>
    have hword : n.toNat < capacity 128 := n.isLt
    cases target with
    | bytes =>
      have hbytes : width.bytes ≤ 16 := by cases width <;> decide
      refine ⟨hword, hbytes, ?_⟩
      rw [← bigEndian_add (Width.lt_bytes h), Nat.sub_add_cancel hbytes]
    | uint other => exact testsWidth hword other
    | minaField => exact Field.val_ofNat hword
    | minaUInt64 => exact UInt64.toNat_ofNat_of_lt
    | _ => trivial
  | unixTime millis =>
    cases target with
    | uint width =>
      intro hsign
      have hcapacity : capacity 63 < capacity 128 := by decide
      refine testsWidth (Nat.lt_trans ?_ hcapacity) width
      have hmillis := h.2
      omega
    | _ => trivial
  | uint64 n =>
    have hword : n.toNat < capacity 128 := Nat.lt_of_lt_of_le h (capacity_le (by decide))
    cases target with
    | minaField => exact Field.val_ofNat hword
    | minaFields => exact Field.val_ofNat hword
    | _ => trivial
  | bool b =>
    have hone : b.toNat < capacity 1 := b.toNat_lt
    have hword : b.toNat < capacity 128 := Nat.lt_of_lt_of_le hone (capacity_le (by decide))
    cases target with
    | minaField => exact Field.val_ofNat hword
    | minaFields => exact Field.val_ofNat hword
    | _ => trivial
  | field x =>
    cases target with
    | minaUInt64 =>
      have hroom : x.val < 256 ^ (16 + 16) := x.val_lt
      exact ⟨bigEndian_eq_replicate_append hroom, UInt64.toNat_ofNat_of_lt⟩
    | _ => trivial
  | circuitString text =>
    cases target with
    | minaFields =>
      exact ⟨length_resized, map_val_characterFields h⟩
    | _ => trivial
  | isoDate text =>
    cases target with
    | unixTime =>
      intro millis hmillis
      obtain ⟨hlow, hhigh⟩ := Calendar.millis?_range hmillis
      exact Int64.toInt_ofInt_of_le hlow hhigh
    | _ => trivial
  | countryNumber number =>
    obtain ⟨code, hcode⟩ := h
    have hword : number.toNat < capacity 128 :=
      Nat.lt_of_lt_of_le (countryNumber_lt hcode) (capacity_le (by decide))
    cases target with
    | uint width => exact testsWidth hword width
    | _ => trivial
  | ascii text | utf8 text | base58 text | signature text | publicKey text | boolean b | fields xs
  | countryCode code => cases target <;> trivial

/-! ### Chains -/

theorem Run.wellFormed {node : Node} {raw : Json} {start : Value} {links : List Link}
    {values : List Value} (hrun : Run start links values) (hstart : ofJson node raw = .ok start) :
    ∀ passed ∈ start :: values, passed.WellFormed :=
  hrun.forall (wellFormed_ofJson hstart).2 Edge.wellFormed

/-- **Chains are sound.**  What a chain returns belongs to the node in which its last link ends and
is within the bounds of that node.  So is every value on the way, from the raw value as the first
node reads it to the result, each belongs to the node at which its link ends, and the arithmetic of
every edge out of such a value is exact. -/
theorem ofChain_wellFormed {raw : Json} {links : List Link} {value : Value}
    (h : ofChain raw links = .ok value) :
    links.getLast?.map Link.target = some value.node.name ∧ value.WellFormed ∧
      ∃ node start values, links.head?.map Link.source = some node.name ∧
        ofJson node raw = .ok start ∧ start.node = node ∧
        Run start links values ∧ values.getLast? = some value ∧
        values.map (fun passed => passed.node.name) = links.map Link.target ∧
        ∀ passed ∈ start :: values,
          passed.WellFormed ∧ ∀ target, passed.WordExact target := by
  obtain ⟨first, rest, node, start, values, rfl, hnode, hstart, hrun, hlast⟩ := ofChain_eq_ok.mp h
  have hall := hrun.wellFormed hstart
  have hmem : value ∈ start :: values := List.mem_cons_of_mem _ (List.mem_of_getLast? hlast)
  refine ⟨node_name_of_ofChain h, hall value hmem, node, start, values, ?_, hstart,
    (wellFormed_ofJson hstart).1, hrun, hlast, hrun.node_names,
    fun passed hp => ⟨hall passed hp, (hall passed hp).wordExact⟩⟩
  rw [name_of_parse hnode]
  rfl

/-- A chain of five links: bytes into a word, two widths, back to bytes and on to a field. -/
def relay : List Link :=
  [⟨"bytes", "uint32"⟩, ⟨"uint32", "uint16"⟩, ⟨"uint16", "bytes"⟩, ⟨"bytes", "uint128"⟩,
    ⟨"uint128", "mina:field"⟩]

/-- The bytes `01f4` become the field element of five hundred. -/
theorem ofChain_wellFormed_relay :
    ofChain (.string "0x01f4") relay = .ok (.field (.ofNat 500)) ∧
      relay.getLast?.map Link.target = some (Value.field (.ofNat 500)).node.name ∧
      (Value.field (.ofNat 500)).WellFormed := by
  have hchain : ofChain (.string "0x01f4") relay = .ok (.field (.ofNat 500)) :=
    toOption_eq_some.mp (by decide +kernel)
  obtain ⟨hnode, hwell, -⟩ := ofChain_wellFormed hchain
  exact ⟨hchain, hnode, hwell⟩

end Value

end Circuitry
