import Circuitry.Proofs.Decoding
import Circuitry.Proofs.WellFormed

/-!
# There and back through the conversion graph

Some nodes have edges in both directions: the two kinds of text, texts and bytes, bytes and the
integers of every width, integers of different widths, and the numbers of sixty-four bits among the
field elements (`Node.connected_iff`, `Node.isTwoWay`).  Going to such a node and back gives the
value again, because the edge back runs from the result to the value (`Value.Edge.reverse`).

That needs the bounds of the value: a number has room in the bytes of its width and in the width it
came from, and it is the representative of its field element.  Only bytes say more than the number
that they become.  The number forgets how many zeros stood in front, and coming back it has as many
as its width asks for (`bigEndian_ofBigEndian`).
-/

namespace Circuitry

open Fallible

/-! ### Bytes of numbers -/

theorem bigEndian_mul_add (count k n : Nat) :
    bigEndian count (k * 256 ^ count + n) = bigEndian count n := by
  induction count generalizing k with
  | zero => rfl
  | succ count ih =>
    have hsplit : k * 256 ^ (count + 1) + n = k * 256 * 256 ^ count + n := by
      rw [Nat.pow_succ, Nat.mul_comm (256 ^ count), Nat.mul_assoc]
    have hdigit : (k * 256 * 256 ^ count + n) / 256 ^ count = k * 256 + n / 256 ^ count := by
      rw [Nat.add_comm, Nat.add_mul_div_right _ _ (Nat.pow_pos (by decide)), Nat.add_comm]
    have hbyte : UInt8.ofNat (k * 256 + n / 256 ^ count) = UInt8.ofNat (n / 256 ^ count) := by
      rw [← UInt8.toNat_inj, UInt8.toNat_ofNat', UInt8.toNat_ofNat', Nat.mul_add_mod_self_right]
    rw [hsplit, bigEndian, bigEndian, ih]
    simp only [Nat.pow_eq, hdigit, hbyte]

theorem bigEndian_length_ofBigEndian (data : List UInt8) :
    bigEndian data.length (ofBigEndian data) = data := by
  induction data with
  | nil => rfl
  | cons b rest ih =>
    have hdigit : (b.toNat * 256 ^ rest.length + ofBigEndian rest) / 256 ^ rest.length
        = b.toNat := by
      rw [Nat.add_comm, Nat.add_mul_div_right _ _ (Nat.pow_pos (by decide)),
        Nat.div_eq_of_lt (ofBigEndian_lt rest), Nat.zero_add]
    rw [ofBigEndian_cons, List.length_cons, bigEndian, bigEndian_mul_add, ih]
    simp only [Nat.pow_eq, hdigit, UInt8.ofNat_toNat]

/-- **A number of given bytes has them as its last bytes**, and zeros in front of them. -/
theorem bigEndian_ofBigEndian {data : List UInt8} {count : Nat} (h : data.length ≤ count) :
    bigEndian count (ofBigEndian data) = List.replicate (count - data.length) 0 ++ data := by
  have hadd := bigEndian_add (ofBigEndian_lt data) (count - data.length)
  rwa [Nat.sub_add_cancel h, bigEndian_length_ofBigEndian] at hadd

/-! ### The nodes that have edges -/

namespace Node

/-- There is an edge between the nodes: some value of the first one is not turned away for want of
it. -/
def Connected (source target : Node) : Prop :=
  ∃ value : Value, value.node = source ∧
    value.convert target ≠ .error (.unsupported source target)

def isEdge : Node → Node → Bool
  | .ascii, .bytes | .ascii, .utf8 | .ascii, .boolean | .ascii, .minaString => true
  | .utf8, .bytes | .utf8, .ascii | .utf8, .boolean | .utf8, .minaString => true
  | .bytes, .ascii | .bytes, .utf8 | .bytes, .uint _ => true
  | .uint _, .bytes | .uint _, .uint _ | .uint _, .minaField | .uint _, .minaUInt64 => true
  | .boolean, .minaBool | .boolean, .uint _ => true
  | .base58, .minaSignature | .base58, .minaPublicKey => true
  | .isoDate, .unixTime => true
  | .unixTime, .uint _ => true
  | .minaField, .minaUInt64 | .minaField, .minaFields => true
  | .minaUInt64, .minaField | .minaUInt64, .minaFields => true
  | .minaBool, .minaField | .minaBool, .minaFields => true
  | .minaString, .minaFields => true
  | .iso3166Alpha2, .iso3166Numeric => true
  | .iso3166Numeric, .uint _ => true
  | _, _ => false

def isTwoWay : Node → Node → Bool
  | .ascii, .utf8 | .utf8, .ascii => true
  | .ascii, .bytes | .utf8, .bytes | .bytes, .ascii | .bytes, .utf8 => true
  | .uint _, .bytes | .bytes, .uint _ => true
  | .uint _, .uint _ => true
  | .minaField, .minaUInt64 | .minaUInt64, .minaField => true
  | _, _ => false

end Node

theorem Value.isNone_edge? {value : Value} (hdate : value.node ≠ .isoDate) (target : Node) :
    (value.edge? target).isNone = !value.node.isEdge target := by
  cases value with
  | isoDate => exact absurd rfl hdate
  | _ => cases target <;> rfl

/-- **A value is turned away exactly if there is no edge from its node to the target.** -/
theorem Value.convert_eq_unsupported_iff {value : Value} {target : Node} :
    value.convert target = .error (.unsupported value.node target) ↔
      value.node.isEdge target = false := by
  unfold Value.convert
  split
  · -- A date that cannot be read is refused, but not turned away.
    rename_i text
    split <;> simp [Value.node, Node.isEdge]
  · rename_i hdate
    by_cases hnode : value.node = .isoDate
    · cases value with
      | isoDate text =>
        cases target with
        | unixTime => exact absurd rfl (hdate text rfl)
        | _ => exact iff_of_true rfl rfl
      | _ => cases hnode
    · have hnone := Value.isNone_edge? hnode target
      cases hedge : value.edge? target with
      | none =>
        have hno : value.node.isEdge target = false := by simpa [hedge] using hnone
        exact iff_of_true rfl hno
      | some result =>
        have hok : value.node.isEdge target = true := by simpa [hedge] using hnone
        cases result <;> simp [Except.mapError, hok]

namespace Node

theorem exists_value (node : Node) : ∃ value : Value, value.node = node := by
  cases node with
  | ascii => exact ⟨.ascii "", rfl⟩
  | utf8 => exact ⟨.utf8 "", rfl⟩
  | bytes => exact ⟨.bytes [], rfl⟩
  | uint width => exact ⟨.uint width 0, rfl⟩
  | boolean => exact ⟨.boolean true, rfl⟩
  | base58 => exact ⟨.base58 "", rfl⟩
  | isoDate => exact ⟨.isoDate "", rfl⟩
  | unixTime => exact ⟨.unixTime 0, rfl⟩
  | minaField => exact ⟨.field (.ofNat 0), rfl⟩
  | minaUInt64 => exact ⟨.uint64 0, rfl⟩
  | minaBool => exact ⟨.bool true, rfl⟩
  | minaString => exact ⟨.circuitString "", rfl⟩
  | minaSignature => exact ⟨.signature "", rfl⟩
  | minaPublicKey => exact ⟨.publicKey "", rfl⟩
  | minaFields => exact ⟨.fields [], rfl⟩
  | iso3166Alpha2 => exact ⟨.countryCode "", rfl⟩
  | iso3166Numeric => exact ⟨.countryNumber 0, rfl⟩

/-- **The edges of the graph are those of the table.** -/
theorem connected_iff {source target : Node} :
    source.Connected target ↔ source.isEdge target = true := by
  constructor
  · rintro ⟨value, rfl, hfound⟩
    rw [ne_eq, Value.convert_eq_unsupported_iff] at hfound
    simpa using hfound
  · intro hedge
    obtain ⟨value, rfl⟩ := exists_value source
    refine ⟨value, rfl, ?_⟩
    rw [ne_eq, Value.convert_eq_unsupported_iff]
    simpa using hedge

theorem isTwoWay_eq (source target : Node) :
    source.isTwoWay target = (source.isEdge target && target.isEdge source) := by
  cases source <;> cases target <;> rfl

end Node

namespace Value

theorem convert_of_edge? {value result : Value} {target : Node}
    (h : value.edge? target = some (.ok result)) : value.convert target = .ok result := by
  unfold Value.convert
  split
  · cases h
  · rw [h]
    rfl

theorem Edge.convert {value result : Value} (h : Edge value result) :
    value.convert result.node = .ok result := by
  cases h with
  | asciiBoolean h => exact convert_of_edge? (congrArg some (map_eq_ok.mpr ⟨_, h, rfl⟩))
  | asciiString h =>
    exact convert_of_edge? (congrArg some
      (map_eq_ok.mpr ⟨(), Refusal.checkCircuitString_eq_ok.mpr h, rfl⟩))
  | utf8Ascii h =>
    exact convert_of_edge? (congrArg some (map_eq_ok.mpr ⟨(), Refusal.checkAscii_eq_ok.mpr h, rfl⟩))
  | utf8Boolean h => exact convert_of_edge? (congrArg some (map_eq_ok.mpr ⟨_, h, rfl⟩))
  | utf8String h =>
    exact convert_of_edge? (congrArg some
      (map_eq_ok.mpr ⟨(), Refusal.checkCircuitString_eq_ok.mpr h, rfl⟩))
  | bytesAscii h ha =>
    exact convert_of_edge? (congrArg some (bind_eq_ok.mpr ⟨_, textOfBytes_eq_ok.mpr h,
      bind_eq_ok.mpr ⟨(), Refusal.checkAscii_eq_ok.mpr ha, rfl⟩⟩))
  | bytesUtf8 h =>
    exact convert_of_edge? (congrArg some (map_eq_ok.mpr ⟨_, textOfBytes_eq_ok.mpr h, rfl⟩))
  | bytesUint h => exact convert_of_edge? (congrArg some (uintOfBytes_eq_ok.mpr ⟨h, rfl⟩))
  | uintUint h => exact convert_of_edge? (congrArg some (fitted_eq_ok.mpr ⟨h, rfl⟩))
  | uintUInt64 h =>
    exact convert_of_edge? (congrArg some (map_eq_ok.mpr ⟨(), Refusal.checkBits_eq_ok.mpr h, rfl⟩))
  | dateTime h =>
    simp only [node, Value.convert, h]
  | timeUint hsign h =>
    refine convert_of_edge? (congrArg some ?_)
    rw [if_neg (Int.not_lt.mpr hsign)]
    exact fitted_eq_ok.mpr ⟨h, rfl⟩
  | fieldUInt64 h => exact convert_of_edge? (congrArg some (if_pos h))
  | codeNumber h => exact convert_of_edge? (congrArg some (by rw [h]))
  | numberUint h => exact convert_of_edge? (congrArg some (fitted_eq_ok.mpr ⟨h, rfl⟩))
  | _ => exact convert_of_edge? rfl

/-- **An edge with an edge back can be reversed**, unless it makes a number of bytes. -/
theorem Edge.reverse {value result : Value} (h : Edge value result) (hv : value.WellFormed)
    (hback : result.node.isEdge value.node = true)
    (hbytes : ∀ data width n, value = .bytes data → result ≠ .uint width n) :
    Edge result value := by
  cases h with
  | asciiUtf8 text => exact .utf8Ascii hv
  | utf8Ascii _ => exact .asciiUtf8 _
  | asciiBytes text => exact .bytesAscii (Text.Utf8.decode_eq_ok.mpr rfl) hv
  | utf8Bytes text => exact .bytesUtf8 (Text.Utf8.decode_eq_ok.mpr rfl)
  | bytesAscii h _ =>
    rw [Text.Utf8.decode_eq_ok.mp h]
    exact .asciiBytes _
  | bytesUtf8 h =>
    rw [Text.Utf8.decode_eq_ok.mp h]
    exact .utf8Bytes _
  | bytesUint _ => exact absurd rfl (hbytes _ _ _ rfl)
  | uintBytes source n =>
    have hroom : (bigEndian source.bytes n.toNat).length * 8 ≤ source.bits := by
      rw [length_bigEndian, source.bits_eq]
    have hword : Word.ofBytes (bigEndian source.bytes n.toNat) = n := BitVec.eq_of_toNat_eq (by
      rw [Word.toNat_ofBytes (source.length_le hroom), ofBigEndian_bigEndian (Width.lt_bytes hv)])
    have hedge := Edge.bytesUint hroom
    rwa [hword] at hedge
  | uintUint _ => exact .uintUint hv
  | @fieldUInt64 x h =>
    have hword : (UInt64.ofNat x.val).toNat = x.val := (hv.wordExact .minaUInt64).2 h
    have hedge := Edge.uint64Field (.ofNat x.val)
    have hx : Field.ofNat x.val = x := Fin.ext (Nat.mod_eq_of_lt x.isLt)
    rwa [hword, hx] at hedge
  | uint64Field n =>
    have hn : n.toNat < capacity 64 := hv
    have hval : (Field.ofNat n.toNat).val = n.toNat := hv.wordExact .minaField
    have hedge := Edge.fieldUInt64 (hval.symm ▸ hn)
    rwa [hval, UInt64.ofNat_toNat] at hedge
  | _ => exact absurd hback Bool.false_ne_true

/-- **Conversions are reversible.**  The nodes with edges in both directions are the ones in the
list.  A value within its bounds that is converted to such a node and back is the same value again.
Only bytes that become a number come back with zeros in front, as many as the width of the number
asks for. -/
theorem convert_back :
    (∀ source target : Node, source.Connected target ∧ target.Connected source ↔
      source.isTwoWay target = true) ∧
    ∀ (value result : Value) (target : Node), value.WellFormed → target.Connected value.node →
      value.convert target = .ok result →
        (∀ data width, value = .bytes data → target = .uint width →
          data.length ≤ width.bytes ∧ result.convert .bytes =
            .ok (.bytes (List.replicate (width.bytes - data.length) 0 ++ data))) ∧
        ((∀ data width, value = .bytes data → target ≠ .uint width) →
          result.convert value.node = .ok value) := by
  refine ⟨fun source target => ?_, fun value result target hv hback h => ?_⟩
  · rw [Node.connected_iff, Node.connected_iff, Node.isTwoWay_eq, Bool.and_eq_true]
  · obtain ⟨rfl, hedge⟩ := edge_of_convert h
    rw [Node.connected_iff] at hback
    refine ⟨?_, fun hbytes => ?_⟩
    · rintro data width rfl htarget
      cases hedge with
      | bytesUint hfits =>
        cases htarget
        have hlength : data.length ≤ width.bytes := by
          rw [width.bits_eq] at hfits
          omega
        refine ⟨hlength, ?_⟩
        rw [← bigEndian_ofBigEndian hlength, ← Word.toNat_ofBytes (width.length_le hfits)]
        exact (Edge.uintBytes width (Word.ofBytes data)).convert
      | _ => cases htarget
    · refine (hedge.reverse hv hback ?_).convert
      rintro data width n hdata rfl
      exact hbytes data width hdata rfl

/-- A number that fits goes to a narrower width and back; a single byte comes back from thirty-two
bits with three zeros in front. -/
theorem convert_back_narrow :
    (Value.uint .w64 500).WellFormed ∧
      (Value.uint .w64 500).convert (.uint .w16) = .ok (.uint .w16 500) ∧
      (Value.uint .w16 500).convert (.uint .w64) = .ok (.uint .w64 500) ∧
      (Value.bytes [7]).convert (.uint .w32) = .ok (.uint .w32 7) ∧
      (Value.uint .w32 7).convert .bytes = .ok (.bytes [0, 0, 0, 7]) := by
  have hwell : (Value.uint .w64 500).WellFormed := by
    show 500 < capacity 64
    decide
  have hnarrow : (Value.uint .w64 500).convert (.uint .w16) = .ok (.uint .w16 500) :=
    (Edge.uintUint (by decide)).convert
  have hsmall : (Value.bytes [7]).convert (.uint .w32) = .ok (.uint .w32 7) :=
    (Edge.bytesUint (by decide)).convert
  obtain ⟨-, hwide⟩ := convert_back.2 _ _ _ hwell (Node.connected_iff.mpr rfl) hnarrow
  obtain ⟨hpadded, -⟩ := convert_back.2 (.bytes [7]) _ _ trivial (Node.connected_iff.mpr rfl) hsmall
  exact ⟨hwell, hnarrow, hwide nofun, hsmall, (hpadded [7] .w32 rfl rfl).2⟩

end Value

end Circuitry
