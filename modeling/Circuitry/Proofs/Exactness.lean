import Circuitry.Proofs.WellFormed

/-!
# Numbers are kept along chains

Some nodes hold numbers: bytes, integers of fixed width, truth values, times, country numbers and
field elements.  `Value.number?` is the number that a value of such a node denotes.  An edge into a
numeric node keeps it (`Edge.number`): where it could wrap, cut off or reduce the number, the bounds
of the value in front of it leave no room for that.  Hence a chain through numeric nodes either
fails or returns the number that its start has read.

Except for bytes, where leading zeros count, a value is determined by its node and its number
(`Value.ofNumber?_number`).  So it does not matter on which way a number reaches a node
(`Value.ofChain_number`).
-/

namespace Circuitry

open Fallible

/-! ### Nodes -/

namespace Node

def isNumeric : Node → Bool
  | .bytes | .uint _ | .boolean | .unixTime | .minaField | .minaUInt64 | .minaBool
  | .iso3166Numeric => true
  | _ => false

def isNumericName (name : String) : Bool :=
  (ofName? name).any isNumeric

theorem ofName?_name (node : Node) : ofName? node.name = some node := by
  cases node with
  | uint width => cases width <;> decide
  | _ => decide

theorem name_injective {node other : Node} (h : node.name = other.name) : node = other := by
  have hname := ofName?_name node
  rw [h, ofName?_name] at hname
  exact (Option.some.inj hname).symm

theorem isNumericName_name (node : Node) : isNumericName node.name = node.isNumeric := by
  rw [isNumericName, ofName?_name, Option.any_some]

end Node

def Link.IsNumeric (link : Link) : Prop :=
  Node.isNumericName link.source = true ∧ Node.isNumericName link.target = true

instance (link : Link) : Decidable link.IsNumeric :=
  inferInstanceAs (Decidable (_ ∧ _))

namespace Value

/-- The integer that a value denotes: bytes are read with the most significant one first, and field
elements stand for their canonical representatives. -/
def number? : Value → Option Int
  | .bytes data => some (ofBigEndian data)
  | .uint _ n => some n.toNat
  | .uint64 n => some n.toNat
  | .countryNumber number => some number.toNat
  | .boolean b | .bool b => some b.toNat
  | .unixTime millis => some millis.toInt
  | .field x => some x.val
  | _ => none

theorem exists_number {value : Value} (h : value.node.isNumeric = true) :
    ∃ number, value.number? = some number := by
  cases value with
  | bytes | uint | boolean | unixTime | field | uint64 | bool | countryNumber => exact ⟨_, rfl⟩
  | _ => cases h

/-- The value of a numeric node that denotes a number, for all nodes but bytes. -/
def ofNumber? (node : Node) (number : Int) : Option Value :=
  match node with
  | .uint width => some (.uint width (.ofNat 128 number.toNat))
  | .boolean => some (.boolean (number == 1))
  | .unixTime => some (.unixTime (.ofInt number))
  | .minaField => some (.field (.ofNat number.toNat))
  | .minaUInt64 => some (.uint64 (.ofNat number.toNat))
  | .minaBool => some (.bool (number == 1))
  | .iso3166Numeric => some (.countryNumber (.ofNat number.toNat))
  | _ => none

/-- **A value is determined by its node and its number**, unless it is bytes. -/
theorem ofNumber?_number {value : Value} {number : Int} (hbytes : value.node ≠ .bytes)
    (hn : value.number? = some number) : ofNumber? value.node number = some value := by
  cases value with
  | bytes data => exact absurd rfl hbytes
  | uint width n =>
    cases hn
    rw [node, ofNumber?, Int.toNat_natCast, Word.ofNat_toNat]
  | unixTime millis =>
    cases hn
    rw [node, ofNumber?, Int64.ofInt_toInt]
  | uint64 n =>
    cases hn
    rw [node, ofNumber?, Int.toNat_natCast, UInt64.ofNat_toNat]
  | countryNumber n =>
    cases hn
    rw [node, ofNumber?, Int.toNat_natCast, UInt16.ofNat_toNat]
  | boolean b | bool b => cases hn; cases b <;> rfl
  | field x =>
    cases hn
    have hx : Field.ofNat x.val = x := Fin.ext (Nat.mod_eq_of_lt x.isLt)
    rw [node, ofNumber?, Int.toNat_natCast, hx]
  | _ => cases hn

/-! ### Edges -/

/-- **An edge into a numeric node keeps the number.** -/
theorem Edge.number {value result : Value} {number : Int} (h : Edge value result)
    (hv : value.WellFormed) (hresult : result.node.isNumeric = true)
    (hn : value.number? = some number) : result.number? = some number := by
  cases h with
  | asciiBytes | asciiUtf8 | asciiBoolean | asciiString | utf8Bytes | utf8Ascii | utf8Boolean
  | utf8String | base58Signature | base58PublicKey | dateTime | stringFields | codeNumber =>
    cases hn
  | bytesAscii | bytesUtf8 | fieldFields | uint64Fields | boolFields => cases hresult
  | uintUint | booleanBool => exact hn
  | @bytesUint data width h =>
    have hword : (Word.ofBytes data).toNat = ofBigEndian data := hv.wordExact (.uint width) h
    rw [← hn, number?, number?, hword]
  | @uintUInt64 source n h =>
    have hword : (UInt64.ofNat n.toNat).toNat = n.toNat := hv.wordExact .minaUInt64 h
    rw [← hn, number?, number?, hword]
  | booleanUint width b =>
    rw [← hn, number?, number?, Word.toNat_ofNat (Nat.lt_trans b.toNat_lt (by decide))]
  | @timeUint width millis hsign h =>
    obtain ⟨hword, -⟩ : TestsWidth millis.toInt.toNat width := hv.wordExact (.uint width) hsign
    rw [← hn, number?, number?, Word.toNat_ofNat hword, Int.toNat_of_nonneg hsign]
  | @fieldUInt64 x h =>
    have hword : (UInt64.ofNat x.val).toNat = x.val := (hv.wordExact .minaUInt64).2 h
    rw [← hn, number?, number?, hword]
  | @numberUint width number h =>
    obtain ⟨hword, -⟩ : TestsWidth number.toNat width := hv.wordExact (.uint width)
    rw [← hn, number?, number?, Word.toNat_ofNat hword]
  | uintBytes source n =>
    rw [← hn, number?, number?, ofBigEndian_bigEndian (Width.lt_bytes hv)]
  | uintField source n =>
    have hval : (Field.ofNat n.toNat).val = n.toNat := hv.wordExact .minaField
    rw [← hn, number?, number?, hval]
  | uint64Field n =>
    have hval : (Field.ofNat n.toNat).val = n.toNat := hv.wordExact .minaField
    rw [← hn, number?, number?, hval]
  | boolField b =>
    have hval : (Field.ofNat b.toNat).val = b.toNat := hv.wordExact .minaField
    rw [← hn, number?, number?, hval]

theorem Edge.number_eq {value result : Value} (h : Edge value result) (hv : value.WellFormed)
    (hvalue : value.node.isNumeric = true) (hresult : result.node.isNumeric = true) :
    value.number? = result.number? := by
  obtain ⟨number, hn⟩ := exists_number hvalue
  rw [hn, h.number hv hresult hn]

/-! ### Chains -/

theorem Run.number {start : Value} {links : List Link} {values : List Value} {number : Int}
    (hrun : Run start links values) (hlinks : ∀ link ∈ links, link.IsNumeric)
    (hstart : start.WellFormed) (hn : start.number? = some number) :
    ∀ passed ∈ start :: values, passed.number? = some number := by
  induction hrun with
  | nil => simpa using hn
  | @cons value next link links values hlink _ ih =>
    obtain ⟨-, htarget, hedge⟩ := edge_of_follow hlink
    obtain ⟨hnumeric, hrest⟩ := List.forall_mem_cons.mp hlinks
    have hnext : next.node.isNumeric = true := by
      rw [← Node.isNumericName_name, htarget, hnumeric.2]
    have hkept := hedge.number hstart hnext hn
    exact List.forall_mem_cons.mpr ⟨hn, ih hrest (hedge.wellFormed hstart) hkept⟩

theorem number_ofChain {raw : Json} {links : List Link} {value : Value}
    (hlinks : ∀ link ∈ links, link.IsNumeric) (h : ofChain raw links = .ok value) :
    ∃ node start number, links.head?.map Link.source = some node.name ∧
      ofJson node raw = .ok start ∧ start.number? = some number ∧ value.number? = some number := by
  obtain ⟨first, rest, node, start, values, rfl, hnode, hstart, hrun, hlast⟩ := ofChain_eq_ok.mp h
  obtain ⟨hstartNode, hwell⟩ := wellFormed_ofJson hstart
  have hname := name_of_parse hnode
  have hnumeric : start.node.isNumeric = true := by
    rw [hstartNode, ← Node.isNumericName_name, hname, (hlinks first List.mem_cons_self).1]
  obtain ⟨number, hn⟩ := exists_number hnumeric
  have hmem : value ∈ start :: values := List.mem_cons_of_mem _ (List.mem_of_getLast? hlast)
  refine ⟨node, start, number, ?_, hstart, hn, hrun.number hlinks hwell hn value hmem⟩
  rw [hname]
  rfl

/-- **Numeric chains are exact.**  What a chain through numeric nodes returns denotes the number
that its first node reads from the raw value.  So all chains from one numeric node to another return
the same value, unless they end in bytes or fail. -/
theorem ofChain_number {raw : Json} {links : List Link} {value : Value}
    (hlinks : ∀ link ∈ links, link.IsNumeric) (h : ofChain raw links = .ok value) :
    (∃ node start number, links.head?.map Link.source = some node.name ∧
      ofJson node raw = .ok start ∧ start.number? = some number ∧ value.number? = some number) ∧
    ∀ others other, (∀ link ∈ others, link.IsNumeric) →
      others.head?.map Link.source = links.head?.map Link.source →
      others.getLast?.map Link.target = links.getLast?.map Link.target →
      links.getLast?.map Link.target ≠ some Node.bytes.name →
      ofChain raw others = .ok other → other = value := by
  obtain ⟨node, start, number, hhead, hstart, hn, hvalue⟩ := number_ofChain hlinks h
  refine ⟨⟨node, start, number, hhead, hstart, hn, hvalue⟩, ?_⟩
  intro others other hothers hsame hend hbytes hother
  obtain ⟨node', start', number', hhead', hstart', hn', hvalue'⟩ := number_ofChain hothers hother
  -- Both chains read the raw value at one node, so they start with one number.
  have hnode : node' = node := by
    rw [hsame, hhead] at hhead'
    exact (Node.name_injective (Option.some.inj hhead')).symm
  subst hnode
  rw [hstart] at hstart'
  cases hstart'
  rw [hn] at hn'
  cases hn'
  -- They end at one node, which is not bytes: the number and the node determine the value.
  have hlast := node_name_of_ofChain h
  have hlast' := node_name_of_ofChain hother
  rw [hlast] at hbytes hend
  rw [hend] at hlast'
  have htarget : value.node = other.node := Node.name_injective (Option.some.inj hlast')
  have hvalueNode : value.node ≠ .bytes := fun heq => hbytes (by rw [heq])
  have hback := ofNumber?_number hvalueNode hvalue
  rw [htarget, ofNumber?_number (htarget ▸ hvalueNode) hvalue'] at hback
  exact Option.some.inj hback

/-- Five hundred reaches its field element through two widths and bytes, and on a shorter way. -/
theorem ofChain_number_detour :
    ofChain (.string "0x01f4") relay = .ok (.field (.ofNat 500)) ∧
      (∃ node start number, relay.head?.map Link.source = some node.name ∧
        ofJson node (.string "0x01f4") = .ok start ∧ start.number? = some number ∧
        (Value.field (.ofNat 500)).number? = some number) ∧
      ∀ other, ofChain (.string "0x01f4") [⟨"bytes", "uint64"⟩, ⟨"uint64", "mina:field"⟩] =
        .ok other → other = .field (.ofNat 500) := by
  have hrelay : ∀ link ∈ relay, link.IsNumeric := by decide +kernel
  have hchain : ofChain (.string "0x01f4") relay = .ok (.field (.ofNat 500)) :=
    toOption_eq_some.mp (by decide +kernel)
  obtain ⟨hnumber, hunique⟩ := ofChain_number hrelay hchain
  refine ⟨hchain, hnumber, fun other hother => ?_⟩
  exact hunique _ other (by decide +kernel) (by decide) (by decide) (by decide) hother

end Value

end Circuitry
