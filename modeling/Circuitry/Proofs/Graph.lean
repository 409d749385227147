import Circuitry.Conversion.Graph
import Circuitry.Proofs.Fallible

/-!
# The edges of the conversion graph

Conversions are written as one function over all pairs of a value and a target.  `Value.Edge` lists
what it does instead: one rule for every edge, with the guard under which the edge can be followed.
`Value.edge_of_convert` says that a conversion returns a value of its target along an edge, and
`Value.ofChain_eq_ok` that a chain returns the last value of a run of links (`Value.Run`).  What
later files say of all conversions is proved edge by edge, and what they say of all chains by
induction on the run.
-/

namespace Circuitry

open Fallible

/-! ### The guards of the edges -/

namespace Refusal

theorem checkAscii_eq_ok {text : String} {done : Unit} :
    checkAscii text = .ok done ↔ ∀ c ∈ text.toList, c.toNat < 128 := by
  simp [checkAscii]

theorem checkBits_eq_ok {n bits : Nat} {done : Unit} :
    checkBits n bits = .ok done ↔ n < capacity bits := by
  simp [checkBits]

theorem checkCircuitString_eq_ok {text : String} {done : Unit} :
    checkCircuitString text = .ok done ↔ text.toList.length ≤ circuitStringLength := by
  simp [checkCircuitString]

theorem checkBase58_eq_ok {text : String} {done : Unit} :
    checkBase58 text = .ok done ↔
      text.toList ≠ [] ∧ ∀ c ∈ text.toList, c ∈ base58Alphabet := by
  unfold checkBase58
  cases hfind : text.toList.find? fun c => !base58Alphabet.contains c with
  | some c =>
    have hbad := List.find?_some hfind
    have hmem := List.mem_of_find?_eq_some hfind
    simp only [reduceCtorEq, false_iff, not_and, not_forall]
    exact fun _ => ⟨c, hmem, by simpa using hbad⟩
  | none =>
    have hall : ∀ c ∈ text.toList, c ∈ base58Alphabet := by simpa using hfind
    simpa using fun _ => hall

end Refusal

namespace Value

theorem fitted_eq_ok {width : Width} {n : Word} {result : Value} :
    fitted width n = .ok result ↔ n.toNat < capacity width.bits ∧ result = .uint width n := by
  unfold fitted
  rw [bind_eq_ok]
  constructor
  · rintro ⟨done, hbits, h⟩
    exact ⟨Refusal.checkBits_eq_ok.mp hbits, (pure_eq_ok.mp h).symm⟩
  · rintro ⟨hbits, rfl⟩
    exact ⟨(), Refusal.checkBits_eq_ok.mpr hbits, rfl⟩

theorem uintOfBytes_eq_ok {width : Width} {data : List UInt8} {result : Value} :
    uintOfBytes width data = .ok result ↔
      data.length * 8 ≤ width.bits ∧ result = .uint width (.ofBytes data) := by
  unfold uintOfBytes
  split
  · rename_i h
    simp [Nat.not_le.mpr h]
  · rename_i h
    simp [Nat.not_lt.mp h, eq_comm]

theorem textOfBytes_eq_ok {data : List UInt8} {text : String} :
    textOfBytes data = .ok text ↔ Text.Utf8.decode data = .ok text :=
  mapError_eq_ok

/-! ### The edges -/

/-- One conversion: the value before it, and the value that it returns. -/
inductive Edge : Value → Value → Prop
  | asciiBytes (text : String) : Edge (.ascii text) (.bytes (Text.Utf8.encode text))
  | asciiUtf8 (text : String) : Edge (.ascii text) (.utf8 text)
  | asciiBoolean {text : String} {b : Bool} (h : Raw.boolean (.string text) = .ok b) :
      Edge (.ascii text) (.boolean b)
  | asciiString {text : String} (h : text.toList.length ≤ circuitStringLength) :
      Edge (.ascii text) (.circuitString text)
  | utf8Bytes (text : String) : Edge (.utf8 text) (.bytes (Text.Utf8.encode text))
  | utf8Ascii {text : String} (h : ∀ c ∈ text.toList, c.toNat < 128) :
      Edge (.utf8 text) (.ascii text)
  | utf8Boolean {text : String} {b : Bool} (h : Raw.boolean (.string text) = .ok b) :
      Edge (.utf8 text) (.boolean b)
  | utf8String {text : String} (h : text.toList.length ≤ circuitStringLength) :
      Edge (.utf8 text) (.circuitString text)
  | bytesAscii {data : List UInt8} {text : String} (h : Text.Utf8.decode data = .ok text)
      (ha : ∀ c ∈ text.toList, c.toNat < 128) : Edge (.bytes data) (.ascii text)
  | bytesUtf8 {data : List UInt8} {text : String} (h : Text.Utf8.decode data = .ok text) :
      Edge (.bytes data) (.utf8 text)
  | bytesUint {data : List UInt8} {width : Width} (h : data.length * 8 ≤ width.bits) :
      Edge (.bytes data) (.uint width (.ofBytes data))
  | uintBytes (source : Width) (n : Word) :
      Edge (.uint source n) (.bytes (bigEndian source.bytes n.toNat))
  | uintUint {source width : Width} {n : Word} (h : n.toNat < capacity width.bits) :
      Edge (.uint source n) (.uint width n)
  | uintField (source : Width) (n : Word) : Edge (.uint source n) (.field (.ofNat n.toNat))
  | uintUInt64 {source : Width} {n : Word} (h : n.toNat < capacity 64) :
      Edge (.uint source n) (.uint64 (.ofNat n.toNat))
  | booleanBool (b : Bool) : Edge (.boolean b) (.bool b)
  | booleanUint (width : Width) (b : Bool) : Edge (.boolean b) (.uint width (.ofNat 128 b.toNat))
  | base58Signature (text : String) : Edge (.base58 text) (.signature text)
  | base58PublicKey (text : String) : Edge (.base58 text) (.publicKey text)
  | dateTime {text : String} {millis : Int} (h : Calendar.millis? text = some millis) :
      Edge (.isoDate text) (.unixTime (.ofInt millis))
  | timeUint {width : Width} {millis : Int64} (hsign : 0 ≤ millis.toInt)
      (h : (BitVec.ofNat 128 millis.toInt.toNat).toNat < capacity width.bits) :
      Edge (.unixTime millis) (.uint width (.ofNat 128 millis.toInt.toNat))
  | fieldUInt64 {x : Field} (h : x.val < capacity 64) : Edge (.field x) (.uint64 (.ofNat x.val))
  | fieldFields (x : Field) : Edge (.field x) (.fields [x])
  | uint64Field (n : UInt64) : Edge (.uint64 n) (.field (.ofNat n.toNat))
  | uint64Fields (n : UInt64) : Edge (.uint64 n) (.fields [.ofNat n.toNat])
  | boolField (b : Bool) : Edge (.bool b) (.field (.ofNat b.toNat))
  | boolFields (b : Bool) : Edge (.bool b) (.fields [.ofNat b.toNat])
  | stringFields (text : String) : Edge (.circuitString text) (.fields (characterFields text))
  | codeNumber {code : String} {number : UInt16} (h : Country.numeric? code = some number) :
      Edge (.countryCode code) (.countryNumber number)
  | numberUint {width : Width} {number : UInt16}
      (h : (BitVec.ofNat 128 number.toNat).toNat < capacity width.bits) :
      Edge (.countryNumber number) (.uint width (.ofNat 128 number.toNat))

/-- Along a guarded edge: what the guard lets through is what the rule of the edge asks for. -/
theorem along {α : Type} {guard : Except Refusal α} {f : α → Value} {value result : Value}
    {target : Node} (h : guard.map f = .ok result)
    (hf : ∀ a, guard = .ok a → (f a).node = target ∧ Edge value (f a)) :
    result.node = target ∧ Edge value result := by
  obtain ⟨a, hguard, rfl⟩ := map_eq_ok.mp h
  exact hf a hguard

theorem along_fitted {width : Width} {n : Word} {value result : Value}
    (h : fitted width n = .ok result)
    (hf : n.toNat < capacity width.bits → Edge value (.uint width n)) :
    result.node = .uint width ∧ Edge value result := by
  obtain ⟨hn, rfl⟩ := fitted_eq_ok.mp h
  exact ⟨rfl, hf hn⟩

/-- **Every conversion runs along an edge to its target**: one case for every node with edges. -/
theorem edge_of_edge? {value result : Value} {target : Node}
    (h : value.edge? target = some (.ok result)) : result.node = target ∧ Edge value result := by
  cases value with
  | ascii text =>
    simp only [edge?] at h
    split at h
    · cases h; exact ⟨rfl, .asciiBytes text⟩
    · cases h; exact ⟨rfl, .asciiUtf8 text⟩
    · exact along (Option.some.inj h) fun b hb => ⟨rfl, .asciiBoolean hb⟩
    · exact along (Option.some.inj h) fun _ hs =>
        ⟨rfl, .asciiString (Refusal.checkCircuitString_eq_ok.mp hs)⟩
    · cases h
  | utf8 text =>
    simp only [edge?] at h
    split at h
    · cases h; exact ⟨rfl, .utf8Bytes text⟩
    · exact along (Option.some.inj h) fun _ ha =>
        ⟨rfl, .utf8Ascii (Refusal.checkAscii_eq_ok.mp ha)⟩
    · exact along (Option.some.inj h) fun b hb => ⟨rfl, .utf8Boolean hb⟩
    · exact along (Option.some.inj h) fun _ hs =>
        ⟨rfl, .utf8String (Refusal.checkCircuitString_eq_ok.mp hs)⟩
    · cases h
  | bytes data =>
    simp only [edge?] at h
    split at h
    · obtain ⟨text, htext, h⟩ := bind_eq_ok.mp (Option.some.inj h)
      obtain ⟨done, hascii, h⟩ := bind_eq_ok.mp h
      cases h
      exact ⟨rfl, .bytesAscii (textOfBytes_eq_ok.mp htext) (Refusal.checkAscii_eq_ok.mp hascii)⟩
    · exact along (Option.some.inj h) fun text htext =>
        ⟨rfl, .bytesUtf8 (textOfBytes_eq_ok.mp htext)⟩
    · obtain ⟨hfits, rfl⟩ := uintOfBytes_eq_ok.mp (Option.some.inj h)
      exact ⟨rfl, .bytesUint hfits⟩
    · cases h
  | uint source n =>
    simp only [edge?] at h
    split at h
    · cases h; exact ⟨rfl, .uintBytes source n⟩
    · exact along_fitted (Option.some.inj h) .uintUint
    · cases h; exact ⟨rfl, .uintField source n⟩
    · exact along (Option.some.inj h) fun _ hn =>
        ⟨rfl, .uintUInt64 (Refusal.checkBits_eq_ok.mp hn)⟩
    · cases h
  | boolean b =>
    simp only [edge?] at h
    split at h
    · cases h; exact ⟨rfl, .booleanBool b⟩
    · cases h; exact ⟨rfl, .booleanUint _ b⟩
    · cases h
  | base58 text =>
    simp only [edge?] at h
    split at h
    · cases h; exact ⟨rfl, .base58Signature text⟩
    · cases h; exact ⟨rfl, .base58PublicKey text⟩
    · cases h
  | unixTime millis =>
    simp only [edge?] at h
    split at h
    · have h := Option.some.inj h
      split at h
      · cases h
      · rename_i hsign
        exact along_fitted h (.timeUint (Int.not_lt.mp hsign))
    · cases h
  | field x =>
    simp only [edge?] at h
    split at h
    · have h := Option.some.inj h
      split at h
      · rename_i hx
        cases h
        exact ⟨rfl, .fieldUInt64 hx⟩
      · cases h
    · cases h; exact ⟨rfl, .fieldFields x⟩
    · cases h
  | uint64 n =>
    simp only [edge?] at h
    split at h
    · cases h; exact ⟨rfl, .uint64Field n⟩
    · cases h; exact ⟨rfl, .uint64Fields n⟩
    · cases h
  | bool b =>
    simp only [edge?] at h
    split at h
    · cases h; exact ⟨rfl, .boolField b⟩
    · cases h; exact ⟨rfl, .boolFields b⟩
    · cases h
  | circuitString text =>
    simp only [edge?] at h
    split at h
    · cases h; exact ⟨rfl, .stringFields text⟩
    · cases h
  | countryCode code =>
    simp only [edge?] at h
    split at h
    · have h := Option.some.inj h
      split at h
      · rename_i number hnumber
        cases h
        exact ⟨rfl, .codeNumber hnumber⟩
      · cases h
    · cases h
  | countryNumber number =>
    simp only [edge?] at h
    split at h
    · exact along_fitted (Option.some.inj h) .numberUint
    · cases h
  | isoDate text => cases h
  | signature text => cases h
  | publicKey text => cases h
  | fields xs => cases h

theorem edge_of_convert {value result : Value} {target : Node}
    (h : value.convert target = .ok result) : result.node = target ∧ Edge value result := by
  unfold convert at h
  split at h
  · rename_i text
    split at h
    · rename_i millis hmillis
      cases h
      exact ⟨rfl, .dateTime hmillis⟩
    · cases h
  · split at h
    · rename_i found hedge
      have hok := mapError_eq_ok.mp h
      exact edge_of_edge? (hok ▸ hedge)
    · cases h

/-! ### Runs -/

theorem name_of_parse {name : String} {node : Node} (h : Node.parse name = .ok node) :
    node.name = name := by
  unfold Node.parse at h
  cases hname : Node.ofName? name with
  | none => rw [hname] at h; cases h
  | some found =>
    rw [hname] at h
    cases h
    exact beq_iff_eq.mp (List.find?_some (p := fun node : Node => node.name == name) hname)

theorem edge_of_follow {value result : Value} {link : Link} (h : value.follow link = .ok result) :
    value.node.name = link.source ∧ result.node.name = link.target ∧ Edge value result := by
  obtain ⟨source, hsource, h⟩ := bind_eq_ok.mp h
  obtain ⟨target, htarget, h⟩ := bind_eq_ok.mp h
  split at h
  · rename_i hnode
    obtain ⟨hresult, hedge⟩ := edge_of_convert h
    rw [hnode, hresult]
    exact ⟨name_of_parse hsource, name_of_parse htarget, hedge⟩
  · cases h

/-- The values that a chain of links passes through after its start, one for every link. -/
inductive Run : Value → List Link → List Value → Prop
  | nil (value : Value) : Run value [] []
  | cons {value next : Value} {link : Link} {links : List Link} {values : List Value}
      (hlink : value.follow link = .ok next) (hrest : Run next links values) :
      Run value (link :: links) (next :: values)

theorem foldlM_follow_eq_ok {links : List Link} {start result : Value} :
    links.foldlM follow start = .ok result ↔
      ∃ values, Run start links values ∧ (start :: values).getLast? = some result := by
  induction links generalizing start with
  | nil =>
    rw [List.foldlM_nil, pure_eq_ok]
    constructor
    · rintro rfl
      exact ⟨[], .nil start, rfl⟩
    · rintro ⟨values, hrun, hlast⟩
      cases hrun
      exact Option.some.inj hlast
  | cons link links ih =>
    rw [List.foldlM_cons, bind_eq_ok]
    constructor
    · rintro ⟨next, hlink, hrest⟩
      obtain ⟨values, hrun, hlast⟩ := ih.mp hrest
      exact ⟨next :: values, .cons hlink hrun, by rwa [List.getLast?_cons_cons]⟩
    · rintro ⟨values, hrun, hlast⟩
      cases hrun with
      | cons hlink hrun =>
        rw [List.getLast?_cons_cons] at hlast
        exact ⟨_, hlink, ih.mpr ⟨_, hrun, hlast⟩⟩

/-- **What a chain returns is the last value of a run** from the value that the node at its start
reads. -/
theorem ofChain_eq_ok {raw : Json} {links : List Link} {value : Value} :
    ofChain raw links = .ok value ↔ ∃ first rest node start values, links = first :: rest ∧
      Node.parse first.source = .ok node ∧ ofJson node raw = .ok start ∧
      Run start links values ∧ values.getLast? = some value := by
  cases links with
  | nil => simp [ofChain]
  | cons first rest =>
    constructor
    · intro h
      obtain ⟨node, hnode, h⟩ := bind_eq_ok.mp h
      obtain ⟨start, hstart, h⟩ := bind_eq_ok.mp h
      obtain ⟨values, hrun, hlast⟩ := foldlM_follow_eq_ok.mp h
      refine ⟨first, rest, node, start, values, rfl, hnode, hstart, hrun, ?_⟩
      cases hrun
      rwa [List.getLast?_cons_cons] at hlast
    · rintro ⟨_, _, node, start, values, heq, hnode, hstart, hrun, hlast⟩
      cases heq
      refine bind_eq_ok.mpr ⟨node, hnode, bind_eq_ok.mpr ⟨start, hstart, ?_⟩⟩
      refine foldlM_follow_eq_ok.mpr ⟨values, hrun, ?_⟩
      cases hrun
      rwa [List.getLast?_cons_cons]

theorem Run.forall {motive : Value → Prop} {start : Value} {links : List Link}
    {values : List Value} (hrun : Run start links values) (hstart : motive start)
    (hedge : ∀ {value next}, Edge value next → motive value → motive next) :
    ∀ value ∈ start :: values, motive value := by
  induction hrun with
  | nil => simpa using hstart
  | cons hlink _ ih =>
    have hnext := hedge (edge_of_follow hlink).2.2 hstart
    exact List.forall_mem_cons.mpr ⟨hstart, ih hnext⟩

theorem Run.node_names {start : Value} {links : List Link} {values : List Value}
    (hrun : Run start links values) :
    values.map (fun value => value.node.name) = links.map Link.target := by
  induction hrun with
  | nil => rfl
  | cons hlink _ ih => rw [List.map_cons, List.map_cons, ih, (edge_of_follow hlink).2.1]

theorem node_name_of_ofChain {raw : Json} {links : List Link} {value : Value}
    (h : ofChain raw links = .ok value) :
    links.getLast?.map Link.target = some value.node.name := by
  obtain ⟨-, -, node, start, values, -, -, -, hrun, hlast⟩ := ofChain_eq_ok.mp h
  rw [← List.getLast?_map, ← hrun.node_names, List.getLast?_map, hlast]
  rfl

end Value

end Circuitry
