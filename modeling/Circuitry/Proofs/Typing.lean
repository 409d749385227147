import Circuitry.Proofs.Data
import Circuitry.Proofs.Graph
import Circuitry.Proofs.Resolution

/-!
# Types of the conversion graph

Every value knows the node to which it belongs, and every link names the node at which it ends.
The graph respects both: a conversion to a node returns a value of that node, so a chain returns a
value of the node in which it ends (`Value.node_ofChain`).  The type that a source declares for an
input comes from the chain of the variable at the end of its references, and the value of the input
comes from the same chain: so the value has the declared type (`Schema.Denotes.sourceType`).
-/

namespace Circuitry

open Fallible

namespace Value

/-- **A chain returns a value of the node in which it ends.** -/
theorem node_ofChain {raw : Json} {chain : Chain} {value : Value}
    (h : Value.ofChain raw chain.links = .ok value) : value.node.name = chain.last.target := by
  have hname := node_name_of_ofChain h
  rw [Chain.links, List.getLast?_concat] at hname
  exact (Option.some.inj hname).symm

end Value

/-! ### Declared types -/

theorem InputTypes.typeOf_eq_ok {schema : Schema} {limit : Nat} {path : Path} {token : SourceType}
    (h : typeOf schema limit path = .ok token) :
    ∃ terminal found chain, schema.dereference path limit = .ok (terminal, found) ∧
      found.chain = .ok chain ∧ SourceType.ofTypeName? chain.finalType = some token := by
  obtain ⟨⟨terminal, found⟩, hfound, h⟩ := bind_eq_ok.mp h
  obtain ⟨chain, hchain, h⟩ := bind_eq_ok.mp h
  cases htoken : SourceType.ofTypeName? chain.finalType with
  | none => rw [htoken] at h; cases h
  | some parsed =>
    rw [htoken] at h
    cases h
    exact ⟨terminal, found, chain, hfound, hchain, htoken⟩

theorem Schema.Denotes.ofChain {converter : Converter} {schema : Schema} {setup : Tree Json}
    {path : Path} {found : Variable} {chain : Chain} {value : Value}
    (h : schema.Denotes converter setup path value) (hg : schema.getLeaf? path = some found)
    (hchain : found.chain = .ok chain) : ∃ raw, converter raw chain.links = .ok value := by
  rw [Schema.denotes_iff, hg] at h
  cases found with
  | static raw own => cases hchain; exact ⟨raw.toJson, h⟩
  | setup own =>
    cases hchain
    obtain ⟨raw, -, -, hraw⟩ := h
    exact ⟨raw, hraw⟩
  | constant name =>
    obtain ⟨constant, hname, hconverted⟩ := h
    obtain ⟨parsed, hparsed, rfl⟩ := map_eq_ok.mp hchain
    rw [InputValues.constantParse_eq_ok, hname] at hparsed
    cases hparsed
    exact ⟨constant.json, hconverted⟩
  | reference next => cases hchain
  | function operation out => cases hchain

/-- **The value of an input has the type that is declared for it.** -/
theorem Schema.Denotes.sourceType {schema : Schema} (hs : schema.WellFormed) {setup : Tree Json}
    {limit : Nat} {path : Path} {token : SourceType} {value : Value}
    (h : schema.Denotes Value.ofChain setup path value)
    (htype : InputTypes.typeOf schema limit path = .ok token) :
    SourceType.parse (Link.typeName value.node.name) = .ok token := by
  obtain ⟨terminal, found, chain, hderef, hchain, htoken⟩ := InputTypes.typeOf_eq_ok htype
  obtain ⟨n, -, hhops, hfound, -⟩ := (Schema.dereference_eq_ok hs).mp hderef
  obtain ⟨raw, hraw⟩ := ((hhops.denotes_iff value).mp h).ofChain hfound hchain
  have hnode : Link.typeName value.node.name = chain.finalType := by
    rw [Value.node_ofChain hraw]
    rfl
  rw [SourceType.parse, hnode, htoken]

end Circuitry
