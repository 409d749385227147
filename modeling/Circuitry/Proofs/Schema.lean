import Circuitry.Program.Document
import Circuitry.Proofs.Tree

/-!
# What reading a program guarantees

Everything that is later said of programs is said of programs that were read from a document, and
reading checks more than the types say.  A schema that was read has no barren positions, all its
leaves lie below a region at keys that can stand in a placeholder, and none of them is the result
of an operation (`Schema.wellFormed_ofJson`).  A program that was read names the results of its
commands by identifiers (`Program.wellFormed_ofJson`).
-/

namespace Circuitry

open Fallible

theorem Variable.isReference_iff {found : Variable} :
    found.isReference = true ↔ ∃ next, found = .reference next := by
  cases found <;> simp [Variable.isReference]

namespace Schema

/-- A path to a variable of a schema: a region, and keys that can stand in a placeholder. -/
structure IsVariablePath (path : Path) : Prop where
  region : ∃ region keys, path = region :: keys ∧ isRegion region = true
  keys : ∀ key ∈ path, isKey key = true

/-- What reading guarantees of a schema. -/
structure WellFormed (schema : Schema) : Prop where
  trimmed : Tree.Trimmed schema
  path : ∀ path found, schema.getLeaf? path = some found → IsVariablePath path
  notFunction : ∀ path operation out, schema.getLeaf? path ≠ some (.function operation out)

theorem WellFormed.hasOwnValue {schema : Schema} (hs : schema.WellFormed) {path : Path}
    {found : Variable} (hg : schema.getLeaf? path = some found) (hr : found.isReference = false) :
    found.hasOwnValue = true := by
  cases found with
  | static value chain => rfl
  | setup chain => rfl
  | constant name => rfl
  | reference next => cases hr
  | function operation out => exact absurd hg (hs.notFunction path operation out)

/-- A leaf that was found below `path`. -/
structure Below (path : Path) (leaf : Path × Variable) : Prop where
  keys : ∃ keys, leaf.1 = path ++ keys ∧ ∀ key ∈ keys, isKey key = true
  notFunction : ∀ operation out, leaf.2 ≠ .function operation out

theorem leafOf_below {path : Path} {json : Json} {leaf : Path × Variable}
    (h : leafOf path json = .ok leaf) : Below path leaf := by
  unfold leafOf at h
  obtain ⟨found, -, h⟩ := bind_eq_ok.mp h
  split at h
  · cases h
  · rename_i hn
    cases h
    exact ⟨⟨[], by simp⟩, hn⟩

theorem Below.of_append {path : Path} {key : String} {leaf : Path × Variable}
    (h : Below (path ++ [key]) leaf) (hk : isKey key = true) : Below path leaf := by
  obtain ⟨keys, hkeys, hall⟩ := h.keys
  refine ⟨⟨key :: keys, by simpa using hkeys, fun k hm => ?_⟩, h.notFunction⟩
  rcases List.mem_cons.mp hm with rfl | hm
  · exact hk
  · exact hall k hm

mutual

theorem leavesOf_below : ∀ (json : Json) (path : Path) {leaves : List (Path × Variable)},
    leavesOf path json = .ok leaves → ∀ leaf ∈ leaves, Below path leaf
  | .object members, path, leaves, h, leaf, hm => by
    rw [leavesOf] at h
    split at h
    · obtain ⟨found, hf, rfl⟩ := map_eq_ok.mp h
      rw [List.mem_singleton.mp hm]
      exact leafOf_below hf
    · exact leavesAmong_below members path h leaf hm
  | .null, _, _, h, _, _ | .bool _, _, _, h, _, _ | .number _, _, _, h, _, _
  | .string _, _, _, h, _, _ | .array _, _, _, h, _, _ => by
    rw [leavesOf] at h
    · cases h
    · intro members hm
      cases hm

theorem leavesAmong_below : ∀ (members : List (String × Json)) (path : Path)
    {leaves : List (Path × Variable)}, leavesAmong path members = .ok leaves →
    ∀ leaf ∈ leaves, Below path leaf
  | [], _, _, h, _, hm => by
    rw [leavesAmong] at h
    cases h
    cases hm
  | (key, json) :: rest, path, leaves, h, leaf, hm => by
    rw [leavesAmong] at h
    cases hk : isKey key with
    | false => rw [hk] at h; cases h
    | true =>
      simp only [hk, Bool.not_true, Bool.false_eq_true, if_false] at h
      obtain ⟨-, -, h⟩ := bind_eq_ok.mp h
      obtain ⟨first, hfirst, h⟩ := bind_eq_ok.mp h
      obtain ⟨others, hothers, heq⟩ := bind_eq_ok.mp h
      rw [← pure_eq_ok.mp heq] at hm
      rcases List.mem_append.mp hm with hm | hm
      · exact (leavesOf_below json (path ++ [key]) hfirst leaf hm).of_append hk
      · exact leavesAmong_below rest path hothers leaf hm

end

theorem isKey_of_isRegion {region : String} (h : isRegion region = true) : isKey region = true := by
  rcases Bool.or_eq_true_iff.mp h with h | h
  · rw [beq_iff_eq.mp h]
    decide
  · rw [beq_iff_eq.mp h]
    decide

theorem regionOf_below {region : String} {json : Json} {leaves : List (Path × Variable)}
    (h : regionOf region json = .ok leaves) : ∀ leaf ∈ leaves, Below [region] leaf := by
  unfold regionOf at h
  split at h
  · split at h
    · cases h
    · exact leavesAmong_below _ _ h
  · cases h

theorem ofJson_eq_ok {json : Json} {schema : Schema} (h : ofJson json = .ok schema) :
    ∃ members leaves, json.canonical = .object members ∧
      (∀ member ∈ members, isRegion member.1 = true) ∧ regionsOf members = .ok leaves ∧
      Tree.empty.putAll leaves = .ok schema := by
  unfold ofJson at h
  split at h
  · rename_i members hobject
    cases hregions : members.find? fun member => !isRegion member.1 with
    | some member => rw [hregions] at h; cases h
    | none =>
      rw [hregions] at h
      cases hprivate : (members.lookup Path.privateRegion).isNone with
      | true => rw [hprivate] at h; cases h
      | false =>
        rw [hprivate] at h
        obtain ⟨leaves, hleaves, hput⟩ := bind_eq_ok.mp h
        refine ⟨members, leaves, hobject, fun member hm => ?_, hleaves, mapError_eq_ok.mp hput⟩
        simpa using List.find?_eq_none.mp hregions member hm
  · cases h

/-- **A schema that was read is well formed.** -/
theorem wellFormed_ofJson {json : Json} {schema : Schema} (h : ofJson json = .ok schema) :
    schema.WellFormed := by
  obtain ⟨members, leaves, -, hregions, hleaves, hput⟩ := ofJson_eq_ok h
  obtain ⟨lists, hlists, rfl⟩ := map_eq_ok.mp hleaves
  have hbelow : ∀ leaf ∈ lists.flatten, ∃ region, isRegion region = true ∧ Below [region] leaf := by
    intro leaf hm
    obtain ⟨list, hl, hm⟩ := List.mem_flatten.mp hm
    obtain ⟨member, hmember, hr⟩ := exists_of_mem_mapM hlists hl
    exact ⟨member.1, hregions member hmember, regionOf_below hr leaf hm⟩
  have hmem : ∀ path found, schema.getLeaf? path = some found → (path, found) ∈ lists.flatten := by
    intro path found hf
    rcases Tree.mem_of_getLeaf?_putAll hput hf with hm | hm
    · exact hm
    · rw [Tree.getLeaf?_empty] at hm
      cases hm
  refine ⟨Tree.trimmed_empty.putAll hput, fun path found hf => ?_, fun path operation out hf => ?_⟩
  · obtain ⟨region, hregion, hb⟩ := hbelow _ (hmem path found hf)
    obtain ⟨keys, hpath, hkeys⟩ := hb.keys
    refine ⟨⟨region, keys, hpath, hregion⟩, fun key hk => ?_⟩
    rw [show path = region :: keys from hpath] at hk
    rcases List.mem_cons.mp hk with rfl | hk
    · exact isKey_of_isRegion hregion
    · exact hkeys key hk
  · obtain ⟨region, -, hb⟩ := hbelow _ (hmem path _ hf)
    exact hb.notFunction operation out rfl

end Schema

/-- What reading guarantees of a program. -/
structure Program.WellFormed (program : Program) : Prop where
  schema : program.schema.WellFormed
  outputs : ∀ command ∈ program.commands, ∀ out, command.out = some out →
    Identifier.isValid out = true

theorem Command.isValid_outputName {operator : Operator} {json : Option Json} {out : String}
    (h : outputName operator json = .ok (some out)) : Identifier.isValid out = true := by
  unfold outputName at h
  split at h
  · cases h
  · cases h
  · rename_i name
    split at h
    · cases h
    · split at h
      · cases h
      · rename_i hv
        cases h
        simpa using hv
  · cases h

theorem Command.isValid_out {json : Json} {index : Nat} {command : Command} {out : String}
    (h : Command.ofJson json index = .ok command) (ho : command.out = some out) :
    Identifier.isValid out = true := by
  unfold Command.ofJson at h
  split at h
  · unfold Command.ofBodies at h
    obtain ⟨operators, -, h⟩ := bind_eq_ok.mp h
    split at h
    · unfold Command.ofBody at h
      split at h
      · split at h
        · obtain ⟨operation, -, h⟩ := bind_eq_ok.mp h
          obtain ⟨name, hname, h⟩ := bind_eq_ok.mp h
          cases h
          rw [show name = some out from ho] at hname
          exact isValid_outputName hname
        · cases h
      · cases h
    · cases h
    · cases h
  · cases h

/-- **A program that was read is well formed.** -/
theorem Program.wellFormed_ofJson {json : Json} {program : Program}
    (h : Program.ofJson json = .ok program) : program.WellFormed := by
  unfold Program.ofJson at h
  split at h
  case h_2 => cases h
  split at h
  case h_2 => cases h
  obtain ⟨target, -, h⟩ := bind_eq_ok.mp h
  split at h
  case h_2 => cases h
  obtain ⟨schema, hschema, h⟩ := bind_eq_ok.mp h
  obtain ⟨commands, hcommands, h⟩ := bind_eq_ok.mp h
  obtain ⟨options, -, h⟩ := bind_eq_ok.mp h
  cases h
  refine ⟨Schema.wellFormed_ofJson hschema, fun command hm out ho => ?_⟩
  unfold Program.commandsOf at hcommands
  split at hcommands
  · cases hcommands
    cases hm
  · obtain ⟨⟨item, index⟩, -, hitem⟩ := exists_of_mem_mapM hcommands hm
    exact Command.isValid_out hitem ho
  · cases hcommands

end Circuitry
