import Circuitry.Compiler
import Circuitry.Proofs.Resolution
import Circuitry.Proofs.Source

/-!
# Shortening references

A reference may be pointed past its target, at any later path of the same chain.  Doing so for many
references at once mixes old and new targets, but a chain of the new schema never leaves the old
chain: each of its hops is one or more hops of the old one.  So it ends where the old chain ended,
after no more hops (`Schema.Shortened.ends`), and everything that is found by following references
is found in the new schema as well: the values of the leaves and the types of the inputs.
-/

namespace Circuitry

open Fallible

namespace Schema

variable {schema changed : Schema}

/-- What may stand at `path` in place of `found`: the same, or a reference to a later path of the
chain that starts there, if that chain ends. -/
def MayBecome (schema : Schema) (path : Path) (found changed : Variable) : Prop :=
  changed = found ∨ ∃ n later, schema.Hops (n + 1) path later ∧
    (∃ m terminal last, schema.Ends m path terminal last) ∧ changed = .reference later

/-- A schema in which any number of references point further along their chains. -/
def Shortened (schema changed : Schema) : Prop :=
  ∃ jump : Path → Variable → Variable, changed = schema.mapLeaves jump ∧
    ∀ path found, schema.getLeaf? path = some found → schema.MayBecome path found (jump path found)

/-- **A chain that ends passes through every path that its references lead to.** -/
theorem Hops.ends_later {m n : Nat} {path later terminal : Path} {found : Variable}
    (hops : schema.Hops m path later) (h : schema.Ends n path terminal found) :
    ∃ k, n = k + m ∧ schema.Ends k later terminal found := by
  induction hops generalizing n with
  | here path => exact ⟨n, rfl, h⟩
  | hop hg _ ih =>
    rcases h.cases with ⟨-, -, hown, hr⟩ | ⟨n', next, rfl, hnext, hrest⟩
    · rw [hg] at hown
      cases hown
      cases hr
    · rw [hg] at hnext
      cases hnext
      obtain ⟨k, rfl, hk⟩ := ih hrest
      exact ⟨k, rfl, hk⟩

theorem Hops.exists_reference {n : Nat} {path later : Path}
    (hops : schema.Hops (n + 1) path later) :
    ∃ next, schema.getLeaf? path = some (.reference next) := by
  cases hops with
  | hop hg _ => exact ⟨_, hg⟩

namespace Shortened

/-! ### The leaves -/

theorem leafPaths_eq (h : schema.Shortened changed) : changed.leafPaths = schema.leafPaths := by
  obtain ⟨jump, rfl, -⟩ := h
  exact Tree.leafPaths_mapLeaves schema jump

theorem getLeaf?_eq_some (h : schema.Shortened changed) {path : Path} {found : Variable}
    (hg : schema.getLeaf? path = some found) :
    ∃ new, changed.getLeaf? path = some new ∧ schema.MayBecome path found new := by
  obtain ⟨jump, rfl, hjump⟩ := h
  refine ⟨jump path found, ?_, hjump path found hg⟩
  rw [Tree.getLeaf?_mapLeaves, hg]
  rfl

theorem exists_getLeaf? (h : schema.Shortened changed) {path : Path} {new : Variable}
    (hg : changed.getLeaf? path = some new) :
    ∃ found, schema.getLeaf? path = some found := by
  have hm : path ∈ changed.leafPaths := Tree.mem_leafPaths.mpr ⟨new, hg⟩
  rw [h.leafPaths_eq] at hm
  exact Tree.mem_leafPaths.mp hm

/-- **Variables of their own stay where they are**, and no others appear. -/
theorem getLeaf?_own_iff (h : schema.Shortened changed) {path : Path} {found : Variable}
    (hr : found.isReference = false) :
    changed.getLeaf? path = some found ↔ schema.getLeaf? path = some found := by
  constructor
  · intro hg
    obtain ⟨old, hold⟩ := h.exists_getLeaf? hg
    obtain ⟨new, hnew, rfl | ⟨n, later, -, -, rfl⟩⟩ := h.getLeaf?_eq_some hold
    · rw [hg] at hnew
      rw [hold, hnew]
    · rw [hg] at hnew
      cases hnew
      cases hr
  · intro hg
    obtain ⟨new, hnew, rfl | ⟨n, later, hops, -, -⟩⟩ := h.getLeaf?_eq_some hg
    · exact hnew
    · obtain ⟨next, hnext⟩ := hops.exists_reference
      rw [hg] at hnext
      cases hnext
      cases hr

theorem exists_reference (h : schema.Shortened changed) {path next : Path}
    (hg : changed.getLeaf? path = some (.reference next)) :
    ∃ old, schema.getLeaf? path = some (.reference old) := by
  obtain ⟨found, hfound⟩ := h.exists_getLeaf? hg
  cases hr : found.isReference with
  | false =>
    rw [(h.getLeaf?_own_iff hr).mpr hfound] at hg
    cases hg
    cases hr
  | true =>
    obtain ⟨old, rfl⟩ := Variable.isReference_iff.mp hr
    exact ⟨old, hfound⟩

theorem wellFormed (h : schema.Shortened changed) (hs : schema.WellFormed) :
    changed.WellFormed where
  trimmed := by
    obtain ⟨jump, rfl, -⟩ := h
    exact hs.trimmed.mapLeaves jump
  path path new hg := by
    obtain ⟨found, hfound⟩ := h.exists_getLeaf? hg
    exact hs.path path found hfound
  notFunction path operation out hg :=
    hs.notFunction path operation out ((h.getLeaf?_own_iff rfl).mp hg)

/-! ### Chains and what they find -/

/-- **Chains end where they ended before, and not later.** -/
theorem ends (h : schema.Shortened changed) {n : Nat} {path terminal : Path} {found : Variable}
    (he : schema.Ends n path terminal found) :
    ∃ m ≤ n, changed.Ends m path terminal found := by
  -- The induction is on the hops left on the old chain; one new hop may take several of them.
  induction n using Nat.strongRecOn generalizing path with
  | ind n ih =>
    rcases he.cases with ⟨rfl, rfl, hg, hr⟩ | ⟨k, next, rfl, hg, hrest⟩
    · exact ⟨0, Nat.le_refl 0, ends_zero ((h.getLeaf?_own_iff hr).mpr hg) hr⟩
    · obtain ⟨new, hnew, rfl | ⟨j, later, hops, -, rfl⟩⟩ := h.getLeaf?_eq_some hg
      · obtain ⟨m, hm, hends⟩ := ih k (by omega) hrest
        exact ⟨m + 1, by omega, hends.hop hnew⟩
      · obtain ⟨left, hleft, hlater⟩ := hops.ends_later he
        obtain ⟨m, hm, hends⟩ := ih left (by omega) hlater
        exact ⟨m + 1, by omega, hends.hop hnew⟩

theorem dereference (h : schema.Shortened changed) (hs : schema.WellFormed) {limit : Nat}
    {path terminal : Path} {found : Variable}
    (hd : schema.dereference path limit = .ok (terminal, found)) :
    changed.dereference path limit = .ok (terminal, found) := by
  obtain ⟨n, hn, he⟩ := (dereference_eq_ok hs).mp hd
  obtain ⟨m, hm, hends⟩ := h.ends he
  exact (dereference_eq_ok (h.wellFormed hs)).mpr ⟨m, by omega, hends⟩

variable {converter : Converter} {limit : Nat} {setup : Tree Json}

theorem denotes_own_iff (h : schema.Shortened changed) {path : Path} {found : Variable}
    (hg : schema.getLeaf? path = some found) (hr : found.isReference = false) (value : Value) :
    changed.Denotes converter setup path value ↔ schema.Denotes converter setup path value := by
  have hnew := (h.getLeaf?_own_iff hr).mpr hg
  rw [denotes_iff, denotes_iff, hg, hnew]
  cases found with
  | reference next => cases hr
  | _ => rfl

theorem resolvable (h : schema.Shortened changed)
    (hres : schema.Resolvable converter limit setup) :
    changed.Resolvable converter limit setup where
  static path raw chain hg := hres.static path raw chain ((h.getLeaf?_own_iff rfl).mp hg)
  constant path name hg := hres.constant path name ((h.getLeaf?_own_iff rfl).mp hg)
  setup path chain hg := hres.setup path chain ((h.getLeaf?_own_iff rfl).mp hg)
  reference path next hg := by
    obtain ⟨old, hold⟩ := h.exists_reference hg
    obtain ⟨n, terminal, found, hn, he⟩ := hres.reference path old hold
    obtain ⟨m, hm, hends⟩ := h.ends he
    exact ⟨m, terminal, found, by omega, hends⟩

/-- **Every leaf denotes what it denoted**, if all chains end. -/
theorem denotes_iff (h : schema.Shortened changed)
    (hres : schema.Resolvable converter limit setup) (path : Path) (value : Value) :
    changed.Denotes converter setup path value ↔ schema.Denotes converter setup path value := by
  cases hg : schema.getLeaf? path with
  | none =>
    constructor
    · intro hd
      obtain ⟨new, hnew⟩ := hd.exists_leaf
      obtain ⟨found, hfound⟩ := h.exists_getLeaf? hnew
      rw [hg] at hfound
      cases hfound
    · intro hd
      obtain ⟨found, hfound⟩ := hd.exists_leaf
      rw [hg] at hfound
      cases hfound
  | some found =>
    cases hr : found.isReference with
    | false => exact h.denotes_own_iff hg hr value
    | true =>
      -- Both chains end at one variable of its own, and that is what both leaves denote.
      obtain ⟨next, rfl⟩ := Variable.isReference_iff.mp hr
      obtain ⟨n, terminal, last, -, he⟩ := hres.reference path next hg
      obtain ⟨m, -, hends⟩ := h.ends he
      rw [hends.1.denotes_iff, Hops.denotes_iff he.1]
      exact h.denotes_own_iff he.2.1 he.2.2 value

theorem ofSetup (h : schema.Shortened changed) (hs : schema.WellFormed) {values : InputValues}
    (hv : InputValues.ofSetup converter limit schema setup = .ok values) :
    InputValues.ofSetup converter limit changed setup = .ok values := by
  obtain ⟨hres, htrimmed, hholds⟩ := InputValues.of_ofSetup hs hv
  have hchanged := h.wellFormed hs
  rcases InputValues.ofSetup_cases converter limit setup hchanged with
    ⟨found, hfound, -⟩ | ⟨e, -, hfails, -⟩
  · obtain ⟨-, htrimmed', hholds'⟩ := InputValues.of_ofSetup hchanged hfound
    have hsame : found = values := by
      refine Tree.ext_getLeaf? htrimmed' htrimmed fun path => Option.ext fun value => ?_
      rw [hholds', hholds, h.denotes_iff hres]
    rw [hfound, hsame]
  · exact absurd (h.resolvable hres) hfails

/-! ### Sources -/

theorem inputPaths_eq (h : schema.Shortened changed) (target : Target) :
    changed.inputPaths target = schema.inputPaths target := by
  rw [inputPaths, inputPaths, h.leafPaths_eq]

theorem typeOf (h : schema.Shortened changed) (hs : schema.WellFormed) {path : Path}
    {token : SourceType} (ht : InputTypes.typeOf schema limit path = .ok token) :
    InputTypes.typeOf changed limit path = .ok token := by
  unfold InputTypes.typeOf at ht ⊢
  obtain ⟨⟨terminal, found⟩, hfound, ht⟩ := bind_eq_ok.mp ht
  exact bind_eq_ok.mpr ⟨(terminal, found), h.dereference hs hfound, ht⟩

theorem ofPaths (h : schema.Shortened changed) (hs : schema.WellFormed) {paths : List Path}
    {types : InputTypes} (ht : InputTypes.ofPaths schema limit paths = .ok types) :
    InputTypes.ofPaths changed limit paths = .ok types := by
  refine foldlM_mono ht fun path _ state next hadd => ?_
  obtain ⟨token, htoken, hput⟩ := bind_eq_ok.mp hadd
  exact bind_eq_ok.mpr ⟨token, h.typeOf hs htoken, hput⟩

theorem ofProgram {program : Program} (h : program.schema.Shortened changed)
    (hs : program.schema.WellFormed) {config : Config} {outline : Outline}
    (ho : Outline.ofProgram converter config program = .ok outline) :
    Outline.ofProgram converter config { program with schema := changed } = .ok outline := by
  obtain ⟨hmethod, hpaths, names, hnames, htypes, hstatements⟩ := Outline.ofProgram_eq_ok.mp ho
  refine Outline.ofProgram_eq_ok.mpr ⟨hmethod, ?_, names, hnames, h.ofPaths hs htypes, hstatements⟩
  rw [hpaths, h.inputPaths_eq]

/-- **Shortening references changes nothing.**  Let any references of a schema that was read, whose
chains end, point to later paths of their chains.  Whatever the limit, a resolution that succeeds
gives the same values for the new schema, and a program that has a source has the same source with
it. -/
theorem keeps_values_and_source {document : Json} (hschema : Schema.ofJson document = .ok schema)
    (hshort : schema.Shortened changed) :
    (∀ converter limit setup values,
      InputValues.ofSetup converter limit schema setup = .ok values →
      InputValues.ofSetup converter limit changed setup = .ok values) ∧
    ∀ (compiler : Compiler) (program : Program) text, program.schema = schema →
      compiler.translate program = .ok text →
      compiler.translate { program with schema := changed } = .ok text := by
  have hs := wellFormed_ofJson hschema
  refine ⟨fun converter limit setup values hv => hshort.ofSetup hs hv, ?_⟩
  rintro compiler program text rfl htext
  obtain ⟨outline, houtline, hsource⟩ := bind_eq_ok.mp htext
  exact bind_eq_ok.mpr ⟨outline, hshort.ofProgram hs houtline, hsource⟩

/-- Three references, one after the other, to a setup value. -/
def relaySchema : Json :=
  let reference (key : String) : Json :=
    .object [("type", .string "reference"), ("path", .array [.string "private", .string key])]
  .object [
    ("private", .object [
      ("age", .object [("type", .string "setup"),
        ("transLinks", .array [.string "uint64-mina:field"])]),
      ("first", reference "second"),
      ("second", reference "third"),
      ("third", reference "age")])]

def relay : Schema :=
  (Schema.ofJson relaySchema).toOption.getD .empty

/-- The first reference skips the second, and the second skips the third. -/
def relayJump (path : Path) (found : Variable) : Variable :=
  if path = ["private", "first"] then .reference ["private", "third"]
  else if path = ["private", "second"] then .reference ["private", "age"]
  else found

def shortRelay : Schema := relay.mapLeaves relayJump

theorem relay_shortened : relay.Shortened shortRelay := by
  have hfirst : relay.getLeaf? ["private", "first"]
      = some (.reference ["private", "second"]) := rfl
  have hsecond : relay.getLeaf? ["private", "second"]
      = some (.reference ["private", "third"]) := rfl
  have hthird : relay.getLeaf? ["private", "third"]
      = some (.reference ["private", "age"]) := rfl
  obtain ⟨last, hlast, hr⟩ : ∃ last, relay.getLeaf? ["private", "age"] = some last ∧
      last.isReference = false := ⟨_, rfl, rfl⟩
  have hends : relay.Ends 2 ["private", "second"] ["private", "age"] last :=
    ((ends_zero hlast hr).hop hthird).hop hsecond
  refine ⟨relayJump, rfl, fun path found _ => ?_⟩
  unfold relayJump
  split
  · rename_i heq
    subst heq
    exact .inr ⟨1, _, .hop hfirst (.hop hsecond (.here _)), ⟨3, _, last, hends.hop hfirst⟩, rfl⟩
  · split
    · rename_i heq
      subst heq
      exact .inr ⟨1, _, hends.1, ⟨2, _, last, hends⟩, rfl⟩
    · exact .inl rfl

/-- The references of the relay need three hops, and two of the new ones do; the values and the
source are the same. -/
theorem keeps_values_and_source_relay :
    Schema.ofJson relaySchema = .ok relay ∧ relay.Shortened shortRelay ∧
      (∃ values, InputValues.ofSetup Value.ofChain 3 relay (Tree.ofJson InputValues.echoSetup)
          = .ok values ∧
        InputValues.ofSetup Value.ofChain 3 shortRelay (Tree.ofJson InputValues.echoSetup)
          = .ok values) ∧
      (InputValues.ofSetup Value.ofChain 2 relay (Tree.ofJson InputValues.echoSetup)).isOk = false ∧
      (InputValues.ofSetup Value.ofChain 2 shortRelay (Tree.ofJson InputValues.echoSetup)).isOk
        = true ∧
      ∃ text, Compiler.translate {} ⟨.zkProgram, relay, [], []⟩ = .ok text ∧
        Compiler.translate {} ⟨.zkProgram, shortRelay, [], []⟩ = .ok text := by
  have hschema : Schema.ofJson relaySchema = .ok relay := rfl
  let program : Program := ⟨.zkProgram, relay, [], []⟩
  have hprogram : program.WellFormed := ⟨wellFormed_ofJson hschema, nofun⟩
  obtain ⟨values, hvalues⟩ := isOk_iff.mp (show (InputValues.ofSetup Value.ofChain 3 relay
    (Tree.ofJson InputValues.echoSetup)).isOk = true by decide +kernel)
  obtain ⟨outline, houtline⟩ := isOk_iff.mp (show (Outline.ofProgram Value.ofChain {}
    program).isOk = true by decide +kernel)
  have htext : Compiler.translate {} program = _ :=
    Program.source_of_assembled houtline (Outline.of_ofProgram hprogram houtline)
  obtain ⟨hkeepsValues, hkeepsSource⟩ := keeps_values_and_source hschema relay_shortened
  exact ⟨hschema, relay_shortened,
    ⟨values, hvalues, hkeepsValues Value.ofChain 3 _ values hvalues⟩,
    by decide +kernel, by decide +kernel,
    _, htext, hkeepsSource {} program _ rfl htext⟩

end Shortened

end Schema

end Circuitry
