import Circuitry.Input.Values
import Circuitry.Proofs.Schema

/-!
# What the leaves of a schema denote

Resolution runs twice over a schema: once to convert the variables that have a value of their own,
once to copy values to the references.  This file says what it computes without mentioning a run.

`Schema.Denotes` is the meaning of a leaf: a literal, a constant or a setup value denotes what its
conversion gives, and a reference denotes what the leaf that it points to denotes.  `Resolvable`
says when all of this can be computed: every conversion succeeds, and every reference reaches a
variable with a value of its own within the limit.

Both loops keep an invariant that ties the tree built so far to the denotation (`OwnSoFar`,
`CopiedSoFar`), and a step of a loop fails only where a conversion or a chain of references does:
storing meets no obstacle, because all paths are leaves of one schema.
-/

namespace Circuitry

open Fallible

namespace Schema

/-! ### Chains of references -/

/-- `Hops schema n path terminal`: `n` references lead from `path` to `terminal`. -/
inductive Hops (schema : Schema) : Nat → Path → Path → Prop
  | here (path : Path) : Hops schema 0 path path
  | hop {n : Nat} {path next terminal : Path} :
      schema.getLeaf? path = some (.reference next) → Hops schema n next terminal →
      Hops schema (n + 1) path terminal

/-- The references from `path` end, after `n` hops, at the variable `found` at `terminal`. -/
def Ends (schema : Schema) (n : Nat) (path terminal : Path) (found : Variable) : Prop :=
  schema.Hops n path terminal ∧ schema.getLeaf? terminal = some found ∧ found.isReference = false

theorem ends_zero {schema : Schema} {path : Path} {found : Variable}
    (hg : schema.getLeaf? path = some found) (hr : found.isReference = false) :
    schema.Ends 0 path path found :=
  ⟨.here path, hg, hr⟩

theorem Ends.hop {schema : Schema} {n : Nat} {path next terminal : Path} {found : Variable}
    (hg : schema.getLeaf? path = some (.reference next)) (h : schema.Ends n next terminal found) :
    schema.Ends (n + 1) path terminal found :=
  ⟨.hop hg h.1, h.2⟩

theorem Ends.cases {schema : Schema} {n : Nat} {path terminal : Path} {found : Variable}
    (h : schema.Ends n path terminal found) :
    (n = 0 ∧ terminal = path ∧ schema.getLeaf? path = some found ∧ found.isReference = false) ∨
      ∃ m next, n = m + 1 ∧ schema.getLeaf? path = some (.reference next) ∧
        schema.Ends m next terminal found := by
  obtain ⟨hh, hg, hr⟩ := h
  cases hh with
  | here => exact .inl ⟨rfl, rfl, hg, hr⟩
  | hop hnext hrest => exact .inr ⟨_, _, rfl, hnext, hrest, hg, hr⟩

theorem dereferenceFrom_own {schema : Schema} (hs : schema.WellFormed) {path : Path}
    {found : Variable} (hg : schema.getLeaf? path = some found) (hr : found.isReference = false)
    (start : Path) (limit hops : Nat) :
    schema.dereferenceFrom start limit hops path = .ok (path, found) := by
  unfold dereferenceFrom
  cases found with
  | function operation out => exact absurd hg (hs.notFunction path operation out)
  | reference next => cases hr
  | static value chain => simp [hg]
  | setup chain => simp [hg]
  | constant name => simp [hg]

theorem dereferenceFrom_inv {schema : Schema} {start path terminal : Path} {limit hops : Nat}
    {found : Variable} (h : schema.dereferenceFrom start limit hops path = .ok (terminal, found)) :
    (terminal = path ∧ schema.getLeaf? path = some found ∧ found.isReference = false) ∨
      ∃ m next, hops = m + 1 ∧ schema.getLeaf? path = some (.reference next) ∧
        schema.dereferenceFrom start limit m next = .ok (terminal, found) := by
  unfold dereferenceFrom at h
  cases hg : schema.getLeaf? path with
  | none => rw [hg] at h; cases h
  | some v =>
    rw [hg] at h
    cases v with
    | function operation out => cases h
    | reference next =>
      cases hops with
      | zero => cases h
      | succ m => exact .inr ⟨m, next, rfl, rfl, h⟩
    | static value chain => cases h; exact .inl ⟨rfl, rfl, rfl⟩
    | setup chain => cases h; exact .inl ⟨rfl, rfl, rfl⟩
    | constant name => cases h; exact .inl ⟨rfl, rfl, rfl⟩

/-- **Following references succeeds exactly when the chain ends within the limit.** -/
theorem dereferenceFrom_eq_ok {schema : Schema} (hs : schema.WellFormed) (start : Path)
    (limit hops : Nat) (path terminal : Path) (found : Variable) :
    schema.dereferenceFrom start limit hops path = .ok (terminal, found) ↔
      ∃ n, n ≤ hops ∧ schema.Ends n path terminal found := by
  -- One way the induction is on the hops that are left, the other way on the length of the chain.
  constructor
  · intro h
    induction hops generalizing path with
    | zero =>
      rcases dereferenceFrom_inv h with ⟨rfl, hg, hr⟩ | ⟨m, _, hm, _⟩
      · exact ⟨0, Nat.le_refl 0, ends_zero hg hr⟩
      · cases hm
    | succ hops ih =>
      rcases dereferenceFrom_inv h with ⟨rfl, hg, hr⟩ | ⟨m, next, hm, hg, hd⟩
      · exact ⟨0, Nat.zero_le _, ends_zero hg hr⟩
      · cases hm
        obtain ⟨n, hn, he⟩ := ih next hd
        exact ⟨n + 1, Nat.succ_le_succ hn, he.hop hg⟩
  · rintro ⟨n, hn, he⟩
    induction n generalizing path hops with
    | zero =>
      rcases he.cases with ⟨-, rfl, hg, hr⟩ | ⟨m, next, hm, -, -⟩
      · exact dereferenceFrom_own hs hg hr start limit hops
      · cases hm
    | succ n ih =>
      rcases he.cases with ⟨hn0, -⟩ | ⟨m, next, hm, hg, hrest⟩
      · cases hn0
      · cases hm
        obtain ⟨k, rfl⟩ : ∃ k, hops = k + 1 := ⟨hops - 1, by omega⟩
        unfold dereferenceFrom
        rw [hg]
        exact ih k next (by omega) hrest

theorem dereference_eq_ok {schema : Schema} (hs : schema.WellFormed) {limit : Nat}
    {path terminal : Path} {found : Variable} :
    schema.dereference path limit = .ok (terminal, found) ↔
      ∃ n, n ≤ limit ∧ schema.Ends n path terminal found :=
  dereferenceFrom_eq_ok hs path limit limit path terminal found

/-! ### The denotation -/

/-- `Denotes converter schema setup path value`: the leaf at `path` stands for `value`. -/
inductive Denotes (converter : Converter) (schema : Schema) (setup : Tree Json) :
    Path → Value → Prop
  | static {path : Path} {raw : Scalar} {chain : Chain} {value : Value} :
      schema.getLeaf? path = some (.static raw chain) →
      converter raw.toJson chain.links = .ok value → Denotes converter schema setup path value
  | constant {path : Path} {name : String} {constant : Constant} {value : Value} :
      schema.getLeaf? path = some (.constant name) → Constant.ofName? name = some constant →
      converter constant.json constant.chain.links = .ok value →
      Denotes converter schema setup path value
  | setup {path : Path} {chain : Chain} {raw : Json} {value : Value} :
      schema.getLeaf? path = some (.setup chain) → setup.getLeaf? path = some raw → raw ≠ .null →
      converter raw chain.links = .ok value → Denotes converter schema setup path value
  | reference {path next : Path} {value : Value} :
      schema.getLeaf? path = some (.reference next) → Denotes converter schema setup next value →
      Denotes converter schema setup path value

/-- When every leaf of a schema has a denotation that resolution finds within its limit. -/
structure Resolvable (converter : Converter) (limit : Nat) (schema : Schema)
    (setup : Tree Json) : Prop where
  static : ∀ path raw chain, schema.getLeaf? path = some (.static raw chain) →
    ∃ value, converter raw.toJson chain.links = .ok value
  constant : ∀ path name, schema.getLeaf? path = some (.constant name) →
    ∃ constant value, Constant.ofName? name = some constant ∧
      converter constant.json constant.chain.links = .ok value
  setup : ∀ path chain, schema.getLeaf? path = some (.setup chain) →
    ∃ raw value, setup.getLeaf? path = some raw ∧ raw ≠ .null ∧
      converter raw chain.links = .ok value
  reference : ∀ path next, schema.getLeaf? path = some (.reference next) →
    ∃ n terminal found, n ≤ limit ∧ schema.Hops n path terminal ∧
      schema.getLeaf? terminal = some found ∧ found.isReference = false

variable {converter : Converter} {schema : Schema} {setup : Tree Json} {limit : Nat}

theorem denotes_iff {path : Path} {value : Value} :
    schema.Denotes converter setup path value ↔
      match schema.getLeaf? path with
      | some (.static raw chain) => converter raw.toJson chain.links = .ok value
      | some (.constant name) => ∃ constant, Constant.ofName? name = some constant ∧
          converter constant.json constant.chain.links = .ok value
      | some (.setup chain) => ∃ raw, setup.getLeaf? path = some raw ∧ raw ≠ .null ∧
          converter raw chain.links = .ok value
      | some (.reference next) => schema.Denotes converter setup next value
      | some (.function _ _) => False
      | none => False := by
  constructor
  · intro h
    cases h with
    | static hg hc => rw [hg]; exact hc
    | constant hg hn hc => rw [hg]; exact ⟨_, hn, hc⟩
    | setup hg hs hn hc => rw [hg]; exact ⟨_, hs, hn, hc⟩
    | reference hg hn => rw [hg]; exact hn
  · intro h
    split at h
    · exact .static (by assumption) h
    · obtain ⟨constant, hn, hc⟩ := h
      exact .constant (by assumption) hn hc
    · obtain ⟨raw, hs, hn, hc⟩ := h
      exact .setup (by assumption) hs hn hc
    · exact .reference (by assumption) h
    · exact h.elim
    · exact h.elim

theorem Denotes.unique {path : Path} {v w : Value} (hv : schema.Denotes converter setup path v)
    (hw : schema.Denotes converter setup path w) : v = w := by
  induction hv with
  | static hg hc =>
    rw [denotes_iff, hg] at hw
    exact Except.ok.inj (hc.symm.trans hw)
  | constant hg hn hc =>
    rw [denotes_iff, hg] at hw
    obtain ⟨constant, hn', hc'⟩ := hw
    cases hn.symm.trans hn'
    exact Except.ok.inj (hc.symm.trans hc')
  | setup hg hs _ hc =>
    rw [denotes_iff, hg] at hw
    obtain ⟨raw, hs', _, hc'⟩ := hw
    cases hs.symm.trans hs'
    exact Except.ok.inj (hc.symm.trans hc')
  | reference hg _ ih =>
    rw [denotes_iff, hg] at hw
    exact ih hw

theorem Denotes.exists_leaf {path : Path} {value : Value}
    (h : schema.Denotes converter setup path value) :
    ∃ found, schema.getLeaf? path = some found := by
  cases hg : schema.getLeaf? path with
  | some found => exact ⟨found, rfl⟩
  | none =>
    rw [denotes_iff, hg] at h
    exact h.elim

/-- **The whole chain denotes one value**, however long it is. -/
theorem Hops.denotes_iff {n : Nat} {path terminal : Path} (h : schema.Hops n path terminal)
    (value : Value) : schema.Denotes converter setup path value ↔
      schema.Denotes converter setup terminal value := by
  induction h with
  | here path => rfl
  | hop hg _ ih =>
    rw [Schema.denotes_iff, hg]
    exact ih

end Schema

namespace InputValues

variable {converter : Converter} {schema : Schema} {setup : Tree Json} {limit : Nat}

/-! ### Converting one leaf -/

theorem convertAt_eq_ok {path : Path} {raw : Json} {chain : Chain} {value : Value} :
    convertAt converter path raw chain = .ok value ↔ converter raw chain.links = .ok value :=
  mapError_eq_ok

theorem setupValue_eq_ok {path : Path} {raw : Json} :
    setupValue setup path = .ok raw ↔ setup.getLeaf? path = some raw ∧ raw ≠ .null := by
  unfold setupValue
  cases setup.getLeaf? path with
  | none => simp
  | some found =>
    constructor
    · intro h
      cases found <;> cases h <;> simp
    · rintro ⟨heq, hne⟩
      cases heq
      cases raw with
      | null => exact absurd rfl hne
      | _ => rfl

theorem constantParse_eq_ok {name : String} {constant : Constant} :
    Constant.parse name = .ok constant ↔ Constant.ofName? name = some constant := by
  unfold Constant.parse
  cases Constant.ofName? name <;> simp

/-- **The value of its own that a leaf has is the one that it denotes.** -/
theorem ownValue_eq_some {path : Path} {found : Variable} {value : Value}
    (hg : schema.getLeaf? path = some found) :
    ownValue converter setup path found = .ok (some value) ↔
      found.isReference = false ∧ schema.Denotes converter setup path value := by
  rw [Schema.denotes_iff, hg]
  cases found with
  | static raw chain =>
    simp [ownValue, map_eq_ok, convertAt_eq_ok, Variable.isReference]
  | constant name =>
    simp [ownValue, bind_eq_ok, map_eq_ok, convertAt_eq_ok, constantParse_eq_ok,
      Variable.isReference]
  | setup chain =>
    simp [ownValue, bind_eq_ok, map_eq_ok, convertAt_eq_ok, setupValue_eq_ok, and_assoc,
      Variable.isReference]
  | reference next => simp [ownValue, Variable.isReference]
  | function operation out => simp [ownValue]

theorem ownValue_eq_none {path : Path} {found : Variable} :
    ownValue converter setup path found = .ok none ↔ found.hasOwnValue = false := by
  cases found with
  | static raw chain => simp [ownValue, map_eq_ok, Variable.hasOwnValue]
  | constant name => simp [ownValue, bind_eq_ok, map_eq_ok, Variable.hasOwnValue]
  | setup chain => simp [ownValue, bind_eq_ok, map_eq_ok, Variable.hasOwnValue]
  | reference next => simp [ownValue, Variable.hasOwnValue]
  | function operation out => simp [ownValue, Variable.hasOwnValue]

theorem exists_denotes_of_ownValue (hs : schema.WellFormed) {path : Path} {found : Variable}
    (hg : schema.getLeaf? path = some found) (hr : found.isReference = false)
    {result : Option Value} (h : ownValue converter setup path found = .ok result) :
    ∃ value, schema.Denotes converter setup path value := by
  cases result with
  | some value => exact ⟨value, ((ownValue_eq_some hg).mp h).2⟩
  | none =>
    have hnone := ownValue_eq_none.mp h
    rw [hs.hasOwnValue hg hr] at hnone
    cases hnone

theorem ownValue_ne_storing {path : Path} {found : Variable} (cause : StoreError) :
    ownValue converter setup path found ≠ .error (.storing cause) := by
  have convert : ∀ raw chain,
      (convertAt converter path raw chain).map some ≠ .error (.storing cause) := by
    intro raw chain h
    unfold convertAt at h
    cases hc : converter raw chain.links with
    | error e => rw [hc] at h; cases h
    | ok value => rw [hc] at h; cases h
  cases found with
  | static raw chain => exact convert _ _
  | constant name =>
    intro h
    simp only [ownValue] at h
    cases hp : Constant.parse name with
    | error e =>
      rw [hp] at h
      unfold Constant.parse at hp
      split at hp
      · cases hp
      · cases hp; cases h
    | ok constant => rw [hp] at h; exact convert _ _ h
  | setup chain =>
    intro h
    simp only [ownValue] at h
    cases hv : setupValue setup path with
    | error e =>
      rw [hv] at h
      unfold setupValue at hv
      split at hv
      · cases hv; cases h
      · cases hv; cases h
      · cases hv
    | ok raw => rw [hv] at h; exact convert _ _ h
  | reference next => intro h; cases h
  | function operation out => intro h; cases h

/-! ### The first loop: values of their own -/

/-- The tree after the leaves `done`: it holds exactly the denotations of those of them that have
a value of their own, and all of these could be converted. -/
structure OwnSoFar (converter : Converter) (schema : Schema) (setup : Tree Json)
    (done : List (Path × Variable)) (values : InputValues) : Prop where
  trimmed : Tree.Trimmed values
  leaves : ∀ leaf ∈ done, leaf ∈ schema.leaves
  holds : ∀ path value, values.getLeaf? path = some value ↔
    ∃ found, (path, found) ∈ done ∧ ownValue converter setup path found = .ok (some value)
  converted : ∀ leaf ∈ done, ∃ result, ownValue converter setup leaf.1 leaf.2 = .ok result

theorem ownSoFar_empty : OwnSoFar converter schema setup [] Tree.empty where
  trimmed := Tree.trimmed_empty
  leaves leaf h := absurd h List.not_mem_nil
  holds path value := by simp
  converted leaf h := absurd h List.not_mem_nil

theorem leaf_unique {path : Path} {v w : Variable} (hv : (path, v) ∈ schema.leaves)
    (hw : (path, w) ∈ schema.leaves) : v = w :=
  Option.some.inj ((Tree.mem_leaves.mp hv).symm.trans (Tree.mem_leaves.mp hw))

theorem exists_store {values : InputValues} {path : Path} (hs : schema.WellFormed)
    (ht : Tree.Trimmed values) (hsub : ∀ p ∈ values.leafPaths, p ∈ schema.leafPaths)
    (hp : path ∈ schema.leafPaths) (value : Value) :
    ∃ result, store values path value = .ok result ∧ values.put path value = .ok result := by
  have hne : path ≠ [] := by
    obtain ⟨found, hf⟩ := Tree.mem_leafPaths.mp hp
    obtain ⟨region, keys, rfl, -⟩ := (hs.path path found hf).region
    simp
  have hfree : PrefixFree fun p => p = path ∨ p ∈ values.leafPaths := by
    intro p q hpp hqq
    apply schema.prefixFree_leafPaths
    · rcases hpp with rfl | hpp
      · exact hp
      · exact hsub p hpp
    · rcases hqq with rfl | hqq
      · exact hp
      · exact hsub q hqq
  obtain ⟨result, hput⟩ := Tree.exists_put ht hne hfree value
  exact ⟨result, mapError_eq_ok.mpr hput, hput⟩

theorem OwnSoFar.leafPaths_sub {done : List (Path × Variable)} {values : InputValues}
    (h : OwnSoFar converter schema setup done values) :
    ∀ p ∈ values.leafPaths, p ∈ schema.leafPaths := by
  intro p hp
  obtain ⟨value, hv⟩ := Tree.mem_leafPaths.mp hp
  obtain ⟨found, hm, -⟩ := (h.holds p value).mp hv
  exact List.mem_map_of_mem (h.leaves _ hm)

/-- **A step of the first loop fails only if the leaf cannot be converted**, and otherwise keeps
the invariant. -/
theorem OwnSoFar.step {done : List (Path × Variable)} {values : InputValues}
    (hs : schema.WellFormed) (h : OwnSoFar converter schema setup done values)
    {leaf : Path × Variable} (hm : leaf ∈ schema.leaves) :
    (∃ e, ownValue converter setup leaf.1 leaf.2 = .error e ∧
        addOwnValue converter setup values leaf = .error e) ∨
      ∃ next, addOwnValue converter setup values leaf = .ok next ∧
        OwnSoFar converter schema setup (done ++ [leaf]) next := by
  have hleaves : ∀ l ∈ done ++ [leaf], l ∈ schema.leaves := by
    intro l hl
    rcases List.mem_append.mp hl with hl | hl
    · exact h.leaves l hl
    · rw [List.mem_singleton.mp hl]; exact hm
  cases hown : ownValue converter setup leaf.1 leaf.2 with
  | error e => exact .inl ⟨e, rfl, by simp only [addOwnValue, hown]; rfl⟩
  | ok result =>
    have hconverted : ∀ l ∈ done ++ [leaf], ∃ r, ownValue converter setup l.1 l.2 = .ok r := by
      intro l hl
      rcases List.mem_append.mp hl with hl | hl
      · exact h.converted l hl
      · rw [List.mem_singleton.mp hl]; exact ⟨result, hown⟩
    obtain ⟨path, found⟩ := leaf
    right
    cases result with
    | none =>
      refine ⟨values, by simp only [addOwnValue, hown]; rfl, h.trimmed, hleaves, ?_, hconverted⟩
      intro p value
      rw [h.holds]
      constructor
      · rintro ⟨v, hv, ho⟩
        exact ⟨v, List.mem_append_left _ hv, ho⟩
      · rintro ⟨v, hv, ho⟩
        rcases List.mem_append.mp hv with hv | hv
        · exact ⟨v, hv, ho⟩
        · cases List.mem_singleton.mp hv
          rw [hown] at ho
          cases ho
    | some value =>
      obtain ⟨next, hstore, hput⟩ := exists_store hs h.trimmed h.leafPaths_sub
        (List.mem_map_of_mem hm) value
      refine ⟨next, by simp only [addOwnValue, hown]; exact hstore, h.trimmed.put hput, hleaves,
        ?_, hconverted⟩
      intro p w
      rw [Tree.getLeaf?_put hput]
      by_cases hp : p = path
      · subst hp
        rw [if_pos rfl]
        constructor
        · intro hw
          cases hw
          exact ⟨found, List.mem_append_right _ List.mem_cons_self, hown⟩
        · rintro ⟨v, hv, ho⟩
          cases leaf_unique (hleaves _ hv) hm
          rw [hown] at ho
          exact Except.ok.inj ho
      · rw [if_neg hp, h.holds]
        constructor
        · rintro ⟨v, hv, ho⟩
          exact ⟨v, List.mem_append_left _ hv, ho⟩
        · rintro ⟨v, hv, ho⟩
          rcases List.mem_append.mp hv with hv | hv
          · exact ⟨v, hv, ho⟩
          · cases List.mem_singleton.mp hv
            exact absurd rfl hp

/-- The first loop converts all leaves, or fails at one that cannot be converted. -/
theorem run_own (converter : Converter) (setup : Tree Json) (hs : schema.WellFormed) :
    (∃ values, schema.leaves.foldlM (addOwnValue converter setup) Tree.empty = .ok values ∧
        OwnSoFar converter schema setup schema.leaves values) ∨
      ∃ leaf e, leaf ∈ schema.leaves ∧ ownValue converter setup leaf.1 leaf.2 = .error e ∧
        schema.leaves.foldlM (addOwnValue converter setup) Tree.empty = .error e := by
  exact foldlM_run schema.leaves ownSoFar_empty fun done leaf values hm h => h.step hs hm

/-! ### The second loop: references -/

theorem mem_referencePaths {path : Path} :
    path ∈ referencePaths schema ↔ ∃ next, schema.getLeaf? path = some (.reference next) := by
  rw [referencePaths, List.mem_map]
  constructor
  · rintro ⟨⟨p, found⟩, hm, rfl⟩
    obtain ⟨hm, hr⟩ := List.mem_filter.mp hm
    cases found with
    | reference next => exact ⟨next, Tree.mem_leaves.mp hm⟩
    | static _ _ => cases hr
    | setup _ => cases hr
    | constant _ => cases hr
    | function _ _ => cases hr
  · rintro ⟨next, hg⟩
    exact ⟨(path, .reference next), List.mem_filter.mpr ⟨Tree.mem_leaves.mpr hg, rfl⟩, rfl⟩

/-- The tree after the references `done`: it holds the denotations of all leaves but of the
references still to come, and the chains of those that are done end within the limit. -/
structure CopiedSoFar (converter : Converter) (limit : Nat) (schema : Schema) (setup : Tree Json)
    (done : List Path) (values : InputValues) : Prop where
  trimmed : Tree.Trimmed values
  holds : ∀ path value, values.getLeaf? path = some value ↔
    schema.Denotes converter setup path value ∧ (path ∈ referencePaths schema → path ∈ done)
  reached : ∀ path ∈ done, ∃ n terminal found, n ≤ limit ∧ schema.Ends n path terminal found

theorem OwnSoFar.denotes {values : InputValues} (hs : schema.WellFormed)
    (h : OwnSoFar converter schema setup schema.leaves values) {path : Path} {found : Variable}
    (hg : schema.getLeaf? path = some found) (hr : found.isReference = false) :
    ∃ value, schema.Denotes converter setup path value := by
  obtain ⟨result, hown⟩ := h.converted _ (Tree.mem_leaves.mpr hg)
  exact exists_denotes_of_ownValue hs hg hr hown

/-- The second loop starts where the first one ends. -/
theorem OwnSoFar.copied {values : InputValues}
    (h : OwnSoFar converter schema setup schema.leaves values) :
    CopiedSoFar converter limit schema setup [] values where
  trimmed := h.trimmed
  reached path hp := absurd hp List.not_mem_nil
  holds path value := by
    rw [h.holds]
    constructor
    · rintro ⟨found, hm, hown⟩
      have hg := Tree.mem_leaves.mp hm
      obtain ⟨hr, hd⟩ := (ownValue_eq_some hg).mp hown
      refine ⟨hd, fun hp => ?_⟩
      obtain ⟨next, hg'⟩ := mem_referencePaths.mp hp
      rw [hg] at hg'
      cases hg'
      cases hr
    · rintro ⟨hd, hp⟩
      obtain ⟨found, hg⟩ := hd.exists_leaf
      refine ⟨found, Tree.mem_leaves.mpr hg, (ownValue_eq_some hg).mpr ⟨?_, hd⟩⟩
      cases found with
      | reference next => exact absurd (hp (mem_referencePaths.mpr ⟨next, hg⟩)) List.not_mem_nil
      | static _ _ => rfl
      | setup _ => rfl
      | constant _ => rfl
      | function _ _ => rfl

theorem CopiedSoFar.leafPaths_sub {done : List Path} {values : InputValues}
    (h : CopiedSoFar converter limit schema setup done values) :
    ∀ p ∈ values.leafPaths, p ∈ schema.leafPaths := by
  intro p hp
  obtain ⟨value, hv⟩ := Tree.mem_leafPaths.mp hp
  exact Tree.mem_leafPaths.mpr ((h.holds p value).mp hv).1.exists_leaf

/-- **A step of the second loop fails only if the chain of the reference does not end**, and
otherwise keeps the invariant. -/
theorem CopiedSoFar.step {done : List Path} {values : InputValues} (hs : schema.WellFormed)
    (h : CopiedSoFar converter limit schema setup done values)
    (hown : ∀ path found, schema.getLeaf? path = some found → found.isReference = false →
      ∃ value, schema.Denotes converter setup path value)
    {path : Path} (hm : path ∈ referencePaths schema) :
    (∃ e, schema.dereference path limit = .error e ∧
        addReference schema limit values path = .error e) ∨
      ∃ next, addReference schema limit values path = .ok next ∧
        CopiedSoFar converter limit schema setup (done ++ [path]) next := by
  cases hd : schema.dereference path limit with
  | error e => exact .inl ⟨e, rfl, by simp only [addReference, hd]; rfl⟩
  | ok result =>
    right
    obtain ⟨terminal, found⟩ := result
    obtain ⟨n, hn, hends⟩ := (Schema.dereference_eq_ok hs).mp hd
    obtain ⟨hhops, hg, hr⟩ := hends
    obtain ⟨value, hvalue⟩ := hown terminal found hg hr
    have hpath : schema.Denotes converter setup path value := (hhops.denotes_iff value).mpr hvalue
    have hterminal : values.getLeaf? terminal = some value := by
      refine (h.holds terminal value).mpr ⟨hvalue, fun hp => ?_⟩
      obtain ⟨next, hg'⟩ := mem_referencePaths.mp hp
      rw [hg] at hg'
      cases hg'
      cases hr
    obtain ⟨next, hstore, hput⟩ := exists_store hs h.trimmed h.leafPaths_sub
      (Tree.mem_leafPaths.mpr hpath.exists_leaf) value
    refine ⟨next, ?_, h.trimmed.put hput, fun p w => ?_, fun p hp => ?_⟩
    · rw [addReference, hd]
      refine bind_eq_ok.mpr ⟨(terminal, found), rfl, ?_⟩
      dsimp only
      rw [hterminal]
      exact hstore
    · rw [Tree.getLeaf?_put hput]
      by_cases hp : p = path
      · subst hp
        rw [if_pos rfl]
        constructor
        · intro hw
          cases hw
          exact ⟨hpath, fun _ => List.mem_append_right _ List.mem_cons_self⟩
        · rintro ⟨hw, -⟩
          rw [hpath.unique hw]
      · rw [if_neg hp, h.holds]
        refine and_congr_right fun _ => imp_congr_right fun _ => ?_
        simp [hp]
    · rcases List.mem_append.mp hp with hp | hp
      · exact h.reached p hp
      · rw [List.mem_singleton.mp hp]
        exact ⟨n, terminal, found, hn, hhops, hg, hr⟩

theorem dereferenceFrom_ne_storing {start : Path} (hops : Nat) (path : Path) (cause : StoreError) :
    schema.dereferenceFrom start limit hops path ≠ .error (.storing cause) := by
  induction hops generalizing path with
  | zero =>
    intro h
    unfold Schema.dereferenceFrom at h
    split at h <;> cases h
  | succ hops ih =>
    intro h
    unfold Schema.dereferenceFrom at h
    split at h
    · cases h
    · cases h
    · exact ih _ h
    · cases h

/-! ### The whole resolution -/

theorem CopiedSoFar.resolvable {own values : InputValues} (hs : schema.WellFormed)
    (hown : OwnSoFar converter schema setup schema.leaves own)
    (h : CopiedSoFar converter limit schema setup (referencePaths schema) values) :
    schema.Resolvable converter limit setup where
  static path raw chain hg := by
    obtain ⟨value, hd⟩ := hown.denotes hs hg rfl
    rw [Schema.denotes_iff, hg] at hd
    exact ⟨value, hd⟩
  constant path name hg := by
    obtain ⟨value, hd⟩ := hown.denotes hs hg rfl
    rw [Schema.denotes_iff, hg] at hd
    obtain ⟨constant, hn, hc⟩ := hd
    exact ⟨constant, value, hn, hc⟩
  setup path chain hg := by
    obtain ⟨value, hd⟩ := hown.denotes hs hg rfl
    rw [Schema.denotes_iff, hg] at hd
    obtain ⟨raw, hr, hne, hc⟩ := hd
    exact ⟨raw, value, hr, hne, hc⟩
  reference path next hg := by
    obtain ⟨n, terminal, found, hn, hh, hg', hr⟩ :=
      h.reached path (mem_referencePaths.mpr ⟨next, hg⟩)
    exact ⟨n, terminal, found, hn, hh, hg', hr⟩

theorem ownValue_ne_error (h : schema.Resolvable converter limit setup) {path : Path}
    {found : Variable} (hg : schema.getLeaf? path = some found) (e : CompileError) :
    ownValue converter setup path found ≠ .error e := by
  have own : ∀ {value}, schema.Denotes converter setup path value → found.isReference = false →
      ownValue converter setup path found ≠ .error e := by
    intro value hd hr he
    rw [(ownValue_eq_some hg).mpr ⟨hr, hd⟩] at he
    cases he
  cases found with
  | static raw chain =>
    obtain ⟨value, hc⟩ := h.static path raw chain hg
    exact own (.static hg hc) rfl
  | constant name =>
    obtain ⟨constant, value, hn, hc⟩ := h.constant path name hg
    exact own (.constant hg hn hc) rfl
  | setup chain =>
    obtain ⟨raw, value, hr, hne, hc⟩ := h.setup path chain hg
    exact own (.setup hg hr hne hc) rfl
  | reference next => intro he; cases he
  | function operation out => intro he; cases he

theorem dereference_ne_error (hs : schema.WellFormed)
    (h : schema.Resolvable converter limit setup) {path : Path}
    (hm : path ∈ referencePaths schema) (e : CompileError) :
    schema.dereference path limit ≠ .error e := by
  obtain ⟨next, hg⟩ := mem_referencePaths.mp hm
  obtain ⟨n, terminal, found, hn, hh, hg', hr⟩ := h.reference path next hg
  intro he
  rw [(Schema.dereference_eq_ok hs).mpr ⟨n, hn, hh, hg', hr⟩] at he
  cases he

/-- **Resolution succeeds exactly on resolvable schemas**, with the denotation of every leaf, and
never fails to store a value. -/
theorem ofSetup_cases (converter : Converter) (limit : Nat) (setup : Tree Json)
    (hs : schema.WellFormed) :
    (∃ values, ofSetup converter limit schema setup = .ok values ∧
        schema.Resolvable converter limit setup ∧
        CopiedSoFar converter limit schema setup (referencePaths schema) values) ∨
      ∃ e, ofSetup converter limit schema setup = .error e ∧
        ¬ schema.Resolvable converter limit setup ∧ ∀ cause, e ≠ .storing cause := by
  rcases run_own converter setup hs with ⟨own, hrun, hown⟩ | ⟨leaf, e, hm, he, hrun⟩
  · have hsecond : ofSetup converter limit schema setup
        = (referencePaths schema).foldlM (addReference schema limit) own := by
      unfold ofSetup
      rw [hrun]
      rfl
    have hstart : CopiedSoFar converter limit schema setup [] own := hown.copied
    rcases foldlM_run (referencePaths schema) hstart fun done path values hm h =>
        h.step hs (fun p found hg hr => hown.denotes hs hg hr) hm with
      ⟨values, hvalues, h⟩ | ⟨path, e, hm, he, hrun'⟩
    · exact .inl ⟨values, hsecond.trans hvalues, h.resolvable hs hown, h⟩
    · refine .inr ⟨e, hsecond.trans hrun', fun h => dereference_ne_error hs h hm e he, ?_⟩
      rintro cause rfl
      exact dereferenceFrom_ne_storing limit path cause he
  · refine .inr ⟨e, ?_, fun h => ownValue_ne_error h (Tree.mem_leaves.mp hm) e he, ?_⟩
    · unfold ofSetup
      rw [hrun]
      rfl
    · rintro cause rfl
      exact ownValue_ne_storing cause he

theorem of_ofSetup (hs : schema.WellFormed) {values : InputValues}
    (h : ofSetup converter limit schema setup = .ok values) :
    schema.Resolvable converter limit setup ∧ Tree.Trimmed values ∧
      ∀ path value, values.getLeaf? path = some value ↔
        schema.Denotes converter setup path value := by
  rcases ofSetup_cases converter limit setup hs with ⟨values', h', hres, hinv⟩ | ⟨e, he, -⟩
  · rw [h] at h'
    cases h'
    refine ⟨hres, hinv.trimmed, fun path value => ?_⟩
    rw [hinv.holds]
    exact and_iff_left id
  · rw [h] at he
    cases he

end InputValues

theorem Schema.Resolvable.denotes {converter : Converter} {limit : Nat} {schema : Schema}
    {setup : Tree Json} (hs : schema.WellFormed) (h : schema.Resolvable converter limit setup)
    {path : Path} {found : Variable} (hg : schema.getLeaf? path = some found) :
    ∃ value, schema.Denotes converter setup path value := by
  have own : ∀ {path found}, schema.getLeaf? path = some found → found.isReference = false →
      ∃ value, schema.Denotes converter setup path value := by
    intro path found hg hr
    cases hv : InputValues.ownValue converter setup path found with
    | error e => exact absurd hv (InputValues.ownValue_ne_error h hg e)
    | ok result => exact InputValues.exists_denotes_of_ownValue hs hg hr hv
  cases hr : found.isReference with
  | false => exact own hg hr
  | true =>
    obtain ⟨next, rfl⟩ := Variable.isReference_iff.mp hr
    obtain ⟨n, terminal, last, -, hh, hg', hr'⟩ := h.reference path next hg
    obtain ⟨value, hd⟩ := own hg' hr'
    exact ⟨value, (hh.denotes_iff value).mpr hd⟩

/-! ### Resolution is the denotation -/

namespace InputValues

/-- **Resolution computes the denotation of the schema.**  It succeeds exactly when every
conversion does and every reference reaches a variable of its own within the limit; its result is
the schema with every leaf replaced by what it denotes, so that a reference has the value at the
end of its chain however long that is; and no value is ever refused a place in the tree. -/
theorem ofSetup_eq_meaning {document : Json} {schema : Schema}
    (h : Schema.ofJson document = .ok schema) (converter : Converter) (limit : Nat)
    (setup : Tree Json) :
    ((∃ values, ofSetup converter limit schema setup = .ok values) ↔
        schema.Resolvable converter limit setup) ∧
      (∀ values, ofSetup converter limit schema setup = .ok values →
        (∃ meaning : Path → Value,
          (∀ path ∈ schema.leafPaths, schema.Denotes converter setup path (meaning path)) ∧
          values = schema.mapLeaves fun path _ => meaning path) ∧
        values.leafPaths = schema.leafPaths ∧
        ∀ n path terminal, schema.Hops n path terminal →
          values.getLeaf? path = values.getLeaf? terminal) ∧
      ∀ cause, ofSetup converter limit schema setup ≠ .error (.storing cause) := by
  have hs := Schema.wellFormed_ofJson h
  refine ⟨⟨?_, ?_⟩, ?_, ?_⟩
  · rintro ⟨values, hv⟩
    exact (of_ofSetup hs hv).1
  · intro hres
    rcases ofSetup_cases converter limit setup hs with ⟨values, hv, -⟩ | ⟨e, -, hn, -⟩
    · exact ⟨values, hv⟩
    · exact absurd hres hn
  · intro values hv
    obtain ⟨hres, htrimmed, hholds⟩ := of_ofSetup hs hv
    let meaning (path : Path) : Value := (values.getLeaf? path).getD (.bool false)
    have hleaf : ∀ path found, schema.getLeaf? path = some found →
        values.getLeaf? path = some (meaning path) := by
      intro path found hg
      obtain ⟨value, hd⟩ := hres.denotes hs hg
      have hvalue := (hholds path value).mpr hd
      rw [show meaning path = value by simp [meaning, hvalue], hvalue]
    have heq : values = schema.mapLeaves fun path _ => meaning path := by
      refine Tree.ext_getLeaf? htrimmed (hs.trimmed.mapLeaves _) fun path => ?_
      rw [Tree.getLeaf?_mapLeaves]
      cases hg : schema.getLeaf? path with
      | some found => exact hleaf path found hg
      | none =>
        cases hvalue : values.getLeaf? path with
        | none => rfl
        | some value =>
          obtain ⟨found, hg'⟩ := ((hholds path value).mp hvalue).exists_leaf
          rw [hg] at hg'
          cases hg'
    refine ⟨⟨meaning, fun path hp => ?_, heq⟩, ?_, fun n path terminal hh => ?_⟩
    · obtain ⟨found, hg⟩ := Tree.mem_leafPaths.mp hp
      exact (hholds path _).mp (hleaf path found hg)
    · rw [heq, Tree.leafPaths_mapLeaves]
    · apply Option.ext
      intro value
      rw [hholds, hholds, hh.denotes_iff]
  · intro cause hc
    rcases ofSetup_cases converter limit setup hs with ⟨values, hv, -⟩ | ⟨e, he, -, hne⟩
    · rw [hc] at hv
      cases hv
    · rw [hc] at he
      cases he
      exact hne cause rfl

/-- A schema in which a private leaf refers to a public one, which refers to a setup value. -/
def echoSchema : Json :=
  .object [
    ("private", .object [
      ("age", .object [("type", .string "setup"),
        ("transLinks", .array [.string "uint64-mina:field"])]),
      ("copy", .object [("type", .string "reference"),
        ("path", .array [.string "public", .string "echo"])])]),
    ("public", .object [
      ("echo", .object [("type", .string "reference"),
        ("path", .array [.string "private", .string "age"])])])]

def echoSetup : Json :=
  .object [("private", .object [("age", .ofNat 18)])]

/-- The chain of two references is resolvable within two hops and not within one. -/
theorem ofSetup_eq_meaning_echo : ∃ schema, Schema.ofJson echoSchema = .ok schema ∧
    schema.Resolvable Value.ofChain 2 (Tree.ofJson echoSetup) ∧
    ¬ schema.Resolvable Value.ofChain 1 (Tree.ofJson echoSetup) := by
  obtain ⟨schema, h⟩ := isOk_iff.mp (show (Schema.ofJson echoSchema).isOk = true by decide +kernel)
  have htwo : ((Schema.ofJson echoSchema).bind fun schema =>
      ofSetup Value.ofChain 2 schema (Tree.ofJson echoSetup)).isOk = true := by decide +kernel
  have hone : ((Schema.ofJson echoSchema).bind fun schema =>
      ofSetup Value.ofChain 1 schema (Tree.ofJson echoSetup)).isOk = false := by decide +kernel
  rw [h] at htwo hone
  refine ⟨schema, h, ?_, fun hres => ?_⟩
  · exact (ofSetup_eq_meaning h Value.ofChain 2 _).1.mp (isOk_iff.mp htwo)
  · have hok := isOk_iff.mpr ((ofSetup_eq_meaning h Value.ofChain 1 _).1.mpr hres)
    exact Bool.noConfusion (hone.symm.trans hok)

end InputValues

end Circuitry
