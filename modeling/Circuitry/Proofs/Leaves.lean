import Circuitry.Proofs.Descent

/-!
# The leaves of a schema

Reading a schema collects the variables of a document and stores them one by one.
`Schema.mem_leavesOf` says that the reader finds exactly the variables that are reached, and
`Schema.exists_leavesOf_iff` that it succeeds exactly if everything that is reached is a variable
that reads, or a group with proper keys.  Both are shown for documents in canonical form, by
induction on the document.

No two variables disagree and all of them can be stored, so the leaves of the schema are the
variables of its document (`Schema.mem_leaves_iff`), and the documents of schemas are the readable
ones (`Schema.exists_ofJson_iff_readable`).
-/

namespace Circuitry

open Fallible

namespace Schema

/-! ### The variables below a path -/

/-- What is reached below a region must be like this: an object, and either a variable that reads as
one that is not a function, or a group with proper keys. -/
structure Fits (json : Json) : Prop where
  object : ∃ members, json = .object members
  keys : json.isVariable = false → ∀ key child, json.get? key = some child → isKey key = true
  reads : json.isVariable = true →
    ∃ value, Variable.ofJson json = .ok value ∧ value.kind ≠ "function"

theorem fits_canonical {json : Json} : Fits json.canonical ↔ Fits json := by
  have hobject : (∃ members, json.canonical = .object members) ↔
      ∃ members, json = .object members := by
    cases json <;> simp [Json.canonical]
  have hkeys : (∀ key child, json.canonical.get? key = some child → isKey key = true) ↔
      ∀ key child, json.get? key = some child → isKey key = true := by
    simp [Json.get?_canonical]
  have hreads : (∃ value, Variable.ofJson json.canonical = .ok value ∧ value.kind ≠ "function") ↔
      ∃ value, Variable.ofJson json = .ok value ∧ value.kind ≠ "function" :=
    exists_congr fun value => and_congr_left fun hkind => Variable.ofJson_canonical hkind
  constructor
  · rintro ⟨hj, hk, hr⟩
    rw [Json.isVariable_canonical] at hk hr
    exact ⟨hobject.mp hj, fun hgroup => hkeys.mp (hk hgroup), fun hvar => hreads.mp (hr hvar)⟩
  · rintro ⟨hj, hk, hr⟩
    rw [← Json.isVariable_canonical] at hk hr
    exact ⟨hobject.mpr hj, fun hgroup => hkeys.mpr (hk hgroup), fun hvar => hreads.mpr (hr hvar)⟩

theorem leafOf_eq_ok {path : Path} {json : Json} {leaf : Path × Variable} :
    leafOf path json = .ok leaf ↔
      leaf.1 = path ∧ Variable.ofJson json = .ok leaf.2 ∧ leaf.2.kind ≠ "function" := by
  obtain ⟨place, value⟩ := leaf
  unfold leafOf
  rw [bind_eq_ok]
  simp only [mapError_eq_ok]
  constructor
  · rintro ⟨found, hfound, h⟩
    cases found with
    | function operation out => cases h
    | _ =>
      cases h
      exact ⟨rfl, hfound, by simp [Variable.kind]⟩
  · rintro ⟨rfl, hvalue, hkind⟩
    refine ⟨value, hvalue, ?_⟩
    cases value with
    | function operation out => exact absurd rfl hkind
    | _ => rfl

theorem exists_leavesAmong_iff {path : Path} {members : List (String × Json)} :
    (∃ leaves, leavesAmong path members = .ok leaves) ↔ ∀ member ∈ members,
      isKey member.1 = true ∧ ∃ leaves, leavesOf (path ++ [member.1]) member.2 = .ok leaves := by
  induction members with
  | nil => simp [leavesAmong]
  | cons member rest ih =>
    obtain ⟨key, json⟩ := member
    rw [leavesAmong, List.forall_mem_cons, ← ih]
    cases hkey : isKey key with
    | false => simp [bind_eq_ok]
    | true => simp [exists_bind_eq_ok, exists_map_eq_ok]

theorem mem_flatten_iff {α β : Type} {R : α → List β → Prop} {Q : α → β → Prop} {members : List α}
    {lists : List (List β)} (h : List.Forall₂ R members lists)
    (hlists : ∀ member ∈ members, ∀ list, R member list → ∀ item, item ∈ list ↔ Q member item)
    {item : β} : item ∈ lists.flatten ↔ ∃ member ∈ members, Q member item := by
  induction h with
  | nil => simp
  | cons hfirst _ ih =>
    obtain ⟨hmember, hrest⟩ := List.forall_mem_cons.mp hlists
    rw [List.flatten_cons, List.mem_append, hmember _ hfirst, ih hrest]
    simp

/-- **The reader succeeds below a path exactly if everything that is reached fits.**  The induction
is on the document. -/
theorem exists_leavesOf_iff {json : Json} {path : Path} (ho : json.Ordered) :
    (∃ leaves, leavesOf path json = .ok leaves) ↔
      ∀ rest found, json.Reached rest found → Fits found := by
  induction json using Json.ind generalizing path with
  | plain json hplain =>
    refine iff_of_false ?_ fun h => ?_
    · rintro ⟨leaves, h⟩
      cases json with
      | object members => exact hplain members rfl
      | _ => cases h
    · obtain ⟨members, hmembers⟩ := (h [] json (.self json)).object
      exact hplain members hmembers
  | object members ih =>
    obtain ⟨hkeys, hall⟩ := ho
    rw [leavesOf]
    by_cases hvariable : (Json.object members).isVariable = true
    · rw [if_pos hvariable]
      constructor
      · rintro ⟨leaves, h⟩ rest found hreached
        obtain ⟨leaf, hleaf, -⟩ := map_eq_ok.mp h
        obtain ⟨-, hvalue, hkind⟩ := leafOf_eq_ok.mp hleaf
        cases hreached with
        | self =>
          refine ⟨⟨members, rfl⟩, fun hgroup => ?_, fun _ => ⟨leaf.2, hvalue, hkind⟩⟩
          rw [hvariable] at hgroup
          cases hgroup
        | step hgroup =>
          rw [hvariable] at hgroup
          cases hgroup
      · intro h
        obtain ⟨value, hvalue, hkind⟩ := (h [] _ (.self _)).reads hvariable
        have hleaf : leafOf path (.object members) = .ok (path, value) :=
          leafOf_eq_ok.mpr ⟨rfl, hvalue, hkind⟩
        exact ⟨[(path, value)], map_eq_ok.mpr ⟨_, hleaf, rfl⟩⟩
    · have hgroup := eq_false_of_ne_true hvariable
      rw [if_neg hvariable, exists_leavesAmong_iff]
      constructor
      · intro h rest found hreached
        cases hreached with
        | self =>
          refine ⟨⟨members, rfl⟩, fun _ key child hchild => ?_, fun h => absurd h hvariable⟩
          exact (h (key, child) ((Keyed.lookup_eq_some_iff hkeys).mp hchild)).1
        | step _ hchild hrest =>
          have hm := (Keyed.lookup_eq_some_iff hkeys).mp hchild
          exact (ih _ hm (hall.of_mem hm)).mp (h _ hm).2 _ _ hrest
      · intro h member hm
        have hchild : (Json.object members).get? member.1 = some member.2 :=
          (Keyed.lookup_eq_some_iff hkeys).mpr hm
        refine ⟨(h [] _ (.self _)).keys hgroup member.1 member.2 hchild, ?_⟩
        refine (ih member hm (hall.of_mem hm)).mpr fun rest found hrest => ?_
        exact h (member.1 :: rest) found (.step hgroup hchild hrest)

theorem mem_leavesOf {json : Json} {path : Path} {leaves : List (Path × Variable)}
    (ho : json.Ordered) (h : leavesOf path json = .ok leaves) {leaf : Path × Variable} :
    leaf ∈ leaves ↔ ∃ rest found, leaf.1 = path ++ rest ∧ json.Reached rest found ∧
      found.isVariable = true ∧ Variable.ofJson found = .ok leaf.2 := by
  induction json using Json.ind generalizing path leaves leaf with
  | plain json hplain =>
    cases json with
    | object members => exact absurd rfl (hplain members)
    | _ => cases h
  | object members ih =>
    obtain ⟨hkeys, hall⟩ := ho
    rw [leavesOf] at h
    split at h
    · rename_i hvariable
      obtain ⟨found, hfound, rfl⟩ := map_eq_ok.mp h
      obtain ⟨hplace, hvalue, -⟩ := leafOf_eq_ok.mp hfound
      rw [List.mem_singleton]
      constructor
      · rintro rfl
        exact ⟨[], _, by rw [hplace, List.append_nil], .self _, hvariable, hvalue⟩
      · rintro ⟨rest, reached, hpath, hreached, -, hread⟩
        cases hreached with
        | self =>
          rw [hvalue] at hread
          refine Prod.ext ?_ (Except.ok.inj hread).symm
          rw [hpath, hplace, List.append_nil]
        | step hgroup =>
          rw [hvariable] at hgroup
          cases hgroup
    · rename_i hvariable
      have hgroup := eq_false_of_ne_true hvariable
      obtain ⟨lists, rfl, hlists⟩ := leavesAmong_eq_ok h
      rw [mem_flatten_iff hlists fun member hm list hlist item =>
        ih member hm (hall.of_mem hm) hlist]
      constructor
      · rintro ⟨member, hm, rest, found, hpath, hreached, hfound⟩
        refine ⟨member.1 :: rest, found, by rw [hpath, List.append_assoc]; rfl, ?_, hfound⟩
        exact .step hgroup ((Keyed.lookup_eq_some_iff hkeys).mpr hm) hreached
      · rintro ⟨rest, found, hpath, hreached, hfound⟩
        cases hreached with
        | self => exact absurd hfound.1 hvariable
        | step _ hchild hrest =>
          refine ⟨_, (Keyed.lookup_eq_some_iff hkeys).mp hchild, _, found, ?_, hrest, hfound⟩
          rw [hpath, List.append_assoc]
          rfl

/-! ### Regions -/

theorem regionOf_eq_ok {region : String} {json : Json} {leaves : List (Path × Variable)} :
    regionOf region json = .ok leaves ↔ (∃ members, json = .object members) ∧
      json.isVariable = false ∧ leavesOf [region] json = .ok leaves := by
  cases json with
  | object members =>
    simp only [regionOf, leavesOf]
    cases (Json.object members).isVariable <;> simp
  | _ => exact iff_of_false error_ne_ok (by simp)

theorem ofJson_eq_ok_iff {json : Json} {schema : Schema} :
    ofJson json = .ok schema ↔ ∃ members leaves, json.canonical = .object members ∧
      (∀ member ∈ members, isRegion member.1 = true) ∧
      (members.lookup Path.privateRegion).isSome = true ∧ regionsOf members = .ok leaves ∧
      Tree.empty.putAll leaves = .ok schema := by
  unfold ofJson
  split
  · rename_i members hobject
    simp only [hobject, Json.object.injEq]
    have hregions : (members.find? fun member => !isRegion member.1) = none ↔
        ∀ member ∈ members, isRegion member.1 = true := by
      simp [List.find?_eq_none]
    cases hfind : members.find? fun member => !isRegion member.1 with
    | some member =>
      refine iff_of_false error_ne_ok ?_
      rintro ⟨_, leaves, rfl, hall, -⟩
      rw [hregions.mpr hall] at hfind
      cases hfind
    | none =>
      cases hprivate : members.lookup Path.privateRegion with
      | none =>
        refine iff_of_false error_ne_ok ?_
        rintro ⟨_, leaves, rfl, -, hsome, -⟩
        rw [hprivate] at hsome
        cases hsome
      | some region =>
        change (regionsOf members >>= fun leaves => _) = .ok schema ↔ _
        simp only [bind_eq_ok, mapError_eq_ok]
        constructor
        · rintro ⟨leaves, hleaves, hput⟩
          refine ⟨members, leaves, rfl, hregions.mp hfind, ?_, hleaves, hput⟩
          rw [hprivate]
          rfl
        · rintro ⟨_, leaves, rfl, -, -, hleaves, hput⟩
          exact ⟨leaves, hleaves, hput⟩
  · rename_i hnone
    refine iff_of_false error_ne_ok ?_
    rintro ⟨members, -, hobject, -⟩
    exact hnone members hobject

/-- Only regions have keys at the root, so it is a group. -/
theorem isVariable_of_regions {json : Json}
    (h : ∀ key region, json.get? key = some region → isRegion key = true) :
    json.isVariable = false := by
  rw [Json.isVariable]
  cases htype : json.get? "type" with
  | none => rfl
  | some found => exact absurd (h "type" found htype) (by decide)

theorem mem_regionsOf {members : List (String × Json)} {leaves : List (Path × Variable)}
    (ho : (Json.object members).Ordered) (hgroup : (Json.object members).isVariable = false)
    (h : regionsOf members = .ok leaves) {leaf : Path × Variable} :
    leaf ∈ leaves ↔ ∃ found, (Json.object members).Reached leaf.1 found ∧
      found.isVariable = true ∧ Variable.ofJson found = .ok leaf.2 := by
  obtain ⟨lists, hlists, rfl⟩ := map_eq_ok.mp h
  rw [mem_flatten_iff (mapM_eq_ok.mp hlists) fun member hm list hlist item =>
    mem_leavesOf (ho.2.of_mem hm) (regionOf_eq_ok.mp hlist).2.2]
  constructor
  · rintro ⟨member, hm, rest, found, hpath, hreached, hfound⟩
    refine ⟨found, ?_, hfound⟩
    rw [hpath]
    exact .step hgroup ((Keyed.lookup_eq_some_iff ho.1).mpr hm) hreached
  · rintro ⟨found, hreached, hfound⟩
    obtain ⟨path, value⟩ := leaf
    cases hreached with
    | self =>
      rw [hgroup] at hfound
      cases hfound.1
    | step _ hchild hrest =>
      exact ⟨_, (Keyed.lookup_eq_some_iff ho.1).mp hchild, _, found, rfl, hrest, hfound⟩

theorem exists_regionOf_iff {key : String} {region : Json} :
    (∃ leaves, regionOf key region.canonical = .ok leaves) ↔
      region.isVariable = false ∧ ∀ rest found, region.Reached rest found → Fits found := by
  simp only [regionOf_eq_ok, exists_and_left, exists_leavesOf_iff region.ordered_canonical,
    Json.isVariable_canonical, Json.reached_canonical]
  constructor
  · rintro ⟨-, hgroup, hfits⟩
    exact ⟨hgroup, fun rest found hfound =>
      fits_canonical.mp (hfits rest _ ⟨found, hfound, rfl⟩)⟩
  · rintro ⟨hgroup, hfits⟩
    refine ⟨(fits_canonical.mpr (hfits [] region (.self region))).object, hgroup, ?_⟩
    rintro rest _ ⟨found, hfound, rfl⟩
    exact fits_canonical.mpr (hfits rest found hfound)

theorem exists_regionsOf_iff {members : List (String × Json)} :
    (∃ leaves, regionsOf members = .ok leaves) ↔
      ∀ member ∈ members, ∃ leaves, regionOf member.1 member.2 = .ok leaves := by
  rw [← exists_mapM_eq_ok]
  simp only [regionsOf, map_eq_ok]
  constructor
  · rintro ⟨_, lists, hlists, -⟩
    exact ⟨lists, hlists⟩
  · rintro ⟨lists, hlists⟩
    exact ⟨_, lists, hlists, rfl⟩

/-- **A document reads as a schema exactly if its regions fit.** -/
theorem exists_ofJson_iff {json : Json} :
    (∃ schema, ofJson json = .ok schema) ↔ (∃ members, json = .object members) ∧
      (json.get? Path.privateRegion).isSome = true ∧
      ∀ key region, json.get? key = some region → isRegion key = true ∧
        region.isVariable = false ∧ ∀ rest found, region.Reached rest found → Fits found := by
  simp only [ofJson_eq_ok_iff]
  cases json with
  | object original =>
    have ho := (Json.object original).ordered_canonical
    have hget := (Json.object original).get?_canonical
    rw [Json.canonical] at ho hget
    have hmem (member : String × Json) : member ∈ Json.canonicalMembers original ↔
        ∃ region, (Json.object original).get? member.1 = some region ∧
          region.canonical = member.2 := by
      rw [← Option.map_eq_some_iff, ← hget]
      exact (Keyed.lookup_eq_some_iff ho.1).symm
    have hprivate := congrArg Option.isSome (hget Path.privateRegion)
    rw [Option.isSome_map] at hprivate
    constructor
    · rintro ⟨schema, members, leaves, hcanonical, hregions, hsome, hleaves, -⟩
      rw [Json.canonical] at hcanonical
      cases hcanonical
      refine ⟨⟨original, rfl⟩, hprivate.symm.trans hsome, fun key region hregion => ?_⟩
      have hm : (key, region.canonical) ∈ Json.canonicalMembers original :=
        (hmem _).mpr ⟨region, hregion, rfl⟩
      exact ⟨hregions _ hm, exists_regionOf_iff.mp (exists_regionsOf_iff.mp ⟨leaves, hleaves⟩ _ hm)⟩
    · rintro ⟨-, hsome, hall⟩
      have hleaves : ∃ leaves, regionsOf (Json.canonicalMembers original) = .ok leaves := by
        refine exists_regionsOf_iff.mpr fun member hm => ?_
        obtain ⟨region, hregion, hsame⟩ := (hmem member).mp hm
        rw [← hsame]
        exact exists_regionOf_iff.mpr (hall member.1 region hregion).2
      obtain ⟨leaves, hleaves⟩ := hleaves
      obtain ⟨schema, hput⟩ := exists_putAll_regionsOf ho hleaves
      refine ⟨schema, _, leaves, by rw [Json.canonical], fun member hm => ?_,
        hprivate.trans hsome, hleaves, hput⟩
      obtain ⟨region, hregion, -⟩ := (hmem member).mp hm
      exact (hall member.1 region hregion).1
  | _ => simp [Json.canonical]

theorem fits_of_reached {json found : Json} {schema : Schema} (h : ofJson json = .ok schema)
    {path : Path} (hne : path ≠ []) (hreached : json.Reached path found) : Fits found := by
  obtain ⟨-, -, hregions⟩ := exists_ofJson_iff.mp ⟨schema, h⟩
  cases path with
  | nil => exact absurd rfl hne
  | cons key rest =>
    obtain ⟨-, region, hregion, hrest⟩ := Json.reached_cons.mp hreached
    exact (hregions key region hregion).2.2 rest found hrest

theorem isVariable_of_ofJson {json : Json} {schema : Schema} (h : ofJson json = .ok schema) :
    json.isVariable = false := by
  obtain ⟨-, -, hregions⟩ := exists_ofJson_iff.mp ⟨schema, h⟩
  exact isVariable_of_regions fun key region hregion => (hregions key region hregion).1

/-- **The leaves of a schema are the variables that are reached in its document.** -/
theorem mem_leaves_iff {json : Json} {schema : Schema} (h : ofJson json = .ok schema) {path : Path}
    {value : Variable} :
    (path, value) ∈ schema.leaves ↔ ∃ found, json.Reached path found ∧
      found.isVariable = true ∧ Variable.ofJson found = .ok value := by
  obtain ⟨members, leaves, hcanonical, hregions, -, hleaves, hput⟩ := ofJson_eq_ok_iff.mp h
  have ho := json.ordered_canonical
  rw [hcanonical] at ho
  have hgroup : (Json.object members).isVariable = false :=
    isVariable_of_regions fun key region hregion =>
      hregions (key, region) ((Keyed.lookup_eq_some_iff ho.1).mp hregion)
  -- A path leads to one place at most, so no two entries disagree.
  have hfun : ∀ p v w, (p, v) ∈ leaves → (p, w) ∈ leaves → v = w := by
    intro p v w hv hw
    obtain ⟨first, hfirst, -, hv⟩ := (mem_regionsOf ho hgroup hleaves).mp hv
    obtain ⟨second, hsecond, -, hw⟩ := (mem_regionsOf ho hgroup hleaves).mp hw
    have hsame := (Json.reached_iff.mp hfirst).1.symm.trans (Json.reached_iff.mp hsecond).1
    rw [Option.some.inj hsame, hw] at hv
    exact (Except.ok.inj hv).symm
  have hstored : (path, value) ∈ schema.leaves ↔ (path, value) ∈ leaves := by
    rw [Tree.mem_leaves, Tree.getLeaf?_putAll hput hfun, Tree.getLeaf?_empty]
    simp
  rw [hstored, mem_regionsOf ho hgroup hleaves, ← hcanonical]
  simp only [Json.reached_canonical]
  -- What a variable reads as is no function, so its canonical form reads the same.
  have hsame : ∀ found, json.Reached path found → found.isVariable = true →
      (Variable.ofJson found.canonical = .ok value ↔ Variable.ofJson found = .ok value) := by
    intro found hreached hvariable
    have hne : path ≠ [] := by
      rintro rfl
      rw [Json.reached_nil.mp hreached, isVariable_of_ofJson h] at hvariable
      cases hvariable
    obtain ⟨other, hother, hkind⟩ := (fits_of_reached h hne hreached).reads hvariable
    rw [hother, (Variable.ofJson_canonical hkind).mpr hother]
  constructor
  · rintro ⟨_, ⟨found, hreached, rfl⟩, hvariable, hread⟩
    rw [Json.isVariable_canonical] at hvariable
    exact ⟨found, hreached, hvariable, (hsame found hreached hvariable).mp hread⟩
  · rintro ⟨found, hreached, hvariable, hread⟩
    refine ⟨_, ⟨found, hreached, rfl⟩, ?_, (hsame found hreached hvariable).mpr hread⟩
    rw [Json.isVariable_canonical]
    exact hvariable

/-! ### Readable documents -/

/-- What the document of a schema has to be like.  It is an object with a private region and perhaps
a public one, which are groups; and below them there are only groups with proper keys and
variables that read, none of them as a function. -/
structure Readable (json : Json) : Prop where
  object : ∃ members, json = .object members
  hasPrivate : (json.get? "private").isSome = true
  regions : ∀ key region, json.get? key = some region → (key = "private" ∨ key = "public") ∧
    (∃ members, region = .object members) ∧ region.isVariable = false
  objects : ∀ path found, path ≠ [] → json.LeadsTo path found → ∃ members, found = .object members
  keys : ∀ path group key child, path ≠ [] → json.LeadsTo path group → group.isVariable = false →
    group.get? key = some child → isKey key = true
  reads : ∀ path found, path ≠ [] → json.LeadsTo path found → found.isVariable = true →
    ∃ value, Variable.ofJson found = .ok value ∧ value.kind ≠ "function"

theorem isRegion_iff {key : String} : isRegion key = true ↔ key = "private" ∨ key = "public" := by
  simp [isRegion, Path.privateRegion, Path.publicRegion]

theorem isKey_iff {key : String} :
    isKey key = true ↔ key ≠ "" ∧ ∀ c ∈ key.toList,
      c ≠ '.' ∧ c ≠ '\x7b' ∧ c ≠ '\x7d' ∧ Text.isBlank c = false := by
  simp [isKey, and_assoc]

/-- **A document reads as a schema exactly if it is readable.** -/
theorem exists_ofJson_iff_readable {json : Json} :
    (∃ schema, ofJson json = .ok schema) ↔ Readable json := by
  rw [exists_ofJson_iff]
  constructor
  · rintro ⟨hobject, hprivate, hregions⟩
    have hgroup := isVariable_of_regions fun key region hregion => (hregions key region hregion).1
    have hfits : ∀ path found, path ≠ [] → json.LeadsTo path found → Fits found := by
      intro path found hne hfound
      cases path with
      | nil => exact absurd rfl hne
      | cons key rest =>
        obtain ⟨-, region, hregion, hrest⟩ :=
          Json.reached_cons.mp ((Json.leadsTo_iff hgroup).mp hfound)
        exact (hregions key region hregion).2.2 rest found hrest
    refine ⟨hobject, hprivate, fun key region hregion => ?_, ?_, ?_, ?_⟩
    · obtain ⟨hkey, hvariable, hbelow⟩ := hregions key region hregion
      exact ⟨isRegion_iff.mp hkey, (hbelow [] region (.self region)).object, hvariable⟩
    · exact fun path found hne hfound => (hfits path found hne hfound).object
    · exact fun path group key child hne hfound hvariable =>
        (hfits path group hne hfound).keys hvariable key child
    · exact fun path found hne hfound => (hfits path found hne hfound).reads
  · rintro ⟨hobject, hprivate, hregions, hobjects, hkeys, hreads⟩
    have hgroup := isVariable_of_regions fun key region hregion =>
      isRegion_iff.mpr (hregions key region hregion).1
    refine ⟨hobject, hprivate, fun key region hregion => ?_⟩
    obtain ⟨hkey, -, hvariable⟩ := hregions key region hregion
    refine ⟨isRegion_iff.mpr hkey, hvariable, fun rest found hrest => ?_⟩
    have hfound : json.LeadsTo (key :: rest) found :=
      (Json.leadsTo_iff hgroup).mpr (.step hgroup hregion hrest)
    have hne := List.cons_ne_nil key rest
    exact ⟨hobjects _ found hne hfound, fun hvariable key child =>
      hkeys _ found key child hne hfound hvariable, hreads _ found hne hfound⟩

theorem path_of_mem_leaves {json : Json} {schema : Schema} (h : ofJson json = .ok schema)
    {path : Path} {value : Variable} (hm : (path, value) ∈ schema.leaves) :
    2 ≤ path.length ∧ (path.head? = some "private" ∨ path.head? = some "public") ∧
      ∀ key ∈ path, isKey key = true := by
  obtain ⟨found, hreached, hvariable, -⟩ := (mem_leaves_iff h).mp hm
  obtain ⟨⟨region, keys, rfl, hregion⟩, hkeys⟩ :=
    (wellFormed_ofJson h).path path value (Tree.mem_leaves.mp hm)
  refine ⟨?_, ?_, hkeys⟩
  · obtain ⟨-, -, hregions⟩ := exists_ofJson_iff.mp ⟨schema, h⟩
    obtain ⟨-, top, htop, hrest⟩ := Json.reached_cons.mp hreached
    cases keys with
    | nil =>
      rw [Json.reached_nil.mp hrest, (hregions region top htop).2.1] at hvariable
      cases hvariable
    | cons key keys => simp
  · rw [List.head?_cons, Option.some.injEq, Option.some.injEq]
    exact isRegion_iff.mp hregion

/-- **Reading a schema loses nothing and invents nothing.**

A document reads as a schema exactly if it is readable.  The leaves of the schema are then the
variables of the document: what stands at a path that leads through no other variable and has a
string for its type, read as a variable.  Their paths have a region and at least one key that can
stand in a placeholder, none of them is a function, and no position of the schema is barren. -/
theorem ofJson_exact (json : Json) :
    ((∃ schema, ofJson json = .ok schema) ↔ Readable json) ∧
    ∀ schema, ofJson json = .ok schema →
      (∀ path value, (path, value) ∈ schema.leaves ↔ ∃ found, json.LeadsTo path found ∧
        found.isVariable = true ∧ Variable.ofJson found = .ok value) ∧
      (∀ path value, (path, value) ∈ schema.leaves →
        2 ≤ path.length ∧ (path.head? = some "private" ∨ path.head? = some "public") ∧
        (∀ key ∈ path.tail, key ≠ "" ∧ ∀ c ∈ key.toList,
          c ≠ '.' ∧ c ≠ '\x7b' ∧ c ≠ '\x7d' ∧ Text.isBlank c = false) ∧
        value.kind ≠ "function") ∧
      Tree.Trimmed schema := by
  refine ⟨exists_ofJson_iff_readable, fun schema h => ⟨fun path value => ?_, ?_, ?_⟩⟩
  · simp only [mem_leaves_iff h, Json.leadsTo_iff (isVariable_of_ofJson h)]
  · intro path value hm
    obtain ⟨hlength, hhead, hkeys⟩ := path_of_mem_leaves h hm
    refine ⟨hlength, hhead, fun key hkey => ?_, fun hkind => ?_⟩
    · exact isKey_iff.mp (hkeys key (List.mem_of_mem_tail hkey))
    · cases value with
      | function operation out =>
        exact (wellFormed_ofJson h).notFunction path operation out (Tree.mem_leaves.mp hm)
      | _ => simp [Variable.kind] at hkind
  · exact (wellFormed_ofJson h).trimmed

def yearVariable : Json :=
  .object [
    ("type", .string "constant"),
    ("name", .string "year"),
    ("note", .object [("type", .string "setup")])]

/-- A document with a group under the key `type`. -/
def nestedDocument : Json :=
  .object [
    ("public", .object [
      ("limit", .object [
        ("type", .string "reference"),
        ("path", .array [.string "private", .string "age"])])]),
    ("private", .object [
      ("type", .object [("value", yearVariable)]),
      ("age", .object [
        ("transLinks", .array [.string "uint64-field"]),
        ("type", .string "setup")])])]

/-- The variable in the group is found, and nothing inside it. -/
theorem ofJson_exact_nested :
    Readable nestedDocument ∧ ∃ schema, ofJson nestedDocument = .ok schema ∧
      (["private", "type", "value"], .constant "year") ∈ schema.leaves ∧
      ∀ value, (["private", "type", "value", "note"], value) ∉ schema.leaves := by
  obtain ⟨hreadable, hexact⟩ := ofJson_exact nestedDocument
  obtain ⟨schema, h⟩ : ∃ schema, ofJson nestedDocument = .ok schema :=
    isOk_iff.mp (by decide +kernel)
  obtain ⟨hleaves, -⟩ := hexact schema h
  have hyear : nestedDocument.LeadsTo ["private", "type", "value"] yearVariable :=
    (Json.leadsTo_iff rfl).mpr (.step rfl rfl (.step rfl rfl (.step rfl rfl (.self _))))
  refine ⟨hreadable.mp ⟨schema, h⟩, schema, h, ?_, fun value hm => ?_⟩
  · exact (hleaves _ _).mpr ⟨yearVariable, hyear, rfl, rfl⟩
  · obtain ⟨found, ⟨-, hfirst⟩, -⟩ := (hleaves _ _).mp hm
    have hgroup := hfirst ["private", "type", "value"] _ (by decide) (by decide) (by decide) hyear.1
    cases hgroup

end Schema

end Circuitry
