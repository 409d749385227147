import Circuitry.Proofs.Targets

/-!
# Names for schema paths

Cleaning replaces characters, and keys are joined by a character that they may hold themselves, so
different paths may well get one name.  That is the only thing that can go wrong: if no path leads
through another, the paths have their names exactly if these are all different
(`Names.exists_ofPaths_iff`).  Whatever the keys are, the names are made of identifiers
(`Identifier.isValid_ofKeys_iff`).

The tree of the names does not know in which order they were given.  It has no barren position, so
it is known by the names it holds, and these are said by the paths alone.
-/

namespace Circuitry

/-! ### Identifiers -/

namespace Identifier

theorem isValid_iff {name : String} :
    isValid name = true ↔ (∃ first, name.toList.head? = some first ∧ first.isDigit = false) ∧
      ∀ c ∈ name.toList, isPart c = true := by
  unfold isValid
  cases name.toList with
  | nil => simp
  | cons first rest =>
    simp only [isStart, Bool.and_eq_true, Bool.not_eq_true', List.all_eq_true, List.head?_cons,
      Option.some.injEq, exists_eq_left', List.forall_mem_cons]
    constructor
    · rintro ⟨⟨hpart, hdigit⟩, hrest⟩
      exact ⟨hdigit, hpart, hrest⟩
    · rintro ⟨hdigit, hpart, hrest⟩
      exact ⟨⟨hpart, hdigit⟩, hrest⟩

theorem cleaned_ne_nil {key : String} (h : key ≠ "") : (cleaned key).toList ≠ [] := by
  rw [cleaned, String.toList_ofList, ne_eq, List.map_eq_nil_iff, String.toList_eq_nil_iff]
  exact h

theorem joined_ne_nil {keys : List String} (hne : keys ≠ []) (hkeys : ∀ key ∈ keys, key ≠ "") :
    ("_".intercalate (keys.map cleaned)).toList ≠ [] := by
  cases keys with
  | nil => exact absurd rfl hne
  | cons key rest =>
    have hkey := cleaned_ne_nil (hkeys key List.mem_cons_self)
    cases rest with
    | nil => simpa using hkey
    | cons next rest =>
      rw [List.map_cons, List.map_cons, String.intercalate_cons_cons, String.toList_append,
        String.toList_append]
      simp [hkey]

/-- **Keys that are not empty give an identifier**, if there are any. -/
theorem isValid_ofKeys_iff {keys : List String} (hkeys : ∀ key ∈ keys, key ≠ "") :
    isValid (ofKeys keys) = true ↔ keys ≠ [] := by
  constructor
  · rintro hvalid rfl
    exact absurd hvalid (by decide)
  · intro hne
    refine isValid_iff.mpr ⟨?_, isPart_ofKeys keys⟩
    obtain ⟨first, rest, hjoined⟩ := List.exists_cons_of_ne_nil (joined_ne_nil hne hkeys)
    unfold ofKeys
    dsimp only
    split
    · exact ⟨'_', by rw [String.toList_append]; rfl, by decide⟩
    · rename_i hdigit
      refine ⟨first, by rw [hjoined]; rfl, ?_⟩
      simpa [hjoined] using hdigit

end Identifier

namespace Names

/-! ### Giving names to paths -/

theorem inputName_eq (target : Target) (path : Path) :
    inputName target path = if target = .zkProgram ∧ path.isPublic = true
      then publicAccessor ++ "." ++ path.publicField else path.identifier := by
  cases target with
  | zkProgram => simp [inputName]
  | smartContract => simp [inputName]

/-- **Paths get their names exactly if the names are different.** -/
theorem exists_ofPaths_iff {target : Target} {paths : List Path} (hfree : PrefixFree (· ∈ paths))
    (hne : ∀ path ∈ paths, path ≠ []) :
    (∃ names, ofPaths target paths = .ok names) ↔ (paths.map (inputName target)).Nodup :=
  ⟨fun ⟨_, h⟩ => nodup_of_ofPaths h, exists_ofPaths hfree hne⟩

theorem tree_eq_of_perm {target : Target} {paths others : List Path} {names names' : Names}
    (hperm : others.Perm paths) (h : ofPaths target paths = .ok names)
    (h' : ofPaths target others = .ok names') : names'.tree = names.tree := by
  refine Tree.ext_getLeaf? (faithful_of_ofPaths h').trimmed (faithful_of_ofPaths h).trimmed ?_
  intro path
  apply Option.ext
  intro name
  exact (get?_ofPaths h' path name).trans
    ((and_congr_left fun _ => hperm.mem_iff).trans (get?_ofPaths h path name).symm)

/-- **Schema paths have names exactly if the names are different.**  The paths do not lead through
one another, their keys are not empty, and public paths have a key behind their region.  Then each
path has the name that is assigned to it, and no other path has one.  Whatever characters the keys
hold, the name of a path is an identifier, and so is its public field if there is a key left for it,
as there is in every public path.  The order of the paths matters neither for success nor for the
tree of the names. -/
theorem ofPaths_total_iff_distinct (target : Target) {paths : List Path}
    (hne : ∀ path ∈ paths, path ≠ []) (hfree : PrefixFree (· ∈ paths))
    (hkeys : ∀ path ∈ paths, ∀ key ∈ path, key ≠ "")
    (hpublic : ∀ path ∈ paths, path.isPublic = true → 2 ≤ path.length) :
    let assigned (path : Path) : String :=
      if target = .zkProgram ∧ path.isPublic = true then publicAccessor ++ "." ++ path.publicField
      else path.identifier
    ((∃ names, ofPaths target paths = .ok names) ↔ (paths.map assigned).Nodup) ∧
      (∀ names, ofPaths target paths = .ok names →
        (∀ path ∈ paths, names.get? path = some (assigned path)) ∧
        ∀ path, names.contains path = true ↔ path ∈ paths) ∧
      (∀ path ∈ paths, Identifier.isValid path.identifier = true ∧
        (path.isPublic = true → Identifier.isValid path.publicField = true) ∧
        (Identifier.isValid path.publicField = true ↔ 2 ≤ path.length)) ∧
      ∀ others : List Path, others.Perm paths →
        ((∃ names, ofPaths target others = .ok names) ↔
          ∃ names, ofPaths target paths = .ok names) ∧
        ∀ names names', ofPaths target paths = .ok names → ofPaths target others = .ok names' →
          names'.tree = names.tree := by
  intro assigned
  have hassigned : assigned = inputName target := funext fun path => (inputName_eq target path).symm
  rw [hassigned]
  have hfield : ∀ path ∈ paths,
      (Identifier.isValid path.publicField = true ↔ 2 ≤ path.length) := by
    intro path hm
    have htail : ∀ key ∈ path.tail, key ≠ "" :=
      fun key hk => hkeys path hm key (List.mem_of_mem_tail hk)
    rw [Path.publicField, Identifier.isValid_ofKeys_iff htail, ← List.length_pos_iff,
      List.length_tail]
    omega
  refine ⟨exists_ofPaths_iff hfree hne, fun names h => ⟨fun path hm => ?_, ?_⟩,
    fun path hm => ⟨?_, fun hp => ?_, hfield path hm⟩, fun others hperm => ⟨?_, ?_⟩⟩
  · exact (get?_ofPaths h path _).mpr ⟨hm, rfl⟩
  · exact contains_ofPaths_iff h
  · exact (Identifier.isValid_ofKeys_iff (hkeys path hm)).mpr (hne path hm)
  · exact (hfield path hm).mpr (hpublic path hm hp)
  · -- All that success asks for is said of the paths as a set, except that the names differ.
    have hfree' : PrefixFree (· ∈ others) := fun p q hp hq =>
      hfree p q (hperm.mem_iff.mp hp) (hperm.mem_iff.mp hq)
    rw [exists_ofPaths_iff hfree' fun path hm => hne path (hperm.mem_iff.mp hm),
      exists_ofPaths_iff hfree hne]
    exact (hperm.map _).nodup_iff
  · intro names names' h h'
    exact tree_eq_of_perm hperm h h'

/-- Two paths of which neither has an identifier for its last key. -/
def oddPaths : List Path :=
  [["public", "1"], ["private", "a b"]]

/-- One more path, whose name is the name of `private.a b`. -/
def crowdedPaths : List Path :=
  ["private", "a", "b"] :: oddPaths

/-- The odd paths get names, and the crowded ones do not. -/
theorem ofPaths_total_iff_distinct_odd :
    (∃ names, ofPaths .zkProgram oddPaths = .ok names ∧
      names.get? ["public", "1"] = some "publicInput._1" ∧
      names.get? ["private", "a b"] = some "private_a_b" ∧
      names.contains ["private"] = false) ∧
      ¬ ∃ names, ofPaths .zkProgram crowdedPaths = .ok names := by
  have hne : ∀ path ∈ crowdedPaths, path ≠ [] := by decide
  have hpairs : ∀ p ∈ crowdedPaths, ∀ q ∈ crowdedPaths, p <+: q → p = q := by decide
  have hfree : PrefixFree (· ∈ crowdedPaths) := fun p q hp hq => hpairs p hp q hq
  have hkeys : ∀ path ∈ crowdedPaths, ∀ key ∈ path, key ≠ "" := by decide
  have hpublic : ∀ path ∈ crowdedPaths, path.isPublic = true → 2 ≤ path.length := by decide
  have hodd : ∀ path ∈ oddPaths, path ∈ crowdedPaths := fun _ => List.mem_cons_of_mem _
  obtain ⟨htotal, hnames, -⟩ := ofPaths_total_iff_distinct .zkProgram
    (fun path hm => hne path (hodd path hm))
    (fun p q hp hq => hfree p q (hodd p hp) (hodd q hq))
    (fun path hm => hkeys path (hodd path hm)) (fun path hm => hpublic path (hodd path hm))
  obtain ⟨names, h⟩ := htotal.mpr (by decide)
  obtain ⟨hget, hcontains⟩ := hnames names h
  refine ⟨⟨names, h, hget _ (by decide), hget _ (by decide), ?_⟩, fun hall => ?_⟩
  · exact Bool.eq_false_iff.mpr fun htrue => absurd ((hcontains _).mp htrue) (by decide)
  · have hdistinct := (ofPaths_total_iff_distinct .zkProgram hne hfree hkeys hpublic).1.mp hall
    exact absurd hdistinct (by decide)

end Names

end Circuitry
