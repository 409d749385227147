import Circuitry.Proofs.Scope

/-!
# Names and their owners over whole runs

A table of names is kept in two parts, the tree of the names and the list of their owners, and a
refused request may still change the second.  A name that was taken and could not be stored stays
taken, and a path that gets a second name keeps owning its first.  So the two parts drift apart, but
in one direction only: what stands in the tree is always owned by the path it stands at
(`Names.Registered`).

One step keeps that, granted or refused (`Names.Registered.answer`), so every run does
(`Names.Registered.afterRequests`).  It is enough to decide what a request for the name of a result
does (`Names.Registered.giveOutput_cases`): where the tests let it pass, storing cannot fail.
-/

namespace Circuitry

open Fallible

namespace Names

variable {names : Names}

/-! ### Requests -/

inductive Request where
  /-- A name for a path. -/
  | give (path : Path) (name : String)
  /-- The name of the result of a command. -/
  | giveOutput (name : String)

/-- The names after a request, and whether it was granted. -/
def answer (names : Names) : Request → Names × Except CompileError Unit
  | .give path name => names.give path name
  | .giveOutput name => names.giveOutput name

/-- The names after requests that came one after another, granted or not. -/
def afterRequests (names : Names) (requests : List Request) : Names :=
  requests.foldl (fun names request => (names.answer request).1) names

/-- **What giving a name can do.**  A name with an owner is refused, and nothing changes.  Any other
name gets its owner, and then it is stored, or storing it is refused. -/
theorem give_cases (names : Names) (path : Path) (name : String) :
    (∃ owner, names.owners.owner? name = some owner ∧
      names.give path name = (names, .error (.nameCollision name owner path))) ∨
    names.owners.owner? name = none ∧
      ((∃ cause, names.tree.put path name = .error cause ∧ names.give path name =
        (⟨names.tree, ⟨(name, path) :: names.owners.entries⟩⟩, .error (.storing cause))) ∨
      ∃ tree, names.tree.put path name = .ok tree ∧ names.give path name =
        (⟨tree, ⟨(name, path) :: names.owners.entries⟩⟩, .ok ())) := by
  unfold give NameOwners.assign
  cases howner : names.owners.owner? name with
  | some owner => exact .inl ⟨owner, rfl, rfl⟩
  | none =>
    refine .inr ⟨rfl, ?_⟩
    cases hput : names.tree.put path name with
    | error cause => exact .inl ⟨cause, rfl, rfl⟩
    | ok tree => exact .inr ⟨tree, rfl, rfl⟩

/-! ### The invariant -/

/-- Every name in the tree is owned by the path at which it stands.  The root has no name. -/
structure Registered (names : Names) : Prop where
  root : names.get? [] = none
  owner : ∀ path name, names.get? path = some name → names.owners.owner? name = some path

theorem registered_empty : empty.Registered where
  root := Tree.getLeaf?_empty []
  owner path name h := by
    rw [get?, empty, Tree.getLeaf?_empty] at h
    cases h

namespace Registered

theorem eq_of_get? (hr : names.Registered) {p q : Path} {name : String}
    (hp : names.get? p = some name) (hq : names.get? q = some name) : p = q :=
  Option.some.inj ((hr.owner p name hp).symm.trans (hr.owner q name hq))

/-- A new owner changes the owner of no name in the tree, as those have theirs. -/
theorem owner_cons (hr : names.Registered) {path other : Path} {name found : String}
    (hfree : names.owners.owner? name = none) (hg : names.get? other = some found) :
    NameOwners.owner? ⟨(name, path) :: names.owners.entries⟩ found = some other := by
  have hne : found ≠ name := by
    rintro rfl
    rw [hr.owner other found hg] at hfree
    cases hfree
  rw [NameOwners.owner?, List.lookup_cons, beq_false_of_ne hne]
  exact hr.owner other found hg

theorem give (hr : names.Registered) (path : Path) (name : String) :
    (names.give path name).1.Registered := by
  obtain ⟨owner, -, h⟩ | ⟨hfree, ⟨cause, -, h⟩ | ⟨tree, hput, h⟩⟩ := names.give_cases path name
  · rw [h]
    exact hr
  · rw [h]
    exact ⟨hr.root, fun _ _ hg => hr.owner_cons hfree hg⟩
  · have hget := get?_give h
    rw [h]
    refine ⟨?_, fun other found hg => ?_⟩
    · obtain ⟨key, rest, rfl, -⟩ := Tree.put_eq_ok.mp hput
      rw [hget, if_neg (List.cons_ne_nil key rest).symm]
      exact hr.root
    · rw [hget] at hg
      split at hg
      · rename_i heq
        cases hg
        rw [heq]
        exact List.lookup_cons_self
      · exact hr.owner_cons hfree hg

/-- **One request keeps the owners**, whatever its answer. -/
theorem answer (hr : names.Registered) (request : Request) :
    (names.answer request).1.Registered := by
  cases request with
  | give path name => exact hr.give path name
  | giveOutput name =>
    simp only [Names.answer, giveOutput]
    split
    · exact hr
    · exact hr.give [name] name

/-- **A whole run keeps the owners.** -/
theorem afterRequests (hr : names.Registered) (requests : List Request) :
    (names.afterRequests requests).Registered := by
  induction requests generalizing names with
  | nil => exact hr
  | cons request rest ih => exact ih (hr.answer request)

end Registered

theorem registered_of_ofPaths {target : Target} {paths : List Path} {names : Names}
    (h : ofPaths target paths = .ok names) : names.Registered := by
  refine foldlM_ok (motive := fun _ names => names.Registered) h registered_empty ?_
  intro done path names next _ hr hgive
  have hkept := hr.give path (inputName target path)
  rwa [giveInput_eq_ok hgive] at hkept

/-! ### The name of a result -/

/-- `next` is `names` with the leaf and the owner of one more result.  Nothing stood at its place,
and every other position of the tree is as it was. -/
structure AddsOutput (names : Names) (out : String) (next : Names) : Prop where
  vacant : names.tree.get? [out] = none
  unowned : names.owners.owner? out = none
  leaf : next.get? [out] = some out
  others : ∀ path, path ≠ [] → ¬ [out] <+: path → next.tree.get? path = names.tree.get? path
  owners : next.owners.entries = (out, [out]) :: names.owners.entries

theorem Registered.exists_put (hr : names.Registered) {out : String}
    (hvacant : names.tree.get? [out] = none) : ∃ tree, names.tree.put [out] out = .ok tree := by
  have hlookup : names.tree.raw.get? [out] = none := by
    have hsome : (names.tree.raw.get? [out]).isSome = false := by
      rw [← Tree.isSome_get?, hvacant]
      rfl
    simpa using hsome
  suffices hstore : ∃ raw, names.tree.raw.store out out [] = .ok raw by
    obtain ⟨raw, hstore⟩ := hstore
    exact ⟨⟨raw, names.tree.ordered.store hstore⟩, Tree.put_eq_ok.mpr ⟨out, [], rfl, hstore⟩⟩
  cases hraw : names.tree.raw with
  | leaf name =>
    -- A tree that is a leaf would give the root a name.
    have hroot : names.get? [] = some name :=
      Tree.getLeaf?_eq_some.mpr (by rw [hraw]; rfl)
    rw [hr.root] at hroot
    cases hroot
  | node branches =>
    have hnone : branches.lookup out = none := by
      rw [hraw, RawTree.get?_node_cons] at hlookup
      simpa using hlookup
    exact ⟨_, by rw [RawTree.store, hnone]⟩

theorem addsOutput_of_give {next : Names} {out : String} (hvacant : names.tree.get? [out] = none)
    (h : names.give [out] out = (next, .ok ())) : names.AddsOutput out next := by
  obtain ⟨hunowned, hput, howners⟩ := give_eq_ok h
  refine ⟨hvacant, hunowned, by rw [get?_give h, if_pos rfl], fun path hne hbelow => ?_, howners⟩
  obtain ⟨key, rest, heq, hstore⟩ := Tree.put_eq_ok.mp hput
  cases heq
  refine Tree.get?_congr (RawTree.get?_store_away hstore path (fun habove => ?_) hbelow)
  rcases List.prefix_cons_iff.mp habove with rfl | ⟨rest, rfl, -⟩
  · exact hne rfl
  · exact hbelow (List.cons_prefix_cons.mpr ⟨rfl, List.nil_prefix⟩)

/-- **A request for the name of a result is refused, or adds its leaf and its owner.**  Once the
tests let the name pass, giving it cannot fail. -/
theorem Registered.giveOutput_cases (hr : names.Registered) (out : String) :
    names.giveOutput out = (names, .error (.duplicateOutput out)) ∨
      ∃ next, names.give [out] out = (next, .ok ()) ∧ names.giveOutput out = (next, .ok ()) ∧
        names.AddsOutput out next := by
  unfold giveOutput
  split
  · exact .inl rfl
  · rename_i hpass
    simp only [Bool.or_eq_true, not_or, Bool.not_eq_true] at hpass
    obtain ⟨⟨-, hvacant⟩, hfree⟩ := hpass
    have hvacant : names.tree.get? [out] = none := by simpa using hvacant
    have hfree : names.owners.owner? out = none := by simpa [NameOwners.isTaken] using hfree
    obtain ⟨tree, hput⟩ := hr.exists_put hvacant
    obtain ⟨owner, howner, -⟩ | ⟨-, ⟨cause, herror, -⟩ | ⟨tree, -, h⟩⟩ := names.give_cases [out] out
    · rw [hfree] at howner
      cases howner
    · rw [hput] at herror
      cases herror
    · exact .inr ⟨_, h, h, addsOutput_of_give hvacant h⟩

/-- **Names stay unique over whole runs.**  After any requests, granted or refused, that start with
no names or with those of inputs, every name in the tree is owned by its own path, so two paths
never have the same name.  The next request for the name of a result is refused without a change, or
it is granted and adds the leaf and the owner of that result and nothing else. -/
theorem unique_throughout {initial : Names}
    (hstart : initial = empty ∨ ∃ target paths, ofPaths target paths = .ok initial)
    (requests : List Request) :
    let names := initial.afterRequests requests
    (∀ path name, names.get? path = some name → names.owners.owner? name = some path) ∧
      (∀ p q name, names.get? p = some name → names.get? q = some name → p = q) ∧
      ∀ out, names.giveOutput out = (names, .error (.duplicateOutput out)) ∨
        ∃ next, names.give [out] out = (next, .ok ()) ∧ names.giveOutput out = (next, .ok ()) ∧
          names.AddsOutput out next := by
  have hinitial : initial.Registered := by
    rcases hstart with rfl | ⟨target, paths, h⟩
    · exact registered_empty
    · exact registered_of_ofPaths h
  have hr := hinitial.afterRequests requests
  exact ⟨hr.owner, fun _ _ _ hp hq => hr.eq_of_get? hp hq, hr.giveOutput_cases⟩

/-- Requests of which the second is refused by the tree, the fourth because its name is still
taken, and the third gives a path its second name. -/
def retries : List Request :=
  [.give ["private", "age"] "age", .give ["private", "age", "years"] "years",
    .give ["private", "age"] "old", .giveOutput "age", .giveOutput "sum"]

/-- After refused requests a path has its second name, the first one and the one that could not be
stored stay taken, and the statement holds. -/
theorem unique_throughout_retries :
    let names := empty.afterRequests retries
    names.get? ["private", "age"] = some "old" ∧ names.get? ["sum"] = some "sum" ∧
      names.owners.owner? "age" = some ["private", "age"] ∧
      names.owners.owner? "years" = some ["private", "age", "years"] ∧
      (∀ p q name, names.get? p = some name → names.get? q = some name → p = q) ∧
      names.giveOutput "years" = (names, .error (.duplicateOutput "years")) := by
  obtain ⟨-, hunique, houtput⟩ := unique_throughout (.inl rfl) retries
  have hsum : (empty.afterRequests retries).get? ["sum"] = some "sum" := by decide +kernel
  have hold : (empty.afterRequests retries).get? ["private", "age"] = some "old" := by
    decide +kernel
  have hyears : (empty.afterRequests retries).owners.owner? "years" =
      some ["private", "age", "years"] := by decide +kernel
  refine ⟨hold, hsum, by decide +kernel, hyears, hunique, ?_⟩
  rcases houtput "years" with hrefused | ⟨next, -, -, hadds⟩
  · exact hrefused
  · rw [hadds.unowned] at hyears
    cases hyears

end Names

end Circuitry
