import Circuitry.Proofs.Names
import Circuitry.Proofs.Nesting

/-!
# Well-scoped commands

Commands are translated one after another, and the names grow on the way: the result of a command
can be referred to by the commands after it and by no other.  `Command.ScopedAfter` says what a
command may do in its place in the list, without speaking of translation, and
`statementsOf_wellScoped` that the translator accepts exactly the lists all of whose commands do
that.

The proof follows the names.  They stay faithful (`Names.Faithful`): the names in use are those of
the paths that have one, so the three tests that a result has to pass all ask about the tree.  After
some commands the names are the old ones and the results of these commands (`Names.After`).  A
command that is not accepted leaves them as they are.
-/

namespace Circuitry

open Fallible

namespace Names

/-! ### Names in use -/

/-- The names in use are those of the paths that have one.  No position of the tree is barren, and
the root has no name. -/
structure Faithful (names : Names) : Prop where
  trimmed : names.tree.Trimmed
  root : names.get? [] = none
  taken : ∀ name, names.owners.isTaken name = true ↔ ∃ path, names.get? path = some name

theorem faithful_empty : empty.Faithful where
  trimmed := Tree.trimmed_empty
  root := Tree.getLeaf?_empty []
  taken name := by simp [empty, get?, NameOwners.isTaken, NameOwners.owner?, NameOwners.empty]

theorem Faithful.give {names next : Names} {path : Path} {name : String} (hf : names.Faithful)
    (hnew : names.get? path = none) (h : names.give path name = (next, .ok ())) :
    next.Faithful := by
  obtain ⟨-, hput, hentries⟩ := give_eq_ok h
  obtain ⟨key, rest, rfl, -⟩ := Tree.put_eq_ok.mp hput
  refine ⟨hf.trimmed.put hput, ?_, fun other => ?_⟩
  · rw [get?_give h, if_neg (List.cons_ne_nil key rest).symm]
    exact hf.root
  · rw [NameOwners.isTaken, NameOwners.owner?, hentries, List.lookup_cons]
    by_cases hname : other = name
    · subst hname
      simp only [beq_self_eq_true, Option.isSome_some, true_iff]
      exact ⟨key :: rest, by rw [get?_give h, if_pos rfl]⟩
    · rw [beq_false_of_ne hname]
      change names.owners.isTaken other = true ↔ _
      rw [hf.taken]
      refine exists_congr fun found => ?_
      rw [get?_give h]
      split
      · rename_i heq
        subst heq
        simp [hnew, Ne.symm hname]
      · rfl

/-- **The names of inputs are faithful.**  A path has only the name that it says, so it cannot get a
second one. -/
theorem faithful_of_ofPaths {target : Target} {paths : List Path} {names : Names}
    (h : ofPaths target paths = .ok names) : names.Faithful := by
  have hrun : names.Faithful ∧
      ∀ path name, names.get? path = some name → name = inputName target path := by
    refine foldlM_ok (motive := fun _ names => names.Faithful ∧
      ∀ path name, names.get? path = some name → name = inputName target path) h
      ⟨faithful_empty, fun path name hg => ?_⟩ ?_
    · rw [get?, empty, Tree.getLeaf?_empty] at hg
      cases hg
    · rintro done path names next - ⟨hf, hnames⟩ hgive
      have hgive := giveInput_eq_ok hgive
      have hnew : names.get? path = none := by
        cases hg : names.get? path with
        | none => rfl
        | some name =>
          have htaken := (hf.taken (inputName target path)).mpr ⟨path, hnames path name hg ▸ hg⟩
          rw [NameOwners.isTaken, (give_eq_ok hgive).1] at htaken
          cases htaken
      refine ⟨hf.give hnew hgive, fun other name hg => ?_⟩
      rw [get?_give hgive] at hg
      split at hg
      · rename_i heq
        rw [heq]
        exact (Option.some.inj hg).symm
      · exact hnames other name hg
  exact hrun.1

/-! ### Names for results -/

/-- A name that a result can take: it is not reserved, no path with a name starts with it, and no
path has it. -/
def Free (names : Names) (out : String) : Prop :=
  out ∉ reservedRoots ∧
    ∀ path name, names.get? path = some name → path.head? ≠ some out ∧ name ≠ out

theorem Faithful.isSome_get?_iff {names : Names} (hf : names.Faithful) {key : String} :
    (names.tree.get? [key]).isSome = true ↔
      ∃ path name, names.get? path = some name ∧ path.head? = some key := by
  rw [Tree.isSome_get?, Option.isSome_iff_exists]
  constructor
  · rintro ⟨found, hfound⟩
    obtain ⟨below, name, hleaf⟩ := hf.trimmed [key] found (List.cons_ne_nil _ _) hfound
    refine ⟨key :: below, name, Tree.getLeaf?_eq_some.mpr ?_, rfl⟩
    have happend := RawTree.get?_append names.tree.raw [key] below
    rw [hfound] at happend
    exact happend.trans hleaf
  · rintro ⟨path, name, hg, hhead⟩
    obtain ⟨rest, rfl⟩ : ∃ rest, path = [key] ++ rest := by
      cases path with
      | nil => cases hhead
      | cons first rest =>
        cases hhead
        exact ⟨rest, rfl⟩
    have hleaf := Tree.getLeaf?_eq_some.mp hg
    rw [RawTree.get?_append] at hleaf
    obtain ⟨found, hfound, -⟩ := Option.bind_eq_some_iff.mp hleaf
    exact ⟨found, hfound⟩

theorem Faithful.refuses_iff {names : Names} (hf : names.Faithful) {out : String} :
    (reservedRoots.contains out || (names.tree.get? [out]).isSome ||
      names.owners.isTaken out) = true ↔ ¬ names.Free out := by
  rw [Bool.or_eq_true, Bool.or_eq_true, List.contains_iff_mem, hf.isSome_get?_iff, hf.taken]
  constructor
  · rintro ((hreserved | ⟨path, name, hg, hhead⟩) | ⟨path, hg⟩) ⟨hfree, hclear⟩
    · exact hfree hreserved
    · exact (hclear path name hg).1 hhead
    · exact (hclear path out hg).2 rfl
  · intro hnot
    by_contra hpass
    simp only [not_or, not_exists, not_and] at hpass
    obtain ⟨⟨hfree, hheads⟩, hnames⟩ := hpass
    refine hnot ⟨hfree, fun path name hg => ⟨hheads path name hg, ?_⟩⟩
    rintro rfl
    exact hnames path hg

theorem Faithful.giveOutput_of_not_free {names : Names} (hf : names.Faithful) {out : String}
    (h : ¬ names.Free out) : names.giveOutput out = (names, .error (.duplicateOutput out)) := by
  rw [giveOutput, if_pos (hf.refuses_iff.mpr h)]

/-- A free name, as a path, leads through no path with a name, and no such path leads through it. -/
theorem Faithful.prefixFree_of_free {names : Names} (hf : names.Faithful) {out : String}
    (h : names.Free out) :
    PrefixFree fun path => path = [out] ∨ path ∈ names.tree.leafPaths := by
  have hleaf {path : Path} (hm : path ∈ names.tree.leafPaths) :
      path ≠ [] ∧ path.head? ≠ some out := by
    obtain ⟨name, hg⟩ := Tree.mem_leafPaths.mp hm
    refine ⟨?_, (h.2 path name hg).1⟩
    rintro rfl
    have hroot := hf.root
    rw [get?, hg] at hroot
    cases hroot
  rintro p q (rfl | hp) (rfl | hq) hpq
  · rfl
  · obtain ⟨rest, rfl⟩ := hpq
    exact absurd rfl (hleaf hq).2
  · cases p with
    | nil => exact absurd rfl (hleaf hp).1
    | cons key rest =>
      have hkey := (List.cons_prefix_cons.mp hpq).1
      exact absurd (congrArg some hkey) (hleaf hp).2
  · exact Tree.prefixFree_leafPaths names.tree p q hp hq hpq

/-- **A free name can be taken.**  Storing it meets no obstacle, as nothing stands at its place. -/
theorem Faithful.exists_giveOutput {names : Names} (hf : names.Faithful) {out : String}
    (h : names.Free out) : ∃ next, names.giveOutput out = (next, .ok ()) ∧ next.Faithful ∧
      names.tree.put [out] out = .ok next.tree := by
  have hnone : names.get? [out] = none := by
    cases hg : names.get? [out] with
    | none => rfl
    | some name => exact absurd rfl (h.2 [out] name hg).1
  have howner : names.owners.owner? out = none := by
    cases ho : names.owners.owner? out with
    | none => rfl
    | some owner =>
      have htaken : names.owners.isTaken out = true := by rw [NameOwners.isTaken, ho]; rfl
      obtain ⟨path, hg⟩ := (hf.taken out).mp htaken
      exact absurd rfl (h.2 path out hg).2
  obtain ⟨tree, hput⟩ := Tree.exists_put hf.trimmed (List.cons_ne_nil out [])
    (hf.prefixFree_of_free h) out
  have hgive : names.give [out] out = (⟨tree, ⟨(out, [out]) :: names.owners.entries⟩⟩, .ok ()) := by
    rw [Names.give, NameOwners.assign, howner]
    dsimp only
    rw [hput]
  refine ⟨_, ?_, hf.give hnone hgive, hput⟩
  rw [giveOutput, if_neg (fun hrefused => hf.refuses_iff.mp hrefused h), hgive]

end Names

/-! ### Commands in their places -/

/-- The paths to which a command can refer: those that have names at the start, and the results of
the commands before it. -/
def Names.DeclaredAfter (initial : Names) (before : List Command) (path : Path) : Prop :=
  path ∈ initial.tree.leafPaths ∨
    ∃ earlier ∈ before, ∃ out, earlier.out = some out ∧ path = [out]

/-- A command that can stand after the given ones: every operation in it is admissible, with the
command itself at depth one, and its result has a free name that is not the one of an earlier
result. -/
structure Command.ScopedAfter (converter : Converter) (maxDepth : Nat) (initial : Names)
    (before : List Command) (command : Command) : Prop where
  operation : ∀ depth inner, Operation.Nested 1 command.operation depth inner →
    inner.Admissible converter maxDepth (initial.DeclaredAfter before) depth
  out : ∀ out, command.out = some out →
    initial.Free out ∧ ∀ earlier ∈ before, earlier.out ≠ some out

/-- Every command can stand where it stands. -/
def WellScoped (converter : Converter) (maxDepth : Nat) (initial : Names)
    (commands : List Command) : Prop :=
  ∀ before command after, commands = before ++ command :: after →
    command.ScopedAfter converter maxDepth initial before

/-- The entries that the results of commands add to the names. -/
def Command.results (commands : List Command) : List (Path × String) :=
  commands.filterMap fun command => command.out.map fun out => ([out], out)

/-- The names after some commands: the ones at the start and the results. -/
structure Names.After (initial : Names) (before : List Command) (names : Names) : Prop where
  faithful : names.Faithful
  get? : ∀ path name, names.get? path = some name ↔ initial.get? path = some name ∨
    path = [name] ∧ ∃ earlier ∈ before, earlier.out = some name
  tree : initial.tree.putAll (Command.results before) = .ok names.tree

section

variable {converter : Converter} {maxDepth : Nat} {initial : Names}

theorem wellScoped_nil : WellScoped converter maxDepth initial [] := by
  intro before command after heq
  simp at heq

theorem WellScoped.concat {before : List Command} {command : Command}
    (h : WellScoped converter maxDepth initial before)
    (hlast : command.ScopedAfter converter maxDepth initial before) :
    WellScoped converter maxDepth initial (before ++ [command]) := by
  intro first other rest heq
  rcases List.eq_nil_or_concat' rest with rfl | ⟨rest, last, rfl⟩
  · obtain ⟨rfl, hsame⟩ := List.append_inj' heq rfl
    cases hsame
    exact hlast
  · rw [← List.cons_append, ← List.append_assoc] at heq
    obtain ⟨rfl, -⟩ := List.append_inj' heq rfl
    exact h first other rest rfl

namespace Names.After

theorem start (hf : initial.Faithful) : initial.After [] initial where
  faithful := hf
  get? path name := by simp
  tree := rfl

variable {before : List Command} {names : Names} {command : Command}

theorem contains_iff (h : initial.After before names) {path : Path} :
    names.contains path = true ↔ initial.DeclaredAfter before path := by
  rw [Names.contains, Option.isSome_iff_exists, DeclaredAfter, Tree.mem_leafPaths]
  constructor
  · rintro ⟨name, hg⟩
    rcases (h.get? path name).mp hg with hg | ⟨rfl, earlier, hm, hout⟩
    · exact .inl ⟨name, hg⟩
    · exact .inr ⟨earlier, hm, name, hout, rfl⟩
  · rintro (⟨name, hg⟩ | ⟨earlier, hm, out, hout, rfl⟩)
    · exact ⟨name, (h.get? path name).mpr (.inl hg)⟩
    · exact ⟨out, (h.get? [out] out).mpr (.inr ⟨rfl, earlier, hm, hout⟩)⟩

theorem free_iff (h : initial.After before names) {out : String} :
    names.Free out ↔ initial.Free out ∧ ∀ earlier ∈ before, earlier.out ≠ some out := by
  constructor
  · rintro ⟨hreserved, hclear⟩
    refine ⟨⟨hreserved, fun path name hg => ?_⟩, fun earlier hm hout => ?_⟩
    · exact hclear path name ((h.get? path name).mpr (.inl hg))
    · exact (hclear [out] out ((h.get? [out] out).mpr (.inr ⟨rfl, earlier, hm, hout⟩))).2 rfl
  · rintro ⟨⟨hreserved, hclear⟩, hbefore⟩
    refine ⟨hreserved, fun path name hg => ?_⟩
    rcases (h.get? path name).mp hg with hg | ⟨rfl, earlier, hm, hout⟩
    · exact hclear path name hg
    · have hne : name ≠ out := by
        rintro rfl
        exact hbefore earlier hm hout
      exact ⟨fun heq => hne (Option.some.inj heq), hne⟩

theorem expr_isOk_iff (h : initial.After before names) :
    (∃ expr, command.operation.expr ⟨converter, maxDepth, names⟩ 1 = .ok expr) ↔
      ∀ depth inner, Operation.Nested 1 command.operation depth inner →
        inner.Admissible converter maxDepth (initial.DeclaredAfter before) depth := by
  have hdeclared : (fun path => names.contains path = true) = initial.DeclaredAfter before :=
    funext fun path => propext h.contains_iff
  rw [Operation.expr_isOk_iff, ← hdeclared]

theorem concat_none (h : initial.After before names) (hout : command.out = none) :
    initial.After (before ++ [command]) names where
  faithful := h.faithful
  get? path name := by
    rw [h.get?]
    simp [hout]
  tree := by
    rw [← h.tree]
    simp [Command.results, hout]

theorem concat_some (h : initial.After before names) {out : String} (hout : command.out = some out)
    (hfree : names.Free out) :
    ∃ next, names.giveOutput out = (next, .ok ()) ∧ initial.After (before ++ [command]) next := by
  obtain ⟨next, hgive, hnext, hput⟩ := h.faithful.exists_giveOutput hfree
  refine ⟨next, hgive, hnext, fun path name => ?_, ?_⟩
  · have hnew : names.get? [out] = none := (giveOutput_eq_ok hgive).2.1
    rw [get?_give (giveOutput_eq_ok hgive).2.2]
    by_cases hpath : path = [out]
    · subst hpath
      rw [if_pos rfl]
      constructor
      · rintro ⟨⟩
        exact .inr ⟨rfl, command, List.mem_append_right _ List.mem_cons_self, hout⟩
      · rintro (hg | ⟨hname, -⟩)
        · rw [(h.get? [out] name).mpr (.inl hg)] at hnew
          cases hnew
        · rw [List.singleton_inj.mp hname]
    · rw [if_neg hpath, h.get?]
      refine or_congr_right (and_congr_right fun heq => ?_)
      have hname : some out ≠ some name := fun hsame => hpath (by rw [heq, Option.some.inj hsame])
      simp [or_and_right, exists_or, hout, hname]
  · have hresults : Command.results (before ++ [command]) =
        Command.results before ++ [([out], out)] := by
      simp [Command.results, hout]
    rw [hresults, Tree.putAll, List.foldlM_append]
    exact bind_eq_ok.mpr ⟨names.tree, h.tree, bind_eq_ok.mpr ⟨next.tree, hput, rfl⟩⟩

end Names.After

/-! ### Statements -/

variable {before : List Command} {names : Names} {command : Command}

theorem statementsOf_of_expr {next : Names} {expr : Expr}
    (hexpr : command.operation.expr ⟨converter, maxDepth, names⟩ 1 = .ok expr)
    (hnext : command.out = none ∧ next = names ∨
      ∃ out, command.out = some out ∧ names.giveOutput out = (next, .ok ()))
    (rest : List Command) :
    statementsOf converter maxDepth (command :: rest) names =
      ((statementsOf converter maxDepth rest next).1,
        (statementsOf converter maxDepth rest next).2.map (⟨command.out, expr⟩ :: ·)) := by
  rcases hnext with ⟨hout, rfl⟩ | ⟨out, hout, hgive⟩
  · rw [statementsOf, hexpr, hout]
  · rw [statementsOf, hexpr, hout]
    dsimp only
    rw [hgive]

/-- **A command in its place is accepted**, and the others follow under the names that it leads
to. -/
theorem statementsOf_of_scopedAfter (h : initial.After before names)
    (hscoped : command.ScopedAfter converter maxDepth initial before) (rest : List Command) :
    ∃ expr next, initial.After (before ++ [command]) next ∧
      statementsOf converter maxDepth (command :: rest) names =
        ((statementsOf converter maxDepth rest next).1,
          (statementsOf converter maxDepth rest next).2.map (⟨command.out, expr⟩ :: ·)) := by
  obtain ⟨expr, hexpr⟩ := h.expr_isOk_iff.mpr hscoped.operation
  cases hout : command.out with
  | none =>
    rw [← hout]
    exact ⟨expr, names, h.concat_none hout, statementsOf_of_expr hexpr (.inl ⟨hout, rfl⟩) rest⟩
  | some out =>
    obtain ⟨next, hgive, hnext⟩ := h.concat_some hout (h.free_iff.mpr (hscoped.out out hout))
    rw [← hout]
    exact ⟨expr, next, hnext, statementsOf_of_expr hexpr (.inr ⟨out, hout, hgive⟩) rest⟩

/-- **A command out of its place is refused**, and the names stay as they are.  It is refused for
its expression, or for the name of its result. -/
theorem statementsOf_of_not_scopedAfter (h : initial.After before names)
    (hscoped : ¬ command.ScopedAfter converter maxDepth initial before) (rest : List Command) :
    ∃ e, statementsOf converter maxDepth (command :: rest) names = (names, .error e) ∧
      (command.operation.expr ⟨converter, maxDepth, names⟩ 1 = .error e ∨
        ∃ out, command.out = some out ∧ e = .duplicateOutput out) := by
  cases hexpr : command.operation.expr ⟨converter, maxDepth, names⟩ 1 with
  | error e =>
    refine ⟨e, ?_, .inl rfl⟩
    rw [statementsOf, hexpr]
  | ok expr =>
    have hoperation := h.expr_isOk_iff.mp ⟨expr, hexpr⟩
    cases hout : command.out with
    | none => exact absurd ⟨hoperation, fun out hsome => by rw [hout] at hsome; cases hsome⟩ hscoped
    | some out =>
      have hfree : ¬ names.Free out := by
        intro hfree
        refine hscoped ⟨hoperation, fun other hother => ?_⟩
        rw [hout] at hother
        cases hother
        exact h.free_iff.mp hfree
      refine ⟨.duplicateOutput out, ?_, .inr ⟨out, rfl, rfl⟩⟩
      rw [statementsOf, hexpr, hout]
      dsimp only
      rw [h.faithful.giveOutput_of_not_free hfree]

/-- **A run accepts all commands, or stops at the first that is out of its place.**  The induction
is on the commands still to do, for any names that the commands done led to. -/
theorem statementsOf_run (h : initial.After before names)
    (hscoped : WellScoped converter maxDepth initial before) (todo : List Command) :
    (∃ final statements, statementsOf converter maxDepth todo names = (final, .ok statements) ∧
      WellScoped converter maxDepth initial (before ++ todo) ∧
      initial.After (before ++ todo) final) ∨
    ∃ done command rest final e, todo = done ++ command :: rest ∧
      statementsOf converter maxDepth todo names = (final, .error e) ∧
      WellScoped converter maxDepth initial (before ++ done) ∧
      ¬ command.ScopedAfter converter maxDepth initial (before ++ done) ∧
      initial.After (before ++ done) final ∧
      (command.operation.expr ⟨converter, maxDepth, final⟩ 1 = .error e ∨
        ∃ out, command.out = some out ∧ e = .duplicateOutput out) := by
  induction todo generalizing before names with
  | nil => exact .inl ⟨names, [], rfl, by simpa using hscoped, by simpa using h⟩
  | cons command rest ih =>
    by_cases hcommand : command.ScopedAfter converter maxDepth initial before
    · obtain ⟨expr, next, hnext, hrun⟩ := statementsOf_of_scopedAfter h hcommand rest
      rw [hrun]
      rcases ih hnext (hscoped.concat hcommand) with
        ⟨final, statements, hrest, hall, hafter⟩ | ⟨done, bad, others, final, e, rfl, hrest, hall⟩
      · refine .inl ⟨final, ⟨command.out, expr⟩ :: statements, ?_, by simpa using hall,
          by simpa using hafter⟩
        rw [hrest]
        rfl
      · refine .inr ⟨command :: done, bad, others, final, e, rfl, ?_, by simpa using hall⟩
        rw [hrest]
        rfl
    · obtain ⟨e, hrun, hreason⟩ := statementsOf_of_not_scopedAfter h hcommand rest
      exact .inr ⟨[], command, rest, names, e, rfl, hrun, by simpa using hscoped,
        by simpa using hcommand, by simpa using h, hreason⟩

theorem length_statementsOf {commands : List Command} {final : Names}
    {statements : List Statement}
    (h : statementsOf converter maxDepth commands names = (final, .ok statements)) :
    statements.length = commands.length := by
  induction commands generalizing names statements with
  | nil =>
    cases h
    rfl
  | cons command rest ih =>
    obtain ⟨expr, next, others, -, -, hrest, rfl⟩ := statementsOf_cons h
    rw [List.length_cons, List.length_cons, ih hrest]

theorem render_statement (out : Option String) (expr : Expr) (spell : Path → String) :
    (Statement.mk out expr).render spell =
      (out.elim "" fun out => "const " ++ out ++ " = ") ++ expr.render spell := by
  cases out <;> simp [Statement.render]

/-- Every command has its statement in its place, with the expression that it has under the names
after the commands before it. -/
theorem getElem?_statementsOf {after : List Command} {final : Names} {statements : List Statement}
    (h : statementsOf converter maxDepth (before ++ command :: after) names =
      (final, .ok statements)) :
    ∃ between earlier expr statement,
      statementsOf converter maxDepth before names = (between, .ok earlier) ∧
      command.operation.expr ⟨converter, maxDepth, between⟩ 1 = .ok expr ∧
      statements[before.length]? = some statement ∧
      ∀ spell, statement.render spell =
        (command.out.elim "" fun out => "const " ++ out ++ " = ") ++ expr.render spell := by
  induction before generalizing names statements with
  | nil =>
    obtain ⟨expr, next, others, hexpr, -, -, rfl⟩ := statementsOf_cons h
    exact ⟨names, [], expr, _, rfl, hexpr, rfl, render_statement command.out expr⟩
  | cons first before ih =>
    obtain ⟨expr, next, others, hexpr, hnext, hrest, rfl⟩ := statementsOf_cons h
    obtain ⟨between, earlier, own, statement, hbefore, hplace⟩ := ih hrest
    refine ⟨between, ⟨first.out, expr⟩ :: earlier, own, statement, ?_, hplace⟩
    rw [statementsOf_of_expr hexpr hnext, hbefore]
    rfl

end

/-- **The translator accepts exactly the well-scoped lists of commands.**  It starts with the names
of any paths, such as the inputs of a schema, and has any limit on the depth of operations.

If it accepts a list, every command has one statement, which declares the result of the command if
it has one, and the names are the old ones and the results.  Otherwise there is a first command out
of its place: the names are the old ones and the results of the commands before it, and the error is
about its expression or about the name of its result. -/
theorem statementsOf_wellScoped {target : Target} {paths : List Path} {initial : Names}
    (h : Names.ofPaths target paths = .ok initial) (converter : Converter) (maxDepth : Nat)
    (commands : List Command) :
    ((statementsOf converter maxDepth commands initial).2.isOk = true ↔
      WellScoped converter maxDepth initial commands) ∧
    (∀ final statements,
      statementsOf converter maxDepth commands initial = (final, .ok statements) →
        statements.length = commands.length ∧
        (∀ before command after, commands = before ++ command :: after →
          ∃ between earlier expr statement,
            statementsOf converter maxDepth before initial = (between, .ok earlier) ∧
            command.operation.expr ⟨converter, maxDepth, between⟩ 1 = .ok expr ∧
            statements[before.length]? = some statement ∧
            ∀ spell, statement.render spell =
              (command.out.elim "" fun out => "const " ++ out ++ " = ") ++ expr.render spell) ∧
        initial.After commands final) ∧
    ∀ final e, statementsOf converter maxDepth commands initial = (final, .error e) →
      ∃ before command after, commands = before ++ command :: after ∧
        WellScoped converter maxDepth initial before ∧
        ¬ command.ScopedAfter converter maxDepth initial before ∧
        initial.After before final ∧
        (command.operation.expr ⟨converter, maxDepth, final⟩ 1 = .error e ∨
          ∃ out, command.out = some out ∧ e = .duplicateOutput out) := by
  have hstart := Names.After.start (Names.faithful_of_ofPaths h)
  rcases statementsOf_run hstart
      (wellScoped_nil : WellScoped converter maxDepth initial []) commands with
    ⟨final, statements, hrun, hscoped, hafter⟩ |
    ⟨before, command, after, final, e, hsplit, hrun, hscoped, hbad, hafter, hreason⟩
  · refine ⟨iff_of_true (by rw [hrun]; rfl) hscoped, fun _ _ hrun' => ?_, fun _ _ hrun' => ?_⟩
    · rw [hrun] at hrun'
      cases hrun'
      refine ⟨length_statementsOf hrun, fun before command after hsplit => ?_, hafter⟩
      exact getElem?_statementsOf (hsplit ▸ hrun)
    · rw [hrun] at hrun'
      cases hrun'
  · have hnot : ¬ WellScoped converter maxDepth initial commands :=
      fun hall => hbad (hall before command after hsplit)
    refine ⟨iff_of_false (by rw [hrun]; nofun) hnot, fun _ _ hrun' => ?_, fun _ _ hrun' => ?_⟩
    · rw [hrun] at hrun'
      cases hrun'
    · rw [hrun] at hrun'
      cases hrun'
      exact ⟨before, command, after, hsplit, hscoped, hbad, hafter, hreason⟩

/-- The names of a private and a public input. -/
def ageNames : Names :=
  (Names.ofPaths .zkProgram [["private", "age"], ["public", "limit"]]).toOption.getD .empty

/-- A result, and an assertion that refers to it one level down. -/
def ageCommands : List Command :=
  [⟨.binary .add (.reference ["private", "age"]) (.constant "year"), some "later"⟩,
    ⟨.assert (.function (.binary .less (.reference ["later"]) (.reference ["public", "limit"]))
      none), none⟩]

/-- The commands need a depth of two, and the result cannot be used before its command. -/
theorem statementsOf_wellScoped_age :
    Names.ofPaths .zkProgram [["private", "age"], ["public", "limit"]] = .ok ageNames ∧
      WellScoped Value.ofChain 2 ageNames ageCommands ∧
      ¬ WellScoped Value.ofChain 1 ageNames ageCommands ∧
      ¬ WellScoped Value.ofChain 2 ageNames ageCommands.reverse := by
  have hnames : Names.ofPaths .zkProgram [["private", "age"], ["public", "limit"]] =
      .ok ageNames := rfl
  have haccepts (maxDepth : Nat) (commands : List Command) :=
    (statementsOf_wellScoped hnames Value.ofChain maxDepth commands).1
  refine ⟨hnames, (haccepts 2 _).mp (by decide +kernel), ?_, ?_⟩
  · exact fun hscoped => absurd ((haccepts 1 _).mpr hscoped) (by decide +kernel)
  · exact fun hscoped => absurd ((haccepts 2 _).mpr hscoped) (by decide +kernel)

end Circuitry
