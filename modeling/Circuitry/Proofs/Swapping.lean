import Circuitry.Proofs.Scope

/-!
# Independent commands

Two commands next to each other can change places if neither refers to the result of the other
(`Command.IndependentOf`).  The translator then accepts both orders or neither.

Whether a command is accepted, and with which expression, is a question about the tree of names.
So two runs that start with the same tree go on alike, whatever the order in which their names were
given (`statementsOf_congr`).  A command that is accepted after an independent one is accepted
before it as well: it finds the paths to which it refers, and its result has a name that was free
from the start.  The two orders lead to the same tree (`Command.Declares.swap`).
-/

namespace Circuitry

open Fallible

/-! ### References -/

/-- Some operation in a command has a reference to the path among its operands. -/
def Command.RefersTo (command : Command) (path : Path) : Prop :=
  ∃ depth inner, Operation.Nested 1 command.operation depth inner ∧
    .reference path ∈ inner.operands

/-- Neither command refers to the result of the other. -/
def Command.IndependentOf (first second : Command) : Prop :=
  (∀ out, second.out = some out → ¬ first.RefersTo [out]) ∧
    ∀ out, first.out = some out → ¬ second.RefersTo [out]

theorem Command.IndependentOf.symm {first second : Command} (h : first.IndependentOf second) :
    second.IndependentOf first :=
  ⟨h.2, h.1⟩

/-! ### One result -/

/-- The names after a command that is accepted: its result has got its name. -/
def Command.Declares (command : Command) (names next : Names) : Prop :=
  command.out = none ∧ next = names ∨
    ∃ out, command.out = some out ∧ names.giveOutput out = (next, .ok ())

/-- Every result of the command has a free name. -/
def Command.FitsInto (command : Command) (names : Names) : Prop :=
  ∀ out, command.out = some out → names.Free out

theorem Names.free_congr {names other : Names} (h : names.tree = other.tree) {out : String} :
    names.Free out ↔ other.Free out := by
  simp only [Names.Free, Names.get?, h]

theorem Names.Faithful.tree_eq {names other : Names} (hf : names.Faithful) (hf' : other.Faithful)
    (h : ∀ path name, names.get? path = some name ↔ other.get? path = some name) :
    names.tree = other.tree :=
  Tree.ext_getLeaf? hf.trimmed hf'.trimmed fun path => Option.ext fun name => h path name

theorem Command.FitsInto.exists_declares {command : Command} {names : Names}
    (h : command.FitsInto names) (hf : names.Faithful) : ∃ next, command.Declares names next := by
  cases hout : command.out with
  | none => exact ⟨names, .inl ⟨hout, rfl⟩⟩
  | some out =>
    obtain ⟨next, hgive, -⟩ := hf.exists_giveOutput (h out hout)
    exact ⟨next, .inr ⟨out, hout, hgive⟩⟩

namespace Command.Declares

variable {command : Command} {names next : Names}

theorem fitsInto (h : command.Declares names next) (hf : names.Faithful) :
    command.FitsInto names := by
  intro out hout
  rcases h with ⟨hnone, -⟩ | ⟨other, hother, hgive⟩
  · rw [hnone] at hout
    cases hout
  · obtain rfl := Option.some.inj (hother.symm.trans hout)
    by_contra hnot
    rw [hf.giveOutput_of_not_free hnot] at hgive
    cases hgive

theorem faithful (h : command.Declares names next) (hf : names.Faithful) : next.Faithful := by
  rcases h with ⟨-, rfl⟩ | ⟨out, -, hgive⟩
  · exact hf
  · obtain ⟨-, hnew, hgive⟩ := Names.giveOutput_eq_ok hgive
    exact hf.give hnew hgive

theorem get?_eq_some (h : command.Declares names next) {path : Path} {name : String} :
    next.get? path = some name ↔
      names.get? path = some name ∨ path = [name] ∧ command.out = some name := by
  rcases h with ⟨hnone, rfl⟩ | ⟨out, hout, hgive⟩
  · simp [hnone]
  · obtain ⟨-, hnew, hgive⟩ := Names.giveOutput_eq_ok hgive
    rw [Names.get?_give hgive, hout, Option.some.injEq]
    by_cases hpath : path = [out]
    · subst hpath
      simp [hnew, eq_comm]
    · rw [if_neg hpath]
      refine ⟨.inl, Or.rec id ?_⟩
      rintro ⟨rfl, rfl⟩
      exact absurd rfl hpath

theorem contains_iff (h : command.Declares names next) {path : Path} :
    next.contains path = true ↔
      names.contains path = true ∨ ∃ out, command.out = some out ∧ path = [out] := by
  simp only [Names.contains, Option.isSome_iff_exists, h.get?_eq_some, exists_or, and_comm]

theorem free_iff (h : command.Declares names next) {out : String} :
    next.Free out ↔ names.Free out ∧ command.out ≠ some out := by
  constructor
  · rintro ⟨hreserved, hclear⟩
    refine ⟨⟨hreserved, fun path name hg => hclear path name (h.get?_eq_some.mpr (.inl hg))⟩, ?_⟩
    intro hout
    exact (hclear [out] out (h.get?_eq_some.mpr (.inr ⟨rfl, hout⟩))).2 rfl
  · rintro ⟨⟨hreserved, hclear⟩, hne⟩
    refine ⟨hreserved, fun path name hg => ?_⟩
    rcases h.get?_eq_some.mp hg with hg | ⟨rfl, hout⟩
    · exact hclear path name hg
    · have hother : name ≠ out := by
        rintro rfl
        exact hne hout
      exact ⟨fun hhead => hother (Option.some.inj hhead), hother⟩

theorem tree_congr {other last : Names} (h : command.Declares names next)
    (h' : command.Declares other last) (hf : names.Faithful) (hf' : other.Faithful)
    (htree : names.tree = other.tree) : next.tree = last.tree := by
  refine (h.faithful hf).tree_eq (h'.faithful hf') fun path name => ?_
  have hget : names.get? path = other.get? path := congrArg (Tree.getLeaf? · path) htree
  rw [h.get?_eq_some, h'.get?_eq_some, hget]

/-- **Two results can be declared in either order**, with the same tree at the end. -/
theorem swap {first second : Command} {final : Names} (hf : names.Faithful)
    (hfirst : first.Declares names next) (hsecond : second.Declares next final) :
    ∃ middle last, second.Declares names middle ∧ first.Declares middle last ∧
      last.tree = final.tree := by
  have hfits := hsecond.fitsInto (hfirst.faithful hf)
  have hfits₂ : second.FitsInto names := fun out hout => (hfirst.free_iff.mp (hfits out hout)).1
  obtain ⟨middle, hmiddle⟩ := hfits₂.exists_declares hf
  have hfits₁ : first.FitsInto middle := by
    intro out hout
    refine hmiddle.free_iff.mpr ⟨hfirst.fitsInto hf out hout, fun hsame => ?_⟩
    exact (hfirst.free_iff.mp (hfits out hsame)).2 hout
  obtain ⟨last, hlast⟩ := hfits₁.exists_declares (hmiddle.faithful hf)
  refine ⟨middle, last, hmiddle, hlast, ?_⟩
  refine (hlast.faithful (hmiddle.faithful hf)).tree_eq
    (hsecond.faithful (hfirst.faithful hf)) fun path name => ?_
  rw [hlast.get?_eq_some, hmiddle.get?_eq_some, hsecond.get?_eq_some, hfirst.get?_eq_some,
    or_right_comm]

theorem expr_eq {other : Command} {converter : Converter} {maxDepth : Nat}
    (h : command.Declares names next)
    (hrefers : ∀ out, command.out = some out → ¬ other.RefersTo [out]) :
    other.operation.expr ⟨converter, maxDepth, next⟩ 1 =
      other.operation.expr ⟨converter, maxDepth, names⟩ 1 := by
  refine other.operation.expr_congr fun depth inner hnested path hmem => ?_
  rw [Bool.eq_iff_iff, h.contains_iff, or_iff_left]
  rintro ⟨out, hout, rfl⟩
  exact hrefers out hout ⟨depth, inner, hnested, hmem⟩

end Command.Declares

/-! ### Whole runs -/

section

variable {converter : Converter} {maxDepth : Nat} {names final : Names}
  {statements : List Statement}

theorem statementsOf_cons_eq_ok {command : Command} {rest : List Command} :
    statementsOf converter maxDepth (command :: rest) names = (final, .ok statements) ↔
      ∃ expr next others, command.operation.expr ⟨converter, maxDepth, names⟩ 1 = .ok expr ∧
        command.Declares names next ∧
        statementsOf converter maxDepth rest next = (final, .ok others) ∧
        statements = ⟨command.out, expr⟩ :: others := by
  refine ⟨statementsOf_cons, ?_⟩
  rintro ⟨expr, next, others, hexpr, hnext, hrest, rfl⟩
  rw [statementsOf_of_expr hexpr hnext, hrest]
  rfl

/-- **A run depends on the tree of names only.**  The induction is on the commands, for any two
faithful collections of names with one tree. -/
theorem statementsOf_congr {commands : List Command} {other : Names} (hf : names.Faithful)
    (hf' : other.Faithful) (htree : names.tree = other.tree)
    (h : statementsOf converter maxDepth commands names = (final, .ok statements)) :
    ∃ last, statementsOf converter maxDepth commands other = (last, .ok statements) ∧
      last.tree = final.tree := by
  induction commands generalizing names other statements with
  | nil =>
    cases h
    exact ⟨other, rfl, htree.symm⟩
  | cons command rest ih =>
    obtain ⟨expr, next, others, hexpr, hnext, hrest, rfl⟩ := statementsOf_cons_eq_ok.mp h
    have hfits : command.FitsInto other := fun out hout =>
      (Names.free_congr htree).mp (hnext.fitsInto hf out hout)
    obtain ⟨next', hnext'⟩ := hfits.exists_declares hf'
    have hexpr' : command.operation.expr ⟨converter, maxDepth, other⟩ 1 = .ok expr := by
      rw [← hexpr]
      refine command.operation.expr_congr fun _ _ _ path _ => ?_
      rw [Names.contains, Names.contains, Names.get?, Names.get?, htree]
    obtain ⟨last, hlast, hsame⟩ := ih (hnext.faithful hf) (hnext'.faithful hf')
      (hnext.tree_congr hnext' hf hf' htree) hrest
    exact ⟨last, statementsOf_cons_eq_ok.mpr ⟨expr, next', others, hexpr', hnext', hlast, rfl⟩,
      hsame⟩

/-- **Independent commands can change places.**  The induction is on the commands before them,
which lead to some faithful names; from there the two are accepted in the other order, and the
commands after them find the same tree. -/
theorem statementsOf_swap {before after : List Command} {first second : Command}
    (hf : names.Faithful) (hindependent : first.IndependentOf second)
    (h : statementsOf converter maxDepth (before ++ first :: second :: after) names =
      (final, .ok statements)) :
    ∃ last earlier one two later, earlier.length = before.length ∧
      statements = earlier ++ one :: two :: later ∧
      one.out = first.out ∧ two.out = second.out ∧
      statementsOf converter maxDepth (before ++ second :: first :: after) names =
        (last, .ok (earlier ++ two :: one :: later)) ∧
      last.tree = final.tree := by
  induction before generalizing names statements with
  | nil =>
    obtain ⟨expr₁, next, others, hexpr₁, hnext, hrest, rfl⟩ := statementsOf_cons_eq_ok.mp h
    obtain ⟨expr₂, between, later, hexpr₂, hbetween, hlater, rfl⟩ :=
      statementsOf_cons_eq_ok.mp hrest
    obtain ⟨next', between', hnext', hbetween', htree⟩ := hnext.swap hf hbetween
    obtain ⟨last, hlast, hsame⟩ := statementsOf_congr (hbetween.faithful (hnext.faithful hf))
      (hbetween'.faithful (hnext'.faithful hf)) htree.symm hlater
    rw [hnext.expr_eq hindependent.2] at hexpr₂
    rw [← hnext'.expr_eq hindependent.1] at hexpr₁
    refine ⟨last, [], ⟨first.out, expr₁⟩, ⟨second.out, expr₂⟩, later, rfl, rfl, rfl, rfl, ?_, hsame⟩
    exact statementsOf_cons_eq_ok.mpr ⟨expr₂, next', _, hexpr₂, hnext',
      statementsOf_cons_eq_ok.mpr ⟨expr₁, between', later, hexpr₁, hbetween', hlast, rfl⟩, rfl⟩
  | cons command before ih =>
    obtain ⟨expr, next, others, hexpr, hnext, hrest, rfl⟩ := statementsOf_cons_eq_ok.mp h
    obtain ⟨last, earlier, one, two, later, hlength, rfl, hone, htwo, hlast, hsame⟩ :=
      ih (hnext.faithful hf) hrest
    refine ⟨last, ⟨command.out, expr⟩ :: earlier, one, two, later, congrArg Nat.succ hlength, rfl,
      hone, htwo, ?_, hsame⟩
    exact statementsOf_cons_eq_ok.mpr ⟨expr, next, _, hexpr, hnext, hlast, rfl⟩

end

/-- **Independent commands commute.**  Start with the names of any paths, and let two commands next
to each other be independent, with any commands before and after them.  The translator accepts the
list in one order of the two exactly if it accepts the other.  The statements of the two then change
places with them, all other statements stay as they are, and the tree of names at the end is the
same. -/
theorem statementsOf_comm {target : Target} {paths : List Path} {initial : Names}
    (h : Names.ofPaths target paths = .ok initial) (converter : Converter) (maxDepth : Nat)
    (before after : List Command) {first second : Command}
    (hindependent : first.IndependentOf second) :
    ((statementsOf converter maxDepth (before ++ second :: first :: after) initial).2.isOk = true ↔
      (statementsOf converter maxDepth (before ++ first :: second :: after) initial).2.isOk
        = true) ∧
    ∀ final statements,
      statementsOf converter maxDepth (before ++ first :: second :: after) initial =
        (final, .ok statements) →
      ∃ last earlier one two later, earlier.length = before.length ∧
        statements = earlier ++ one :: two :: later ∧
        one.out = first.out ∧ two.out = second.out ∧
        statementsOf converter maxDepth (before ++ second :: first :: after) initial =
          (last, .ok (earlier ++ two :: one :: later)) ∧
        last.tree = final.tree := by
  have hf := Names.faithful_of_ofPaths h
  have haccepted {first second : Command} (hindependent : first.IndependentOf second)
      (hok : (statementsOf converter maxDepth (before ++ first :: second :: after)
        initial).2.isOk = true) :
      (statementsOf converter maxDepth (before ++ second :: first :: after) initial).2.isOk
        = true := by
    cases hrun : statementsOf converter maxDepth (before ++ first :: second :: after) initial with
    | mk final result =>
      rw [hrun] at hok
      cases result with
      | error e => cases hok
      | ok statements =>
        obtain ⟨last, _, _, _, _, _, _, _, _, hlast, _⟩ := statementsOf_swap hf hindependent hrun
        rw [hlast]
        rfl
  exact ⟨⟨haccepted hindependent.symm, haccepted hindependent⟩,
    fun final statements hrun => statementsOf_swap hf hindependent hrun⟩

/-- A result that is made from one input. -/
def olderCommand : Command :=
  ⟨.binary .add (.reference ["private", "age"]) (.constant "year"), some "older"⟩

/-- A result that is made from two inputs, one level down. -/
def youngCommand : Command :=
  ⟨.not (.function (.binary .less (.reference ["public", "limit"]) (.reference ["private", "age"]))
    none), some "young"⟩

theorem olderCommand_independentOf_youngCommand : olderCommand.IndependentOf youngCommand := by
  refine ⟨?_, ?_⟩
  · rintro out - ⟨depth, inner, hnested, hmem⟩
    cases hnested with
    | self => simp [olderCommand, Operation.operands] at hmem
    | deeper hmiddle => simp [olderCommand, Operation.operands] at hmiddle
  · rintro out - ⟨depth, inner, hnested, hmem⟩
    cases hnested with
    | self => simp [youngCommand, Operation.operands] at hmem
    | deeper hmiddle hnested =>
      obtain ⟨rfl, -⟩ := by simpa [youngCommand, Operation.operands] using hmiddle
      cases hnested with
      | self => simp [Operation.operands] at hmem
      | deeper hmiddle => simp [Operation.operands] at hmiddle

/-- A use of both results can follow them in either order. -/
theorem statementsOf_comm_older :
    Names.ofPaths .zkProgram [["private", "age"], ["public", "limit"]] = .ok ageNames ∧
      olderCommand.IndependentOf youngCommand ∧
      (statementsOf Value.ofChain 2 [youngCommand, olderCommand,
        ⟨.ternary (.reference ["young"]) (.reference ["older"]) (.constant "year"), none⟩]
        ageNames).2.isOk = true := by
  have hnames : Names.ofPaths .zkProgram [["private", "age"], ["public", "limit"]] =
      .ok ageNames := rfl
  refine ⟨hnames, olderCommand_independentOf_youngCommand, ?_⟩
  refine (statementsOf_comm hnames Value.ofChain 2 [] [_]
    olderCommand_independentOf_youngCommand).1.mpr ?_
  decide +kernel

end Circuitry
