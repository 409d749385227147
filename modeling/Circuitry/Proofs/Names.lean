import Circuitry.Proofs.Expression
import Circuitry.Proofs.Schema

/-!
# What the names of a source guarantee

Names are given in two phases, first to the inputs of a program and then to the results of its
commands.  One invariant holds throughout: a path with a name can be spelled in a placeholder, and
it does not lie below the roots that a template keeps for types and fields (`Names.Sound`).  The
inputs have the names that their paths say (`Names.get?_ofPaths`), and no name is ever taken back
(`statementsOf_sound`), so a reference that was declared when its command was translated has the
same name in the finished source.
-/

namespace Circuitry

open Fallible

/-! ### Identifiers -/

namespace Identifier

theorem toNat_of_isPart {c : Char} (h : isPart c = true) :
    36 ≤ c.toNat ∧ c.toNat ≤ 122 ∧ c.toNat ≠ 46 := by
  have hletter : c.isAlpha = true → 65 ≤ c.toNat ∧ c.toNat ≤ 122 := by
    intro ha
    rcases Bool.or_eq_true_iff.mp ha with ha | ha
    · have hc := of_decide_eq_true ha
      exact ⟨hc.1, Nat.le_trans hc.2 (by decide)⟩
    · obtain ⟨hlow, hhigh⟩ := Bool.and_eq_true_iff.mp ha
      exact ⟨Nat.le_trans (by decide) (of_decide_eq_true hlow), of_decide_eq_true hhigh⟩
  rcases Bool.or_eq_true_iff.mp h with h | h
  · rcases Bool.or_eq_true_iff.mp h with h | h
    · rcases Bool.or_eq_true_iff.mp h with h | h
      · have hc := hletter h
        omega
      · have hc := Char.isDigit_iff_toNat.mp h
        change 48 ≤ c.toNat ∧ c.toNat ≤ 57 at hc
        omega
    · rw [beq_iff_eq.mp h]
      decide
  · rw [beq_iff_eq.mp h]
    decide

theorem isKeyChar_of_isPart {c : Char} (h : isPart c = true) :
    c ≠ '.' ∧ Template.isKeyChar c = true := by
  obtain ⟨hlow, hhigh, hdot⟩ := toNat_of_isPart h
  have hne {d : Char} (hd : c.toNat ≠ d.toNat) : c ≠ d := fun heq => hd (congrArg Char.toNat heq)
  have hopen : c ≠ '\x7b' := hne (by change c.toNat ≠ 123; omega)
  have hclose : c ≠ '\x7d' := hne (by change c.toNat ≠ 125; omega)
  have hblank : Text.isBlank c = false := by
    simp only [Text.isBlank, Bool.or_eq_false_iff, Bool.and_eq_false_iff, decide_eq_false_iff_not,
      beq_eq_false_iff_ne]
    omega
  exact ⟨hne hdot, by simp [Template.isKeyChar, hopen, hclose, hblank]⟩

theorem of_isValid {name : String} (h : isValid name = true) :
    name.toList ≠ [] ∧ ∀ c ∈ name.toList, isPart c = true := by
  unfold isValid at h
  split at h
  · cases h
  · rename_i first rest heq
    obtain ⟨hfirst, hrest⟩ := Bool.and_eq_true_iff.mp h
    rw [heq]
    refine ⟨List.cons_ne_nil _ _, fun c hc => ?_⟩
    rcases List.mem_cons.mp hc with rfl | hc
    · exact (Bool.and_eq_true_iff.mp hfirst).1
    · exact List.all_eq_true.mp hrest c hc

theorem isKey_of_isValid {name : String} (h : isValid name = true) : Schema.isKey name = true := by
  obtain ⟨hne, hparts⟩ := of_isValid h
  unfold Schema.isKey
  rw [Bool.and_eq_true, Bool.not_eq_true', Bool.not_eq_true', List.any_eq_false]
  refine ⟨by simpa using hne, fun c hc => ?_⟩
  obtain ⟨hdot, hkey⟩ := isKeyChar_of_isPart (hparts c hc)
  simp only [Template.isKeyChar, Bool.not_eq_true', Bool.or_eq_false_iff] at hkey
  simp [hdot, hkey.1.1, hkey.1.2, hkey.2]

theorem not_mem_of_isPart {cs : List Char} (h : ∀ c ∈ cs, isPart c = true) {d : Char}
    (hd : isPart d = false) : d ∉ cs := by
  intro hm
  rw [h d hm] at hd
  cases hd

theorem isPart_cleaned (key : String) : ∀ c ∈ (cleaned key).toList, isPart c = true := by
  intro c hc
  rw [cleaned, String.toList_ofList] at hc
  obtain ⟨d, -, rfl⟩ := List.mem_map.mp hc
  split
  · assumption
  · decide

theorem isPart_joined (keys : List String) :
    ∀ c ∈ ("_".intercalate (keys.map cleaned)).toList, isPart c = true := by
  induction keys with
  | nil => simp
  | cons key rest ih =>
    cases rest with
    | nil => simpa using isPart_cleaned key
    | cons next rest =>
      intro c hc
      simp only [List.map_cons, String.intercalate_cons_cons, String.toList_append,
        List.mem_append] at hc ih
      rcases hc with (hc | hc) | hc
      · exact isPart_cleaned key c hc
      · rw [show c = '_' by simpa using hc]
        decide
      · exact ih c hc

theorem isPart_ofKeys (keys : List String) : ∀ c ∈ (ofKeys keys).toList, isPart c = true := by
  intro c hc
  unfold ofKeys at hc
  dsimp only at hc
  split at hc
  · rw [String.toList_append, List.mem_append] at hc
    rcases hc with hc | hc
    · rw [show c = '_' by simpa using hc]
      decide
    · exact isPart_joined keys c hc
  · exact isPart_joined keys c hc

end Identifier

namespace Names

/-! ### Giving names -/

theorem give_eq_ok {names next : Names} {path : Path} {name : String}
    (h : names.give path name = (next, .ok ())) :
    names.owners.owner? name = none ∧ names.tree.put path name = .ok next.tree ∧
      next.owners.entries = (name, path) :: names.owners.entries := by
  unfold give NameOwners.assign at h
  cases ho : names.owners.owner? name with
  | some owner => rw [ho] at h; cases h
  | none =>
    rw [ho] at h
    cases hput : names.tree.put path name with
    | error e => simp only [hput] at h; cases h
    | ok tree =>
      simp only [hput] at h
      cases h
      exact ⟨rfl, rfl, rfl⟩

theorem get?_give {names next : Names} {path : Path} {name : String}
    (h : names.give path name = (next, .ok ())) (other : Path) :
    next.get? other = if other = path then some name else names.get? other :=
  Tree.getLeaf?_put (give_eq_ok h).2.1 other

theorem giveInput_eq_ok {target : Target} {names next : Names} {path : Path}
    (h : giveInput target names path = .ok next) :
    names.give path (inputName target path) = (next, .ok ()) := by
  unfold giveInput at h
  split at h
  · cases h
  · rename_i heq
    cases h
    exact heq

theorem giveOutput_eq_ok {names next : Names} {name : String}
    (h : names.giveOutput name = (next, .ok ())) :
    name ∉ reservedRoots ∧ names.get? [name] = none ∧ names.give [name] name = (next, .ok ()) := by
  unfold giveOutput at h
  split at h
  · cases h
  · rename_i hfree
    simp only [Bool.or_eq_true, not_or, List.contains_iff_mem] at hfree
    obtain ⟨⟨hreserved, hposition⟩, -⟩ := hfree
    refine ⟨hreserved, ?_, h⟩
    rw [get?, Tree.getLeaf?, Option.not_isSome_iff_eq_none.mp hposition]
    rfl

/-! ### The invariant -/

/-- The roots below which a template keeps types and fields. -/
def dataRoots : List String := [typesRoot, publicFieldsRoot]

/-- A path that can have a name: placeholders can spell it, and it is clear of the other data. -/
structure CanName (path : Path) : Prop where
  spellable : path.Spellable
  root : ∀ root ∈ dataRoots, path.head? ≠ some root

/-- Only paths that can have a name have one. -/
structure Sound (names : Names) : Prop where
  trimmed : names.tree.Trimmed
  canName : ∀ path name, names.get? path = some name → CanName path

theorem sound_empty : empty.Sound where
  trimmed := Tree.trimmed_empty
  canName path name h := by
    rw [get?, empty, Tree.getLeaf?_empty] at h
    cases h

theorem Sound.give {names next : Names} {path : Path} {name : String} (hs : names.Sound)
    (hpath : CanName path) (h : names.give path name = (next, .ok ())) : next.Sound where
  trimmed := hs.trimmed.put (give_eq_ok h).2.1
  canName other found hg := by
    rw [get?_give h] at hg
    split at hg
    · rename_i heq
      rw [heq]
      exact hpath
    · exact hs.canName other found hg

theorem inputName_of_private {target : Target} {path : Path} (h : path.isPublic = false) :
    inputName target path = path.identifier := by
  cases target <;> simp [inputName, h]

theorem newline_not_mem_inputName (target : Target) (path : Path) :
    '\n' ∉ (inputName target path).toList := by
  have hidentifier := Identifier.not_mem_of_isPart (d := '\n') (Identifier.isPart_ofKeys path)
    (by decide)
  cases target with
  | smartContract => exact hidentifier
  | zkProgram =>
    simp only [inputName]
    split
    · have hfield := Identifier.not_mem_of_isPart (d := '\n') (Identifier.isPart_ofKeys path.tail)
        (by decide)
      simp only [String.toList_append, List.mem_append, not_or]
      exact ⟨⟨by decide, by decide⟩, hfield⟩
    · exact hidentifier

theorem canName_of_isVariablePath {path : Path} (h : Schema.IsVariablePath path) :
    CanName path := by
  obtain ⟨region, keys, rfl, hregion⟩ := h.region
  refine ⟨⟨List.cons_ne_nil _ _, h.keys⟩, fun root hroot heq => ?_⟩
  cases heq
  rcases Bool.or_eq_true_iff.mp hregion with hr | hr
  · rw [beq_iff_eq.mp hr] at hroot
    exact absurd hroot (by decide)
  · rw [beq_iff_eq.mp hr] at hroot
    exact absurd hroot (by decide)

theorem canName_of_isValid {name : String} (hvalid : Identifier.isValid name = true)
    (hfree : name ∉ reservedRoots) : CanName [name] := by
  refine ⟨⟨List.cons_ne_nil _ _, fun key hk => ?_⟩, fun root hroot heq => ?_⟩
  · rw [List.mem_singleton.mp hk]
    exact Identifier.isKey_of_isValid hvalid
  · cases heq
    have hsub : ∀ root ∈ dataRoots, root ∈ reservedRoots := by decide
    exact hfree (hsub name hroot)

/-- **Inputs have the names that their paths say**, and nothing else has a name. -/
theorem get?_ofPaths {target : Target} {paths : List Path} {names : Names}
    (h : ofPaths target paths = .ok names) (path : Path) (name : String) :
    names.get? path = some name ↔ path ∈ paths ∧ name = inputName target path := by
  have hrun : ∀ path name, names.get? path = some name ↔
      path ∈ paths ∧ name = inputName target path := by
    refine foldlM_ok (motive := fun done (names : Names) => ∀ path name,
      names.get? path = some name ↔ path ∈ done ∧ name = inputName target path)
      h (fun path name => ?_) ?_
    · rw [get?, empty, Tree.getLeaf?_empty]
      simp
    · intro done item names next _ hdone hgive path name
      rw [get?_give (giveInput_eq_ok hgive), List.mem_append, List.mem_singleton]
      by_cases hp : path = item
      · subst hp
        rw [if_pos rfl, Option.some.injEq]
        simp [eq_comm]
      · rw [if_neg hp, hdone]
        simp [hp]
  exact hrun path name

theorem contains_ofPaths_iff {target : Target} {paths : List Path} {names : Names}
    (h : ofPaths target paths = .ok names) (path : Path) :
    names.contains path = true ↔ path ∈ paths := by
  rw [contains, Option.isSome_iff_exists]
  simp only [get?_ofPaths h]
  exact ⟨fun ⟨_, hm, _⟩ => hm, fun hm => ⟨_, hm, rfl⟩⟩

/-- **The names of the inputs.**  They are sound, every input has the name that its path says, and
nothing else has a name. -/
theorem of_ofPaths {target : Target} {paths : List Path} {names : Names}
    (hpaths : ∀ path ∈ paths, Schema.IsVariablePath path)
    (h : ofPaths target paths = .ok names) :
    names.Sound ∧ ∀ path name, names.get? path = some name ↔
      path ∈ paths ∧ name = inputName target path := by
  refine ⟨?_, get?_ofPaths h⟩
  refine foldlM_ok (motive := fun _ (names : Names) => names.Sound) h sound_empty ?_
  intro done item names next hm hs hgive
  exact hs.give (canName_of_isVariablePath (hpaths item hm)) (giveInput_eq_ok hgive)

end Names

/-! ### The names of results -/

/-- **The result of a command gets a name of its own**, and all names that there were stay. -/
theorem Names.Sound.giveOutput {names next : Names} {name : String} (hs : names.Sound)
    (hvalid : Identifier.isValid name = true) (h : names.giveOutput name = (next, .ok ())) :
    next.Sound ∧ ∀ path found, names.get? path = some found → next.get? path = some found := by
  obtain ⟨hfree, hnone, hgive⟩ := giveOutput_eq_ok h
  refine ⟨hs.give (canName_of_isValid hvalid hfree) hgive, fun path found hg => ?_⟩
  rw [get?_give hgive, if_neg]
  · exact hg
  · rintro rfl
    rw [hnone] at hg
    cases hg

theorem statementsOf_cons {converter : Converter} {maxDepth : Nat} {command : Command}
    {rest : List Command} {names final : Names} {statements : List Statement}
    (h : statementsOf converter maxDepth (command :: rest) names = (final, .ok statements)) :
    ∃ expr next others, command.operation.expr ⟨converter, maxDepth, names⟩ 1 = .ok expr ∧
      (command.out = none ∧ next = names ∨
        ∃ out, command.out = some out ∧ names.giveOutput out = (next, .ok ())) ∧
      statementsOf converter maxDepth rest next = (final, .ok others) ∧
      statements = ⟨command.out, expr⟩ :: others := by
  have hrest {next : Names} {expr : Expr} (h : ((statementsOf converter maxDepth rest next).1,
      (statementsOf converter maxDepth rest next).2.map (Statement.mk command.out expr :: ·))
        = (final, .ok statements)) :
      ∃ others, statementsOf converter maxDepth rest next = (final, .ok others) ∧
        statements = ⟨command.out, expr⟩ :: others := by
    obtain ⟨hnames, hresult⟩ := Prod.ext_iff.mp h
    obtain ⟨others, hothers, heq⟩ := map_eq_ok.mp hresult
    exact ⟨others, Prod.ext hnames hothers, heq.symm⟩
  rw [statementsOf] at h
  cases hexpr : command.operation.expr ⟨converter, maxDepth, names⟩ 1 with
  | error e => rw [hexpr] at h; cases h
  | ok expr =>
    rw [hexpr] at h
    cases hout : command.out with
    | none =>
      simp only [hout] at h hrest
      obtain ⟨others, hothers, rfl⟩ := hrest h
      exact ⟨expr, names, others, rfl, .inl ⟨rfl, rfl⟩, hothers, rfl⟩
    | some out =>
      simp only [hout] at h hrest
      cases hgive : names.giveOutput out with
      | mk next result =>
        cases result with
        | error e => rw [hgive] at h; cases h
        | ok done =>
          rw [hgive] at h
          obtain ⟨others, hothers, rfl⟩ := hrest h
          exact ⟨expr, next, others, rfl, .inr ⟨out, rfl, hgive⟩, hothers, rfl⟩

/-- **Every statement comes from a command**: it has the name of its result and the expression of
its operation, under the names that there were then. -/
theorem exists_command_of_statementsOf {converter : Converter} {maxDepth : Nat}
    {commands : List Command} {names final : Names} {statements : List Statement}
    (h : statementsOf converter maxDepth commands names = (final, .ok statements)) :
    ∀ statement ∈ statements, ∃ command ∈ commands, ∃ names, statement.out = command.out ∧
      command.operation.expr ⟨converter, maxDepth, names⟩ 1 = .ok statement.expr := by
  induction commands generalizing names statements with
  | nil =>
    cases h
    exact nofun
  | cons command rest ih =>
    obtain ⟨expr, next, others, hexpr, -, hrest, rfl⟩ := statementsOf_cons h
    refine List.forall_mem_cons.mpr ⟨⟨command, List.mem_cons_self, names, rfl, hexpr⟩, ?_⟩
    intro statement hm
    obtain ⟨found, hfound, horigin⟩ := ih hrest statement hm
    exact ⟨found, List.mem_cons_of_mem _ hfound, horigin⟩

/-- **The statements of commands are safe for the names at the end**, which are sound and extend
the names at the start. -/
theorem statementsOf_sound {converter : Converter} {maxDepth : Nat} {commands : List Command}
    {names final : Names} {statements : List Statement} (hs : names.Sound)
    (hvalid : ∀ command ∈ commands, ∀ out, command.out = some out → Identifier.isValid out = true)
    (h : statementsOf converter maxDepth commands names = (final, .ok statements)) :
    final.Sound ∧ (∀ path name, names.get? path = some name → final.get? path = some name) ∧
      ∀ statement ∈ statements, statement.Safe final.Declares := by
  induction commands generalizing names statements with
  | nil =>
    cases h
    exact ⟨hs, fun _ _ hg => hg, nofun⟩
  | cons command rest ih =>
    obtain ⟨expr, next, others, hexpr, hnext, hrest, rfl⟩ := statementsOf_cons h
    have hstep : next.Sound ∧ ∀ path name, names.get? path = some name →
        next.get? path = some name := by
      rcases hnext with ⟨-, rfl⟩ | ⟨out, hout, hgive⟩
      · exact ⟨hs, fun _ _ hg => hg⟩
      · exact hs.giveOutput (hvalid command List.mem_cons_self out hout) hgive
    obtain ⟨hfinal, hkeep, hsafe⟩ := ih hstep.1
      (fun c hc => hvalid c (List.mem_cons_of_mem _ hc)) hrest
    have hnames : ∀ path name, names.get? path = some name → final.get? path = some name :=
      fun path name hg => hkeep path name (hstep.2 path name hg)
    -- A statement is safe for the names it was written under, and the later names extend those.
    refine ⟨hfinal, hnames, fun statement hm => ?_⟩
    rcases List.mem_cons.mp hm with rfl | hm
    · refine ⟨fun name hname => ?_, (command.operation.safe_expr hexpr).mono ?_⟩
      · have hparts := (Identifier.of_isValid (hvalid command List.mem_cons_self name hname)).2
        exact Identifier.not_mem_of_isPart hparts (by decide)
      · rintro path ⟨name, hname⟩
        exact ⟨name, hnames path name hname⟩
    · exact hsafe statement hm

end Circuitry
