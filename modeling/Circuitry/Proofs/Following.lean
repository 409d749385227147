import Circuitry.Proofs.Limits

/-!
# What following references comes to

From any path of a schema the references lead one way: `p₀`, `p₁`, and so on, as long as there is a
reference at each of them.  Following them spends one hop on each, so it arrives at `pₙ` with `n`
hops less than it was given (`Hops.dereferenceFrom_eq`).  What it answers is then decided by what is
at `pₙ`: a variable with a value of its own, nothing that has a value (`Dangling`), or a reference
when no hop is left.

Every chain meets one of the three within the limit (`ends_or_goes_on`), and the answers to them are
different, so each answer is given in its own case only.  No schema is excluded: a chain may end at
a missing path after exactly as many hops as are allowed, and it may turn in a circle.
-/

namespace Circuitry.Schema

variable {schema : Schema}

/-- A path at which a chain of references comes to nothing: there is nothing at it, or a node with
branches, or an operation. -/
def Dangling (schema : Schema) (path : Path) : Prop :=
  schema.get? path = none ∨
    (∃ subtree keys, schema.get? path = some subtree ∧ subtree.keys? = some keys) ∨
      ∃ operation out, schema.getLeaf? path = some (.function operation out)

theorem dangling_of_getLeaf?_eq_none {path : Path} (h : schema.getLeaf? path = none) :
    schema.Dangling path := by
  cases hget : schema.get? path with
  | none => exact .inl hget
  | some subtree =>
    refine .inr (.inl ⟨subtree, ?_⟩)
    rw [Tree.getLeaf?, hget, Option.bind_some, Tree.value?] at h
    cases hraw : subtree.raw with
    | leaf value => rw [hraw] at h; cases h
    | node branches => exact ⟨branches.map Prod.fst, hget, by rw [Tree.keys?, hraw]⟩

theorem dangling_iff {path : Path} :
    schema.Dangling path ↔ schema.getLeaf? path = none ∨
      ∃ operation out, schema.getLeaf? path = some (.function operation out) := by
  constructor
  · rintro (hmissing | ⟨subtree, keys, hget, hkeys⟩ | hfunction)
    · exact .inl (by rw [Tree.getLeaf?, hmissing, Option.bind_none])
    · refine .inl ?_
      rw [Tree.getLeaf?, hget, Option.bind_some, Tree.value?]
      cases hraw : subtree.raw with
      | leaf value => rw [Tree.keys?, hraw] at hkeys; cases hkeys
      | node branches => rfl
    · exact .inr hfunction
  · rintro (hnone | hfunction)
    · exact dangling_of_getLeaf?_eq_none hnone
    · exact .inr (.inr hfunction)

theorem leaf_cases (schema : Schema) (path : Path) :
    (∃ found, schema.getLeaf? path = some found ∧ found.hasOwnValue = true) ∨
      (∃ next, schema.getLeaf? path = some (.reference next)) ∨ schema.Dangling path := by
  cases hg : schema.getLeaf? path with
  | none => exact .inr (.inr (dangling_iff.mpr (.inl hg)))
  | some found =>
    cases found with
    | static | setup | constant => exact .inl ⟨_, rfl, rfl⟩
    | reference next => exact .inr (.inl ⟨next, rfl⟩)
    | function operation out => exact .inr (.inr (dangling_iff.mpr (.inr ⟨operation, out, hg⟩)))

/-! ### One step -/

section

variable {start path : Path} {limit hops : Nat}

theorem dereferenceFrom_of_hasOwnValue {found : Variable} (hg : schema.getLeaf? path = some found)
    (hown : found.hasOwnValue = true) :
    schema.dereferenceFrom start limit hops path = .ok (path, found) := by
  unfold dereferenceFrom
  rw [hg]
  cases found with
  | static | setup | constant => rfl
  | reference | function => cases hown

theorem dereferenceFrom_of_dangling (h : schema.Dangling path) :
    schema.dereferenceFrom start limit hops path = .error (.unresolvedReference start path) := by
  unfold dereferenceFrom
  rcases dangling_iff.mp h with hg | ⟨operation, out, hg⟩
  · rw [hg]
  · rw [hg]

theorem dereferenceFrom_of_reference {next : Path}
    (hg : schema.getLeaf? path = some (.reference next)) :
    schema.dereferenceFrom start limit 0 path = .error (.referenceTooLong start limit) ∧
      schema.dereferenceFrom start limit (hops + 1) path
        = schema.dereferenceFrom start limit hops next := by
  constructor
  · unfold dereferenceFrom
    rw [hg]
  · rw [dereferenceFrom, hg]

end

/-! ### A whole chain -/

/-- **Following a chain spends one hop on every reference in it.** -/
theorem Hops.dereferenceFrom_eq {n : Nat} {path terminal : Path} (h : schema.Hops n path terminal)
    (start : Path) (limit hops : Nat) :
    schema.dereferenceFrom start limit (hops + n) path
      = schema.dereferenceFrom start limit hops terminal := by
  induction h with
  | here path => rfl
  | hop hg _ ih => exact (dereferenceFrom_of_reference hg).2.trans ih

theorem Hops.dereference_eq {n limit : Nat} {start terminal : Path}
    (h : schema.Hops n start terminal) (hn : n ≤ limit) :
    schema.dereference start limit
      = schema.dereferenceFrom start limit (limit - n) terminal := by
  have hrun := h.dereferenceFrom_eq start limit (limit - n)
  rwa [Nat.sub_add_cancel hn] at hrun

/-- **A chain ends within any limit, or it goes on behind it.** -/
theorem ends_or_goes_on (schema : Schema) (start : Path) (limit : Nat) :
    (∃ n ≤ limit, ∃ terminal, schema.Hops n start terminal ∧
        ∀ next, schema.getLeaf? terminal ≠ some (.reference next)) ∨
      ∃ last, schema.Hops (limit + 1) start last := by
  induction limit generalizing start with
  | zero =>
    by_cases hg : ∃ next, schema.getLeaf? start = some (.reference next)
    · obtain ⟨next, hg⟩ := hg
      exact .inr ⟨next, .hop hg (.here next)⟩
    · exact .inl ⟨0, Nat.le_refl 0, start, .here start, not_exists.mp hg⟩
  | succ limit ih =>
    by_cases hg : ∃ next, schema.getLeaf? start = some (.reference next)
    · obtain ⟨next, hg⟩ := hg
      rcases ih next with ⟨n, hn, terminal, hhops, hend⟩ | ⟨last, hhops⟩
      · exact .inl ⟨n + 1, Nat.succ_le_succ hn, terminal, .hop hg hhops, hend⟩
      · exact .inr ⟨last, .hop hg hhops⟩
    · exact .inl ⟨0, Nat.zero_le _, start, .here start, not_exists.mp hg⟩

theorem exists_hops_iff {start : Path} {limit : Nat} :
    (∃ last, schema.Hops (limit + 1) start last) ↔
      ∀ i ≤ limit, ∃ path next, schema.Hops i start path ∧
        schema.getLeaf? path = some (.reference next) := by
  constructor
  · rintro ⟨last, hhops⟩ i hi
    obtain ⟨k, hk⟩ : ∃ k, limit + 1 = (k + 1) + i := ⟨limit - i, by omega⟩
    obtain ⟨path, hfirst, hrest⟩ := Hops.exists_middle (hk ▸ hhops)
    cases hrest with
    | hop hg _ => exact ⟨path, _, hfirst, hg⟩
  · intro hall
    obtain ⟨path, next, hhops, hg⟩ := hall limit (Nat.le_refl limit)
    have hlong := hhops.trans (.hop hg (.here next))
    exact ⟨next, by rwa [Nat.add_comm] at hlong⟩

section

variable {start terminal : Path} {limit n : Nat}

theorem Hops.dereference_of_hasOwnValue (h : schema.Hops n start terminal) (hn : n ≤ limit)
    {found : Variable} (hg : schema.getLeaf? terminal = some found)
    (hown : found.hasOwnValue = true) :
    schema.dereference start limit = .ok (terminal, found) :=
  (h.dereference_eq hn).trans (dereferenceFrom_of_hasOwnValue hg hown)

theorem Hops.dereference_of_dangling (h : schema.Hops n start terminal) (hn : n ≤ limit)
    (hend : schema.Dangling terminal) :
    schema.dereference start limit = .error (.unresolvedReference start terminal) :=
  (h.dereference_eq hn).trans (dereferenceFrom_of_dangling hend)

theorem Hops.dereference_of_goes_on (h : schema.Hops (limit + 1) start terminal) :
    schema.dereference start limit = .error (.referenceTooLong start limit) :=
  dereferenceFrom_tooLong_iff.mpr ⟨rfl, rfl, terminal, h⟩

/-- **The three ends of a chain**, with the answer to each of them. -/
theorem dereference_cases (schema : Schema) (start : Path) (limit : Nat) :
    (∃ n ≤ limit, ∃ terminal found, schema.Hops n start terminal ∧
        schema.getLeaf? terminal = some found ∧ found.hasOwnValue = true ∧
        schema.dereference start limit = .ok (terminal, found)) ∨
      (∃ n ≤ limit, ∃ terminal, schema.Hops n start terminal ∧ schema.Dangling terminal ∧
        schema.dereference start limit = .error (.unresolvedReference start terminal)) ∨
      (∃ last, schema.Hops (limit + 1) start last) ∧
        schema.dereference start limit = .error (.referenceTooLong start limit) := by
  rcases ends_or_goes_on schema start limit with ⟨n, hn, terminal, hhops, hend⟩ | ⟨last, hhops⟩
  · rcases leaf_cases schema terminal with ⟨found, hg, hown⟩ | ⟨next, hg⟩ | hdangling
    · exact .inl ⟨n, hn, terminal, found, hhops, hg, hown,
        hhops.dereference_of_hasOwnValue hn hg hown⟩
    · exact absurd hg (hend next)
    · exact .inr (.inl ⟨n, hn, terminal, hhops, hdangling,
        hhops.dereference_of_dangling hn hdangling⟩)
  · exact .inr (.inr ⟨⟨last, hhops⟩, hhops.dereference_of_goes_on⟩)

end

theorem dereference_found_iff {start terminal : Path} {limit : Nat} {found : Variable} :
    schema.dereference start limit = .ok (terminal, found) ↔
      ∃ n ≤ limit, schema.Hops n start terminal ∧ schema.getLeaf? terminal = some found ∧
        found.hasOwnValue = true := by
  constructor
  · intro h
    rcases dereference_cases schema start limit with
      ⟨n, hn, last, value, hhops, hg, hown, heq⟩ | ⟨_, _, _, _, _, heq⟩ | ⟨_, heq⟩
    · cases h.symm.trans heq
      exact ⟨n, hn, hhops, hg, hown⟩
    · cases h.symm.trans heq
    · cases h.symm.trans heq
  · rintro ⟨n, hn, hhops, hg, hown⟩
    exact hhops.dereference_of_hasOwnValue hn hg hown

theorem dereference_unresolved_iff {start first target : Path} {limit : Nat} :
    schema.dereference start limit = .error (.unresolvedReference first target) ↔
      first = start ∧ ∃ n ≤ limit, schema.Hops n start target ∧ schema.Dangling target := by
  constructor
  · intro h
    rcases dereference_cases schema start limit with
      ⟨_, _, _, _, _, _, _, heq⟩ | ⟨n, hn, last, hhops, hend, heq⟩ | ⟨_, heq⟩
    · cases h.symm.trans heq
    · cases h.symm.trans heq
      exact ⟨rfl, n, hn, hhops, hend⟩
    · cases h.symm.trans heq
  · rintro ⟨rfl, n, hn, hhops, hend⟩
    exact hhops.dereference_of_dangling hn hend

/-- **A chain is too long for every limit exactly if it runs into a cycle.** -/
theorem forall_dereference_tooLong_iff {start : Path} :
    (∀ limit, schema.dereference start limit = .error (.referenceTooLong start limit)) ↔
      schema.RunsIntoCycle start := by
  constructor
  · intro h
    exact ((dereference_tooLong_iff (Nat.le_refl _)).mp (h _)).2.2
  · intro h limit
    obtain ⟨last, hhops⟩ := h.exists_hops (limit + 1)
    exact hhops.dereference_of_goes_on

/-- **Following references is following a chain for a bounded number of hops.**  The answer is the
variable at the end if that has a value of its own and is reached within the limit.  It is an
unresolved reference, from the start to the end, if there is nothing with a value at an end within
the limit.  Otherwise the chain is too long, which it is exactly if there are references at all of
its first paths, one more than the limit.  There is no other answer, and a chain is too long for
every limit exactly if it runs into a cycle. -/
theorem dereference_eq_following (schema : Schema) (start : Path) (limit : Nat) :
    (∀ terminal found, schema.dereference start limit = .ok (terminal, found) ↔
      ∃ n ≤ limit, schema.Hops n start terminal ∧ schema.getLeaf? terminal = some found ∧
        found.hasOwnValue = true) ∧
    (∀ first target,
      schema.dereference start limit = .error (.unresolvedReference first target) ↔
        first = start ∧ ∃ n ≤ limit, schema.Hops n start target ∧ schema.Dangling target) ∧
    (∀ first bound, schema.dereference start limit = .error (.referenceTooLong first bound) ↔
      first = start ∧ bound = limit ∧ ∀ i ≤ limit, ∃ path next, schema.Hops i start path ∧
        schema.getLeaf? path = some (.reference next)) ∧
    ((∃ terminal found, schema.dereference start limit = .ok (terminal, found)) ∨
      (∃ target, schema.dereference start limit = .error (.unresolvedReference start target)) ∨
      schema.dereference start limit = .error (.referenceTooLong start limit)) ∧
    ((∀ bound, schema.dereference start bound = .error (.referenceTooLong start bound)) ↔
      schema.RunsIntoCycle start) := by
  refine ⟨fun _ _ => dereference_found_iff, fun _ _ => dereference_unresolved_iff,
    fun first bound => ?_, ?_, forall_dereference_tooLong_iff⟩
  · rw [dereference, dereferenceFrom_tooLong_iff, exists_hops_iff]
  · rcases dereference_cases schema start limit with
      ⟨_, _, terminal, found, _, _, _, heq⟩ | ⟨_, _, target, _, _, heq⟩ | ⟨_, heq⟩
    · exact .inl ⟨terminal, found, heq⟩
    · exact .inr (.inl ⟨target, heq⟩)
    · exact .inr (.inr heq)

end Circuitry.Schema
