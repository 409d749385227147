import Circuitry.Proofs.Ownership

/-!
# What a refused request leaves behind

A path is refused a name because the name has an owner, or because there is no place for it in the
tree.  The first leaves everything as it was.  The second comes too late: the name has got its owner
already and keeps it, although no path has that name.

What is left is a matter of this one name.  Tables with the same tree that differ in its owner only
give the same replies for as long as nobody asks for it (`Names.AgreeExcept.replies`).  Asking for
it tells them apart: the refused request, made again, is refused for another reason.
-/

namespace Circuitry

namespace Names

/-! ### Calls and replies -/

def Request.name : Request → String
  | .give _ name => name
  | .giveOutput name => name

/-- A call on a table of names: a request, or a question about a path. -/
inductive Call where
  | ask (request : Request)
  | get (path : Path)
  | contains (path : Path)

inductive Reply where
  | answer (result : Except CompileError Unit)
  | name (found : Option String)
  | truth (known : Bool)

def Call.AsksFor (name : String) : Call → Prop
  | .ask request => request.name = name
  | .get _ => False
  | .contains _ => False

def reply (names : Names) : Call → Names × Reply
  | .ask request => ((names.answer request).1, .answer (names.answer request).2)
  | .get path => (names, .name (names.get? path))
  | .contains path => (names, .truth (names.contains path))

/-- The replies to calls that come one after another. -/
def replies (names : Names) : List Call → List Reply
  | [] => []
  | call :: rest => (names.reply call).2 :: (names.reply call).1.replies rest

/-! ### Tables that differ in the owner of one name -/

/-- The tables have the same tree, and the same owners but for one name. -/
structure AgreeExcept (name : String) (a b : Names) : Prop where
  tree : a.tree = b.tree
  owner : ∀ other, other ≠ name → a.owners.owner? other = b.owners.owner? other

namespace AgreeExcept

variable {name other : String} {a b : Names}

theorem cons (h : AgreeExcept name a b) (tree : Tree String) (path : Path) :
    AgreeExcept name ⟨tree, ⟨(other, path) :: a.owners.entries⟩⟩
      ⟨tree, ⟨(other, path) :: b.owners.entries⟩⟩ where
  tree := rfl
  owner asked hne := by
    have hsame := h.owner asked hne
    simp only [NameOwners.owner?, List.lookup_cons] at hsame ⊢
    rw [hsame]

theorem give (h : AgreeExcept name a b) (hne : other ≠ name) (path : Path) :
    (a.give path other).2 = (b.give path other).2 ∧
      AgreeExcept name (a.give path other).1 (b.give path other).1 := by
  unfold Names.give NameOwners.assign
  rw [h.owner other hne, h.tree]
  cases b.owners.owner? other with
  | some owner => exact ⟨rfl, h⟩
  | none =>
    cases b.tree.put path other with
    | error cause => exact ⟨rfl, h.cons b.tree path⟩
    | ok tree => exact ⟨rfl, h.cons tree path⟩

/-- **One request for another name is answered alike.** -/
theorem answer (h : AgreeExcept name a b) {request : Request} (hne : request.name ≠ name) :
    (a.answer request).2 = (b.answer request).2 ∧
      AgreeExcept name (a.answer request).1 (b.answer request).1 := by
  cases request with
  | give path other => exact h.give hne path
  | giveOutput other =>
    have htaken : a.owners.isTaken other = b.owners.isTaken other :=
      congrArg Option.isSome (h.owner other hne)
    simp only [Names.answer, giveOutput]
    rw [h.tree, htaken]
    split
    · exact ⟨rfl, h⟩
    · exact h.give hne [other]

theorem reply (h : AgreeExcept name a b) {call : Call} (hne : ¬ call.AsksFor name) :
    (a.reply call).2 = (b.reply call).2 ∧
      AgreeExcept name (a.reply call).1 (b.reply call).1 := by
  have hget : ∀ path, a.get? path = b.get? path := by
    intro path
    rw [get?, get?, h.tree]
  cases call with
  | ask request =>
    obtain ⟨hanswer, hnext⟩ := h.answer hne
    exact ⟨congrArg Reply.answer hanswer, hnext⟩
  | get path => exact ⟨congrArg Reply.name (hget path), h⟩
  | contains path => exact ⟨congrArg Reply.truth (congrArg Option.isSome (hget path)), h⟩

/-- **Whoever does not ask for the name never sees the difference.** -/
theorem replies (h : AgreeExcept name a b) {calls : List Call}
    (hne : ∀ call ∈ calls, ¬ call.AsksFor name) : a.replies calls = b.replies calls := by
  induction calls generalizing a b with
  | nil => rfl
  | cons call rest ih =>
    obtain ⟨hreply, hnext⟩ := h.reply (hne call List.mem_cons_self)
    rw [Names.replies, Names.replies, hreply,
      ih hnext fun later hm => hne later (List.mem_cons_of_mem _ hm)]

end AgreeExcept

/-! ### Refused names -/

variable {names next : Names} {path : Path} {name : String} {e : CompileError}

/-- **The two ways to be refused a name.**  With an owner before, nothing changes.  Without one, the
path is the owner afterwards, and the tree is the same. -/
theorem refused_give_cases (h : names.give path name = (next, .error e)) :
    (∃ owner, names.owners.owner? name = some owner ∧ next = names ∧
      e = .nameCollision name owner path) ∨
    names.owners.owner? name = none ∧ next = ⟨names.tree, ⟨(name, path) :: names.owners.entries⟩⟩ ∧
      ∃ cause, names.tree.put path name = .error cause ∧ e = .storing cause := by
  obtain ⟨owner, howner, hg⟩ | ⟨hfree, ⟨cause, hput, hg⟩ | ⟨tree, -, hg⟩⟩ :=
    names.give_cases path name
  · rw [hg] at h
    cases h
    exact .inl ⟨owner, howner, rfl, rfl⟩
  · rw [hg] at h
    cases h
    exact .inr ⟨hfree, rfl, cause, hput, rfl⟩
  · rw [hg] at h
    cases h

/-- **A refused name leaves no trace exactly if it had an owner before.**  The tree is the same in
any case, and so are the replies to all calls that do not ask for the name.  If the name had an
owner, nothing has changed.  If it had none, it is taken from now on, and there are calls to which
the replies are not what they were. -/
theorem refused_give_traceless_iff (h : names.give path name = (next, .error e)) :
    next.tree = names.tree ∧ next.owners.isTaken name = true ∧
      (∀ calls, (∀ call ∈ calls, ¬ call.AsksFor name) →
        next.replies calls = names.replies calls) ∧
      (names.owners.isTaken name = true → next = names) ∧
      ((∀ calls, next.replies calls = names.replies calls) ↔
        names.owners.isTaken name = true) := by
  obtain ⟨owner, howner, rfl, -⟩ | ⟨hfree, rfl, cause, hput, rfl⟩ := refused_give_cases h
  · have htaken : next.owners.isTaken name = true := by
      rw [NameOwners.isTaken, howner]
      rfl
    exact ⟨rfl, htaken, fun _ _ => rfl, fun _ => rfl, fun _ => htaken, fun _ _ => rfl⟩
  · have howner : NameOwners.owner? ⟨(name, path) :: names.owners.entries⟩ name = some path :=
      List.lookup_cons_self
    have hfree' : names.owners.isTaken name = false := by
      rw [NameOwners.isTaken, hfree]
      rfl
    have hagree : AgreeExcept name ⟨names.tree, ⟨(name, path) :: names.owners.entries⟩⟩ names := by
      refine ⟨rfl, fun other hne => ?_⟩
      rw [NameOwners.owner?, List.lookup_cons, beq_false_of_ne hne]
      rfl
    refine ⟨rfl, ?_, fun calls hne => hagree.replies hne, fun ht => ?_, fun hsame => ?_,
      fun ht => ?_⟩
    · rw [NameOwners.isTaken, howner]
      rfl
    · rw [hfree'] at ht
      cases ht
    · -- The same request once more is refused because of its own first attempt.
      have hagain : (Names.give ⟨names.tree, ⟨(name, path) :: names.owners.entries⟩⟩ path name).2
          = .error (.nameCollision name path path) := by
        unfold Names.give NameOwners.assign
        rw [howner]
      have hreply := List.head_eq_of_cons_eq (hsame [.ask (.give path name)])
      have hanswer := Reply.answer.inj hreply
      rw [answer, answer, hagain, h] at hanswer
      cases hanswer
    · rw [hfree'] at ht
      cases ht

def aged : Names :=
  empty.afterRequests [.give ["private", "age"] "age"]

/-- The name `years` is refused a place below `private.age`.  It had no owner, so the calls for
`age` get the replies they got before, but not all calls do. -/
theorem refused_give_traceless_iff_years :
    let next := (aged.give ["private", "age", "years"] "years").1
    aged.owners.isTaken "years" = false ∧ next.owners.isTaken "years" = true ∧
      next.replies [.get ["private", "age"], .ask (.giveOutput "age")]
        = aged.replies [.get ["private", "age"], .ask (.giveOutput "age")] ∧
      ¬ ∀ calls, next.replies calls = aged.replies calls := by
  intro next
  have hrefused : aged.give ["private", "age", "years"] "years"
      = (next, .error (.storing (.conflict ["private", "age"]))) := rfl
  have hfree : aged.owners.isTaken "years" = false := rfl
  obtain ⟨-, htaken, hothers, -, htrace⟩ := refused_give_traceless_iff hrefused
  refine ⟨hfree, htaken, hothers _ ?_, fun hall => ?_⟩
  · simp [Call.AsksFor, Request.name]
  · have hbefore := htrace.mp hall
    rw [hfree] at hbefore
    cases hbefore

/-- **A name that could not be stored stays taken.**  The refused request has taken `years`, so the
next one, for a vacant path, is refused as well, in favour of a path that has no name.  Without the
first request it is granted. -/
theorem refused_name_stays_taken :
    let next := (aged.give ["private", "age", "years"] "years").1
    (aged.give ["private", "age", "years"] "years").2
        = .error (.storing (.conflict ["private", "age"])) ∧
      next.get? ["private", "age", "years"] = none ∧
      aged.replies [.ask (.give ["private", "years"] "years")] = [.answer (.ok ())] ∧
      next.replies [.ask (.give ["private", "years"] "years")]
        = [.answer (.error (.nameCollision "years" ["private", "age", "years"]
            ["private", "years"]))] :=
  ⟨rfl, rfl, rfl, rfl⟩

end Names

end Circuitry
