import Circuitry.Program.Command
import Circuitry.Proofs.Fallible
import Mathlib.Data.List.Basic

/-!
# How variables are written

A variable that is not a function is known by a few members of its object, `Variable.ownMembers`:
its kind, and a value, a chain, a name or a path.  The reader finds them by their keys and looks at
nothing else, so it gives a variable exactly for the objects that have these members, and the
variable is one that can be written (`Variable.ofMembers_eq_ok`).  Everything that stands in a text,
such as the links of a chain, is read back from the text that it is displayed as
(`Link.parse_eq_ok`).
-/

namespace Circuitry

open Fallible

/-! ### Links -/

section

variable {α : Type*} [BEq α] [LawfulBEq α] {x : α} {items left right : List α}

theorem not_mem_of_splitOn_eq_singleton (h : items.splitOn x = [left]) : x ∉ items := by
  intro hmem
  obtain ⟨before, after, rfl⟩ := List.append_of_mem hmem
  rw [List.splitOn_append_cons_self] at h
  have hlength := congrArg List.length h
  have hbefore := List.length_pos_iff.mpr (List.splitOn_ne_nil x before)
  have hafter := List.length_pos_iff.mpr (List.splitOn_ne_nil x after)
  simp only [List.length_append, List.length_singleton] at hlength
  omega

theorem splitOn_eq_pair :
    items.splitOn x = [left, right] ↔ items = left ++ x :: right ∧ x ∉ left ∧ x ∉ right := by
  constructor
  · intro h
    have hitems : items = left ++ x :: right := by
      have hjoined : [x].intercalate (items.splitOn x) = items := List.intercalate_splitOn x
      rw [← hjoined, h]
      simp [List.intercalate]
    have hparts : left.splitOn x ++ right.splitOn x = [left] ++ [right] := by
      rw [← List.splitOn_append_cons_self, ← hitems]
      exact h
    have hleft := List.length_pos_iff.mpr (List.splitOn_ne_nil x left)
    have hright := List.length_pos_iff.mpr (List.splitOn_ne_nil x right)
    have hlength := congrArg List.length hparts
    simp only [List.length_append, List.length_singleton] at hlength
    obtain ⟨hone, htwo⟩ := List.append_inj hparts (by rw [List.length_singleton]; omega)
    exact ⟨hitems, not_mem_of_splitOn_eq_singleton hone, not_mem_of_splitOn_eq_singleton htwo⟩
  · rintro ⟨rfl, hleft, hright⟩
    rw [List.splitOn_append_cons_self, List.splitOn_eq_singleton hleft,
      List.splitOn_eq_singleton hright]
    rfl

end

def Link.IsSide (name : String) : Prop :=
  name ≠ "" ∧ '-' ∉ name.toList

/-- A link that can be read back from its text. -/
def Link.Proper (link : Link) : Prop :=
  IsSide link.source ∧ IsSide link.target

instance (link : Link) : Decidable link.Proper :=
  inferInstanceAs (Decidable ((link.source ≠ "" ∧ '-' ∉ link.source.toList) ∧
    link.target ≠ "" ∧ '-' ∉ link.target.toList))

/-- **A text is a link if it displays a proper one.** -/
theorem Link.parse_eq_ok {text : String} {link : Link} :
    Link.parse text = .ok link ↔ text = link.display ∧ link.Proper := by
  constructor
  · intro h
    unfold parse at h
    split at h
    · rename_i source target hsplit
      split at h
      · cases h
      · rename_i hempty
        cases h
        obtain ⟨htext, hsource, htarget⟩ := splitOn_eq_pair.mp hsplit
        simp only [Bool.or_eq_true, List.isEmpty_iff, not_or] at hempty
        refine ⟨?_, ?_, ?_⟩
        · rw [display, ← String.ofList_toList (s := text), htext]
          simp [String.ofList_append, String.ofList_cons, String.append_assoc]
        · exact ⟨by simpa using hempty.1, by simpa using hsource⟩
        · exact ⟨by simpa using hempty.2, by simpa using htarget⟩
    · cases h
  · rintro ⟨rfl, ⟨hsource, hsourceClear⟩, htarget, htargetClear⟩
    have hsplit : link.display.toList.splitOn '-' = [link.source.toList, link.target.toList] :=
      splitOn_eq_pair.mpr ⟨by simp [display, String.toList_append], hsourceClear, htargetClear⟩
    rw [parse, hsplit]
    simp [hsource, htarget, String.ofList_toList]

/-! ### Chains, paths and literals -/

theorem forall₂_iff_map {α β γ : Type*} {R : α → β → Prop} {f : α → γ} {g : β → γ} {p : β → Prop}
    {items : List α} {results : List β}
    (h : ∀ result ∈ results, ∀ item, R item result ↔ f item = g result ∧ p result) :
    List.Forall₂ R items results ↔
      items.map f = results.map g ∧ ∀ result ∈ results, p result := by
  induction results generalizing items with
  | nil => simp [List.forall₂_nil_right_iff]
  | cons result rest ih =>
    obtain ⟨hresult, hrest⟩ := List.forall_mem_cons.mp h
    cases items with
    | nil => simp
    | cons item others =>
      rw [List.forall₂_cons, hresult, ih hrest, List.map_cons, List.map_cons, List.cons.injEq,
        List.forall_mem_cons, and_and_and_comm]

theorem mapM_eq_ok_iff_map {ε α β : Type} {read : α → Except ε β} {write : β → α} {p : β → Prop}
    (h : ∀ item result, read item = .ok result ↔ item = write result ∧ p result)
    {items : List α} {results : List β} :
    items.mapM read = .ok results ↔ items = results.map write ∧ ∀ result ∈ results, p result := by
  rw [mapM_eq_ok]
  refine (forall₂_iff_map (f := id) fun result _ item => h item result).trans ?_
  rw [List.map_id]

def Chain.toJson (chain : Chain) : Json :=
  .array (chain.links.map fun link => .string link.display)

theorem Chain.ofLinks?_eq_some {links : List Link} {chain : Chain} :
    Chain.ofLinks? links = some chain ↔ links = chain.links := by
  rw [ofLinks?, Option.map_eq_some_iff]
  constructor
  · rintro ⟨last, hlast, rfl⟩
    obtain ⟨init, rfl⟩ := List.getLast?_eq_some_iff.mp hlast
    simp [Chain.links]
  · rintro rfl
    exact ⟨chain.last, by simp [Chain.links]⟩

theorem Scalar.ofJson?_eq_some {json : Json} {value : Scalar} :
    Scalar.ofJson? json = some value ↔ json = value.toJson := by
  cases json <;> cases value <;> simp [Scalar.ofJson?, Scalar.toJson]

/-- A name that the result of an operator can have.  Assertions and spreads have no result to
name. -/
def Operator.CanName (operator : Operator) (out : Option String) : Prop :=
  ∀ name, out = some name →
    operator ≠ .assert ∧ operator ≠ .spread ∧ Identifier.isValid name = true

namespace Variable

variable {members : List (String × Json)}

theorem linkOf_eq_ok {item : Json} {link : Link} :
    linkOf item = .ok link ↔ item = .string link.display ∧ link.Proper := by
  cases item <;> simp [linkOf, mapError_eq_ok, Link.parse_eq_ok]

theorem segmentOf_eq_ok {item : Json} {key : String} :
    segmentOf item = .ok key ↔ item = .string key ∧ True := by
  cases item <;> simp [segmentOf]

theorem chainOf_eq_ok {chain : Chain} :
    chainOf members = .ok chain ↔
      members.lookup "transLinks" = some chain.toJson ∧ ∀ link ∈ chain.links, link.Proper := by
  unfold chainOf
  split
  · rename_i items hitems
    rw [hitems, bind_eq_ok]
    simp only [mapM_eq_ok_iff_map fun _ _ => linkOf_eq_ok]
    constructor
    · rintro ⟨links, ⟨rfl, hproper⟩, h⟩
      cases hchain : Chain.ofLinks? links with
      | none =>
        rw [hchain] at h
        cases h
      | some found =>
        rw [hchain] at h
        obtain rfl := pure_eq_ok.mp h
        obtain rfl := Chain.ofLinks?_eq_some.mp hchain
        exact ⟨rfl, hproper⟩
    · rintro ⟨hwritten, hproper⟩
      rw [Chain.toJson, Option.some.injEq, Json.array.injEq] at hwritten
      refine ⟨chain.links, ⟨hwritten, hproper⟩, ?_⟩
      rw [Chain.ofLinks?_eq_some.mpr rfl]
      rfl
  · rename_i hnone
    exact iff_of_false error_ne_ok fun h => hnone _ h.1

theorem referencePath_eq_ok {path : Path} :
    referencePath members = .ok path ↔
      members.lookup "path" = some (.array (path.map .string)) ∧ path ≠ [] := by
  unfold referencePath
  split
  · rename_i items hitems
    rw [hitems]
    by_cases hempty : items = []
    · subst hempty
      refine iff_of_false error_ne_ok fun h => h.2 ?_
      simpa using h.1
    · rw [if_neg (by simpa using hempty)]
      change items.mapM segmentOf = .ok path ↔ _
      rw [mapM_eq_ok_iff_map fun _ _ => segmentOf_eq_ok]
      simp only [Option.some.injEq, Json.array.injEq]
      refine ⟨fun h => ⟨h.1, ?_⟩, fun h => ⟨h.1, fun _ _ => trivial⟩⟩
      rintro rfl
      exact hempty h.1
  · rename_i hnone
    exact iff_of_false error_ne_ok fun h => hnone _ h.1

/-! ### Variables by their members -/

/-- The members that make a variable what it is.  Those of a function are its kind and the body of
its operator, which is not among them. -/
def ownMembers : Variable → List (String × Json)
  | .static value chain =>
    [("type", .string "static"), ("value", value.toJson), ("transLinks", chain.toJson)]
  | .setup chain => [("type", .string "setup"), ("transLinks", chain.toJson)]
  | .constant name => [("type", .string "constant"), ("name", .string name)]
  | .reference path => [("type", .string "reference"), ("path", .array (path.map .string))]
  | .function _ _ => [("type", .string "function")]

/-- What a variable must be like to be written, apart from the operation in it: its links are
proper, its path is not empty, and its operation can have the name that it gives. -/
def Legible : Variable → Prop
  | .static _ chain | .setup chain => ∀ link ∈ chain.links, link.Proper
  | .constant _ => True
  | .reference path => path ≠ []
  | .function operation out => operation.operator.CanName out

theorem staticOf_eq_ok {value : Scalar} {chain : Chain} :
    staticOf members = .ok (.static value chain) ↔
      members.lookup "value" = some value.toJson ∧ chainOf members = .ok chain := by
  unfold staticOf
  split
  · rename_i json hjson
    rw [hjson, Option.some.injEq, ← Scalar.ofJson?_eq_some]
    split
    · rename_i found hfound
      rw [hfound]
      constructor
      · intro h
        obtain ⟨other, hother, hsame⟩ := bind_eq_ok.mp h
        cases hsame
        exact ⟨rfl, hother⟩
      · rintro ⟨⟨⟩, hchain⟩
        rw [hchain]
        rfl
    · rename_i hnone
      exact iff_of_false error_ne_ok fun h => hnone _ h.1
  · rename_i hnone
    exact iff_of_false error_ne_ok fun h => hnone _ h.1

theorem kind_of_staticOf {found : Variable} (h : staticOf members = .ok found) :
    found.kind = "static" := by
  unfold staticOf at h
  split at h
  · split at h
    · obtain ⟨chain, -, hfound⟩ := bind_eq_ok.mp h
      cases hfound
      rfl
    · cases h
  · cases h

theorem lookup_type_of_ofMembers {bodies : List (String × Body)} {found : Variable}
    (h : ofMembers members bodies = .ok found) :
    members.lookup "type" = some (.string found.kind) := by
  unfold ofMembers at h
  split at h
  · rename_i kind htype
    rw [htype]
    split at h
    · rw [kind_of_staticOf h]
    · obtain ⟨chain, -, hfound⟩ := bind_eq_ok.mp h
      cases hfound
      rfl
    · split at h
      · cases h
        rfl
      · cases h
    · obtain ⟨path, -, hfound⟩ := bind_eq_ok.mp h
      cases hfound
      rfl
    · obtain ⟨command, -, hfound⟩ := bind_eq_ok.mp h
      cases hfound
      rfl
    · cases h
  · cases h

/-- **A variable is read exactly where its own members are found**, if it is not a function. -/
theorem ofMembers_eq_ok {bodies : List (String × Body)} {found : Variable}
    (hkind : found.kind ≠ "function") :
    ofMembers members bodies = .ok found ↔
      found.Legible ∧ ∀ member ∈ found.ownMembers, members.lookup member.1 = some member.2 := by
  by_cases htype : members.lookup "type" = some (.string found.kind)
  · cases found with
    | static value chain =>
      have hread : ofMembers members bodies = staticOf members := by
        rw [ofMembers, htype]
        rfl
      rw [hread, staticOf_eq_ok, chainOf_eq_ok]
      simp [ownMembers, Legible, htype, kind, ← and_assoc, and_comm]
    | setup chain =>
      have hread : ofMembers members bodies =
          (chainOf members >>= fun chain => pure (setup chain)) := by
        rw [ofMembers, htype]
        rfl
      rw [hread, bind_eq_ok]
      simp [pure_eq_ok, chainOf_eq_ok, ownMembers, Legible, htype, kind, and_comm]
    | constant name =>
      have hown : (constant name).Legible ∧ (∀ member ∈ (constant name).ownMembers,
          members.lookup member.1 = some member.2) ↔
          members.lookup "name" = some (.string name) := by
        simp [ownMembers, Legible, htype, kind]
      rw [hown, ofMembers, htype]
      cases members.lookup "name" with
      | none => exact iff_of_false error_ne_ok (by simp)
      | some found =>
        cases found with
        | string other => simp [kind, pure_eq_ok]
        | _ => exact iff_of_false error_ne_ok (by simp)
    | reference path =>
      have hread : ofMembers members bodies =
          (referencePath members >>= fun path => pure (reference path)) := by
        rw [ofMembers, htype]
        rfl
      rw [hread, bind_eq_ok]
      simp [pure_eq_ok, referencePath_eq_ok, ownMembers, Legible, htype, kind, and_comm]
    | function operation out => exact absurd rfl hkind
  · refine iff_of_false (fun h => htype (lookup_type_of_ofMembers h)) fun h => htype ?_
    cases found <;> exact h.2 _ List.mem_cons_self

theorem ofMembers_eq_function {bodies : List (String × Body)} {operation : Operation}
    {out : Option String} :
    ofMembers members bodies = .ok (.function operation out) ↔
      members.lookup "type" = some (.string "function") ∧
        Command.ofBodies (bodies.filter fun entry => entry.1 != "type") =
          .ok ⟨operation, out⟩ := by
  by_cases htype : members.lookup "type" = some (.string "function")
  · have hread : ofMembers members bodies =
        (Command.ofBodies (bodies.filter fun entry => entry.1 != "type") >>= fun command =>
          pure (function command.operation command.out)) := by
      rw [ofMembers, htype]
      rfl
    rw [hread, bind_eq_ok, and_iff_right htype]
    constructor
    · rintro ⟨command, hcommand, hsame⟩
      cases hsame
      exact hcommand
    · exact fun h => ⟨⟨operation, out⟩, h, rfl⟩
  · exact iff_of_false (fun h => htype (lookup_type_of_ofMembers h)) fun h => htype h.1

end Variable

end Circuitry
