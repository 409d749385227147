import Circuitry.Compiler
import Circuitry.Proofs.Reading
import Circuitry.Proofs.Tree
import Mathlib.Data.List.Nodup

/-!
# The order of members does not matter

Two documents are reorderings of one another (`Json.Reordered`) if they differ only in the order in
which objects list their members, at any depth and in any number of objects.  Everything that is
done with a document starts from its canonical form, and reorderings have one canonical form:
members with different keys can be put into the order of the keys in any order.  The same goes for
texts that are read, because a text that lists members in another order is read as the same
document.  Texts that are nested too deeply are refused in any order, but the bracket that is one
too many may stand at another place.

The canonical form forgets nothing else.  Documents without repeated keys that have one canonical
form are reorderings of one another (`Json.canonical_eq_iff`); in particular the items of an array
stay in their order.
-/

namespace Circuitry

universe u

/-! ### Entries in any order -/

namespace Keyed

variable {β : Type u}

theorem insert_comm {key other : String} (h : key ≠ other) (value new : β)
    (entries : List (String × β)) :
    insert key value (insert other new entries) = insert other new (insert key value entries) := by
  induction entries with
  | nil =>
    simp only [insert]
    grind
  | cons entry rest ih =>
    obtain ⟨k, v⟩ := entry
    simp only [insert]
    grind [insert]

variable {entries permuted : List (String × β)}

theorem insert_comm_of_mem (hnodup : (entries.map Prod.fst).Nodup) {x y : String × β}
    (hx : x ∈ entries) (hy : y ∈ entries) (seen : List (String × β)) :
    insert y.1 y.2 (insert x.1 x.2 seen) = insert x.1 x.2 (insert y.1 y.2 seen) := by
  by_cases hkey : y.1 = x.1
  · rw [List.inj_on_of_nodup_map hnodup hy hx hkey]
  · exact insert_comm hkey y.2 x.2 seen

/-- **Entries with different keys can be put in in any order.** -/
theorem foldr_insert_perm (hperm : entries.Perm permuted)
    (hnodup : (entries.map Prod.fst).Nodup) (seen : List (String × β)) :
    entries.foldr (fun entry => insert entry.1 entry.2) seen
      = permuted.foldr (fun entry => insert entry.1 entry.2) seen :=
  hperm.foldr_eq' (fun _ hx _ hy seen => insert_comm_of_mem hnodup hx hy seen) seen

theorem foldl_insert_perm (hperm : entries.Perm permuted)
    (hnodup : (entries.map Prod.fst).Nodup) (seen : List (String × β)) :
    entries.foldl (fun seen entry => insert entry.1 entry.2 seen) seen
      = permuted.foldl (fun seen entry => insert entry.1 entry.2 seen) seen :=
  hperm.foldl_eq' (fun _ hx _ hy seen => insert_comm_of_mem hnodup hx hy seen) seen

theorem insert_perm {key : String} (h : key ∉ entries.map Prod.fst) (value : β) :
    (insert key value entries).Perm ((key, value) :: entries) := by
  induction entries with
  | nil => exact .refl _
  | cons entry rest ih =>
    obtain ⟨k, v⟩ := entry
    rw [List.map_cons, List.mem_cons, not_or] at h
    rw [insert, if_neg h.1]
    split
    · exact .refl _
    · exact ((ih h.2).cons (k, v)).trans (.swap _ _ _)

theorem foldr_insert_perm_self (hnodup : (entries.map Prod.fst).Nodup) :
    (entries.foldr (fun entry => insert entry.1 entry.2) []).Perm entries := by
  induction entries with
  | nil => exact .nil
  | cons entry rest ih =>
    rw [List.map_cons, List.nodup_cons] at hnodup
    have hrest := ih hnodup.2
    have hnew : entry.1 ∉ (rest.foldr (fun entry => insert entry.1 entry.2) []).map Prod.fst :=
      fun hm => hnodup.1 ((hrest.map Prod.fst).mem_iff.mp hm)
    exact (insert_perm hnew entry.2).trans (hrest.cons entry)

end Keyed

namespace Json

/-! ### The forms of a document, by its parts -/

theorem canonicalItems_eq_map (items : List Json) : canonicalItems items = items.map canonical := by
  induction items with
  | nil => rfl
  | cons item rest ih => rw [canonicalItems, ih, List.map_cons]

theorem canonicalMembers_eq_foldr (members : List (String × Json)) :
    canonicalMembers members = (members.map fun member => (member.1, member.2.canonical)).foldr
      (fun entry => Keyed.insert entry.1 entry.2) [] := by
  induction members with
  | nil => rfl
  | cons member rest ih => rw [canonicalMembers, ih, List.map_cons, List.foldr_cons]

theorem settledItems_eq_map (items : List Json) : settledItems items = items.map settled := by
  induction items with
  | nil => rfl
  | cons item rest ih => rw [settledItems, ih, List.map_cons]

theorem settledMembers_eq_foldl (seen members : List (String × Json)) :
    settledMembers seen members = (members.map fun member => (member.1, member.2.settled)).foldl
      (fun seen entry => Keyed.insert entry.1 entry.2 seen) seen := by
  induction members generalizing seen with
  | nil => rfl
  | cons member rest ih => rw [settledMembers, ih, List.map_cons, List.foldl_cons]

theorem depthOfItems_eq_foldr (items : List Json) :
    depthOfItems items = (items.map depth).foldr max 0 := by
  induction items with
  | nil => rfl
  | cons item rest ih => rw [depthOfItems, ih, List.map_cons, List.foldr_cons]

theorem depthOfMembers_eq_foldr (members : List (String × Json)) :
    depthOfMembers members = (members.map fun member => member.2.depth).foldr max 0 := by
  induction members with
  | nil => rfl
  | cons member rest ih => rw [depthOfMembers, ih, List.map_cons, List.foldr_cons]

/-! ### Reorderings -/

/-- Two documents that differ only in the order of the members of objects. -/
inductive Reordered : Json → Json → Prop
  | refl (json : Json) : Reordered json json
  | trans {a b c : Json} : Reordered a b → Reordered b c → Reordered a c
  /-- The members of an object with different keys, in another order. -/
  | object {members permuted : List (String × Json)} :
      members.Perm permuted → (members.map Prod.fst).Nodup →
      Reordered (.object members) (.object permuted)
  /-- A reordering inside an item of an array. -/
  | item {a b : Json} (before after : List Json) : Reordered a b →
      Reordered (.array (before ++ a :: after)) (.array (before ++ b :: after))
  /-- A reordering inside a member of an object. -/
  | member {a b : Json} (before : List (String × Json)) (key : String)
      (after : List (String × Json)) : Reordered a b →
      Reordered (.object (before ++ (key, a) :: after)) (.object (before ++ (key, b) :: after))

namespace Reordered

variable {a b : Json}

theorem symm (h : Reordered a b) : Reordered b a := by
  induction h with
  | refl json => exact .refl json
  | trans _ _ ihab ihbc => exact .trans ihbc ihab
  | object hperm hnodup => exact .object hperm.symm ((hperm.map Prod.fst).nodup_iff.mp hnodup)
  | item before after _ ih => exact .item before after ih
  | member before key after _ ih => exact .member before key after ih

theorem canonical_eq (h : Reordered a b) : a.canonical = b.canonical := by
  induction h with
  | refl json => rfl
  | trans _ _ ihab ihbc => exact ihab.trans ihbc
  | object hperm hnodup =>
    rw [canonical, canonical, canonicalMembers_eq_foldr, canonicalMembers_eq_foldr]
    refine congrArg Json.object (Keyed.foldr_insert_perm (hperm.map _) ?_ [])
    rw [List.map_map]
    exact hnodup
  | item before after _ ih =>
    simp only [canonical, canonicalItems_eq_map, List.map_append, List.map_cons, ih]
  | member before key after _ ih =>
    simp only [canonical, canonicalMembers_eq_foldr, List.map_append, List.map_cons, ih]

theorem settled_eq (h : Reordered a b) : a.settled = b.settled := by
  induction h with
  | refl json => rfl
  | trans _ _ ihab ihbc => exact ihab.trans ihbc
  | object hperm hnodup =>
    rw [settled, settled, settledMembers_eq_foldl, settledMembers_eq_foldl]
    refine congrArg Json.object (Keyed.foldl_insert_perm (hperm.map _) ?_ [])
    rw [List.map_map]
    exact hnodup
  | item before after _ ih =>
    simp only [settled, settledItems_eq_map, List.map_append, List.map_cons, ih]
  | member before key after _ ih =>
    simp only [settled, settledMembers_eq_foldl, List.map_append, List.map_cons, ih]

theorem depth_eq (h : Reordered a b) : a.depth = b.depth := by
  induction h with
  | refl json => rfl
  | trans _ _ ihab ihbc => exact ihab.trans ihbc
  | object hperm _ =>
    rw [depth, depth, depthOfMembers_eq_foldr, depthOfMembers_eq_foldr]
    exact congrArg (· + 1) ((hperm.map _).foldr_eq' (fun x _ y _ z => Nat.max_left_comm y x z) 0)
  | item before after _ ih =>
    simp only [depth, depthOfItems_eq_foldr, List.map_append, List.map_cons, ih]
  | member before key after _ ih =>
    simp only [depth, depthOfMembers_eq_foldr, List.map_append, List.map_cons, ih]

theorem array {items reordered : List Json} (h : List.Forall₂ Reordered items reordered) :
    Reordered (.array items) (.array reordered) := by
  have hall : ∀ before, Reordered (.array (before ++ items)) (.array (before ++ reordered)) := by
    induction h with
    | nil => exact fun before => .refl _
    | @cons item new rest others hitem _ ih =>
      intro before
      have hrest := ih (before ++ [new])
      rw [List.append_assoc, List.append_assoc] at hrest
      exact .trans (.item before rest hitem) hrest
  exact hall []

theorem members {members reordered : List (String × Json)}
    (h : List.Forall₂ (fun member new => member.1 = new.1 ∧ Reordered member.2 new.2)
      members reordered) : Reordered (.object members) (.object reordered) := by
  have hall : ∀ before,
      Reordered (.object (before ++ members)) (.object (before ++ reordered)) := by
    induction h with
    | nil => exact fun before => .refl _
    | @cons member new rest others hmember _ ih =>
      intro before
      obtain ⟨key, value⟩ := member
      obtain ⟨key', value'⟩ := new
      obtain ⟨rfl, hvalue⟩ := hmember
      have hrest := ih (before ++ [(key, value')])
      rw [List.append_assoc, List.append_assoc] at hrest
      exact .trans (.member before key rest hvalue) hrest
  exact hall []

end Reordered

/-! ### The canonical form forgets nothing else -/

mutual

/-- Whether no object of a document repeats a key. -/
def hasDistinctKeys : Json → Bool
  | .array items => itemsDistinct items
  | .object members => decide (members.map Prod.fst).Nodup && membersDistinct members
  | _ => true

def itemsDistinct : List Json → Bool
  | [] => true
  | item :: rest => item.hasDistinctKeys && itemsDistinct rest

def membersDistinct : List (String × Json) → Bool
  | [] => true
  | (_, value) :: rest => value.hasDistinctKeys && membersDistinct rest

end

mutual

/-- **A document is a reordering of its canonical form**, if no object repeats a key. -/
theorem reordered_canonical : (json : Json) → json.hasDistinctKeys = true →
    json.Reordered json.canonical
  | .null, _ | .bool _, _ | .number _, _ | .string _, _ => by
    simp only [canonical]
    exact .refl _
  | .array items, h => by
    rw [hasDistinctKeys] at h
    rw [canonical, canonicalItems_eq_map]
    exact .array (reordered_items items h)
  | .object members, h => by
    rw [hasDistinctKeys, Bool.and_eq_true, decide_eq_true_eq] at h
    rw [canonical, canonicalMembers_eq_foldr]
    refine .trans (.members (reordered_members members h.2)) ?_
    have hnodup : ((members.map fun member => (member.1, member.2.canonical)).map Prod.fst).Nodup :=
      by rw [List.map_map]; exact h.1
    exact .object (Keyed.foldr_insert_perm_self hnodup).symm hnodup

theorem reordered_items : (items : List Json) → itemsDistinct items = true →
    List.Forall₂ Reordered items (items.map canonical)
  | [], _ => .nil
  | item :: rest, h => by
    rw [itemsDistinct, Bool.and_eq_true] at h
    exact .cons (reordered_canonical item h.1) (reordered_items rest h.2)

theorem reordered_members : (members : List (String × Json)) → membersDistinct members = true →
    List.Forall₂ (fun member new => member.1 = new.1 ∧ Reordered member.2 new.2) members
      (members.map fun member => (member.1, member.2.canonical))
  | [], _ => .nil
  | (key, value) :: rest, h => by
    rw [membersDistinct, Bool.and_eq_true] at h
    exact .cons ⟨rfl, reordered_canonical value h.1⟩ (reordered_members rest h.2)

end

/-- **Documents have one canonical form if and only if they are reorderings of one another.** -/
theorem canonical_eq_iff {a b : Json} (ha : a.hasDistinctKeys = true)
    (hb : b.hasDistinctKeys = true) : a.canonical = b.canonical ↔ a.Reordered b := by
  constructor
  · intro h
    have hcanonical := reordered_canonical a ha
    rw [h] at hcanonical
    exact .trans hcanonical (reordered_canonical b hb).symm
  · exact Reordered.canonical_eq

/-- **Arrays have one canonical form only item by item**, in the same order. -/
theorem canonical_array_eq_iff {items others : List Json} :
    (Json.array items).canonical = (Json.array others).canonical ↔
      List.Forall₂ (fun item other => item.canonical = other.canonical) items others := by
  rw [canonical, canonical, Json.array.injEq, canonicalItems_eq_map, canonicalItems_eq_map,
    ← List.forall₂_eq_eq_eq, List.forall₂_map_left_iff, List.forall₂_map_right_iff]

end Json

/-! ### Programs and inputs -/

open Fallible

theorem Program.forall₂_commands {document : Json} {program : Program}
    {members : List (String × Json)} {items : List Json}
    (h : Program.ofJson document = .ok program) (hmembers : document.canonical = .object members)
    (hitems : members.lookup "commands" = some (.array items)) :
    List.Forall₂ (fun item command => Command.ofJson item.1 item.2 = .ok command) items.zipIdx
      program.commands := by
  unfold Program.ofJson at h
  rw [hmembers] at h
  dsimp only at h
  split at h
  · obtain ⟨target, -, h⟩ := bind_eq_ok.mp h
    split at h
    · obtain ⟨schema, -, h⟩ := bind_eq_ok.mp h
      obtain ⟨commands, hcommands, h⟩ := bind_eq_ok.mp h
      obtain ⟨options, -, h⟩ := bind_eq_ok.mp h
      cases h
      rw [hitems] at hcommands
      exact mapM_eq_ok.mp hcommands
    · cases h
  · cases h

theorem Program.ofText_of_read {read : Json.TextReader} {text : String} {json : Json}
    (h : read text = .ok json) : Program.ofText read text = Program.ofJson json := by
  rw [Program.ofText, h]
  rfl

namespace Compiler

/-- **Nothing depends on the order of the members of objects.**  For documents that are reorderings
of one another, a program or an error comes out of both, and the same one; so it does for texts that
are read as them, whatever else differs between the texts.  The sources are the same, or the errors;
and so are the inputs that schemas and setups give.  Texts that spell reorderings are read as one
document, or are both refused as too deep.  The order of items does count: documents without
repeated keys have one canonical form only if they are reorderings, arrays only item by item, and
the commands of a program are those of its array in their order. -/
theorem independent_of_member_order {a b : Json} (h : a.Reordered b) :
    Program.ofJson a = Program.ofJson b ∧
    (∀ (read : Json.TextReader) (first second : String), read first = .ok a → read second = .ok b →
      Program.ofText read first = Program.ofText read second) ∧
    (∀ first second, Json.Spells first a → Json.Spells second b → a.depth ≤ Json.maxDepth →
      Json.read first = .ok a.settled ∧ Json.read second = .ok a.settled ∧
        Program.ofText Json.read first = Program.ofText Json.read second) ∧
    (∀ first second, Json.Spells first a → Json.Spells second b → Json.maxDepth < a.depth →
      ∃ here there, Program.ofText Json.read first = .error (.malformed ⟨.tooDeep, here⟩) ∧
        Program.ofText Json.read second = .error (.malformed ⟨.tooDeep, there⟩)) ∧
    (∀ compiler : Compiler,
      (Program.ofJson a >>= compiler.translate) = (Program.ofJson b >>= compiler.translate)) ∧
    (∀ (compiler : Compiler) (target : String) (setup reordered : Json),
      setup.Reordered reordered →
      compiler.inputOfDocuments target a setup = compiler.inputOfDocuments target b reordered) ∧
    (∀ (compiler : Compiler) (program : Program),
      compiler.inputOfProgram program a = compiler.inputOfProgram program b) ∧
    (∀ c d : Json, c.hasDistinctKeys = true → d.hasDistinctKeys = true →
      (c.canonical = d.canonical ↔ c.Reordered d)) ∧
    (∀ items others, (Json.array items).canonical = (Json.array others).canonical ↔
      List.Forall₂ (fun item other => item.canonical = other.canonical) items others) ∧
    ∀ program members items, Program.ofJson a = .ok program → a.canonical = .object members →
      members.lookup "commands" = some (.array items) →
      List.Forall₂ (fun item command => Command.ofJson item.1 item.2 = .ok command) items.zipIdx
        program.commands := by
  have hprogram : Program.ofJson a = Program.ofJson b := by
    rw [Program.ofJson, Program.ofJson, h.canonical_eq]
  have hsetup {c d : Json} (hcd : c.Reordered d) : setupOfJson c = setupOfJson d := by
    rw [setupOfJson, setupOfJson, hcd.canonical_eq]
  refine ⟨hprogram, fun read first second hfirst hsecond => ?_,
    fun first second hfirst hsecond hdepth => ?_, fun first second hfirst hsecond hdepth => ?_,
    fun compiler => by rw [hprogram], fun compiler target setup reordered hr => ?_,
    fun compiler program => ?_, fun c d hc hd => Json.canonical_eq_iff hc hd,
    fun items others => Json.canonical_array_eq_iff,
    fun program members items => Program.forall₂_commands⟩
  · rw [Program.ofText_of_read hfirst, Program.ofText_of_read hsecond, hprogram]
  · have hread := Json.read_of_spells hfirst hdepth
    have hother := Json.read_of_spells hsecond (h.depth_eq ▸ hdepth)
    rw [← h.settled_eq] at hother
    exact ⟨hread, hother, by rw [Program.ofText_of_read hread, Program.ofText_of_read hother]⟩
  · obtain ⟨here, hhere⟩ := Json.read_of_spells_deep hfirst hdepth
    obtain ⟨there, hthere⟩ := Json.read_of_spells_deep hsecond (h.depth_eq ▸ hdepth)
    exact ⟨here, there, by rw [Program.ofText, hhere]; rfl, by rw [Program.ofText, hthere]; rfl⟩
  · rw [inputOfDocuments, inputOfDocuments, Schema.ofJson, Schema.ofJson, h.canonical_eq]
    unfold input
    rw [hsetup hr]
  · rw [inputOfProgram, inputOfProgram, input, input, hsetup h]

/-- A program that adds a number to an input and compares the sum with it.  Its commands and its
members can be listed in any order. -/
def tally (swapsCommands swapsMembers : Bool) : Json :=
  let schema : Json := .object [("private", .object [("age", .object [("type", .string "setup"),
    ("transLinks", .array [.string "uint64-mina:field"])])])]
  let reference (path : List Json) : Json :=
    .object [("type", .string "reference"), ("path", .array path)]
  let age := reference [.string "private", .string "age"]
  let inputs : String × Json := ("in", .array [age, age])
  let out : String × Json := ("out", .string "sum")
  let sum : Json :=
    .object [("add", .object (if swapsMembers then [out, inputs] else [inputs, out]))]
  let compare : Json :=
    .object [("equal", .object [("in", .array [reference [.string "sum"], age])])]
  let commands : String × Json :=
    ("commands", .array (if swapsCommands then [compare, sum] else [sum, compare]))
  let rest := [("target", .string "o1js:zk-program"), ("inputSchema", schema)]
  .object (if swapsMembers then commands :: rest else rest ++ [commands])

/-- A program without inputs, its two members in either order. -/
def blank (swaps : Bool) : Json :=
  let target : String × Json := ("target", .string "o1js:zk-program")
  let schema : String × Json := ("inputSchema", .object [("private", .object [])])
  .object (if swaps then [schema, target] else [target, schema])

/-- Listing members in another order, also in a text, gives the same program.  Listing the commands
in another order gives a program that has no source any more. -/
theorem independent_of_member_order_tally :
    (tally false false).Reordered (tally false true) ∧
      Program.ofJson (tally false false) = Program.ofJson (tally false true) ∧
      (Program.ofJson (tally false false) >>= Outline.ofProgram Value.ofChain {}).isOk = true ∧
      (Program.ofJson (tally true false) >>= Outline.ofProgram Value.ofChain {}).isOk = false ∧
      ∃ first second, Json.Spells first (blank false) ∧ Json.Spells second (blank true) ∧
        Program.ofText Json.read first = Program.ofText Json.read second ∧
        (Program.ofText Json.read first).isOk = true := by
  have hreordered : (tally false false).Reordered (tally false true) :=
    (Json.canonical_eq_iff (by decide +kernel) (by decide +kernel)).mp rfl
  have hblank : (blank false).Reordered (blank true) := .object (.swap _ _ _) (by decide)
  have hfirst : Json.Spells
      "\x7b\"target\":\"o1js:zk-program\",\"inputSchema\":\x7b\"private\":\x7b\x7d\x7d\x7d"
      (blank false) := rfl
  have hsecond : Json.Spells
      "\x7b \"inputSchema\": \x7b\"private\": \x7b\x7d\x7d, \"target\": \"o1js:zk-program\" \x7d"
      (blank true) := rfl
  obtain ⟨hprogram, -⟩ := independent_of_member_order hreordered
  obtain ⟨-, -, htexts, -⟩ := independent_of_member_order hblank
  exact ⟨hreordered, hprogram, by decide +kernel, by decide +kernel, _, _, hfirst, hsecond,
    (htexts _ _ hfirst hsecond (by decide)).2.2, by decide +kernel⟩

end Compiler

end Circuitry
