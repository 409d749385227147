import Circuitry.Proofs.Nesting
import Circuitry.Proofs.Script

/-!
# The trees of operations

Every operation has a tree that is prescribed without any text: a method of the left operand for two
operands, and a function or a constructor around the operands otherwise (`Operation.tree?`).  Lists
that are spread have none, as they are no expressions of their own.  There is one more gap: an
integer of no bytes has no digits, so there is no literal for it (`Literal.tree?`).

The trees that there are belong to the grammar (`Operation.tight_of_tree?`), and they can stand in
front of a dot.  So the tree of an operand can be the receiver of a method.
-/

namespace Circuitry

/-! ### Prescribed trees -/

namespace Script

def method (receiver : Script) (name : String) (arguments : List Script) : Script :=
  .call (.member receiver name) arguments

def ofNumeral (literal : String → Literal) (spelling : String) : Script :=
  match spelling.toList with
  | '-' :: digits => .negate (.literal (literal (String.ofList digits)))
  | _ => .literal (literal spelling)

end Script

def Literal.tree? : Literal → Option Script
  | .number spelling => some (.ofNumeral .number spelling)
  | .bigInt spelling => if spelling = "0x" then none else some (.ofNumeral .bigInt spelling)
  | .text value => some (.literal (.text value))
  | .boolean b => some (.literal (.boolean b))

/-- The truth value that a literal is, or that it names. -/
def Literal.truth? : Literal → Option Bool
  | .boolean b => some b
  | .text word => if word = "true" then some true else if word = "false" then some false else none
  | _ => none

def Literal.text? : Literal → Option String
  | .text value => some value
  | _ => none

def SourceType.tree? (token : SourceType) (literal : Literal) : Option Script :=
  let quoted (type member value : String) : Script :=
    .method (.name type) member [.literal (.text value)]
  match token with
  | .field => literal.tree?.map fun argument => .call (.name "Field") [argument]
  | .uint64 => literal.tree?.map fun argument =>
    .method (.name "UInt64") "from" [.call (.name "Field") [argument]]
  | .bool => literal.truth?.map fun b => .call (.name "Bool") [.literal (.boolean b)]
  | .signature => literal.text?.map (quoted "Signature" "fromBase58")
  | .publicKey => literal.text?.map (quoted "PublicKey" "fromBase58")
  | .circuitString => some (quoted "CircuitString" "fromString" literal.content)

def Link.forms : List ((String × String) × (Script → Script)) :=
  [(("uint64", "fields"), (·.method "toFields" [])),
    (("signature", "fields"), (·.method "toFields" [])),
    (("publickey", "fields"), (·.method "toFields" [])),
    (("string", "fields"), (·.method "toFields" [])),
    (("field", "uint64"), fun value => .method (.name "UInt64") "from" [value]),
    (("bool", "field"), (·.method "toField" []))]

def Link.tree? (link : Link) (operand : Script) : Option Script :=
  (forms.lookup (link.sourceType, link.targetType)).map (· operand)

def Constant.trees : List (String × Script) :=
  let number (spelling : String) : Script := .literal (.number spelling)
  [("year", .call (.name "Field") [.product (.product (.product (.product (number "365.25")
    (number "24")) (number "60")) (number "60")) (number "1000")])]

mutual

def Operation.tree? (converter : Converter) : Operation → Option Script
  | .binary operator left right => do
    let receiver ← left.tree? converter
    let argument ← right.tree? converter
    return receiver.method operator.method [argument]
  | .assert value => return (← value.tree? converter).method "assertTrue" []
  | .ternary condition whenTrue whenFalse => do
    let condition ← condition.tree? converter
    let whenTrue ← whenTrue.tree? converter
    let whenFalse ← whenFalse.tree? converter
    return .method (.name "Provable") "if" [condition, whenTrue, whenFalse]
  | .transform value link => do link.tree? (← value.tree? converter)
  | .verifySign _ signature message publicKey => do
    let signature ← signature.tree? converter
    let publicKey ← publicKey.tree? converter
    let message ← message.tree? converter
    return signature.method "verify" [publicKey, .array [message]]
  | .hash _ inputs => return .method (.name "Poseidon") "hash" [.array (← treesOf converter inputs)]
  | .spread _ => none
  | .not value => return (← value.tree? converter).method "not" []

def Variable.tree? (converter : Converter) : Variable → Option Script
  | .static value chain => do
    let token ← SourceType.ofTypeName? chain.finalType
    let literal ← (Literal.ofStatic converter value chain).toOption
    token.tree? literal
  | .constant name => Constant.trees.lookup name
  | .reference path => some (.slot path)
  | .setup _ => none
  | .function operation _ => operation.tree? converter

def treesOf (converter : Converter) : List Variable → Option (List Script)
  | [] => some []
  | operand :: rest => do
    let first ← operand.tree? converter
    return first :: (← treesOf converter rest)

end

/-! ### Trees of lists -/

theorem treesOf_eq (converter : Converter) (operands : List Variable) :
    treesOf converter operands = (operands.map (·.tree? converter)).mapM id := by
  induction operands with
  | nil => simp [treesOf]
  | cons operand rest ih => simp [treesOf, ih]

theorem isSome_treesOf_iff (converter : Converter) (operands : List Variable) :
    (treesOf converter operands).isSome = true ↔
      ∀ operand ∈ operands, (operand.tree? converter).isSome = true := by
  induction operands with
  | nil => simp [treesOf]
  | cons operand rest ih =>
    rw [treesOf, List.forall_mem_cons, ← ih]
    cases operand.tree? converter <;> cases treesOf converter rest <;> simp

theorem mem_treesOf {converter : Converter} {operands : List Variable} {trees : List Script}
    (h : treesOf converter operands = some trees) {tree : Script} (hm : tree ∈ trees) :
    ∃ operand ∈ operands, operand.tree? converter = some tree := by
  induction operands generalizing trees with
  | nil =>
    cases h
    cases hm
  | cons operand rest ih =>
    rw [treesOf] at h
    obtain ⟨first, hfirst, h⟩ := Option.bind_eq_some_iff.mp h
    obtain ⟨others, hothers, h⟩ := Option.bind_eq_some_iff.mp h
    cases h
    rcases List.mem_cons.mp hm with rfl | hm
    · exact ⟨operand, List.mem_cons_self, hfirst⟩
    · obtain ⟨found, hfound, htree⟩ := ih hothers hm
      exact ⟨found, List.mem_cons_of_mem _ hfound, htree⟩

/-! ### The prescribed trees are trees of the grammar -/

namespace Script

/-- A tree of the grammar that can stand in front of a dot. -/
def Tight (tree : Script) : Prop :=
  tree.Grammatical ∧ tree.looseness = 0

theorem allGrammatical_iff {items : List Script} :
    AllGrammatical items ↔ ∀ item ∈ items, item.Grammatical := by
  induction items with
  | nil => simp [AllGrammatical]
  | cons item rest ih => rw [AllGrammatical, ih, List.forall_mem_cons]

theorem tight_call {word : String} (hword : word ∉ reservedWords) {arguments : List Script}
    (h : ∀ item ∈ arguments, item.Grammatical) : (Script.call (.name word) arguments).Tight := by
  refine ⟨?_, rfl⟩
  rw [Grammatical, Grammatical, allGrammatical_iff]
  exact ⟨hword, rfl, h⟩

theorem Tight.method {receiver : Script} (hreceiver : receiver.Tight) (name : String)
    {arguments : List Script} (h : ∀ item ∈ arguments, item.Grammatical) :
    (receiver.method name arguments).Tight := by
  refine ⟨?_, rfl⟩
  rw [Script.method, Grammatical, Grammatical, allGrammatical_iff]
  exact ⟨hreceiver, rfl, h⟩

theorem tight_static {word : String} (hword : word ∉ reservedWords) (name : String)
    {arguments : List Script} (h : ∀ item ∈ arguments, item.Grammatical) :
    (Script.method (.name word) name arguments).Tight :=
  Tight.method ⟨by rwa [Grammatical], rfl⟩ name h

theorem grammatical_literal (value : Literal) : (Script.literal value).Grammatical := by
  rw [Grammatical]
  trivial

theorem grammatical_ofNumeral (literal : String → Literal) (spelling : String) :
    (ofNumeral literal spelling).Grammatical := by
  unfold ofNumeral
  split
  · rw [Grammatical]
    exact ⟨grammatical_literal _, rfl⟩
  · exact grammatical_literal _

end Script

theorem Literal.grammatical_of_tree? {literal : Literal} {tree : Script}
    (h : literal.tree? = some tree) : tree.Grammatical := by
  cases literal with
  | number spelling =>
    cases h
    exact Script.grammatical_ofNumeral _ _
  | bigInt spelling =>
    obtain ⟨-, h⟩ := Option.ite_none_left_eq_some.mp h
    cases h
    exact Script.grammatical_ofNumeral _ _
  | text | boolean =>
    cases h
    exact Script.grammatical_literal _

theorem SourceType.tight_of_tree? {token : SourceType} {literal : Literal} {tree : Script}
    (h : token.tree? literal = some tree) : tree.Tight := by
  have hliteral (value : Literal) : ∀ item ∈ [Script.literal value], item.Grammatical :=
    fun item hm => List.mem_singleton.mp hm ▸ Script.grammatical_literal value
  have hfield {argument : Script} (h : literal.tree? = some argument) :
      (Script.call (.name "Field") [argument]).Tight :=
    Script.tight_call (by decide) fun item hm =>
      List.mem_singleton.mp hm ▸ Literal.grammatical_of_tree? h
  cases token with
  | field =>
    obtain ⟨argument, hargument, rfl⟩ := Option.map_eq_some_iff.mp h
    exact hfield hargument
  | uint64 =>
    obtain ⟨argument, hargument, rfl⟩ := Option.map_eq_some_iff.mp h
    exact Script.tight_static (by decide) _ fun item hm =>
      List.mem_singleton.mp hm ▸ (hfield hargument).1
  | bool =>
    obtain ⟨b, -, rfl⟩ := Option.map_eq_some_iff.mp h
    exact Script.tight_call (by decide) (hliteral _)
  | signature | publicKey =>
    obtain ⟨s, -, rfl⟩ := Option.map_eq_some_iff.mp h
    exact Script.tight_static (by decide) _ (hliteral _)
  | circuitString =>
    cases h
    exact Script.tight_static (by decide) _ (hliteral _)

theorem Link.tight_of_tree? {link : Link} {operand tree : Script} (hoperand : operand.Tight)
    (h : link.tree? operand = some tree) : tree.Tight := by
  have hforms : ∀ entry ∈ forms, (entry.2 operand).Tight := by
    have hnone : ∀ item ∈ ([] : List Script), item.Grammatical := List.forall_mem_nil _
    simp only [forms, List.forall_mem_cons, List.not_mem_nil, false_implies, implies_true, and_true]
    have hfields := hoperand.method "toFields" hnone
    exact ⟨hfields, hfields, hfields, hfields, Script.tight_static (by decide) _ fun item hm =>
      List.mem_singleton.mp hm ▸ hoperand.1, hoperand.method "toField" hnone⟩
  obtain ⟨form, hform, rfl⟩ := Option.map_eq_some_iff.mp h
  obtain ⟨before, after, hsplit, -⟩ := List.lookup_eq_some_iff.mp hform
  exact hforms _ (hsplit ▸ List.mem_append_right before List.mem_cons_self)

theorem Constant.tight_of_trees {name : String} {tree : Script}
    (h : trees.lookup name = some tree) : tree.Tight := by
  have hyear : ∀ entry ∈ trees, entry.2.Tight := by
    intro entry hm
    rw [List.mem_singleton.mp hm]
    refine Script.tight_call (by decide) fun item hm => ?_
    rw [List.mem_singleton.mp hm]
    simp [Script.Grammatical, Script.looseness]
  obtain ⟨before, after, hsplit, -⟩ := List.lookup_eq_some_iff.mp h
  exact hyear _ (hsplit ▸ List.mem_append_right before List.mem_cons_self)

/-- **The tree of an operation is a tree of the grammar.** -/
theorem Operation.tight_of_tree? {converter : Converter} (operation : Operation) {tree : Script}
    (h : operation.tree? converter = some tree) : tree.Tight := by
  induction operation using Operation.ind generalizing tree with
  | step operation ih =>
    have hoperand : ∀ operand ∈ operation.operands, ∀ tree,
        operand.tree? converter = some tree → tree.Tight := by
      intro operand hm tree htree
      cases operand with
      | static value chain =>
        obtain ⟨token, -, htree⟩ := Option.bind_eq_some_iff.mp htree
        obtain ⟨literal, -, htree⟩ := Option.bind_eq_some_iff.mp htree
        exact SourceType.tight_of_tree? htree
      | setup chain => cases htree
      | constant name => exact Constant.tight_of_trees htree
      | reference path =>
        cases htree
        exact ⟨by rw [Script.Grammatical]; trivial, rfl⟩
      | function inner out => exact ih inner out hm htree
    simp only [operands] at hoperand
    rw [tree?.eq_def] at h
    cases operation with
    | binary operator left right =>
      obtain ⟨receiver, hreceiver, h⟩ := Option.bind_eq_some_iff.mp h
      obtain ⟨argument, hargument, h⟩ := Option.bind_eq_some_iff.mp h
      cases h
      refine (hoperand left (by simp) _ hreceiver).method _ ?_
      simpa using (hoperand right (by simp) _ hargument).1
    | assert value | not value =>
      obtain ⟨receiver, hreceiver, h⟩ := Option.bind_eq_some_iff.mp h
      cases h
      exact (hoperand value (by simp) _ hreceiver).method _ (List.forall_mem_nil _)
    | ternary condition whenTrue whenFalse =>
      obtain ⟨test, htest, h⟩ := Option.bind_eq_some_iff.mp h
      obtain ⟨yes, hyes, h⟩ := Option.bind_eq_some_iff.mp h
      obtain ⟨no, hno, h⟩ := Option.bind_eq_some_iff.mp h
      cases h
      refine Script.tight_static (by decide) _ ?_
      simpa using ⟨(hoperand condition (by simp) _ htest).1,
        (hoperand whenTrue (by simp) _ hyes).1, (hoperand whenFalse (by simp) _ hno).1⟩
    | transform value link =>
      obtain ⟨operand, hvalue, h⟩ := Option.bind_eq_some_iff.mp h
      exact Link.tight_of_tree? (hoperand value (by simp) _ hvalue) h
    | verifySign algorithm signature message publicKey =>
      obtain ⟨signed, hsigned, h⟩ := Option.bind_eq_some_iff.mp h
      obtain ⟨key, hkey, h⟩ := Option.bind_eq_some_iff.mp h
      obtain ⟨text, htext, h⟩ := Option.bind_eq_some_iff.mp h
      cases h
      refine (hoperand signature (by simp) _ hsigned).method _ ?_
      have htext := (hoperand message (by simp) _ htext).1
      have hlist : (Script.array [text]).Grammatical := by
        rw [Script.Grammatical, Script.allGrammatical_iff]
        simpa using htext
      simpa using ⟨(hoperand publicKey (by simp) _ hkey).1, hlist⟩
    | hash algorithm inputs =>
      obtain ⟨items, hitems, h⟩ := Option.bind_eq_some_iff.mp h
      cases h
      have hlist : (Script.array items).Grammatical := by
        rw [Script.Grammatical, Script.allGrammatical_iff]
        intro item hm
        obtain ⟨operand, hmem, htree⟩ := mem_treesOf hitems hm
        exact (hoperand operand hmem item htree).1
      refine Script.tight_static (by decide) _ ?_
      simpa using hlist
    | spread value => cases h

end Circuitry
