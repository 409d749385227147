import Circuitry.Path
import Circuitry.Source.Literal

/-!
# Scripts and their tokens

A script is an expression of the language in which sources are written, as far as statements use it:
names, literals and placeholders, members and calls, lists, a sign, and products.  It is written
down as a row of tokens (`Script.tokens`), without any parentheses for grouping.  So the row of a
tree that the grammar does not have, such as a product in front of a dot, is the row of another one.
`Script.Grammatical` says which trees the grammar has: what stands in front of a dot or of arguments
and behind a sign binds tightest, and products lean to the left.

The main statement is that the grammar is unambiguous (`Script.tokens_injective`): a row of tokens
belongs to one grammatical tree at most.  It is proved with a machine that reads tokens one at a
time and leads every grammatical tree back to itself (`Script.readBack`).
-/

namespace Circuitry

inductive Script where
  | name (word : String)
  | literal (value : Literal)
  /-- The placeholder of a path. -/
  | slot (path : Path)
  | member (object : Script) (property : String)
  | call (function : Script) (arguments : List Script)
  | array (items : List Script)
  | negate (operand : Script)
  | product (left right : Script)

namespace Script

inductive Token where
  | name (word : String)
  | literal (value : Literal)
  | slot (path : Path)
  | opening
  | closing
  | openingList
  | closingList
  | comma
  | dot
  | times
  | minus
  deriving Repr, DecidableEq

mutual

def tokens : Script → List Token
  | .name word => [.name word]
  | .literal value => [.literal value]
  | .slot path => [.slot path]
  | .member object property => object.tokens ++ [.dot, .name property]
  | .call function arguments => function.tokens ++ .opening :: (tokensOf arguments ++ [.closing])
  | .array items => .openingList :: (tokensOf items ++ [.closingList])
  | .negate operand => .minus :: operand.tokens
  | .product left right => left.tokens ++ .times :: right.tokens

def tokensOf : List Script → List Token
  | [] => []
  | item :: rest => item.tokens ++ tokensBehind rest

def tokensBehind : List Script → List Token
  | [] => []
  | item :: rest => .comma :: (item.tokens ++ tokensBehind rest)

end

/-! ### The grammar -/

/-- The words that cannot be names of values. -/
def reservedWords : List String :=
  ["await", "break", "case", "catch", "class", "const", "continue", "debugger",
    "default", "delete", "do", "else", "enum", "export", "extends", "false", "finally",
    "for", "function", "if", "implements", "import", "in", "instanceof", "interface", "let", "new",
    "null", "package", "private", "protected", "public", "return", "static", "super", "switch",
    "this", "throw", "true", "try", "typeof", "var", "void", "while", "with", "yield"]

/-- How loosely an expression binds: products more than signs, and signs more than the rest. -/
def looseness : Script → Nat
  | .product _ _ => 2
  | .negate _ => 1
  | _ => 0

mutual

def Grammatical : Script → Prop
  | .name word => word ∉ reservedWords
  | .literal _ | .slot _ => True
  | .member object _ => object.Grammatical ∧ object.looseness = 0
  | .call function arguments =>
    function.Grammatical ∧ function.looseness = 0 ∧ AllGrammatical arguments
  | .array items => AllGrammatical items
  | .negate operand => operand.Grammatical ∧ operand.looseness = 0
  | .product left right => left.Grammatical ∧ right.Grammatical ∧ right.looseness ≤ 1

def AllGrammatical : List Script → Prop
  | [] => True
  | item :: rest => item.Grammatical ∧ AllGrammatical rest

end

/-! ### The machine -/

inductive Bracket where
  | call (function : Script)
  | list

/-- An operand in front of which there may be a factor and a sign. -/
structure Pending where
  left : Option Script := none
  sign : Bool := false

/-- An open bracket, the items behind it that are finished, and what waits outside of it. -/
structure Frame where
  bracket : Bracket
  items : List Script
  outside : Pending

inductive Focus where
  /-- The start of an operand; an open bracket may also be closed here if it is `fresh`. -/
  | start (fresh : Bool)
  /-- An operand that may go on. -/
  | operand (seen : Script)
  /-- An operand and a dot. -/
  | dotted (seen : Script)

structure Machine where
  frames : List Frame
  pending : Pending
  focus : Focus

namespace Pending

def signed (sign : Bool) (operand : Script) : Script :=
  if sign then .negate operand else operand

def whole (pending : Pending) (operand : Script) : Script :=
  match pending.left with
  | none => signed pending.sign operand
  | some left => .product left (signed pending.sign operand)

end Pending

namespace Machine

def enter (machine : Machine) (bracket : Bracket) : Machine :=
  ⟨⟨bracket, [], machine.pending⟩ :: machine.frames, {}, .start true⟩

def leave (frames : List Frame) (items : List Script) (token : Token) : Option Machine :=
  match frames, token with
  | ⟨.call function, _, outside⟩ :: rest, .closing =>
    some ⟨rest, outside, .operand (.call function items)⟩
  | ⟨.list, _, outside⟩ :: rest, .closingList => some ⟨rest, outside, .operand (.array items)⟩
  | _, _ => none

def atStart (machine : Machine) (fresh : Bool) (token : Token) : Option Machine :=
  match token with
  | .name word =>
    if word ∈ reservedWords then none else some { machine with focus := .operand (.name word) }
  | .literal value => some { machine with focus := .operand (.literal value) }
  | .slot path => some { machine with focus := .operand (.slot path) }
  | .openingList => some (machine.enter .list)
  | .minus =>
    if machine.pending.sign then none
    else some ⟨machine.frames, ⟨machine.pending.left, true⟩, .start false⟩
  | token => if fresh then leave machine.frames [] token else none

def behind (machine : Machine) (seen : Script) (token : Token) : Option Machine :=
  match token with
  | .dot => some { machine with focus := .dotted seen }
  | .opening => some (machine.enter (.call seen))
  | .times => some ⟨machine.frames, ⟨some (machine.pending.whole seen), false⟩, .start false⟩
  | .comma =>
    match machine.frames with
    | [] => none
    | frame :: rest => some ⟨{ frame with items := frame.items ++ [machine.pending.whole seen] } ::
        rest, {}, .start false⟩
  | token =>
    match machine.frames with
    | [] => none
    | frame :: rest => leave (frame :: rest) (frame.items ++ [machine.pending.whole seen]) token

def step (machine : Machine) (token : Token) : Option Machine :=
  match machine.focus with
  | .start fresh => machine.atStart fresh token
  | .operand seen => machine.behind seen token
  | .dotted seen =>
    match token with
    | .name property => some { machine with focus := .operand (.member seen property) }
    | _ => none

def run (machine : Machine) (tokens : List Token) : Option Machine :=
  tokens.foldlM step machine

def result? (machine : Machine) : Option Script :=
  match machine.frames, machine.focus with
  | [], .operand seen => some (machine.pending.whole seen)
  | _, _ => none

theorem run_append (machine : Machine) (first second : List Token) :
    machine.run (first ++ second) = (machine.run first).bind (·.run second) :=
  List.foldlM_append

theorem run_cons (machine : Machine) (token : Token) (rest : List Token) :
    machine.run (token :: rest) = (machine.step token).bind (·.run rest) :=
  rfl

theorem run_singleton (machine : Machine) (token : Token) :
    machine.run [token] = machine.step token := by
  simp [run]

end Machine

def parse? (tokens : List Token) : Option Script :=
  (Machine.run ⟨[], {}, .start false⟩ tokens).bind Machine.result?

/-! ### Trees are read back -/

/-- What the machine makes of the tokens of an expression, depending on how loosely it binds. -/
structure ReadBack (tree : Script) : Prop where
  tight : tree.looseness = 0 → ∀ frames pending fresh,
    Machine.run ⟨frames, pending, .start fresh⟩ tree.tokens
      = some ⟨frames, pending, .operand tree⟩
  signed : tree.looseness ≤ 1 → ∀ frames left fresh, ∃ sign seen,
    Machine.run ⟨frames, ⟨left, false⟩, .start fresh⟩ tree.tokens
      = some ⟨frames, ⟨left, sign⟩, .operand seen⟩ ∧ Pending.signed sign seen = tree
  loose : ∀ frames fresh, ∃ pending seen,
    Machine.run ⟨frames, {}, .start fresh⟩ tree.tokens = some ⟨frames, pending, .operand seen⟩ ∧
      pending.whole seen = tree

/-- An expression that binds tightest is an operand in every place. -/
theorem ReadBack.of_tight {tree : Script}
    (h : ∀ frames pending fresh, Machine.run ⟨frames, pending, .start fresh⟩ tree.tokens
      = some ⟨frames, pending, .operand tree⟩) : tree.ReadBack where
  tight _ := h
  signed _ frames left fresh := ⟨false, tree, h frames ⟨left, false⟩ fresh, rfl⟩
  loose frames fresh := ⟨{}, tree, h frames {} fresh, rfl⟩

/-- An expression with at most a sign is an operand at the start. -/
theorem ReadBack.of_signed {tree : Script} (htight : tree.looseness ≠ 0)
    (h : ∀ frames left fresh, ∃ sign seen,
      Machine.run ⟨frames, ⟨left, false⟩, .start fresh⟩ tree.tokens
        = some ⟨frames, ⟨left, sign⟩, .operand seen⟩ ∧ Pending.signed sign seen = tree) :
    tree.ReadBack where
  tight hzero := absurd hzero htight
  signed _ := h
  loose frames fresh := by
    obtain ⟨sign, seen, hrun, hsigned⟩ := h frames none fresh
    exact ⟨⟨none, sign⟩, seen, hrun, hsigned⟩

namespace Machine

variable {bracket : Bracket} {outside : Pending} {frames : List Frame} {token : Token}

theorem leave_items (done items : List Script) :
    leave (⟨bracket, done, outside⟩ :: frames) items token
      = leave (⟨bracket, [], outside⟩ :: frames) items token := by
  cases bracket <;> cases token <;> rfl

/-- **Items behind an operand end with the bracket that holds all of them.** -/
theorem run_behind (hclose : token = .closing ∨ token = .closingList) {items : List Script}
    (h : ∀ item ∈ items, item.ReadBack) (done : List Script) (pending : Pending) (seen : Script) :
    run ⟨⟨bracket, done, outside⟩ :: frames, pending, .operand seen⟩
        (tokensBehind items ++ [token])
      = leave (⟨bracket, [], outside⟩ :: frames) (done ++ pending.whole seen :: items) token := by
  induction items generalizing done pending seen with
  | nil =>
    rw [tokensBehind, List.nil_append, run_singleton, ← leave_items done]
    rcases hclose with rfl | rfl <;> rfl
  | cons item rest ih =>
    obtain ⟨next, last, hrun, hwhole⟩ := (h item List.mem_cons_self).loose
      (⟨bracket, done ++ [pending.whole seen], outside⟩ :: frames) false
    have hcomma : step ⟨⟨bracket, done, outside⟩ :: frames, pending, .operand seen⟩ .comma
        = some ⟨⟨bracket, done ++ [pending.whole seen], outside⟩ :: frames, {}, .start false⟩ := rfl
    rw [tokensBehind, List.cons_append, run_cons, hcomma, Option.bind_some, List.append_assoc,
      run_append, hrun, Option.bind_some, ih fun other hm => h other (List.mem_cons_of_mem _ hm),
      hwhole, List.append_assoc]
    rfl

/-- **A bracket that was just opened is closed around the items behind it.** -/
theorem run_items (hclose : token = .closing ∨ token = .closingList) {items : List Script}
    (h : ∀ item ∈ items, item.ReadBack) :
    run ⟨⟨bracket, [], outside⟩ :: frames, {}, .start true⟩ (tokensOf items ++ [token])
      = leave (⟨bracket, [], outside⟩ :: frames) items token := by
  cases items with
  | nil =>
    rw [tokensOf, List.nil_append, run_singleton]
    rcases hclose with rfl | rfl <;> rfl
  | cons item rest =>
    obtain ⟨next, last, hrun, hwhole⟩ := (h item List.mem_cons_self).loose
      (⟨bracket, [], outside⟩ :: frames) true
    rw [tokensOf, List.append_assoc, run_append, hrun, Option.bind_some,
      run_behind hclose fun other hm => h other (List.mem_cons_of_mem _ hm), hwhole]
    rfl

end Machine

mutual

/-- **The machine reads every grammatical tree back.**  There is one case for each kind of
expression. -/
theorem readBack : ∀ {tree : Script}, tree.Grammatical → tree.ReadBack
  | .name word, h => .of_tight fun frames pending fresh => by
    have hword : word ∉ reservedWords := by rwa [Grammatical] at h
    rw [tokens, Machine.run_cons]
    simp [Machine.step, Machine.atStart, hword, Machine.run]
  | .literal value, _ => .of_tight fun _ _ _ => by rw [tokens]; rfl
  | .slot path, _ => .of_tight fun _ _ _ => by rw [tokens]; rfl
  | .member object property, h => .of_tight fun frames pending fresh => by
    rw [Grammatical] at h
    rw [tokens, Machine.run_append, (readBack h.1).tight h.2]
    rfl
  | .call function arguments, h => .of_tight fun frames pending fresh => by
    rw [Grammatical] at h
    obtain ⟨hfunction, htight, harguments⟩ := h
    rw [tokens, Machine.run_append, (readBack hfunction).tight htight]
    exact Machine.run_items (.inl rfl) (readBack_all harguments)
  | .array items, h => .of_tight fun frames pending fresh => by
    rw [Grammatical] at h
    rw [tokens]
    exact Machine.run_items (.inr rfl) (readBack_all h)
  | .negate operand, h => by
    rw [Grammatical] at h
    refine .of_signed (by simp [looseness]) fun frames left fresh => ⟨true, operand, ?_, rfl⟩
    rw [tokens]
    exact (readBack h.1).tight h.2 frames ⟨left, true⟩ false
  | .product left right, h => by
    rw [Grammatical] at h
    obtain ⟨hleft, hright, hloose⟩ := h
    refine ⟨nofun, fun hle => absurd hle (by simp [looseness]), fun frames fresh => ?_⟩
    -- The left factor is finished at the sign of the product and waits for the right one.
    obtain ⟨pending, seen, hrun, hwhole⟩ := (readBack hleft).loose frames fresh
    obtain ⟨sign, last, hrun', hsigned⟩ :=
      (readBack hright).signed hloose frames (some left) false
    refine ⟨⟨some left, sign⟩, last, ?_, by rw [Pending.whole, hsigned]⟩
    have htimes : Machine.step ⟨frames, pending, .operand seen⟩ .times
        = some ⟨frames, ⟨some left, false⟩, .start false⟩ := by
      rw [← hwhole]
      rfl
    rw [tokens, Machine.run_append, hrun, Option.bind_some, Machine.run_cons, htimes,
      Option.bind_some, hrun']

theorem readBack_all : ∀ {items : List Script}, AllGrammatical items →
    ∀ item ∈ items, item.ReadBack
  | [], _ => nofun
  | item :: rest, h => by
    rw [AllGrammatical] at h
    exact List.forall_mem_cons.mpr ⟨readBack h.1, readBack_all h.2⟩

end

theorem parse?_tokens {tree : Script} (h : tree.Grammatical) : parse? tree.tokens = some tree := by
  obtain ⟨pending, seen, hrun, hwhole⟩ := (readBack h).loose [] false
  rw [parse?, hrun, Option.bind_some]
  exact congrArg some hwhole

/-- **The grammar is unambiguous.** -/
theorem tokens_injective {tree other : Script} (h : tree.Grammatical) (h' : other.Grammatical)
    (htokens : tree.tokens = other.tokens) : tree = other := by
  have hparsed := parse?_tokens h
  rw [htokens, parse?_tokens h'] at hparsed
  exact (Option.some.inj hparsed).symm

end Script

end Circuitry
