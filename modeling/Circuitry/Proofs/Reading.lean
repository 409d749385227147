import Circuitry.Json.Reader
import Circuitry.Proofs.Fallible

/-!
# What is read from a text

A document is spelled by its tokens, with the members of every object in some order.  Reading such a
text gives the document back, with the members in the order of their keys and the last value of a
repeated key (`Json.settled`); items stay in the order in which they were written.  It fails only if
more brackets are open at once than the limit allows (`Json.reason_readWithin`).

The proof follows the stack of open brackets.  Where a value is expected, the tokens of a document
have the effect of handing it over at once (`Json.run_tokens`), whatever stands on the stack and
whatever comes after.  The reader takes the tokens as soon as they are complete and keeps its place
in the text meanwhile; apart from the place, that is as good as taking them all at the end
(`Json.Cursor.reason_run`).
-/

namespace Circuitry.Json

/-! ### Documents and their tokens -/

mutual

/-- The tokens that spell a document. -/
def tokens : Json → List Token
  | .null => [.scalar .null]
  | .bool b => [.scalar (.bool b)]
  | .number n => [.scalar (.number n)]
  | .string text => [.text text]
  | .array [] => [.openArray, .closeArray]
  | .array (item :: rest) => .openArray :: (item.tokens ++ itemsBehind rest)
  | .object [] => [.openObject, .closeObject]
  | .object ((key, value) :: rest) =>
    .openObject :: .text key :: .colon :: (value.tokens ++ membersBehind rest)

def itemsBehind : List Json → List Token
  | [] => [.closeArray]
  | item :: rest => .comma :: (item.tokens ++ itemsBehind rest)

def membersBehind : List (String × Json) → List Token
  | [] => [.closeObject]
  | (key, value) :: rest => .comma :: .text key :: .colon :: (value.tokens ++ membersBehind rest)

end

mutual

/-- The greatest number of brackets of a document that are open at once. -/
def depth : Json → Nat
  | .array items => depthOfItems items + 1
  | .object members => depthOfMembers members + 1
  | _ => 0

def depthOfItems : List Json → Nat
  | [] => 0
  | item :: rest => max item.depth (depthOfItems rest)

def depthOfMembers : List (String × Json) → Nat
  | [] => 0
  | (_, value) :: rest => max value.depth (depthOfMembers rest)

end

mutual

/-- The form in which a document is read: the members of every object in the order of their keys,
and the last value of a repeated key. -/
def settled : Json → Json
  | .array items => .array (settledItems items)
  | .object members => .object (settledMembers [] members)
  | other => other

def settledItems : List Json → List Json
  | [] => []
  | item :: rest => item.settled :: settledItems rest

/-- The members that were read before, with more members put in one after the other. -/
def settledMembers (seen : List (String × Json)) : List (String × Json) → List (String × Json)
  | [] => seen
  | (key, value) :: rest => settledMembers (Keyed.insert key value.settled seen) rest

end

/-! ### Limits -/

def allows (limit : Option Nat) (count : Nat) : Bool :=
  limit.all (count ≤ ·)

/-- A result that is there only if so many brackets may be open at once. -/
def within {α : Type} (limit : Option Nat) (count : Nat) (result : Except Reason α) :
    Except Reason α :=
  bif allows limit count then result else .error .tooDeep

section

variable {limit : Option Nat} {α : Type}

theorem allows_zero : allows limit 0 = true := by
  cases limit with
  | none => rfl
  | some bound => exact decide_eq_true (Nat.zero_le bound)

theorem within_of_allows {count : Nat} (h : allows limit count = true) (result : Except Reason α) :
    within limit count result = result := by
  rw [within, h]
  rfl

theorem within_congr {count : Nat} {first second : Except Reason α}
    (h : allows limit count = true → first = second) :
    within limit count first = within limit count second := by
  cases hcount : allows limit count with
  | false => rw [within, within, hcount]; rfl
  | true => rw [h hcount]

/-- **Two limits that have to be kept, one after the other**, are the greater one. -/
theorem within_within (first second : Nat) (result : Except Reason α) :
    within limit first (within limit second result) = within limit (max first second) result := by
  have hmax : allows limit (max first second) = (allows limit first && allows limit second) := by
    cases limit with
    | none => rfl
    | some bound =>
      simp only [allows, Option.all_some, Nat.max_le, Bool.decide_and]
  rw [within, within, within, hmax]
  cases allows limit first with
  | false => rfl
  | true => rfl

theorem within_bind {β : Type} (count : Nat) (result : Except Reason α) (f : α → Except Reason β) :
    (within limit count result).bind f = within limit count (result.bind f) := by
  rw [within, within]
  cases allows limit count with
  | false => rfl
  | true => rfl

theorem openFrame_eq (stack : List Frame) (frame : Frame) (expected : Expected) :
    Reading.openFrame limit stack frame expected
      = within limit (stack.length + 1) (.ok ⟨frame :: stack, expected⟩) := by
  have hfull : limit.any (stack.length ≥ ·) = !allows limit (stack.length + 1) := by
    cases limit with
    | none => rfl
    | some bound =>
      show decide (stack.length ≥ bound) = !decide (stack.length + 1 ≤ bound)
      rw [← decide_not]
      exact decide_eq_decide.mpr (by omega)
  rw [Reading.openFrame, within, hfull]
  cases allows limit (stack.length + 1) with
  | false => rfl
  | true => rfl

end

/-! ### Reading -/

variable {limit : Option Nat}

theorem Reading.run_cons (state : Reading) (token : Token) (rest : List Token) :
    state.run limit (token :: rest) = (state.step limit token).bind (Reading.run limit · rest) :=
  rfl

theorem Reading.run_append (state : Reading) (tokens rest : List Token) :
    state.run limit (tokens ++ rest) = (state.run limit tokens).bind (Reading.run limit · rest) :=
  List.foldlM_append

/-- Where an item may come, a document is read as where a value must come: it does not start with
the end of an array. -/
theorem run_itemOrEnd (json : Json) (stack : List Frame) (rest : List Token) :
    Reading.run limit ⟨stack, .itemOrEnd⟩ (json.tokens ++ rest)
      = Reading.run limit ⟨stack, .value⟩ (json.tokens ++ rest) := by
  match json with
  | .null | .bool _ | .number _ | .string _ =>
    simp only [tokens, List.cons_append, Reading.run_cons, Reading.step]
  | .array [] | .array (_ :: _) =>
    simp only [tokens, List.cons_append, Reading.run_cons, Reading.step]
  | .object [] | .object ((_, _) :: _) =>
    simp only [tokens, List.cons_append, Reading.run_cons, Reading.step]

theorem run_open (stack : List Frame) (frame : Frame) (expected : Expected) (depth : Nat)
    {inside : List Token} {result : Except Reason Reading}
    (h : allows limit (stack.length + 1) = true →
      Reading.run limit ⟨frame :: stack, expected⟩ inside
        = within limit (stack.length + 1 + depth) result) :
    (Reading.openFrame limit stack frame expected).bind (Reading.run limit · inside)
      = within limit (stack.length + (depth + 1)) result := by
  have hmax : max (stack.length + 1) (stack.length + 1 + depth) = stack.length + (depth + 1) := by
    omega
  rw [openFrame_eq, within_bind, ← hmax, ← within_within]
  exact within_congr h

theorem within_parts (count first second : Nat) (result : Except Reason Reading) :
    within limit (count + first) (within limit (count + second) result)
      = within limit (count + max first second) result := by
  rw [within_within, ← Nat.add_max_add_left]

mutual

/-- **The tokens of a document hand it over**, unless they open too many brackets. -/
theorem run_tokens : (json : Json) → (stack : List Frame) → (rest : List Token) →
    allows limit stack.length = true →
    Reading.run limit ⟨stack, .value⟩ (json.tokens ++ rest)
      = within limit (stack.length + json.depth)
          ((Reading.attach json.settled stack).bind (Reading.run limit · rest))
  | .null, stack, rest, h | .bool _, stack, rest, h | .number _, stack, rest, h
  | .string _, stack, rest, h => by
    simp only [depth, Nat.add_zero, within_of_allows h, tokens, settled]
    rfl
  | .array [], stack, rest, _ => by
    rw [tokens, depth, settled]
    refine run_open stack (.array []) .itemOrEnd _ fun hopen => ?_
    rw [depthOfItems, Nat.add_zero, within_of_allows hopen, settledItems]
    rfl
  | .array (item :: items), stack, rest, _ => by
    rw [tokens, depth, settled, List.cons_append, List.append_assoc]
    refine run_open stack (.array []) .itemOrEnd _ fun hopen => ?_
    rw [run_itemOrEnd, run_tokens item (.array [] :: stack) _ hopen, depthOfItems, ← within_parts]
    refine congrArg (within limit _) ?_
    exact run_itemsBehind items [item.settled] stack rest hopen
  | .object [], stack, rest, _ => by
    rw [tokens, depth, settled]
    refine run_open stack (.object []) .keyOrEnd _ fun hopen => ?_
    rw [depthOfMembers, Nat.add_zero, within_of_allows hopen, settledMembers]
    rfl
  | .object ((key, value) :: members), stack, rest, _ => by
    rw [tokens, depth, settled, List.cons_append, List.cons_append, List.cons_append,
      List.append_assoc]
    refine run_open stack (.object []) .keyOrEnd _ fun hopen => ?_
    show Reading.run limit ⟨.member [] key :: stack, .value⟩ _ = _
    rw [run_tokens value (.member [] key :: stack) _ hopen, depthOfMembers, ← within_parts]
    refine congrArg (within limit _) ?_
    exact run_membersBehind members (Keyed.insert key value.settled []) stack rest hopen

theorem run_itemsBehind : (items : List Json) → (seen : List Json) → (stack : List Frame) →
    (rest : List Token) → allows limit (stack.length + 1) = true →
    Reading.run limit ⟨.array seen :: stack, .separator⟩ (itemsBehind items ++ rest)
      = within limit (stack.length + 1 + depthOfItems items)
          ((Reading.attach (.array (seen.reverse ++ settledItems items)) stack).bind
            (Reading.run limit · rest))
  | [], seen, stack, rest, h => by
    rw [depthOfItems, Nat.add_zero, within_of_allows h, settledItems, List.append_nil, itemsBehind]
    rfl
  | item :: items, seen, stack, rest, h => by
    rw [itemsBehind, List.cons_append, List.append_assoc]
    show Reading.run limit ⟨.array seen :: stack, .value⟩ _ = _
    rw [run_tokens item (.array seen :: stack) _ h, depthOfItems, ← within_parts, settledItems]
    have hitems := run_itemsBehind items (item.settled :: seen) stack rest h
    rw [List.reverse_cons, List.append_assoc, List.singleton_append] at hitems
    exact congrArg (within limit _) hitems

theorem run_membersBehind : (members : List (String × Json)) → (seen : List (String × Json)) →
    (stack : List Frame) → (rest : List Token) → allows limit (stack.length + 1) = true →
    Reading.run limit ⟨.object seen :: stack, .separator⟩ (membersBehind members ++ rest)
      = within limit (stack.length + 1 + depthOfMembers members)
          ((Reading.attach (.object (settledMembers seen members)) stack).bind
            (Reading.run limit · rest))
  | [], seen, stack, rest, h => by
    rw [depthOfMembers, Nat.add_zero, within_of_allows h, settledMembers, membersBehind]
    rfl
  | (key, value) :: members, seen, stack, rest, h => by
    rw [membersBehind, List.cons_append, List.cons_append, List.cons_append, List.append_assoc]
    show Reading.run limit ⟨.member seen key :: stack, .value⟩ _ = _
    rw [run_tokens value (.member seen key :: stack) _ h, depthOfMembers, ← within_parts,
      settledMembers]
    refine congrArg (within limit _) ?_
    exact run_membersBehind members (Keyed.insert key value.settled seen) stack rest h

end

/-! ### Texts -/

/-- The tokens into which characters are cut, from some state of the machine on. -/
def Scan.tokens (state : Scan) : List Char → Except Reason (List Token)
  | [] => state.finish
  | c :: rest => do
    let found ← state.step c
    return found.2 ++ (← Scan.tokens found.1 rest)

/-- Whether a text is cut into the tokens of a document. -/
def Spells (text : String) (json : Json) : Prop :=
  Scan.idle.tokens text.toList = .ok json.tokens

theorem Cursor.step_of_scan {cursor : Cursor} {c : Char} {scan : Scan} {found : List Token}
    (h : cursor.scan.step c = .ok (scan, found)) :
    cursor.step limit c = (cursor.reading.run limit found).bind fun reading =>
      .ok ⟨scan, reading, cursor.position.after c⟩ := by
  rw [Cursor.step, h]
  rfl

/-- **The characters of a text have the effect of its tokens**, apart from the place of a fault. -/
theorem Cursor.reason_run {cs : List Char} {tokens : List Token} (cursor : Cursor)
    (h : cursor.scan.tokens cs = .ok tokens) :
    (cursor.run limit cs).mapError Fault.reason
      = (cursor.reading.run limit tokens).bind Reading.document := by
  induction cs generalizing cursor tokens with
  | nil =>
    rw [Scan.tokens] at h
    rw [Cursor.run, Cursor.finish, h]
    show (((cursor.reading.run limit tokens).bind Reading.document).mapError _).mapError _ = _
    cases (cursor.reading.run limit tokens).bind Reading.document with
    | error reason => rfl
    | ok document => rfl
  | cons c rest ih =>
    obtain ⟨⟨scan, found⟩, hstep, h⟩ := Fallible.bind_eq_ok.mp h
    obtain ⟨later, hlater, h⟩ := Fallible.bind_eq_ok.mp h
    cases h
    rw [Cursor.run, Cursor.step_of_scan hstep, Reading.run_append]
    cases cursor.reading.run limit found with
    | error reason => rfl
    | ok reading => exact ih ⟨scan, reading, _⟩ hlater

/-- **Reading a text gives the document that it spells**, or says that it is too deep. -/
theorem reason_readWithin {text : String} {json : Json} (h : Spells text json)
    (limit : Option Nat) :
    (readWithin limit text).mapError Fault.reason
      = within limit json.depth (.ok json.settled) := by
  have hrun := run_tokens json [] [] (allows_zero : allows limit 0 = true)
  rw [List.append_nil, List.length_nil, Nat.zero_add] at hrun
  rw [Spells] at h
  rw [readWithin, Cursor.reason_run ⟨.idle, ⟨[], .value⟩, ⟨1, 1⟩⟩ h, hrun, within_bind]
  rfl

section

variable {text : String} {json : Json}

theorem read_of_spells (h : Spells text json) (hdepth : json.depth ≤ maxDepth) :
    read text = .ok json.settled := by
  have hallows : allows (some maxDepth) json.depth = true := decide_eq_true hdepth
  have hread := reason_readWithin h (some maxDepth)
  rw [within_of_allows hallows] at hread
  exact Fallible.mapError_eq_ok.mp hread

theorem read_of_spells_deep (h : Spells text json) (hdepth : maxDepth < json.depth) :
    ∃ position, read text = .error ⟨.tooDeep, position⟩ := by
  have hread := reason_readWithin h (some maxDepth)
  rw [within, allows, Option.all_some, decide_eq_false (Nat.not_le.mpr hdepth)] at hread
  obtain ⟨⟨reason, position⟩, hread, hreason⟩ := Fallible.mapError_eq_error.mp hread
  cases hreason
  exact ⟨position, hread⟩

end

end Circuitry.Json
