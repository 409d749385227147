import Circuitry.Proofs.Names
import Circuitry.Proofs.NumberText
import Circuitry.Proofs.Script

/-!
# From text to tokens

The text of an expression is cut into tokens from left to right, each as long as it can be: a text
up to the quote that ends it, a placeholder up to its closing braces, a number or a word up to the
first character that cannot belong to it.  Blanks stand between tokens.

What a text is cut into depends on what stands behind it, unless its last token shows its own end.
`Lexes` says that a text is cut in the same way whatever follows, and such texts can be put one
behind the other (`Lexes.append`).  Words and numbers do not show their ends, but they do together
with the mark behind them (`Lexes.word`, `Lexes.numeral`).
-/

namespace Circuitry

namespace Script

/-! ### The lexer -/

def quoted? : List Char → Option (List Char × List Char)
  | [] => none
  | '"' :: rest => some (['"'], rest)
  | '\\' :: c :: rest => (quoted? rest).map fun found => ('\\' :: c :: found.1, found.2)
  | c :: rest => (quoted? rest).map fun found => (c :: found.1, found.2)

def isNumeralPart (c : Char) : Bool :=
  Identifier.isPart c || c == '.' || c == '+' || c == '-'

/-- The literal of a number: an integer if it has the suffix of big integers. -/
def numeralLiteral? (run : List Char) : Option Literal :=
  if run.getLast? = some 'n' then
    (integerLiteral? run.dropLast).map fun _ => .bigInt (String.ofList run.dropLast)
  else (Json.numberParts? run).map fun _ => .number (String.ofList run)

def wordToken (run : List Char) : Token :=
  if run = (Literal.boolWord true).toList then .literal (.boolean true)
  else if run = (Literal.boolWord false).toList then .literal (.boolean false)
  else .name (String.ofList run)

def mark? (c : Char) : Option Token :=
  if c = '(' then some .opening
  else if c = ')' then some .closing
  else if c = '[' then some .openingList
  else if c = ']' then some .closingList
  else if c = ',' then some .comma
  else if c = '.' then some .dot
  else if c = '*' then some .times
  else if c = '-' then some .minus
  else none

def next? (c : Char) (rest : List Char) : Option (Token × List Char) :=
  if c = '"' then
    (quoted? rest).bind fun found =>
      (unquote? found.1).map fun text => (.literal (.text (String.ofList text)), found.2)
  else if c = '\x7b' then
    (Template.placeholder? (c :: rest)).map fun found =>
      (.slot ((found.1.splitOn '.').map String.ofList), found.2)
  else if c.isDigit then
    (numeralLiteral? (c :: rest.takeWhile isNumeralPart)).map fun literal =>
      (.literal literal, rest.dropWhile isNumeralPart)
  else if Identifier.isPart c then
    some (wordToken (c :: rest.takeWhile Identifier.isPart), rest.dropWhile Identifier.isPart)
  else (mark? c).map fun token => (token, rest)

theorem quoted?_eq_some {cs raw rest : List Char} (h : quoted? cs = some (raw, rest)) :
    raw ++ rest = cs := by
  fun_induction quoted? cs generalizing raw rest with
  | case1 => cases h
  | case2 rest => cases h; rfl
  | case3 c rest ih =>
    obtain ⟨found, hfound, heq⟩ := Option.map_eq_some_iff.mp h
    cases heq
    simp [← ih hfound]
  | case4 c rest _ _ ih =>
    obtain ⟨found, hfound, heq⟩ := Option.map_eq_some_iff.mp h
    cases heq
    simp [← ih hfound]

theorem length_le_of_next? {c : Char} {rest behind : List Char} {token : Token}
    (h : next? c rest = some (token, behind)) : behind.length ≤ rest.length := by
  unfold next? at h
  split at h
  · obtain ⟨⟨raw, rest'⟩, hfound, h⟩ := Option.bind_eq_some_iff.mp h
    obtain ⟨text, -, heq⟩ := Option.map_eq_some_iff.mp h
    cases heq
    have hsplit := congrArg List.length (quoted?_eq_some hfound)
    rw [List.length_append] at hsplit
    dsimp only
    omega
  · split at h
    · obtain ⟨⟨key, rest'⟩, hfound, heq⟩ := Option.map_eq_some_iff.mp h
      cases heq
      exact Nat.le_of_lt_succ (Template.length_lt_of_placeholder? hfound)
    · split at h
      · obtain ⟨literal, -, heq⟩ := Option.map_eq_some_iff.mp h
        cases heq
        exact Template.length_dropWhile_le _ _
      · split at h
        · cases h
          exact Template.length_dropWhile_le _ _
        · obtain ⟨found, -, heq⟩ := Option.map_eq_some_iff.mp h
          cases heq
          exact Nat.le_refl _

def lex? (cs : List Char) : Option (List Token) :=
  match cs with
  | [] => some []
  | c :: rest =>
    if Json.isSpace c then lex? rest
    else
      match h : next? c rest with
      | none => none
      | some (token, behind) =>
        have := length_le_of_next? h
        (lex? behind).map (token :: ·)
termination_by cs.length

theorem lex?_space {c : Char} (h : Json.isSpace c = true) (rest : List Char) :
    lex? (c :: rest) = lex? rest := by
  rw [lex?, if_pos h]

theorem lex?_next {c : Char} (h : Json.isSpace c = false) (rest : List Char) :
    lex? (c :: rest)
      = (next? c rest).bind fun found => (lex? found.2).map (found.1 :: ·) := by
  rw [lex?, if_neg (by simp [h])]
  split
  · rename_i hnone
    rw [hnone]
    rfl
  · rename_i token behind hsome
    conv_rhs => rw [hsome]
    rfl

/-! ### Texts that show their ends -/

/-- A text that is cut into the given tokens whatever stands behind it, or into none at all. -/
def Lexes (text : List Char) (tokens : Option (List Token)) : Prop :=
  ∀ rest, lex? (text ++ rest) = tokens.bind fun first => (lex? rest).map (first ++ ·)

namespace Lexes

variable {text other : List Char} {first second : Option (List Token)}

/-- **Texts that show their ends can be put one behind the other.** -/
theorem append (h : Lexes text first) (h' : Lexes other second) :
    Lexes (text ++ other) (first.bind fun a => second.map (a ++ ·)) := by
  intro rest
  rw [List.append_assoc, h, h']
  cases first with
  | none => rfl
  | some a =>
    cases second with
    | none => rfl
    | some b => cases lex? rest <;> simp

theorem lex?_eq (h : Lexes text first) : lex? text = first := by
  have hall := h []
  rw [List.append_nil] at hall
  rw [hall]
  cases first <;> simp [lex?]

theorem space : Lexes [' '] (some []) := by
  intro rest
  rw [List.singleton_append, lex?_space rfl]
  cases lex? rest <;> simp

/-- A text whose first character starts a token that is cut off whatever follows. -/
theorem of_next {c : Char} (token : Option Token) (hspace : Json.isSpace c = false)
    (h : ∀ rest, next? c (text ++ rest) = token.map fun token => (token, rest)) :
    Lexes (c :: text) (token.map fun token => [token]) := by
  intro rest
  rw [List.cons_append, lex?_next hspace, h]
  cases token <;> rfl

theorem mark {c : Char} {token : Token} (h : mark? c = some token) : Lexes [c] (some [token]) := by
  have hnext : Json.isSpace c = false ∧ ∀ rest, next? c rest = some (token, rest) := by
    unfold mark? at h
    split_ifs at h <;> (subst_vars; cases h; exact ⟨rfl, fun _ => rfl⟩)
  exact of_next (some token) hnext.1 hnext.2

theorem quoted?_escape (cs rest : List Char) :
    quoted? (cs.flatMap Literal.escapedChars ++ '"' :: rest)
      = some (cs.flatMap Literal.escapedChars ++ ['"'], rest) := by
  induction cs with
  | nil => rfl
  | cons c cs ih =>
    have hstep : ∀ tail, quoted? (Literal.escapedChars c ++ tail)
        = (quoted? tail).map fun found => (Literal.escapedChars c ++ found.1, found.2) := by
      intro tail
      unfold Literal.escapedChars
      split_ifs with hslash hquote
      rotate_right
      · rw [List.singleton_append, quoted?]
        · rfl
        · exact hquote
        · exact fun _ _ heq _ => hslash heq
      all_goals simp [quoted?, Function.comp_def]
    rw [List.flatMap_cons, List.append_assoc, hstep, ih]
    simp

theorem quote (s : String) : Lexes (Literal.quote s).toList (some [.literal (.text s)]) := by
  have hlist : (Literal.quote s).toList
      = '"' :: (s.toList.flatMap Literal.escapedChars ++ ['"']) := by
    simp [Literal.quote, Literal.escape]
  rw [hlist]
  refine of_next (some (.literal (.text s))) rfl fun rest => ?_
  rw [List.append_assoc, List.singleton_append, next?, if_pos rfl, quoted?_escape,
    Option.bind_some, Literal.unquote?_escape, Option.map_some, String.ofList_toList]
  rfl

theorem placeholder {path : Path} (h : path.Spellable) :
    Lexes path.placeholder.toList (some [.slot path]) := by
  have hlist : path.placeholder.toList = '\x7b' :: path.placeholder.toList.tail := by
    simp [Path.placeholder]
  rw [hlist]
  refine of_next (some (.slot path)) rfl fun rest => ?_
  rw [next?, if_neg (by decide), if_pos rfl, ← List.cons_append, ← hlist,
    Template.placeholder?_placeholder h, Option.map_some, Template.splitOn_display h]
  rfl

end Lexes

theorem of_isPart {c : Char} (h : Identifier.isPart c = true) :
    Json.isSpace c = false ∧ c ≠ '"' ∧ c ≠ '\x7b' := by
  have hne {d : Char} (hd : Identifier.isPart d = false) : c ≠ d := by
    rintro rfl
    rw [h] at hd
    cases hd
  have hspace : Json.isSpace c = false := by
    simp only [Json.isSpace, Bool.or_eq_false_iff, beq_eq_false_iff_ne]
    exact ⟨⟨⟨hne rfl, hne rfl⟩, hne rfl⟩, hne rfl⟩
  exact ⟨hspace, hne rfl, hne rfl⟩

/-- **A word is one token** in front of anything that cannot belong to it. -/
theorem lex?_word {word : String} (hword : Identifier.isValid word = true) (rest : List Char)
    (hrest : ∀ c ∈ rest.head?, Identifier.isPart c = false) :
    lex? (word.toList ++ rest) = (lex? rest).map (wordToken word.toList :: ·) := by
  obtain ⟨first, tail, hlist, hstart⟩ : ∃ first tail, word.toList = first :: tail ∧
      Identifier.isStart first = true := by
    unfold Identifier.isValid at hword
    split at hword
    · cases hword
    · rename_i first tail hlist
      exact ⟨first, tail, hlist, (Bool.and_eq_true_iff.mp hword).1⟩
  have hparts := (Identifier.of_isValid hword).2
  rw [hlist] at hparts ⊢
  obtain ⟨hspace, hquote, hbrace⟩ := of_isPart (hparts first List.mem_cons_self)
  have hdigit : first.isDigit = false := by
    simpa [Identifier.isStart, hparts first List.mem_cons_self] using hstart
  obtain ⟨htake, hdrop⟩ :=
    Template.span_boundary (fun d hd => hparts d (List.mem_cons_of_mem _ hd)) hrest
  rw [List.cons_append, lex?_next hspace, next?, if_neg hquote, if_neg hbrace,
    if_neg (by simp [hdigit]), if_pos (hparts first List.mem_cons_self), htake, hdrop,
    Option.bind_some]

/-- **A number is one token** in front of anything that cannot belong to it. -/
theorem lex?_numeral {first : Char} {tail : List Char} (hfirst : first.isDigit = true)
    (htail : ∀ d ∈ tail, isNumeralPart d = true) (rest : List Char)
    (hrest : ∀ c ∈ rest.head?, isNumeralPart c = false) :
    lex? (first :: tail ++ rest) = (numeralLiteral? (first :: tail)).bind fun literal =>
      (lex? rest).map (.literal literal :: ·) := by
  have hpart : Identifier.isPart first = true := by
    simp [Identifier.isPart, Char.isAlphanum, hfirst]
  obtain ⟨hspace, hquote, hbrace⟩ := of_isPart hpart
  obtain ⟨htake, hdrop⟩ := Template.span_boundary htail hrest
  rw [List.cons_append, lex?_next hspace, next?, if_neg hquote, if_neg hbrace, if_pos hfirst,
    htake, hdrop]
  cases numeralLiteral? (first :: tail) <;> rfl

/-- A word that is a name wherever it stands. -/
def IsName (word : String) : Prop :=
  Identifier.isValid word = true ∧ wordToken word.toList = .name word

instance (word : String) : Decidable (IsName word) :=
  inferInstanceAs (Decidable (_ ∧ _))

namespace Lexes

variable {text : List Char}

/-- **A word shows its end together with the character behind it.** -/
theorem word {word : String} {c : Char} {tokens : Option (List Token)}
    (hword : Identifier.isValid word = true) (hc : Identifier.isPart c = false)
    (h : Lexes (c :: text) tokens) :
    Lexes (word.toList ++ c :: text) (tokens.map (wordToken word.toList :: ·)) := by
  intro rest
  rw [List.append_assoc, lex?_word hword _ (by simpa using hc), h]
  cases tokens with
  | none => rfl
  | some found => cases lex? rest <;> simp

theorem numeral (first : Char) (tail : List Char) {c : Char} {tokens : Option (List Token)}
    (hfirst : first.isDigit = true) (htail : ∀ d ∈ tail, isNumeralPart d = true)
    (hc : isNumeralPart c = false) (h : Lexes (c :: text) tokens) :
    Lexes (first :: tail ++ c :: text) ((numeralLiteral? (first :: tail)).bind fun literal =>
      tokens.map (.literal literal :: ·)) := by
  intro rest
  rw [List.append_assoc, lex?_numeral hfirst htail _ (by simpa using hc), h]
  cases numeralLiteral? (first :: tail) with
  | none => rfl
  | some literal =>
    cases tokens with
    | none => rfl
    | some found => cases lex? rest <;> simp

theorem nil : Lexes [] (some []) := by
  intro rest
  cases hrest : lex? rest <;> simp [hrest]

/-- The start of a call. -/
theorem function {name : String} (h : IsName name) :
    Lexes (name ++ "(").toList (some [.name name, .opening]) := by
  have hlexes := word h.1 (by decide) (mark (c := '(') rfl)
  rw [String.toList_append]
  rwa [Option.map_some, h.2] at hlexes

/-- The start of the call of a method. -/
theorem dotted {name : String} (h : IsName name) :
    Lexes ("." ++ name ++ "(").toList (some [.dot, .name name, .opening]) := by
  have hlexes := (mark (c := '.') rfl).append (function h)
  simpa using hlexes

/-- The start of the call of a function that belongs to a name. -/
theorem static {function : String} (object name : String)
    (hfunction : function = object ++ "." ++ name) (hobject : IsName object)
    (hname : IsName name) :
    Lexes (function ++ "(").toList (some [.name object, .dot, .name name, .opening]) := by
  have hlist : (object ++ "." ++ name ++ "(").toList
      = object.toList ++ '.' :: (name ++ "(").toList := by simp
  have hdotted := dotted hname
  rw [String.append_assoc, String.toList_append] at hdotted
  have hlexes := word hobject.1 (by decide) hdotted
  rw [hfunction, hlist]
  rwa [Option.map_some, hobject.2] at hlexes

theorem factor (first : Char) (tail : List Char) {literal : Literal} {tokens : List Token}
    {text : List Char} (hfirst : first.isDigit = true)
    (htail : ∀ d ∈ tail, isNumeralPart d = true)
    (hliteral : numeralLiteral? (first :: tail) = some literal) (h : Lexes text (some tokens)) :
    Lexes (first :: tail ++ ' ' :: '*' :: ' ' :: text)
      (some (.literal literal :: .times :: tokens)) := by
  have htimes := space.append ((mark (c := '*') rfl).append (space.append h))
  have hlexes := numeral first tail hfirst htail (by decide) htimes
  simpa [hliteral] using hlexes

/-- **A number with its sign, in front of a closing parenthesis.** -/
theorem signed (negative : Bool) (run : List Char)
    (hfirst : ∃ c rest, run = c :: rest ∧ c.isDigit = true)
    (hchars : ∀ c ∈ run, isNumeralPart c = true) :
    Lexes ((if negative then ['-'] else []) ++ run ++ [')'])
      ((numeralLiteral? run).map fun literal =>
        (Pending.signed negative (.literal literal)).tokens ++ [.closing]) := by
  obtain ⟨c, rest, rfl, hdigit⟩ := hfirst
  have h := numeral c rest hdigit (fun d hd => hchars d (List.mem_cons_of_mem _ hd)) (by decide)
    (mark (c := ')') rfl)
  cases negative with
  | false =>
    cases hliteral : numeralLiteral? (c :: rest) <;>
      simpa [hliteral, Pending.signed, tokens] using h
  | true =>
    have h := (mark (c := '-') rfl).append h
    cases hliteral : numeralLiteral? (c :: rest) <;>
      simpa [hliteral, Pending.signed, tokens] using h

end Lexes

end Script

/-! ### Numbers as they are written -/

namespace Json

/-- The text of an exponent with its sign, or nothing. -/
def IsExponentText (text : List Char) : Prop :=
  text = [] ∨ ∃ sign n, (sign = '+' ∨ sign = '-') ∧ text = 'e' :: sign :: Nat.toDigits 10 n

/-- **Digits, a fraction and an exponent are a number**, also behind a sign. -/
theorem isSome_numberParts? (negative : Bool) {whole exponent : List Char}
    {fraction : Option (List Char)} (hne : whole ≠ []) (hwhole : ∀ c ∈ whole, c.isDigit = true)
    (hzero : 1 < whole.length → whole.head? ≠ some '0')
    (hfraction : ∀ digits ∈ fraction, digits ≠ [] ∧ ∀ c ∈ digits, c.isDigit = true)
    (hexponent : IsExponentText exponent) :
    (numberParts? ((if negative then ['-'] else []) ++
      (whole ++ fractionText fraction ++ exponent))).isSome = true := by
  have hread : ∀ c rest, exponent = c :: rest → c = 'e' ∧ (exponent? rest).isSome = true := by
    rintro c rest rfl
    rcases hexponent with h | ⟨sign, n, hsign, h⟩
    · cases h
    · cases h
      have hdigits : (Nat.toDigits 10 n).all Char.isDigit = true :=
        List.all_eq_true.mpr isDigit_toDigits
      rcases hsign with rfl | rfl <;> simp [exponent?, hdigits]
  have hmark : ∀ c ∈ exponent.head?, c.isDigit = false := by
    intro c hc
    obtain ⟨rest, hrest⟩ : ∃ rest, exponent = c :: rest := List.head?_eq_some_iff.mp hc
    rw [(hread c rest hrest).1]
    rfl
  have hboundary : ∀ c ∈ (fractionText fraction ++ exponent).head?, c.isDigit = false := by
    cases fraction with
    | none => exact hmark
    | some digits => simp [fractionText]
  obtain ⟨htake, hdrop⟩ := takeWhile_isDigit hwhole hboundary
  unfold numberParts?
  split
  rename_i sign rest hsign
  obtain rfl : whole ++ (fractionText fraction ++ exponent) = rest := by
    cases negative with
    | true => simpa using congrArg Prod.snd hsign
    | false =>
      obtain ⟨c, tail, rfl⟩ := List.exists_cons_of_ne_nil hne
      have hc : c ≠ '-' := by
        rintro rfl
        exact absurd (hwhole '-' List.mem_cons_self) (by decide)
      have hsame : (false, c :: (tail ++ (fractionText fraction ++ exponent))) = (sign, rest) := by
        simpa [hc] using hsign
      exact congrArg Prod.snd hsame
  dsimp only
  rw [htake, hdrop, if_neg (by simpa [hne] using hzero)]
  cases fraction with
  | none =>
    cases exponent with
    | nil => rfl
    | cons c rest =>
      obtain ⟨rfl, hsome⟩ := hread c rest rfl
      obtain ⟨n, hn⟩ := Option.isSome_iff_exists.mp hsome
      simp [fractionText, hn]
  | some digits =>
    obtain ⟨hdigits, hall⟩ := hfraction digits rfl
    obtain ⟨htake, hdrop⟩ := takeWhile_isDigit hall hmark
    simp only [fractionText, List.cons_append, htake, hdrop]
    cases exponent with
    | nil => simp [hdigits]
    | cons c rest =>
      obtain ⟨rfl, hsome⟩ := hread c rest rfl
      obtain ⟨n, hn⟩ := Option.isSome_iff_exists.mp hsome
      simp [hn, hdigits]

/-- The text of a number without its sign. -/
structure IsNumeral (run : List Char) : Prop where
  first : ∃ c rest, run = c :: rest ∧ c.isDigit = true
  chars : ∀ c ∈ run, isNumberChar c = true
  parts (negative : Bool) :
    (numberParts? ((if negative then ['-'] else []) ++ run)).isSome = true

theorem IsNumeral.of_parts (whole : List Char) (fraction : Option (List Char))
    (exponent : List Char) (hne : whole ≠ []) (hwhole : ∀ c ∈ whole, c.isDigit = true)
    (hzero : 1 < whole.length → whole.head? ≠ some '0')
    (hfraction : ∀ digits ∈ fraction, digits ≠ [] ∧ ∀ c ∈ digits, c.isDigit = true)
    (hexponent : IsExponentText exponent) :
    IsNumeral (whole ++ fractionText fraction ++ exponent) := by
  have hdigits {digits : List Char} (h : ∀ c ∈ digits, c.isDigit = true) :
      ∀ c ∈ digits, isNumberChar c = true := fun c hc => by simp [isNumberChar, h c hc]
  refine ⟨?_, ?_, fun negative =>
    isSome_numberParts? negative hne hwhole hzero hfraction hexponent⟩
  · obtain ⟨c, tail, rfl⟩ := List.exists_cons_of_ne_nil hne
    exact ⟨c, _, rfl, hwhole c List.mem_cons_self⟩
  · simp only [List.forall_mem_append]
    refine ⟨⟨hdigits hwhole, ?_⟩, ?_⟩
    · cases fraction with
      | none => simp [fractionText]
      | some digits => exact List.forall_mem_cons.mpr ⟨rfl, hdigits (hfraction digits rfl).2⟩
    · rcases hexponent with rfl | ⟨sign, n, hsign, rfl⟩
      · exact List.forall_mem_nil _
      · refine List.forall_mem_cons.mpr ⟨rfl, List.forall_mem_cons.mpr ⟨?_, ?_⟩⟩
        · rcases hsign with rfl | rfl <;> rfl
        · exact hdigits isDigit_toDigits

theorem isNumeral_toDigits (n : Nat) : IsNumeral (Nat.toDigits 10 n) := by
  have h := IsNumeral.of_parts (Nat.toDigits 10 n) none [] Nat.toDigits_ne_nil isDigit_toDigits
    (Datum.head_toDigits (n := n)) (by simp) (.inl rfl)
  simpa [fractionText] using h

/-- **A decimal is a numeral in every notation**: with all digits in front of the point, with some
of them behind it, with none in front of it, and with an exponent. -/
theorem isNumeral_render {m : Nat} (hm : m ≠ 0) (e : Int) :
    IsNumeral (Decimal.render (Nat.toDigits 10 m) e) := by
  obtain ⟨c, rest, hcons, hc⟩ := exists_toDigits_cons hm
  have hall : ∀ d ∈ Nat.toDigits 10 m, d.isDigit = true := isDigit_toDigits
  have hzeros (n : Nat) : ∀ d ∈ List.replicate n '0', d.isDigit = true := by
    intro d hd
    rw [List.eq_of_mem_replicate hd]
    rfl
  rw [hcons] at hall ⊢
  have hrest : ∀ d ∈ rest, d.isDigit = true := fun d hd => hall d (List.mem_cons_of_mem _ hd)
  have hhead (tail : List Char) : (c :: tail).head? ≠ some '0' := by simpa using hc
  unfold Decimal.render
  dsimp only
  split
  · split
    · have h := IsNumeral.of_parts (c :: rest ++ List.replicate e.toNat '0') (some ['0']) []
        (by simp)
        (List.forall_mem_append.mpr ⟨hall, hzeros _⟩) (fun _ => hhead _) (by simp) (.inl rfl)
      simpa [fractionText] using h
    · split
      · rename_i hneg hlead
        generalize hk : (e + (c :: rest).length - 1).toNat = k
        have hlt : k < rest.length := by
          rw [List.length_cons] at hk hlead
          omega
        have h := IsNumeral.of_parts (c :: rest.take k) (some (rest.drop k)) [] (by simp)
          (List.forall_mem_cons.mpr ⟨hall c List.mem_cons_self,
            fun d hd => hrest d (List.mem_of_mem_take hd)⟩) (fun _ => hhead _)
          (by
            rintro digits ⟨⟩
            exact ⟨by simpa using hlt, fun d hd => hrest d (List.mem_of_mem_drop hd)⟩)
          (.inl rfl)
        simpa [fractionText] using h
      · have h := IsNumeral.of_parts ['0']
          (some (List.replicate (-(e + (c :: rest).length - 1) - 1).toNat '0' ++ c :: rest)) []
          (by simp) (by simp) (by simp)
          (by
            rintro digits ⟨⟩
            exact ⟨by simp, List.forall_mem_append.mpr ⟨hzeros _, hall⟩⟩)
          (.inl rfl)
        simpa [fractionText] using h
  · have h := IsNumeral.of_parts [c] (if rest = [] then none else some rest)
      ('e' :: (if e + (c :: rest).length - 1 ≥ 0 then '+' else '-') ::
        Nat.toDigits 10 (e + (c :: rest).length - 1).natAbs) (by simp)
      (by simpa using hall c List.mem_cons_self) (by simp)
      (by
        intro digits hdigits
        split at hdigits
        · cases hdigits
        · rename_i hne
          cases hdigits
          exact ⟨hne, hrest⟩)
      (.inr ⟨_, _, by split <;> simp, rfl⟩)
    cases rest with
    | nil => simpa [fractionText] using h
    | cons d tail => simpa [fractionText] using h

theorem shortest_cases {x : Double} (hx : x.rank.val ≠ 0) :
    x.shortest.digits ≠ 0 ∨ x.shortest = ⟨0, 0⟩ := by
  unfold Double.shortest
  dsimp only
  cases hfound : (List.range 17).findSome? fun (extra : Nat) =>
      x.neighbour? (Double.floorLog10 x.ratio.1 x.ratio.2 - extra) with
  | none => exact .inr rfl
  | some d =>
    obtain ⟨extra, -, hneighbour⟩ := List.exists_of_findSome?_eq_some hfound
    refine .inl fun hdigits => hx ?_
    rw [← (Double.neighbour?_eq_some hneighbour).1, Double.decimalRank, if_pos (.inl hdigits)]

/-- **The text of a number is a numeral, perhaps behind a sign.** -/
theorem render_eq_numeral (n : Number) : ∃ (negative : Bool) (run : List Char),
    n.render.toList = (if negative then ['-'] else []) ++ run ∧ IsNumeral run := by
  cases n with
  | integer value =>
    refine ⟨decide (value < 0), Nat.toDigits 10 value.natAbs, ?_, isNumeral_toDigits _⟩
    by_cases hneg : value < 0 <;> simp [Number.render, hneg]
  | double x =>
    have hnone : IsNumeral ['0', '.', '0'] := by
      have h := IsNumeral.of_parts ['0'] (some ['0']) [] (by simp) (by simp) (by simp) (by simp)
        (.inl rfl)
      simpa [fractionText] using h
    rw [Number.render, Double.render]
    split
    · refine ⟨x.negative, _, ?_, hnone⟩
      rw [String.toList_ofList]
    · rename_i hx
      refine ⟨x.negative, Decimal.render x.shortest.trimmed.1 x.shortest.trimmed.2, ?_, ?_⟩
      · simp
      · rcases shortest_cases hx with hdigits | hnothing
        · obtain ⟨m, j, hm, -, htrimmed⟩ := Decimal.trimmed_eq hdigits
          rw [htrimmed]
          exact isNumeral_render hm _
        · -- Nothing would be written as zero.
          rw [hnothing]
          exact hnone

end Json

end Circuitry
