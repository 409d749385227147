import Circuitry.Proofs.Legibility

/-!
# Where lists are spread

A list that is spread becomes arguments or items of the list around it, so its marker, three dots,
makes sense only at the start of an argument or of an item.  `Script.markersListed` looks for
markers in a text, outside of quoted texts and placeholders, and says whether all of them stand
there.  `Expr.listed` says the same of the parts of an expression.

A spread is translated wherever an operand may stand, and as a command of its own.  So the markers
of a statement are in their places if no operation in the command puts a spread in front of a dot or
under another spread, and if the command is none itself (`Operation.listed_expr_iff`).  The text
shows less than the expression: a spread in front of a dot is taken for the spread of what the
method returns, and the text of such a call is in order wherever a spread is.
-/

namespace Circuitry

open Fallible

/-! ### Markers in texts -/

namespace Script

/-- Where a character of a text stands. -/
inductive Place where
  /-- In the code; an item of a list can start here if `item` is set. -/
  | code (item : Bool)
  /-- In a quoted text. -/
  | quoted
  /-- Behind a backslash in a quoted text. -/
  | escaped
  /-- In a placeholder. -/
  | slot

def Place.next : Place → Char → Place
  | .code item, c =>
    if c = '"' then .quoted
    else if c = '\x7b' then .slot
    else .code (c == '(' || c == '[' || c == ',' || (c == ' ' && item))
  | .quoted, c => if c = '"' then .code false else if c = '\\' then .escaped else .quoted
  | .escaped, _ => .quoted
  | .slot, c => if c = '\x7d' then .code false else .slot

/-- Whether every marker in a text stands where an item of a list can start. -/
def markersListed : Place → List Char → Bool
  | .code item, '.' :: '.' :: '.' :: rest => item && markersListed (.code false) rest
  | place, c :: rest => markersListed (place.next c) rest
  | _, [] => true

/-- A text without markers, which leads from one place to another whatever stands behind it. -/
def Passes (start : Place) (text : List Char) (stop : Place) : Prop :=
  ∀ rest, markersListed start (text ++ rest) = markersListed stop rest

theorem next_of_isNumeralPart {c : Char} (h : isNumeralPart c = true) (item : Bool) :
    Place.next (.code item) c = .code false := by
  have hne {d : Char} (hd : isNumeralPart d = false) : c ≠ d := by
    rintro rfl
    rw [h] at hd
    cases hd
  have hmarks : (c == '(' || c == '[' || c == ',' || (c == ' ' && item)) = false := by
    simp [hne (d := '(') rfl, hne (d := '[') rfl, hne (d := ',') rfl, hne (d := ' ') rfl]
  rw [Place.next, if_neg (hne rfl), if_neg (hne rfl), hmarks]

namespace Passes

variable {start middle stop : Place} {text other : List Char}

theorem nil : Passes start [] start := fun _ => rfl

theorem append (h : Passes start text middle) (h' : Passes middle other stop) :
    Passes start (text ++ other) stop := by
  intro rest
  rw [List.append_assoc, h, h']

theorem char {c : Char} (h : c ≠ '.') : Passes start [c] (start.next c) := by
  intro rest
  rw [List.singleton_append, markersListed]
  intro item tail _ hdot
  exact absurd hdot h

theorem dot {c : Char} (h : c ≠ '.') (item : Bool) :
    Passes (.code item) ['.', c] (Place.next (.code false) c) := by
  intro rest
  have hfirst : markersListed (.code item) ('.' :: c :: rest)
      = markersListed (.code false) (c :: rest) := by
    rw [markersListed]
    · rfl
    · intro item tail _ _ hdots
      exact absurd (List.cons.inj hdots).1 h
  exact hfirst.trans (char h rest)

theorem cons {c : Char} (h : c ≠ '.') (h' : Passes (start.next c) text stop) :
    Passes start (c :: text) stop :=
  append (char h) h'

theorem run (hne : text ≠ []) (h : ∀ c ∈ text, isNumeralPart c = true) (hdot : '.' ∉ text)
    (item : Bool) : Passes (.code item) text (.code false) := by
  induction text generalizing item with
  | nil => exact absurd rfl hne
  | cons c rest ih =>
    obtain ⟨hc, hrest⟩ := List.forall_mem_cons.mp h
    rw [List.mem_cons, not_or] at hdot
    refine cons (Ne.symm hdot.1) ?_
    rw [next_of_isNumeralPart hc]
    cases rest with
    | nil => exact nil
    | cons d rest => exact ih (List.cons_ne_nil d rest) hrest hdot.2 false

theorem dotted (hne : text ≠ []) (h : ∀ c ∈ text, isNumeralPart c = true) (hdot : '.' ∉ text)
    (item : Bool) : Passes (.code item) ('.' :: text) (.code false) := by
  cases text with
  | nil => exact absurd rfl hne
  | cons c rest =>
    obtain ⟨hc, hrest⟩ := List.forall_mem_cons.mp h
    rw [List.mem_cons, not_or] at hdot
    have hpoint := dot (Ne.symm hdot.1) item
    rw [next_of_isNumeralPart hc] at hpoint
    cases rest with
    | nil => exact hpoint
    | cons d rest => exact append hpoint (run (List.cons_ne_nil d rest) hrest hdot.2 false)

theorem of_isValid {name : String} (h : Identifier.isValid name = true) :
    name.toList ≠ [] ∧ (∀ c ∈ name.toList, isNumeralPart c = true) ∧ '.' ∉ name.toList := by
  obtain ⟨hne, hparts⟩ := Identifier.of_isValid h
  refine ⟨hne, fun c hc => by simp [isNumeralPart, hparts c hc], fun hdot => ?_⟩
  exact absurd (hparts '.' hdot) (by decide)

theorem word {name : String} (h : Identifier.isValid name = true) (item : Bool) :
    Passes (.code item) name.toList (.code false) := by
  obtain ⟨hne, hparts, hdot⟩ := of_isValid h
  exact run hne hparts hdot item

theorem member {name : String} (h : Identifier.isValid name = true) (item : Bool) :
    Passes (.code item) ('.' :: (name.toList ++ ['('])) (.code true) := by
  obtain ⟨hne, hparts, hdot⟩ := of_isValid h
  exact (dotted hne hparts hdot item).append (char (by decide))

theorem hidden {c : Char} (h : ∀ item, start ≠ .code item) : Passes start [c] (start.next c) := by
  intro rest
  rw [List.singleton_append, markersListed]
  intro item tail hcode
  exact absurd hcode (h item)

theorem escapedChars (c : Char) : Passes .quoted (Literal.escapedChars c) .quoted := by
  unfold Literal.escapedChars
  split_ifs with hslash hquote
  rotate_right
  · have hnext : Place.next .quoted c = .quoted := by
      rw [Place.next, if_neg hquote, if_neg hslash]
    have hchar : Passes .quoted [c] (Place.next .quoted c) := hidden (by rintro item ⟨⟩)
    rwa [hnext] at hchar
  all_goals exact fun rest => rfl

theorem quote (s : String) (item : Bool) :
    Passes (.code item) (Literal.quote s).toList (.code false) := by
  have hinside (cs : List Char) : Passes .quoted (cs.flatMap Literal.escapedChars) .quoted := by
    induction cs with
    | nil => exact nil
    | cons c rest ih => exact append (escapedChars c) ih
  have hlist : (Literal.quote s).toList
      = '"' :: (s.toList.flatMap Literal.escapedChars ++ ['"']) := by
    simp [Literal.quote, Literal.escape]
  have hend : Passes .quoted ['"'] (.code false) := fun rest => rfl
  rw [hlist]
  exact cons (by decide) ((hinside s.toList).append hend)

theorem placeholder {path : Path} (h : path.Spellable) (item : Bool) :
    Passes (.code item) path.placeholder.toList (.code false) := by
  have hinside {cs : List Char} (hcs : '\x7d' ∉ cs) : Passes .slot cs .slot := by
    induction cs with
    | nil => exact nil
    | cons c rest ih =>
      rw [List.mem_cons, not_or] at hcs
      have hchar : Passes .slot [c] (Place.next .slot c) := hidden (by rintro item ⟨⟩)
      rw [Place.next, if_neg (Ne.symm hcs.1)] at hchar
      exact append hchar (ih hcs.2)
  have hkey : '\x7d' ∉ path.display.toList := fun hm =>
    absurd ((Template.isKeyChar_display h).2 _ hm) (by decide)
  have hlist : path.placeholder.toList
      = ['\x7b'] ++ ('\x7b' :: ' ' :: (path.display.toList ++ [' '])) ++ ['\x7d', '\x7d'] := by
    simp [Path.placeholder]
  have hopen : Passes (.code item) ['\x7b'] .slot := fun rest => rfl
  have hclose : Passes .slot ['\x7d', '\x7d'] (.code false) := fun rest => rfl
  rw [hlist]
  exact (hopen.append (hinside (by simpa using hkey))).append hclose

end Passes

end Script

/-! ### Literals -/

namespace Json

theorem not_mem_of_exponent? {cs : List Char} {n : Int} (h : exponent? cs = some n) : '.' ∉ cs := by
  unfold exponent? at h
  split at h
  rename_i negative digits hsign
  split at h
  · cases h
  · rename_i hdigits
    simp only [Bool.or_eq_true, Bool.not_eq_true', not_or, Bool.not_eq_false] at hdigits
    have hdot : '.' ∉ digits := fun hm => absurd (List.all_eq_true.mp hdigits.2 _ hm) (by decide)
    split at hsign
    all_goals
      cases hsign
      simpa using hdot

theorem not_mem_of_mark {α : Type} {mark : Char} {rest : List Char} {f : Int → Option α} {a : α}
    (h : (if mark = 'e' ∨ mark = 'E' then exponent? rest >>= f else none) = some a) :
    '.' ∉ mark :: rest := by
  split at h
  · rename_i hmark
    obtain ⟨n, hn, -⟩ := Option.bind_eq_some_iff.mp h
    have hexponent := not_mem_of_exponent? hn
    rcases hmark with rfl | rfl <;> simpa using hexponent
  · cases h

/-- **A number has one dot at most**, and there are characters on both sides of it. -/
theorem dots_of_numberParts? {cs : List Char} {parts : NumberParts}
    (h : numberParts? cs = some parts) :
    ∃ front behind, front ≠ [] ∧ '.' ∉ front ∧ '.' ∉ behind ∧
      (cs = front ∨ cs = front ++ '.' :: behind ∧ behind ≠ []) := by
  have hdigits (cs : List Char) : '.' ∉ cs.takeWhile Char.isDigit := fun hm =>
    absurd (List.mem_takeWhile_imp hm) (by decide)
  have hsplit (cs : List Char) : cs.takeWhile Char.isDigit ++ cs.dropWhile Char.isDigit = cs :=
    List.takeWhile_append_dropWhile
  unfold numberParts? at h
  split at h
  rename_i negative body hsign
  -- The sign is no dot, so it does not matter.
  obtain ⟨sign, hplain, rfl⟩ : ∃ sign, '.' ∉ sign ∧ cs = sign ++ body := by
    split at hsign
    · cases hsign
      exact ⟨['-'], by decide, rfl⟩
    · cases hsign
      exact ⟨[], by decide, rfl⟩
  dsimp only at h
  split at h
  · cases h
  · rename_i hwhole
    have hne : sign ++ body.takeWhile Char.isDigit ≠ [] := by
      intro hempty
      simp [(List.append_eq_nil_iff.mp hempty).2] at hwhole
    have hfront : '.' ∉ sign ++ body.takeWhile Char.isDigit := by
      rw [List.mem_append, not_or]
      exact ⟨hplain, hdigits body⟩
    split at h
    · rename_i fraction behind hpoint
      dsimp only at h
      split at h
      · cases h
      · rename_i hsome
        have hbehind : '.' ∉ behind := by
          rw [← hsplit behind, List.mem_append, not_or]
          refine ⟨hdigits behind, ?_⟩
          cases hexponent : behind.dropWhile Char.isDigit with
          | nil => exact List.not_mem_nil
          | cons mark rest =>
            rw [hexponent] at h
            exact not_mem_of_mark h
        refine ⟨_, behind, hne, hfront, hbehind, .inr ⟨?_, ?_⟩⟩
        · rw [List.append_assoc, ← hpoint, hsplit]
        · rintro rfl
          exact hsome rfl
    · rw [if_neg (by simp)] at h
      refine ⟨sign ++ body, [], ?_, ?_, List.not_mem_nil, .inl rfl⟩
      · rw [← hsplit body, ← List.append_assoc]
        exact List.append_ne_nil_of_left_ne_nil hne _
      · rw [← hsplit body, ← List.append_assoc, List.mem_append, not_or]
        refine ⟨hfront, ?_⟩
        cases hexponent : body.dropWhile Char.isDigit with
        | nil => exact List.not_mem_nil
        | cons mark rest =>
          rw [hexponent] at h
          exact not_mem_of_mark h

end Json

theorem Literal.Written.dots {literal : Literal} (h : literal.Written)
    (hplain : '"' ∉ literal.render.toList) :
    ∃ front behind, front ≠ [] ∧ '.' ∉ front ∧ '.' ∉ behind ∧
      (literal.render.toList = front ∨
        literal.render.toList = front ++ '.' :: behind ∧ behind ≠ []) := by
  have hnone (hne : literal.render.toList ≠ []) (hdot : '.' ∉ literal.render.toList) :
      ∃ front behind, front ≠ [] ∧ '.' ∉ front ∧ '.' ∉ behind ∧
        (literal.render.toList = front ∨
          literal.render.toList = front ++ '.' :: behind ∧ behind ≠ []) :=
    ⟨_, [], hne, hdot, List.not_mem_nil, .inl rfl⟩
  cases h with
  | number n =>
    obtain ⟨negative, run, hrun, hnumeral⟩ := Json.render_eq_numeral n
    obtain ⟨parts, hparts⟩ := Option.isSome_iff_exists.mp (hnumeral.parts negative)
    rw [render, hrun]
    exact Json.dots_of_numberParts? hparts
  | integer n =>
    have hdigits : '.' ∉ Nat.toDigits 10 n.natAbs := fun hm =>
      absurd (isDigit_toDigits _ hm) (by decide)
    refine hnone (by simp [render]) ?_
    rw [render, String.toList_append, toList_integer]
    split <;> simpa using hdigits
  | bytes data =>
    have hdigits : '.' ∉ (Text.Hex.encode data).toList := fun hm =>
      Text.Hex.forall_mem_encode (motive := (· ≠ '.')) (by decide) data _ hm rfl
    exact hnone (by simp [render]) (by simpa [render] using hdigits)
  | text s => exact absurd (by simp [render, quote]) hplain
  | boolean b => exact hnone (by cases b <;> decide) (by cases b <;> decide)

/-- **A literal has no markers**, whatever it holds. -/
theorem Literal.Written.passes {literal : Literal} (h : literal.Written) (item : Bool) :
    Script.Passes (.code item) literal.render.toList (.code false) := by
  rcases h.kind with ⟨s, rfl⟩ | ⟨b, rfl⟩ | ⟨negative, run, hnumeral⟩
  · exact .quote s item
  · exact .word (by cases b <;> decide) item
  · have hchars : ∀ c ∈ literal.render.toList, Script.isNumeralPart c = true := by
      intro c hc
      rw [hnumeral.text, List.mem_append] at hc
      rcases hc with hc | hc
      · cases negative with
        | false => cases hc
        | true =>
          rw [List.mem_singleton.mp hc]
          rfl
      · exact hnumeral.chars c hc
    obtain ⟨front, behind, hne, hfront, hbehind, htext | ⟨htext, hne'⟩⟩ :=
      h.dots fun hm => absurd (hchars _ hm) (by decide)
    · rw [htext] at hchars ⊢
      exact .run hne hchars hfront item
    · -- A dot inside of a number.
      rw [htext] at hchars ⊢
      obtain ⟨hbefore, hafter⟩ := List.forall_mem_append.mp hchars
      exact (Script.Passes.run hne hbefore hfront item).append
        (.dotted hne' (List.forall_mem_cons.mp hafter).2 hbehind false)

/-! ### Spread lists in expressions -/

namespace Expr

mutual

/-- Whether every spread in an expression stands where an item of a list can start.  The expression
itself stands there if `item` is set.  A receiver does not, but in the text it starts where the
method call does; with `textual` it counts as standing there. -/
def listed (textual item : Bool) : Expr → Bool
  | .atom _ | .reference _ => true
  | .method receiver _ arguments =>
    receiver.listed textual (textual && item) && listedAll textual arguments
  | .call _ arguments => listedAll textual arguments
  | .array items => listedAll textual items
  | .spread list => item && list.listed textual false

def listedAll (textual : Bool) : List Expr → Bool
  | [] => true
  | item :: rest => item.listed textual true && listedAll textual rest

end

theorem listedAll_iff {textual : Bool} {items : List Expr} :
    listedAll textual items = true ↔ ∀ item ∈ items, item.listed textual true = true := by
  induction items with
  | nil => simp [listedAll]
  | cons item rest ih => rw [listedAll, Bool.and_eq_true, ih, List.forall_mem_cons]

/-- **The markers in the text of an expression are those of its spreads.** -/
def Scans (expr : Expr) : Prop :=
  ∀ item rest, Script.markersListed (.code item) ((expr.render Path.placeholder).toList ++ rest)
    = (expr.listed true item && Script.markersListed (.code false) rest)

namespace Scans

variable {items : List Expr}

theorem atom {text : String}
    (h : ∀ item, Script.Passes (.code item) text.toList (.code false)) :
    (Expr.atom text).Scans := by
  intro item rest
  rw [render, h item rest, listed, Bool.true_and]

theorem reference {path : Path} (h : path.Spellable) : (Expr.reference path).Scans := by
  intro item rest
  rw [render, Script.Passes.placeholder h item rest, listed, Bool.true_and]

theorem closed (h : ∀ item ∈ items, item.Scans) {c : Char} (hc : c = ')' ∨ c = ']')
    (rest : List Char) :
    Script.markersListed (.code true)
        ((", ".intercalate (renderAll Path.placeholder items)).toList ++ c :: rest)
      = (listedAll true items && Script.markersListed (.code false) rest) := by
  have hclose (item : Bool) : Script.markersListed (.code item) (c :: rest)
      = Script.markersListed (.code false) rest := by
    rcases hc with rfl | rfl <;> rfl
  induction items with
  | nil =>
    rw [renderAll, String.intercalate_nil, listedAll, Bool.true_and]
    exact hclose true
  | cons item others ih =>
    obtain ⟨hitem, hothers⟩ := List.forall_mem_cons.mp h
    cases others with
    | nil =>
      rw [renderAll, renderAll, String.intercalate_singleton, hitem, hclose, listedAll, listedAll,
        Bool.and_true]
    | cons next others =>
      have hcomma (text : List Char) : Script.markersListed (.code false) (',' :: ' ' :: text)
          = Script.markersListed (.code true) text := rfl
      have htext : (", ".intercalate (renderAll Path.placeholder (item :: next :: others))).toList
          = (item.render Path.placeholder).toList ++ ',' :: ' ' ::
            (", ".intercalate (renderAll Path.placeholder (next :: others))).toList := by
        simp [renderAll, String.intercalate_cons_cons]
      rw [htext, List.append_assoc, hitem, List.cons_append, List.cons_append, hcomma,
        ih hothers, listedAll.eq_2 true item, Bool.and_assoc]

theorem array (h : ∀ item ∈ items, item.Scans) : (Expr.array items).Scans := by
  intro item rest
  have htext : ((Expr.array items).render Path.placeholder).toList ++ rest
      = '[' :: ((", ".intercalate (renderAll Path.placeholder items)).toList ++ ']' :: rest) := by
    simp [render]
  have hopen (text : List Char) : Script.markersListed (.code item) ('[' :: text)
      = Script.markersListed (.code true) text := rfl
  rw [htext, hopen, closed h (.inr rfl), listed]

theorem call {function : String}
    (hfunction : ∀ item, Script.Passes (.code item) (function ++ "(").toList (.code true))
    (h : ∀ item ∈ items, item.Scans) : (Expr.call function items).Scans := by
  intro item rest
  have htext : ((Expr.call function items).render Path.placeholder).toList ++ rest
      = (function ++ "(").toList ++
        ((", ".intercalate (renderAll Path.placeholder items)).toList ++ ')' :: rest) := by
    simp [render]
  rw [htext, hfunction, closed h (.inl rfl), listed]

theorem method {receiver : Expr} {name : String} (hreceiver : receiver.Scans)
    (hname : Identifier.isValid name = true) (h : ∀ item ∈ items, item.Scans) :
    (Expr.method receiver name items).Scans := by
  intro item rest
  have htext : ((Expr.method receiver name items).render Path.placeholder).toList ++ rest
      = (receiver.render Path.placeholder).toList ++ ('.' :: (name.toList ++ ['(']) ++
        ((", ".intercalate (renderAll Path.placeholder items)).toList ++ ')' :: rest)) := by
    simp [render]
  rw [htext, hreceiver, Script.Passes.member hname, closed h (.inl rfl), listed, Bool.true_and,
    Bool.and_assoc]

theorem spread {list : Expr} (h : list.Scans) : (Expr.spread list).Scans := by
  intro item rest
  have htext : ((Expr.spread list).render Path.placeholder).toList ++ rest
      = '.' :: '.' :: '.' :: ((list.render Path.placeholder).toList ++ rest) := by
    simp [render]
  rw [htext, Script.markersListed, h, listed, Bool.and_assoc]

end Scans

end Expr

theorem Literal.scans_construct {token : SourceType} {literal : Literal} {expr : Expr}
    (hliteral : literal.Written) (h : construct token literal = .ok expr) : expr.Scans := by
  have hwrap {function : String} {argument : Literal} (hargument : argument.Written)
      (hfunction : ∀ item, Script.Passes (.code item) (function ++ "(").toList (.code true)) :
      (Expr.call function [.atom argument.render]).Scans :=
    .call hfunction (List.forall_mem_singleton.mpr (.atom hargument.passes))
  cases constructed_of_construct h with
  | field => exact hwrap hliteral fun item rest => rfl
  | uint64 =>
    have hfield : (Expr.call "Field" [.atom literal.render]).Scans :=
      hwrap hliteral fun item rest => rfl
    exact .call (fun item rest => rfl) (List.forall_mem_singleton.mpr hfield)
  | @bool _ b htruth => exact hwrap (.boolean b) fun item rest => rfl
  | signature s => exact hwrap (.text s) fun item rest => rfl
  | publicKey s => exact hwrap (.text s) fun item rest => rfl
  | circuitString => exact hwrap (.text literal.content) fun item rest => rfl

theorem Operation.Assembled.scans {operation : Operation} {exprs : List Expr} {expr : Expr}
    (h : operation.Assembled exprs expr) (hexprs : ∀ expr ∈ exprs, expr.Scans) : expr.Scans := by
  have hnone : ∀ expr ∈ ([] : List Expr), expr.Scans := by
    intro expr hm
    cases hm
  cases h with
  | binary operator left right receiver argument =>
    obtain ⟨hreceiver, hargument⟩ := List.forall_mem_cons.mp hexprs
    have hname : Identifier.isValid operator.method = true := by cases operator <;> decide
    exact .method hreceiver hname hargument
  | assert value expr => exact .method (hexprs expr List.mem_cons_self) (by decide) hnone
  | not value expr => exact .method (hexprs expr List.mem_cons_self) (by decide) hnone
  | ternary condition whenTrue whenFalse test yes no => exact .call (fun item rest => rfl) hexprs
  | transform value link operand expr hlink =>
    rcases Link.transformExpr_forms hlink with ⟨name, hname, rfl, -⟩ | ⟨rfl, -⟩
    · exact .method (hexprs operand List.mem_cons_self) hname.1 hnone
    · exact .call (fun item rest => rfl) hexprs
  | verifySign algorithm signature message publicKey signed text key =>
    obtain ⟨hsigned, htext, hkey⟩ := List.forall_mem_cons.mp hexprs |>.imp_right
      List.forall_mem_cons.mp
    have hmessage : (Expr.array [text]).Scans := .array (List.forall_mem_singleton.mpr htext)
    refine .method hsigned (by decide) (List.forall_mem_cons.mpr ⟨?_, ?_⟩)
    · exact List.forall_mem_singleton.mp hkey
    · exact List.forall_mem_singleton.mpr hmessage
  | hash algorithm inputs items =>
    exact .call (fun item rest => rfl) (List.forall_mem_singleton.mpr (.array hexprs))
  | spread value list => exact .spread (hexprs list List.mem_cons_self)

/-- **The markers in the text of an operation are those of the spreads in its expression.** -/
theorem Operation.scans_expr {scope : Scope} {depth : Nat} {operation : Operation} {expr : Expr}
    (hnames : ∀ path, scope.names.contains path = true → path.Spellable)
    (h : operation.expr scope depth = .ok expr) : expr.Scans := by
  refine Operation.expr_ind ?_ ?_ ?_ ?_ operation h
  · intro value chain expr hexpr
    obtain ⟨token, literal, -, hliteral, hconstruct, -⟩ := Literal.staticExpr_cases hexpr
    exact Literal.scans_construct (Literal.written_ofStatic hliteral) hconstruct
  · intro name constant hconstant
    obtain ⟨-, rfl⟩ := Constant.eq_year hconstant
    exact .atom fun item rest => rfl
  · intro path hpath
    exact .reference (hnames path hpath)
  · intro operation items expr hitems hassembled
    exact hassembled.scans hitems

/-! ### Spread lists among operands -/

/-- The operand of a transformation becomes an argument in one case, and else a receiver. -/
theorem Link.transformExpr_place {link : Link} {operand expr : Expr}
    (h : link.transformExpr operand = .ok expr) :
    (link.sourceType = "field" ∧ link.targetType = "uint64") ∧
        expr = .call "UInt64.from" [operand] ∨
      ¬ (link.sourceType = "field" ∧ link.targetType = "uint64") ∧
        ∃ name, expr = .method operand name [] := by
  unfold transformExpr at h
  dsimp only at h
  split at h
  · rename_i hfields
    cases h
    refine .inr ⟨fun hword => ?_, "toFields", rfl⟩
    exact absurd (hfields.1.symm.trans hword.2) (by decide)
  · split at h
    · rename_i hword
      cases h
      exact .inl ⟨hword, rfl⟩
    · rename_i hword
      split at h
      · cases h
        exact .inr ⟨hword, "toField", rfl⟩
      · cases h

namespace Operation

/-- The operands of an operation, each with whether it becomes an argument or an item of a list.
The others become receivers of methods, or are spread themselves. -/
def places : Operation → List (Variable × Bool)
  | .binary _ left right => [(left, false), (right, true)]
  | .assert value | .not value | .spread value => [(value, false)]
  | .ternary condition whenTrue whenFalse =>
    [(condition, true), (whenTrue, true), (whenFalse, true)]
  | .transform value link =>
    [(value, decide (link.sourceType = "field" ∧ link.targetType = "uint64"))]
  | .verifySign _ signature message publicKey =>
    [(signature, false), (message, true), (publicKey, true)]
  | .hash _ inputs => inputs.map fun input => (input, true)

theorem map_fst_places (operation : Operation) :
    operation.places.map Prod.fst = operation.operands := by
  cases operation with
  | hash algorithm inputs => simp [places, operands, Function.comp_def]
  | _ => rfl

/-- All spreads among the operands of an operation become arguments or items. -/
def SpreadsItems (operation : Operation) : Prop :=
  ∀ list out, (.function list out, false) ∈ operation.places → list.operator ≠ .spread

theorem Assembled.listed_iff {operation : Operation} {exprs : List Expr} {expr : Expr}
    {fits : Variable → Bool → Prop} (h : operation.Assembled exprs expr)
    (hexprs : List.Forall₂ (fun operand expr => ∀ item, expr.listed false item = true ↔
      fits operand item) operation.operands exprs) (item : Bool) :
    expr.listed false item = true ↔
      (operation.operator = .spread → item = true) ∧
        ∀ place ∈ operation.places, fits place.1 place.2 := by
  cases h with
  | binary binaryOperator left right receiver argument =>
    obtain ⟨hreceiver, hrest⟩ := List.forall₂_cons.mp hexprs
    obtain ⟨hargument, -⟩ := List.forall₂_cons.mp hrest
    simp [Expr.listed, Expr.listedAll, places, operator, hreceiver, hargument]
  | assert value expr =>
    obtain ⟨hvalue, -⟩ := List.forall₂_cons.mp hexprs
    simp [Expr.listed, Expr.listedAll, places, operator, hvalue]
  | not value expr =>
    obtain ⟨hvalue, -⟩ := List.forall₂_cons.mp hexprs
    simp [Expr.listed, Expr.listedAll, places, operator, hvalue]
  | ternary condition whenTrue whenFalse test yes no =>
    obtain ⟨htest, hrest⟩ := List.forall₂_cons.mp hexprs
    obtain ⟨hyes, hrest⟩ := List.forall₂_cons.mp hrest
    obtain ⟨hno, -⟩ := List.forall₂_cons.mp hrest
    simp [Expr.listed, Expr.listedAll, places, operator, htest, hyes, hno]
  | transform value link operand expr hlink =>
    obtain ⟨hvalue, -⟩ := List.forall₂_cons.mp hexprs
    rcases Link.transformExpr_place hlink with ⟨hword, rfl⟩ | ⟨hword, name, rfl⟩
    · simp [Expr.listed, Expr.listedAll, places, operator, hvalue, hword]
    · simp [Expr.listed, Expr.listedAll, places, operator, hvalue, hword]
  | verifySign algorithm signature message publicKey signed text key =>
    obtain ⟨hsigned, hrest⟩ := List.forall₂_cons.mp hexprs
    obtain ⟨htext, hrest⟩ := List.forall₂_cons.mp hrest
    obtain ⟨hkey, -⟩ := List.forall₂_cons.mp hrest
    simp [Expr.listed, Expr.listedAll, places, operator, hsigned, htext, hkey, and_comm]
  | hash algorithm inputs items =>
    change List.Forall₂ _ inputs exprs at hexprs
    have hitems : (∀ item ∈ exprs, item.listed false true = true) ↔
        ∀ input ∈ inputs, fits input true := by
      induction hexprs with
      | nil => simp
      | cons hinput hrest ih => rw [List.forall_mem_cons, List.forall_mem_cons, hinput, ih]
    simp [Expr.listed, Expr.listedAll, Expr.listedAll_iff, places, operator, hitems]
  | spread value list =>
    obtain ⟨hvalue, -⟩ := List.forall₂_cons.mp hexprs
    simp [Expr.listed, places, operator, hvalue]

end Operation

theorem Literal.listed_staticExpr {converter : Converter} {value : Scalar} {chain : Chain}
    {expr : Expr} (h : staticExpr converter value chain = .ok expr) (textual item : Bool) :
    expr.listed textual item = true := by
  obtain ⟨token, literal, -, -, hconstruct, -⟩ := staticExpr_cases h
  cases constructed_of_construct hconstruct <;> simp [Expr.listed, Expr.listedAll]

theorem Variable.listed_expr_iff {scope : Scope} {depth : Nat} {operator : Operator}
    {operand : Variable} {expr : Expr} {fits : Operation → Bool → Prop}
    (hinner : ∀ inner out, operand = .function inner out → ∀ expr,
      inner.expr scope (depth + 1) = .ok expr →
        ∀ item, expr.listed false item = true ↔ fits inner item)
    (h : operand.expr scope depth operator = .ok expr) (item : Bool) :
    expr.listed false item = true ↔
      ∀ inner out, operand = .function inner out → fits inner item := by
  cases operand with
  | static value chain => simp [Literal.listed_staticExpr h]
  | setup chain => cases h
  | constant name =>
    obtain ⟨constant, -, rfl⟩ := map_eq_ok.mp h
    simp [Expr.listed]
  | reference path =>
    rw [Variable.expr] at h
    split at h
    · cases h
      simp [Expr.listed]
    · cases h
  | function inner out =>
    cases out with
    | none => simpa using hinner inner none rfl expr h item
    | some out => cases h

/-- **The spreads in an expression have their places if no operation in it puts one elsewhere**, and
if it is none itself or has a list around it.  The induction is along the nesting. -/
theorem Operation.listed_expr_iff {scope : Scope} {depth : Nat} (operation : Operation)
    {expr : Expr} (h : operation.expr scope depth = .ok expr) (item : Bool) :
    expr.listed false item = true ↔
      (operation.operator = .spread → item = true) ∧
        ∀ deep inner, Nested depth operation deep inner → inner.SpreadsItems := by
  induction operation using Operation.ind generalizing depth expr item with
  | step operation ih =>
    obtain ⟨-, exprs, hexprs, hassembled⟩ := expr_eq_ok.mp h
    have hoperand : ∀ operand ∈ operation.operands, ∀ expr,
        operand.expr scope depth operation.operator = .ok expr →
          ∀ item, expr.listed false item = true ↔
            ∀ middle out, operand = .function middle out →
              (middle.operator = .spread → item = true) ∧
                ∀ deep inner, Nested (depth + 1) middle deep inner → inner.SpreadsItems := by
      intro operand hm expr hexpr
      refine Variable.listed_expr_iff ?_ hexpr
      rintro middle out rfl expr hexpr
      exact ih middle out hm hexpr
    have hfits := ((List.forall₂_and_left _ _).mpr ⟨hoperand, hexprs⟩).imp
      fun _ _ both => both.1 _ both.2
    rw [hassembled.listed_iff hfits, forall_nested_iff]
    refine and_congr_right fun _ => ?_
    constructor
    · intro hplaces
      refine ⟨fun list out hm hspread => ?_, fun middle out hm => ?_⟩
      · exact Bool.false_ne_true ((hplaces _ hm list out rfl).1 hspread)
      · rw [← map_fst_places, List.mem_map] at hm
        obtain ⟨place, hplace, hfunction⟩ := hm
        exact (hplaces place hplace middle out hfunction).2
    · intro hall place hm middle out hfunction
      have hoperands : .function middle out ∈ operation.operands := by
        rw [← map_fst_places, List.mem_map]
        exact ⟨place, hm, hfunction⟩
      refine ⟨fun hspread => ?_, hall.2 middle out hoperands⟩
      by_contra hitem
      have hplace : place = (.function middle out, false) :=
        Prod.ext hfunction (Bool.eq_false_of_not_eq_true hitem)
      exact hall.1 middle out (hplace ▸ hm) hspread

/-! ### Statements -/

namespace Expr

mutual

/-- What stands in its place in an expression stands there in the text. -/
theorem listed_textual {item : Bool} :
    (expr : Expr) → expr.listed false item = true → ∀ item', (item = true → item' = true) →
      expr.listed true item' = true
  | .atom _, _, _, _ => by rw [listed]
  | .reference _, _, _, _ => by rw [listed]
  | .method receiver _ arguments, h, item', hitem => by
    rw [listed, Bool.and_eq_true] at h ⊢
    exact ⟨listed_textual receiver h.1 _ (by simp), listedAll_textual arguments h.2⟩
  | .call _ arguments, h, _, _ => by
    rw [listed] at h ⊢
    exact listedAll_textual arguments h
  | .array items, h, _, _ => by
    rw [listed] at h ⊢
    exact listedAll_textual items h
  | .spread list, h, item', hitem => by
    rw [listed, Bool.and_eq_true] at h ⊢
    exact ⟨hitem h.1, listed_textual list h.2 false id⟩

theorem listedAll_textual :
    (items : List Expr) → listedAll false items = true → listedAll true items = true
  | [], _ => by rw [listedAll]
  | item :: rest, h => by
    rw [listedAll, Bool.and_eq_true] at h ⊢
    exact ⟨listed_textual item h.1 true id, listedAll_textual rest h.2⟩

end

end Expr

theorem Statement.markersListed_render {statement : Statement} (h : statement.expr.Scans)
    (hout : ∀ out, statement.out = some out → Identifier.isValid out = true) :
    Script.markersListed (.code false) (statement.render Path.placeholder).toList
      = statement.expr.listed true false := by
  have hexpr : Script.markersListed (.code false)
      (statement.expr.render Path.placeholder).toList = statement.expr.listed true false := by
    simpa [Script.markersListed] using h false []
  rw [render]
  split
  · rename_i out hsome
    have hfront : Script.Passes (.code false) "const ".toList (.code false) := fun rest => rfl
    have hequals : Script.Passes (.code false) " = ".toList (.code false) := fun rest => rfl
    have hname := Script.Passes.word (hout out hsome) false
    rw [String.toList_append, String.toList_append, String.toList_append,
      (hfront.append hname).append hequals, hexpr]
  · exact hexpr

theorem statementsOf_spellable {converter : Converter} {maxDepth : Nat} {commands : List Command}
    {names final : Names} {statements : List Statement}
    (hnames : ∀ path, names.contains path = true → path.Spellable)
    (houts : ∀ command ∈ commands, ∀ out, command.out = some out → Identifier.isValid out = true)
    (h : statementsOf converter maxDepth commands names = (final, .ok statements)) :
    List.Forall₂ (fun command statement => statement.out = command.out ∧
      ∃ names, (∀ path, names.contains path = true → path.Spellable) ∧
        command.operation.expr ⟨converter, maxDepth, names⟩ 1 = .ok statement.expr)
      commands statements := by
  induction commands generalizing names statements with
  | nil =>
    cases h
    exact .nil
  | cons command rest ih =>
    obtain ⟨hout, hrest⟩ := List.forall_mem_cons.mp houts
    obtain ⟨expr, next, others, hexpr, hnext, hothers, rfl⟩ := statementsOf_cons h
    refine .cons ⟨rfl, names, hnames, hexpr⟩ (ih (fun path hpath => ?_) hrest hothers)
    rcases hnext with ⟨-, rfl⟩ | ⟨out, hsome, hgive⟩
    · exact hnames path hpath
    · rw [Names.contains, Names.get?_give (Names.giveOutput_eq_ok hgive).2.2] at hpath
      split at hpath
      · rename_i heq
        rw [heq]
        exact ⟨List.cons_ne_nil _ _, fun key hk => List.mem_singleton.mp hk ▸
          Identifier.isKey_of_isValid (hout out hsome)⟩
      · exact hnames path hpath

/-- **Where spreads stand in statements.**  The commands may be any that are accepted; the paths
that have names are such as placeholders can spell, and results are identifiers.

Spreads are arguments and items only, in the text of a statement and in its expression, if and only
if the command is no spread and all spreads among the operands of operations in it become arguments
or items: none is a receiver, and none is spread again.  The text shows no more than where an
expression starts: all markers in it stand where an item can start if and only if the spreads in the
expression do, with those at the start of a method call counted as spreads of its result. -/
theorem statementsOf_spreads_listed_iff {target : Target} {paths : List Path}
    {initial final : Names} {converter : Converter} {maxDepth : Nat} {commands : List Command}
    {statements : List Statement} (hpaths : ∀ path ∈ paths, path.Spellable)
    (hinitial : Names.ofPaths target paths = .ok initial)
    (houts : ∀ command ∈ commands, ∀ out, command.out = some out → Identifier.isValid out = true)
    (h : statementsOf converter maxDepth commands initial = (final, .ok statements)) :
    List.Forall₂ (fun command statement =>
      Script.markersListed (.code false) (statement.render Path.placeholder).toList
        = statement.expr.listed true false ∧
      (Script.markersListed (.code false) (statement.render Path.placeholder).toList = true ∧
          statement.expr.listed false false = true ↔
        command.operation.operator ≠ .spread ∧
          ∀ depth inner, Operation.Nested 1 command.operation depth inner → inner.SpreadsItems))
      commands statements := by
  have hnames : ∀ path, initial.contains path = true → path.Spellable := fun path hpath =>
    hpaths path (Names.mem_of_contains_ofPaths hinitial hpath)
  have hmade := statementsOf_spellable hnames houts h
  refine ((List.forall₂_and_left _ _).mpr ⟨houts, hmade⟩).imp ?_
  rintro command statement ⟨hvalid, hout, names, hspellable, hexpr⟩
  have htext := Statement.markersListed_render (Operation.scans_expr hspellable hexpr)
    fun out hsome => hvalid out (hout ▸ hsome)
  have hparts := command.operation.listed_expr_iff hexpr false
  rw [htext]
  refine ⟨rfl, ?_⟩
  constructor
  · intro hboth
    exact ⟨fun hspread => Bool.false_ne_true ((hparts.mp hboth.2).1 hspread), (hparts.mp hboth.2).2⟩
  · intro hplaces
    have hlisted := hparts.mpr ⟨fun hspread => absurd hspread hplaces.1, hplaces.2⟩
    exact ⟨statement.expr.listed_textual hlisted false id, hlisted⟩

def digestFields : Variable :=
  .function (.transform (.reference ["private", "age"]) ⟨"uint64", "mina:fields"⟩) none

/-- The hash of these fields together with another input. -/
def hashedFields : Command :=
  ⟨.hash "poseidon" [.function (.spread digestFields) none, .reference ["public", "limit"]],
    some "digest"⟩

/-- The digest as a list, which is spread although there is no list around it. -/
def strayCommand : Command :=
  ⟨.spread (.reference ["digest"]), none⟩

/-- The fields are items of the list that is hashed, and the other command has no list around it. -/
theorem statementsOf_spreads_listed_iff_digest :
    ∃ final digest stray, statementsOf Value.ofChain 3 [hashedFields, strayCommand] ageNames
        = (final, .ok [digest, stray]) ∧
      digest.render Path.placeholder = "const digest = Poseidon.hash(" ++
        "[...\x7b\x7b private.age \x7d\x7d.toFields(), \x7b\x7b public.limit \x7d\x7d])" ∧
      (Script.markersListed (.code false) (digest.render Path.placeholder).toList = true ∧
        digest.expr.listed false false = true) ∧
      ¬ (Script.markersListed (.code false) (stray.render Path.placeholder).toList = true ∧
        stray.expr.listed false false = true) := by
  have hpaths : ∀ path ∈ [["private", "age"], ["public", "limit"]], Path.Spellable path := by
    simp only [List.forall_mem_cons]
    exact ⟨⟨by decide, by decide⟩, ⟨by decide, by decide⟩, by simp⟩
  have hinitial : Names.ofPaths .zkProgram [["private", "age"], ["public", "limit"]]
      = .ok ageNames := rfl
  have houts : ∀ command ∈ [hashedFields, strayCommand], ∀ out, command.out = some out →
      Identifier.isValid out = true := by
    simp only [List.forall_mem_cons]
    refine ⟨fun out hout => ?_, fun out hout => ?_, by simp⟩
    · cases hout
      decide
    · cases hout
  have hrun : statementsOf Value.ofChain 3 [hashedFields, strayCommand] ageNames
      = ((statementsOf Value.ofChain 3 [hashedFields, strayCommand] ageNames).1, .ok
        [⟨some "digest", .call "Poseidon.hash" [.array [.spread (.method
          (.reference ["private", "age"]) "toFields" []), .reference ["public", "limit"]]]⟩,
        ⟨none, .spread (.reference ["digest"])⟩]) := rfl
  have hplaces := statementsOf_spreads_listed_iff hpaths hinitial houts hrun
  obtain ⟨⟨-, hdigest⟩, hrest⟩ := List.forall₂_cons.mp hplaces
  obtain ⟨⟨-, hstray⟩, -⟩ := List.forall₂_cons.mp hrest
  refine ⟨_, _, _, hrun, by decide +kernel, hdigest.mpr ⟨by decide, ?_⟩, fun hlisted =>
    (hstray.mp hlisted).1 rfl⟩
  -- The hash takes items only; what is spread is a transformation, and that has no operation in it.
  refine Operation.forall_nested_iff.mpr ⟨fun list out hm => ?_, fun middle out hm => ?_⟩
  · simp [hashedFields, Operation.places] at hm
  · obtain ⟨rfl, rfl⟩ : middle = .spread digestFields ∧ out = none := by
      simpa [hashedFields, Operation.operands] using hm
    refine Operation.forall_nested_iff.mpr ⟨fun list out hm => ?_, fun middle out hm => ?_⟩
    · obtain ⟨rfl, rfl⟩ : list = _ ∧ out = none := by
        simpa [digestFields, Operation.places] using hm
      decide
    · obtain ⟨rfl, rfl⟩ : middle = _ ∧ out = none := by
        simpa [digestFields, Operation.operands] using hm
      refine Operation.forall_nested_iff.mpr ⟨fun list out hm => ?_, fun middle out hm => ?_⟩
      · simp [Operation.places] at hm
      · simp [Operation.operands] at hm

def oneField : Variable :=
  .static (.number (.integer 1)) ⟨[], ⟨"uint64", "mina:field"⟩⟩

/-- A spread of a number without a list around it, one in front of a method, and one of a spread. -/
def malformedSpreads : List Command :=
  [⟨.spread oneField, none⟩,
    ⟨.hash "poseidon" [.function (.not (.function (.spread oneField) none)) none], none⟩,
    ⟨.hash "poseidon" [.function (.spread (.function (.spread oneField) none)) none], none⟩]

/-- **Spreads are accepted outside of lists**: as commands, as receivers of methods and under other
spreads. -/
theorem spreads_outside_lists :
    ∃ final statements, statementsOf Value.ofChain 64 malformedSpreads .empty
        = (final, .ok statements) ∧
      statements.map (·.render Path.placeholder)
        = ["...Field(1)", "Poseidon.hash([...Field(1).not()])", "Poseidon.hash([......Field(1)])"] ∧
      ∀ statement ∈ statements,
        ¬ (Script.markersListed (.code false) (statement.render Path.placeholder).toList = true ∧
          statement.expr.listed false false = true) := by
  refine ⟨_, _, rfl, by decide +kernel, ?_⟩
  simp only [List.forall_mem_cons]
  refine ⟨fun hlisted => ?_, fun hlisted => ?_, fun hlisted => ?_, by simp⟩
  all_goals exact absurd hlisted.2 (by decide)

end Circuitry
