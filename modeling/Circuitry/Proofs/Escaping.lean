import Circuitry.Proofs.Legibility
import Circuitry.Proofs.Source

/-!
# Quoted texts and the statements around them

A quote ends a quoted text if the run of backslashes in front of it is even, since backslashes are
taken in pairs.  Escaping puts one backslash in front of every quote and doubles every backslash of
the text.  So what stands in front of a quote of the text is an escaped text and one backslash more
(`Literal.exists_of_quote`), and escaped texts end in an even run (`Literal.even_slashRun_escape`):
only the quote that closes the literal can end it.

Escaped texts hold no braces and no ends of lines either.  A statement is made from literals, words
of the language and references, so it stays on one line (`Operation.onOneLine_expr`) and its
placeholders are those of its references, in their order (`Expr.Safe.shows`), whatever the texts
in it say.
-/

namespace Circuitry

open Fallible

/-! ### Backslashes in front of quotes -/

namespace Literal

def slashRun (cs : List Char) : Nat :=
  (cs.reverse.takeWhile (· == '\\')).length

theorem slashRun_slash (cs : List Char) : slashRun (cs ++ ['\\']) = slashRun cs + 1 := by
  simp [slashRun]

theorem slashRun_of_ne (cs : List Char) {c : Char} (h : c ≠ '\\') : slashRun (cs ++ [c]) = 0 := by
  simp [slashRun, h]

/-- A character is written as two backslashes, as a backslash and a quote, or as a text that holds
no quote and does not end in a backslash. -/
theorem escapedChars_cases (c : Char) :
    escapedChars c = ['\\'] ++ ['\\'] ∨ escapedChars c = ['\\'] ++ ['"'] ∨
      '"' ∉ escapedChars c ∧ ∃ front last, escapedChars c = front ++ [last] ∧ last ≠ '\\' := by
  unfold escapedChars
  split
  · exact .inl rfl
  split
  · exact .inr (.inl rfl)
  refine .inr (.inr ?_)
  split
  · exact ⟨by decide, ['\\'], 'n', rfl, by decide⟩
  split
  · exact ⟨by decide, ['\\'], 'r', rfl, by decide⟩
  split
  · exact ⟨by decide, ['\\', 'u', '0', '0', '7'], 'b', rfl, by decide⟩
  split
  · exact ⟨by decide, ['\\', 'u', '0', '0', '7'], 'd', rfl, by decide⟩
  · rename_i hslash hquote _ _ _ _
    exact ⟨fun hm => hquote (List.mem_singleton.mp hm).symm, [], c, rfl, hslash⟩

/-- **An escaped text ends in an even run of backslashes.** -/
theorem even_slashRun_escape (cs : List Char) : Even (slashRun (cs.flatMap escapedChars)) := by
  induction cs using List.reverseRecOn with
  | nil => exact Even.zero
  | append_singleton cs c ih =>
    rw [List.flatMap_append, List.flatMap_singleton]
    rcases escapedChars_cases c with h | h | ⟨-, front, last, h, hlast⟩
    · rw [h, ← List.append_assoc, slashRun_slash, slashRun_slash]
      exact ih.add even_two
    · rw [h, ← List.append_assoc, slashRun_of_ne _ (by decide)]
      exact Even.zero
    · rw [h, ← List.append_assoc, slashRun_of_ne _ hlast]
      exact Even.zero

/-- **In front of a quote stands an escaped text and one backslash.** -/
theorem exists_of_quote {cs before behind : List Char}
    (h : cs.flatMap escapedChars = before ++ '"' :: behind) :
    ∃ front : List Char, before = front.flatMap escapedChars ++ ['\\'] := by
  induction cs generalizing before with
  | nil => cases before <;> cases h
  | cons c cs ih =>
    rw [List.flatMap_cons] at h
    rcases List.append_eq_append_iff.mp h with ⟨middle, rfl, hrest⟩ | ⟨middle, hchars, hbehind⟩
    · obtain ⟨front, rfl⟩ := ih hrest
      exact ⟨c :: front, by rw [List.flatMap_cons, List.append_assoc]⟩
    · cases middle with
      | nil =>
        -- An escaped text does not start with a quote: there would be no backslash in front of it.
        have hstart : cs.flatMap escapedChars = [] ++ '"' :: behind := hbehind.symm
        obtain ⟨front, hfront⟩ := ih hstart
        exact absurd hfront.symm (by simp)
      | cons d tail =>
        obtain ⟨rfl, -⟩ := List.cons.inj hbehind
        have hmem : '"' ∈ escapedChars c := by
          rw [hchars]
          exact List.mem_append_right before List.mem_cons_self
        rcases escapedChars_cases c with hc | hc | ⟨hc, -⟩
        · rw [hc] at hmem
          exact absurd hmem (by decide)
        · rw [hc] at hchars
          refine ⟨[], ?_⟩
          match before, hchars with
          | [slash], hchars =>
            obtain ⟨rfl, -⟩ := List.cons.inj hchars
            rfl
          | first :: second :: _, hchars => simp at hchars
        · exact absurd hmem hc

theorem odd_slashRun_of_quote {cs before behind : List Char}
    (h : cs.flatMap escapedChars = before ++ '"' :: behind) : Odd (slashRun before) := by
  obtain ⟨front, rfl⟩ := exists_of_quote h
  rw [slashRun_slash]
  exact (even_slashRun_escape front).add_one

/-- **A quoted text closes at its last quote**, and no quote before that is without an escape. -/
theorem even_slashRun_iff {cs before behind : List Char}
    (h : cs.flatMap escapedChars ++ ['"'] = before ++ '"' :: behind) :
    Even (slashRun before) ↔ behind = [] := by
  rcases List.eq_nil_or_concat behind with rfl | ⟨front, last, rfl⟩
  · rw [← (List.append_inj_left' h rfl)]
    exact iff_of_true (even_slashRun_escape cs) rfl
  · have hinside : cs.flatMap escapedChars ++ ['"'] = (before ++ '"' :: front) ++ [last] := by
      simpa using h
    have hodd := odd_slashRun_of_quote (List.append_inj_left' hinside rfl)
    exact iff_of_false (Nat.not_even_iff_odd.mpr hodd) (by simp)

end Literal

/-! ### Texts on one line -/

/-- A text without line feeds and carriage returns. -/
def Text.OnOneLine (s : String) : Prop :=
  '\n' ∉ s.toList ∧ '\r' ∉ s.toList

namespace Text.OnOneLine

instance (s : String) : Decidable (OnOneLine s) :=
  inferInstanceAs (Decidable ('\n' ∉ s.toList ∧ '\r' ∉ s.toList))

theorem append_iff {s t : String} : OnOneLine (s ++ t) ↔ OnOneLine s ∧ OnOneLine t := by
  simp only [OnOneLine, String.toList_append, List.mem_append, not_or]
  exact and_and_and_comm

theorem append {s t : String} (hs : OnOneLine s) (ht : OnOneLine t) : OnOneLine (s ++ t) :=
  append_iff.mpr ⟨hs, ht⟩

theorem of_forall {p : Char → Bool} {s : String} (h : ∀ c ∈ s.toList, p c = true)
    (hfeed : p '\n' = false) (hreturn : p '\r' = false) : OnOneLine s := by
  constructor
  · intro hm
    rw [h _ hm] at hfeed
    cases hfeed
  · intro hm
    rw [h _ hm] at hreturn
    cases hreturn

theorem quote (s : String) : OnOneLine (Literal.quote s) :=
  append (append (by decide) ⟨fun hm => (Literal.of_mem_escape hm).2.2.1 rfl,
    fun hm => (Literal.of_mem_escape hm).2.2.2 rfl⟩) (by decide)

theorem of_isValid {name : String} (h : Identifier.isValid name = true) : OnOneLine name :=
  of_forall (Identifier.of_isValid h).2 (by decide) (by decide)

theorem placeholder {path : Path} (h : path.Spellable) : OnOneLine path.placeholder :=
  append (append (by decide)
    (of_forall (Template.isKeyChar_display h).2 (by decide) (by decide))) (by decide)

end Text.OnOneLine

theorem Literal.Written.onOneLine {literal : Literal} (h : literal.Written) :
    Text.OnOneLine literal.render := by
  rcases h.kind with ⟨s, rfl⟩ | ⟨b, rfl⟩ | ⟨negative, run, hnumeral⟩
  · exact .quote s
  · cases b <;> decide
  · have hrender : literal.render
        = String.ofList (if negative then ['-'] else []) ++ String.ofList run := by
      rw [← String.toList_inj, hnumeral.text]
      simp
    have hrun : Text.OnOneLine (String.ofList run) :=
      .of_forall (by simpa using hnumeral.chars) (by decide) (by decide)
    rw [hrender]
    exact .append (by cases negative <;> decide) hrun

/-! ### Expressions on one line -/

namespace Expr

mutual

/-- The references in an expression, in the order in which they are written. -/
def references : Expr → List Path
  | .atom _ => []
  | .reference path => [path]
  | .method receiver _ arguments => receiver.references ++ referencesOf arguments
  | .call _ arguments => referencesOf arguments
  | .array items => referencesOf items
  | .spread list => list.references

def referencesOf : List Expr → List Path
  | [] => []
  | item :: rest => item.references ++ referencesOf rest

end

/-- An expression that stays on one line if its references do. -/
def OnOneLine (expr : Expr) : Prop :=
  ∀ spell : Path → String, (∀ path ∈ expr.references, Text.OnOneLine (spell path)) →
    Text.OnOneLine (expr.render spell)

namespace OnOneLine

variable {items : List Expr}

theorem atom {text : String} (h : Text.OnOneLine text) : (Expr.atom text).OnOneLine := by
  intro spell _
  rwa [render]

theorem reference (path : Path) : (Expr.reference path).OnOneLine := by
  intro spell hspell
  rw [render]
  exact hspell path (by rw [references]; exact List.mem_singleton_self path)

theorem intercalate (h : ∀ item ∈ items, item.OnOneLine) {spell : Path → String}
    (hspell : ∀ path ∈ referencesOf items, Text.OnOneLine (spell path)) :
    Text.OnOneLine (", ".intercalate (renderAll spell items)) := by
  induction items with
  | nil =>
    rw [renderAll, String.intercalate_nil]
    decide
  | cons item rest ih =>
    obtain ⟨hitem, hrest⟩ := List.forall_mem_cons.mp h
    rw [referencesOf, List.forall_mem_append] at hspell
    have hfirst := hitem spell hspell.1
    have hothers := ih hrest hspell.2
    cases rest with
    | nil => simpa only [renderAll, String.intercalate_singleton] using hfirst
    | cons next rest =>
      simp only [renderAll, String.intercalate_cons_cons] at hothers ⊢
      exact (hfirst.append (by decide)).append hothers

theorem method {receiver : Expr} {name : String} (hreceiver : receiver.OnOneLine)
    (hname : Text.OnOneLine name) (h : ∀ item ∈ items, item.OnOneLine) :
    (Expr.method receiver name items).OnOneLine := by
  intro spell hspell
  rw [references, List.forall_mem_append] at hspell
  have htext := hreceiver spell hspell.1
  have hitems := intercalate h hspell.2
  rw [render]
  exact ((((htext.append (by decide)).append hname).append (by decide)).append hitems).append
    (by decide)

theorem call {function : String} (hfunction : Text.OnOneLine function)
    (h : ∀ item ∈ items, item.OnOneLine) : (Expr.call function items).OnOneLine := by
  intro spell hspell
  rw [references] at hspell
  have hitems := intercalate h hspell
  rw [render]
  exact ((hfunction.append (by decide)).append hitems).append (by decide)

theorem array (h : ∀ item ∈ items, item.OnOneLine) : (Expr.array items).OnOneLine := by
  intro spell hspell
  rw [references] at hspell
  have hitems := intercalate h hspell
  rw [render]
  exact (Text.OnOneLine.append (by decide) hitems).append (by decide)

theorem spread {list : Expr} (h : list.OnOneLine) : (Expr.spread list).OnOneLine := by
  intro spell hspell
  rw [references] at hspell
  have hlist := h spell hspell
  rw [render]
  exact .append (by decide) hlist

theorem wrap {function : String} {literal : Literal} (hfunction : Text.OnOneLine function)
    (h : literal.Written) : (Expr.call function [.atom literal.render]).OnOneLine :=
  .call hfunction (List.forall_mem_cons.mpr ⟨.atom h.onOneLine, nofun⟩)

end OnOneLine

end Expr

theorem Literal.onOneLine_construct {token : SourceType} {literal : Literal} {expr : Expr}
    (hliteral : literal.Written) (h : construct token literal = .ok expr) : expr.OnOneLine := by
  cases constructed_of_construct h with
  | field => exact .wrap (by decide) hliteral
  | uint64 =>
    exact .call (by decide) (List.forall_mem_cons.mpr ⟨.wrap (by decide) hliteral, nofun⟩)
  | @bool _ b _ => exact .wrap (by decide) (.boolean b)
  | signature s => exact .wrap (by decide) (.text s)
  | publicKey s => exact .wrap (by decide) (.text s)
  | circuitString => exact .wrap (by decide) (.text literal.content)

theorem Link.onOneLine_transformExpr {link : Link} {operand expr : Expr}
    (hoperand : operand.OnOneLine) (h : link.transformExpr operand = .ok expr) :
    expr.OnOneLine := by
  rcases transformExpr_forms h with ⟨name, hname, rfl, -⟩ | ⟨rfl, -⟩
  · exact hoperand.method (.of_isValid hname.1) nofun
  · exact .call (by decide) (List.forall_mem_cons.mpr ⟨hoperand, nofun⟩)

theorem Constant.onOneLine_expression {name : String} {constant : Constant}
    (h : Constant.ofName? name = some constant) : (Expr.atom constant.expression).OnOneLine := by
  obtain ⟨-, rfl⟩ := eq_year h
  exact .atom (by decide)

/-- **An accepted operation is written on one line.** -/
theorem Operation.onOneLine_expr {scope : Scope} (operation : Operation) {depth : Nat}
    {expr : Expr} (h : operation.expr scope depth = .ok expr) : expr.OnOneLine := by
  refine expr_ind (motive := Expr.OnOneLine) (fun hstatic => ?_) Constant.onOneLine_expression
    (fun _ => .reference _) (fun hitems hassembled => ?_) operation h
  · obtain ⟨token, literal, -, hliteral, hconstruct, -⟩ := Literal.staticExpr_cases hstatic
    exact Literal.onOneLine_construct (Literal.written_ofStatic hliteral) hconstruct
  · cases hassembled with
    | binary operator left right receiver argument =>
      obtain ⟨hreceiver, harguments⟩ := List.forall_mem_cons.mp hitems
      exact hreceiver.method (by cases operator <;> decide) harguments
    | assert value expr | not value expr =>
      obtain ⟨hreceiver, hnone⟩ := List.forall_mem_cons.mp hitems
      exact hreceiver.method (by decide) hnone
    | ternary condition whenTrue whenFalse test yes no => exact .call (by decide) hitems
    | transform value link operand expr hlink =>
      exact Link.onOneLine_transformExpr (hitems operand List.mem_cons_self) hlink
    | verifySign algorithm signature message publicKey signed text key =>
      obtain ⟨hsigned, hrest⟩ := List.forall_mem_cons.mp hitems
      obtain ⟨htext, hkey⟩ := List.forall_mem_cons.mp hrest
      have hlist : (Expr.array [text]).OnOneLine :=
        .array (List.forall_mem_cons.mpr ⟨htext, nofun⟩)
      exact hsigned.method (by decide) (List.forall_mem_cons.mpr
        ⟨hkey key List.mem_cons_self, List.forall_mem_cons.mpr ⟨hlist, nofun⟩⟩)
    | hash algorithm inputs items =>
      exact .call (by decide) (List.forall_mem_cons.mpr ⟨.array hitems, nofun⟩)
    | spread value list => exact .spread (hitems list List.mem_cons_self)

theorem Statement.onOneLine {statement : Statement} {spell : Path → String}
    (hout : ∀ out, statement.out = some out → Identifier.isValid out = true)
    (hexpr : statement.expr.OnOneLine)
    (hspell : ∀ path ∈ statement.expr.references, Text.OnOneLine (spell path)) :
    Text.OnOneLine (statement.render spell) := by
  have htext := hexpr spell hspell
  unfold Statement.render
  split
  · rename_i out hsome
    exact ((Text.OnOneLine.append (by decide) (.of_isValid (hout out hsome))).append
      (by decide)).append htext
  · exact htext

/-! ### The placeholders of a statement -/

namespace Template

def Piece.path? : Piece → Option Path
  | .char _ => none
  | .slot key => some ((key.splitOn '.').map String.ofList)

def slotPaths (text : String) : List Path :=
  (pieces text.toList).filterMap Piece.path?

/-- A text that shows the placeholders of the given paths and opens none that it does not close,
so that they are found whatever stands behind it. -/
def Shows (text : String) (paths : List Path) : Prop :=
  ∀ rest, slotPaths (text ++ rest) = paths ++ slotPaths rest

namespace Shows

variable {text other : String} {paths others : List Path}

theorem slotPaths_eq (h : Shows text paths) : slotPaths text = paths := by
  have hempty := h ""
  rwa [String.append_empty, slotPaths, slotPaths, String.toList_empty, pieces_nil,
    List.filterMap_nil, List.append_nil] at hempty

theorem append (h : Shows text paths) (h' : Shows other others) :
    Shows (text ++ other) (paths ++ others) := by
  intro rest
  rw [String.append_assoc, h, h', List.append_assoc]

theorem plain (h : '\x7b' ∉ text.toList) : Shows text [] := by
  intro rest
  rw [slotPaths, String.toList_append, pieces_inert (isInert_of_not_mem h),
    List.filterMap_append, List.filterMap_map]
  simp [Function.comp_def, Piece.path?, slotPaths]

theorem placeholder {path : Path} (h : path.Spellable) : Shows path.placeholder [path] := by
  intro rest
  rw [slotPaths, String.toList_append, pieces_placeholder h, List.filterMap_cons, Piece.path?,
    splitOn_display h]
  rfl

end Shows

end Template

open Template (Shows slotPaths)

theorem Expr.shows_intercalate {items : List Expr}
    (h : ∀ item ∈ items, Shows (item.render Path.placeholder) item.references) :
    Shows (", ".intercalate (renderAll Path.placeholder items)) (referencesOf items) := by
  induction items with
  | nil =>
    rw [renderAll, String.intercalate_nil, referencesOf]
    exact .plain (by decide)
  | cons item rest ih =>
    obtain ⟨hitem, hrest⟩ := List.forall_mem_cons.mp h
    have hothers := ih hrest
    cases rest with
    | nil => simpa [renderAll, referencesOf] using hitem
    | cons next rest =>
      simp only [renderAll, String.intercalate_cons_cons] at hothers ⊢
      rw [referencesOf]
      simpa using (hitem.append (.plain (by decide))).append hothers

/-- **The placeholders of a safe expression are those of its references.** -/
theorem Expr.Safe.shows {declared : Path → Prop} {expr : Expr} (h : expr.Safe declared)
    (hspell : ∀ path, declared path → path.Spellable) :
    Shows (expr.render Path.placeholder) expr.references := by
  induction h with
  | atom ht =>
    rw [render, references]
    exact .plain ht
  | reference hp =>
    rw [render, references]
    exact .placeholder (hspell _ hp)
  | method _ hn _ ihr iha =>
    rw [render, references]
    simpa using ((((ihr.append (.plain (by decide))).append (.plain hn)).append
      (.plain (by decide))).append (shows_intercalate iha)).append (.plain (by decide))
  | call hf _ iha =>
    rw [render, references]
    simpa using (((Shows.plain hf).append (.plain (by decide))).append
      (shows_intercalate iha)).append (.plain (by decide))
  | array _ ihi =>
    rw [render, references]
    simpa using ((Shows.plain (by decide)).append (shows_intercalate ihi)).append
      (.plain (by decide))
  | spread _ ih =>
    rw [render, references]
    simpa using (Shows.plain (by decide)).append ih

theorem Expr.Safe.declared_of_mem {declared : Path → Prop} {expr : Expr}
    (h : expr.Safe declared) : ∀ path ∈ expr.references, declared path := by
  have hall {items : List Expr} (h : ∀ item ∈ items, ∀ path ∈ item.references, declared path) :
      ∀ path ∈ referencesOf items, declared path := by
    induction items with
    | nil => exact nofun
    | cons item rest ih =>
      obtain ⟨hitem, hrest⟩ := List.forall_mem_cons.mp h
      rw [referencesOf, List.forall_mem_append]
      exact ⟨hitem, ih hrest⟩
  induction h with
  | atom _ => exact nofun
  | reference hp =>
    rw [references]
    exact fun path hm => List.mem_singleton.mp hm ▸ hp
  | method _ _ _ ihr iha =>
    rw [references, List.forall_mem_append]
    exact ⟨ihr, hall iha⟩
  | call _ _ iha =>
    rw [references]
    exact hall iha
  | array _ ihi =>
    rw [references]
    exact hall ihi
  | spread _ ih =>
    rw [references]
    exact ih

theorem Statement.Safe.shows {declared : Path → Prop} {statement : Statement}
    (h : statement.Safe declared) (hspell : ∀ path, declared path → path.Spellable) :
    Shows (statement.render Path.placeholder) statement.expr.references := by
  have hexpr := h.expr.shows hspell
  unfold Statement.render
  split
  · rename_i out hsome
    simpa using (((Shows.plain (by decide)).append (.plain (h.out out hsome))).append
      (.plain (by decide))).append hexpr
  · exact hexpr

/-- **The statements of a program stay on their lines and show their references only.** -/
theorem Outline.statement_lines {document : Json} {program : Program} {converter : Converter}
    {config : Config} {outline : Outline} (hprogram : Program.ofJson document = .ok program)
    (houtline : ofProgram converter config program = .ok outline) :
    ∀ statement ∈ outline.statements, Text.OnOneLine (statement.render Path.placeholder) ∧
      Shows (statement.render Path.placeholder) statement.expr.references := by
  intro statement hm
  have hp := Program.wellFormed_ofJson hprogram
  have hassembled := of_ofProgram hp houtline
  have hsafe := hassembled.statements statement hm
  have hspellable : ∀ path, outline.names.Declares path → path.Spellable := by
    rintro path ⟨name, hname⟩
    exact (hassembled.names.canName path name hname).spellable
  obtain ⟨-, -, names, -, -, hstatements⟩ := ofProgram_eq_ok.mp houtline
  obtain ⟨command, hcommand, scope, hout, hexpr⟩ :=
    exists_command_of_statementsOf hstatements statement hm
  refine ⟨Statement.onOneLine (fun out hsome => ?_) (command.operation.onOneLine_expr hexpr)
    fun path hpath => ?_, hsafe.shows hspellable⟩
  · exact hp.outputs command hcommand out (hout.symm.trans hsome)
  · exact .placeholder (hspellable path (hsafe.expr.declared_of_mem path hpath))

/-! ### Escaping -/

/-- **Escaping is safe and loses nothing.**  An escaped text holds no brace and no end of a line,
and every quote in it stands behind an odd run of backslashes.  Between quotes it is closed by the
last quote and by no other, whatever stands behind it, and what is read there is the text itself; so
different texts are escaped differently.  Put into a line, it leaves one line and adds no
placeholder, and the statements of a program are such lines: each has one line, and its
placeholders are its references. -/
theorem Literal.escape_safe_and_lossless (s : String) :
    (∀ c ∈ (escape s).toList, c ≠ '\x7b' ∧ c ≠ '\x7d' ∧ c ≠ '\n' ∧ c ≠ '\r') ∧
    (∀ before behind, (escape s).toList = before ++ '"' :: behind → Odd (slashRun before)) ∧
    (∀ before behind, (escape s).toList ++ ['"'] = before ++ '"' :: behind →
      (Even (slashRun before) ↔ behind = [])) ∧
    (∀ rest, Script.quoted? ((escape s).toList ++ '"' :: rest)
      = some ((escape s).toList ++ ['"'], rest)) ∧
    unquote? ((escape s).toList ++ ['"']) = some s.toList ∧
    (∀ other, escape other = escape s → other = s) ∧
    (∀ front paths behind, Shows front paths →
      (Text.OnOneLine (front ++ quote s ++ behind) ↔ Text.OnOneLine (front ++ behind)) ∧
      slotPaths (front ++ quote s ++ behind) = slotPaths (front ++ behind)) ∧
    ∀ document program converter config outline, Program.ofJson document = .ok program →
      Outline.ofProgram converter config program = .ok outline →
      ∀ statement ∈ outline.statements, Text.OnOneLine (statement.render Path.placeholder) ∧
        slotPaths (statement.render Path.placeholder) = statement.expr.references := by
  have hlist (s : String) : (escape s).toList = s.toList.flatMap escapedChars :=
    String.toList_ofList
  have hread (s : String) : unquote? ((escape s).toList ++ ['"']) = some s.toList := by
    rw [hlist]
    exact unquote?_escape s.toList
  refine ⟨fun c => of_mem_escape, fun before behind h => ?_, fun before behind h => ?_,
    fun rest => ?_, hread s, fun other hother => ?_, fun front paths behind hfront => ⟨?_, ?_⟩, ?_⟩
  · rw [hlist] at h
    exact odd_slashRun_of_quote h
  · rw [hlist] at h
    exact even_slashRun_iff h
  · rw [hlist]
    exact Script.Lexes.quoted?_escape s.toList rest
  · have hsame := hread other
    rw [hother, hread s] at hsame
    exact String.toList_inj.mp (Option.some.inj hsame).symm
  · simp only [Text.OnOneLine.append_iff, Text.OnOneLine.quote s, and_true]
  · rw [(hfront.append (.plain (not_mem_quote s))) behind, hfront behind, List.append_nil]
  · intro document program converter config outline hprogram houtline statement hm
    obtain ⟨hline, hshows⟩ := Outline.statement_lines hprogram houtline statement hm
    exact ⟨hline, hshows.slotPaths_eq⟩

/-- A text of a backslash, a quote, a placeholder and the end of a line, and a program whose text is
the placeholder of its own input: the statement has the placeholder of its reference only. -/
theorem Literal.escape_safe_and_lossless_quoted :
    escape "\\\"\x7b\x7b a \x7d\x7d\n" = "\\\\\\\"\\u007b\\u007b a \\u007d\\u007d\\n" ∧
    unquote? ((escape "\\\"\x7b\x7b a \x7d\x7d\n").toList ++ ['"'])
      = some "\\\"\x7b\x7b a \x7d\x7d\n".toList ∧
    ∃ program outline statement, Program.ofJson quotedProgram = .ok program ∧
      Outline.ofProgram Value.ofChain {} program = .ok outline ∧
      outline.statements = [statement] ∧
      Text.OnOneLine (statement.render Path.placeholder) ∧
      slotPaths (statement.render Path.placeholder) = [["private", "name"]] := by
  obtain ⟨-, -, -, -, hread, -, -, hstatements⟩ :=
    escape_safe_and_lossless "\\\"\x7b\x7b a \x7d\x7d\n"
  obtain ⟨program, outline, -, hprogram, houtline, -, hreferences⟩ :=
    Outline.exists_of_decide quotedProgram {} (fun _ outline =>
      (outline.statements.map fun statement => statement.expr.references)
        = [[["private", "name"]]]) (by decide +kernel)
  obtain ⟨statement, hone, hpaths⟩ := List.map_eq_singleton_iff.mp hreferences
  obtain ⟨hline, hslots⟩ := hstatements quotedProgram program Value.ofChain {} outline hprogram
    houtline statement (hone ▸ List.mem_singleton_self statement)
  exact ⟨by decide +kernel, hread, program, outline, statement, hprogram, houtline, hone, hline,
    hslots.trans hpaths⟩

end Circuitry
