import Circuitry.Compiler
import Circuitry.Proofs.Legibility
import Circuitry.Proofs.Source

/-!
# The names that a method binds and the names that it uses

A source imports the names of constructors and functions, and its statements use them.  The method
binds names of its own: a parameter for the public input, one for every private input, and the
results of commands.  A name that is both imported and bound means the bound value inside the
method, and the import is out of reach there.

Parameters never take an imported name (`Outline.Assembled.not_mem_importedNames`): all of them
start with a letter with which no import starts.  But results are named by the program, and they are
only kept apart from each other and from the parameters.  Whatever else a statement mentions is
imported (`statementsOf_usesImports`), so a result with the name of a constructor takes its place.
-/

namespace Circuitry

open Fallible

/-! ### Names in texts -/

namespace Script

/-- The names in a row of tokens, apart from those of members. -/
def rootNames : List Token → List String
  | [] => []
  | .dot :: .name _ :: rest => rootNames rest
  | .name word :: rest => word :: rootNames rest
  | _ :: rest => rootNames rest

def namesIn (text : String) : List String :=
  rootNames ((lex? text.toList).getD [])

theorem lex?_nil : lex? [] = some [] := by
  rw [lex?]

theorem lex?_name {word : String} (h : IsName word) : lex? word.toList = some [.name word] := by
  have hlex := lex?_word h.1 [] (by simp)
  rwa [List.append_nil, lex?_nil, h.2] at hlex

theorem namesIn_name {word : String} (h : IsName word) : namesIn word = [word] := by
  rw [namesIn, lex?_name h]
  rfl

theorem namesIn_static {function : String} (object name : String)
    (hfunction : function = object ++ "." ++ name) (hobject : IsName object)
    (hname : IsName name) : namesIn function = [object] := by
  have hlist : function.toList = object.toList ++ '.' :: name.toList := by simp [hfunction]
  have hdot : lex? ('.' :: name.toList) = some [.dot, .name name] := by
    rw [lex?_next rfl]
    show (lex? name.toList).map (Token.dot :: ·) = _
    rw [lex?_name hname]
    rfl
  have hboundary : ∀ c ∈ ('.' :: name.toList).head?, Identifier.isPart c = false := by
    simp [Identifier.isPart, Char.isAlphanum]
  rw [namesIn, hlist, lex?_word hobject.1 _ hboundary, hdot, hobject.2]
  rfl

theorem rootNames_signed (negative : Bool) {run : List Char}
    (hfirst : ∃ c rest, run = c :: rest ∧ c.isDigit = true)
    (hchars : ∀ c ∈ run, isNumeralPart c = true) :
    rootNames ((lex? ((if negative then ['-'] else []) ++ run)).getD []) = [] := by
  obtain ⟨c, rest, rfl, hdigit⟩ := hfirst
  have hlex := lex?_numeral hdigit (fun d hd => hchars d (List.mem_cons_of_mem _ hd)) [] (by simp)
  rw [List.append_nil, lex?_nil] at hlex
  cases negative with
  | false =>
    rw [if_neg (by simp), List.nil_append, hlex]
    cases numeralLiteral? (c :: rest) <;> rfl
  | true =>
    rw [if_pos rfl, List.singleton_append, lex?_next rfl]
    show rootNames (((lex? (c :: rest)).map (Token.minus :: ·)).getD []) = []
    rw [hlex]
    cases numeralLiteral? (c :: rest) <;> rfl

end Script

theorem Literal.Written.namesIn_render {literal : Literal} (h : literal.Written) :
    Script.namesIn literal.render = [] := by
  rcases h.kind with ⟨s, rfl⟩ | ⟨b, rfl⟩ | ⟨negative, run, hnumeral⟩
  · rw [Script.namesIn, render, (Script.Lexes.quote s).lex?_eq]
    rfl
  · have hvalid : Identifier.isValid (boolWord b) = true := by cases b <;> decide
    have hlex := Script.lex?_word hvalid [] (by simp)
    rw [List.append_nil, Script.lex?_nil] at hlex
    rw [Script.namesIn, render, hlex]
    cases b <;> rfl
  · rw [Script.namesIn, hnumeral.text]
    exact Script.rootNames_signed negative hnumeral.first hnumeral.chars

/-! ### Names in expressions -/

namespace Expr

mutual

/-- The names that an expression mentions besides its references. -/
def mentions : Expr → List String
  | .atom text => Script.namesIn text
  | .reference _ => []
  | .method receiver _ arguments => receiver.mentions ++ mentionsOf arguments
  | .call function arguments => Script.namesIn function ++ mentionsOf arguments
  | .array items => mentionsOf items
  | .spread list => list.mentions

def mentionsOf : List Expr → List String
  | [] => []
  | item :: rest => item.mentions ++ mentionsOf rest

end

def UsesImports (expr : Expr) : Prop :=
  ∀ name ∈ expr.mentions, name ∈ Layout.imports

theorem mem_mentionsOf {items : List Expr} {name : String} :
    name ∈ mentionsOf items ↔ ∃ item ∈ items, name ∈ item.mentions := by
  induction items with
  | nil => simp [mentionsOf]
  | cons item rest ih => simp [mentionsOf, ih]

namespace UsesImports

variable {items : List Expr}

theorem array (h : ∀ item ∈ items, item.UsesImports) : (Expr.array items).UsesImports := by
  intro name hm
  rw [mentions] at hm
  obtain ⟨item, hitem, hm⟩ := mem_mentionsOf.mp hm
  exact h item hitem name hm

theorem method {receiver : Expr} (hreceiver : receiver.UsesImports) (name : String)
    (h : ∀ item ∈ items, item.UsesImports) : (Expr.method receiver name items).UsesImports := by
  intro other hm
  rw [mentions, List.mem_append] at hm
  rcases hm with hm | hm
  · exact hreceiver other hm
  · obtain ⟨item, hitem, hm⟩ := mem_mentionsOf.mp hm
    exact h item hitem other hm

theorem call {function root : String} (hfunction : Script.namesIn function = [root])
    (hroot : root ∈ Layout.imports) (h : ∀ item ∈ items, item.UsesImports) :
    (Expr.call function items).UsesImports := by
  intro name hm
  rw [mentions, hfunction, List.singleton_append, List.mem_cons] at hm
  rcases hm with rfl | hm
  · exact hroot
  · obtain ⟨item, hitem, hm⟩ := mem_mentionsOf.mp hm
    exact h item hitem name hm

theorem literal {literal : Literal} (h : literal.Written) :
    ∀ item ∈ [Expr.atom literal.render], item.UsesImports := by
  intro item hm name hname
  rw [List.mem_singleton.mp hm, mentions, h.namesIn_render] at hname
  cases hname

end UsesImports

end Expr

theorem Literal.usesImports_construct {token : SourceType} {literal : Literal} {expr : Expr}
    (hliteral : literal.Written) (h : construct token literal = .ok expr) :
    expr.UsesImports := by
  have hquoted {function : String} (object name : String)
      (hfunction : function = object ++ "." ++ name) (hobject : Script.IsName object)
      (hname : Script.IsName name) (himport : object ∈ Layout.imports) (s : String) :
      (Expr.call function [.atom (text s).render]).UsesImports :=
    .call (Script.namesIn_static object name hfunction hobject hname) himport (.literal (.text s))
  have hfield : (Expr.call "Field" [.atom literal.render]).UsesImports :=
    .call (Script.namesIn_name (by decide)) (by decide) (.literal hliteral)
  cases constructed_of_construct h with
  | field => exact hfield
  | uint64 =>
    exact .call (Script.namesIn_static "UInt64" "from" rfl (by decide) (by decide)) (by decide)
      fun item hm => List.mem_singleton.mp hm ▸ hfield
  | @bool _ b _ =>
    exact .call (Script.namesIn_name (by decide)) (by decide) (.literal (.boolean b))
  | signature s => exact hquoted "Signature" "fromBase58" rfl (by decide) (by decide) (by decide) s
  | publicKey s => exact hquoted "PublicKey" "fromBase58" rfl (by decide) (by decide) (by decide) s
  | circuitString =>
    exact hquoted "CircuitString" "fromString" rfl (by decide) (by decide) (by decide)
      literal.content

theorem Link.usesImports_transformExpr {link : Link} {operand expr : Expr}
    (hoperand : operand.UsesImports) (h : link.transformExpr operand = .ok expr) :
    expr.UsesImports := by
  rcases transformExpr_forms h with ⟨name, -, rfl, -⟩ | ⟨rfl, -⟩
  · exact hoperand.method _ (List.forall_mem_nil _)
  · exact .call (Script.namesIn_static "UInt64" "from" rfl (by decide) (by decide)) (by decide)
      fun item hm => List.mem_singleton.mp hm ▸ hoperand

theorem Constant.usesImports_expression {name : String} {constant : Constant}
    (h : Constant.ofName? name = some constant) :
    (Expr.atom constant.expression).UsesImports := by
  have hreads := readsAs_expression h
  obtain ⟨rfl, rfl⟩ := eq_year h
  have hnames : Script.namesIn year.expression = ["Field"] := by
    have hlex := Script.Lexes.lex?_eq hreads
    rw [Expr.render] at hlex
    rw [Script.namesIn, hlex]
    rfl
  intro name hm
  rw [Expr.mentions, hnames] at hm
  rw [List.mem_singleton.mp hm]
  decide

theorem Operation.usesImports_expr {scope : Scope} (operation : Operation) {depth : Nat}
    {expr : Expr} (h : operation.expr scope depth = .ok expr) : expr.UsesImports := by
  refine expr_ind (motive := Expr.UsesImports) (fun hstatic => ?_)
    Constant.usesImports_expression (fun _ name hname => ?_) (fun hitems hassembled => ?_)
    operation h
  · obtain ⟨token, literal, -, hliteral, hconstruct, -⟩ := Literal.staticExpr_cases hstatic
    exact Literal.usesImports_construct (Literal.written_ofStatic hliteral) hconstruct
  · rw [Expr.mentions] at hname
    cases hname
  · cases hassembled with
    | binary operator left right receiver argument =>
      obtain ⟨hreceiver, harguments⟩ := List.forall_mem_cons.mp hitems
      exact hreceiver.method _ harguments
    | assert value expr | not value expr =>
      obtain ⟨hreceiver, hnone⟩ := List.forall_mem_cons.mp hitems
      exact hreceiver.method _ hnone
    | ternary condition whenTrue whenFalse test yes no =>
      exact .call (Script.namesIn_static "Provable" "if" rfl (by decide) (by decide)) (by decide)
        hitems
    | transform value link operand expr hlink =>
      exact Link.usesImports_transformExpr (hitems operand List.mem_cons_self) hlink
    | verifySign algorithm signature message publicKey signed text key =>
      obtain ⟨hsigned, hrest⟩ := List.forall_mem_cons.mp hitems
      obtain ⟨htext, hkey⟩ := List.forall_mem_cons.mp hrest
      have hlist : (Expr.array [text]).UsesImports :=
        .array (List.forall_mem_cons.mpr ⟨htext, nofun⟩)
      exact hsigned.method _ (List.forall_mem_cons.mpr
        ⟨hkey key List.mem_cons_self, List.forall_mem_cons.mpr ⟨hlist, nofun⟩⟩)
    | hash algorithm inputs items =>
      exact .call (Script.namesIn_static "Poseidon" "hash" rfl (by decide) (by decide)) (by decide)
        (List.forall_mem_cons.mpr ⟨.array hitems, nofun⟩)
    | spread value list =>
      intro name hm
      rw [Expr.mentions] at hm
      exact hitems list List.mem_cons_self name hm

theorem statementsOf_usesImports {converter : Converter} {maxDepth : Nat}
    {commands : List Command} {names final : Names} {statements : List Statement}
    (h : statementsOf converter maxDepth commands names = (final, .ok statements)) :
    statements.map (·.out) = commands.map (·.out) ∧
      ∀ statement ∈ statements, statement.expr.UsesImports := by
  induction commands generalizing names statements with
  | nil =>
    cases h
    exact ⟨rfl, nofun⟩
  | cons command rest ih =>
    obtain ⟨expr, next, others, hexpr, -, hrest, rfl⟩ := statementsOf_cons h
    obtain ⟨houts, huses⟩ := ih hrest
    exact ⟨by rw [List.map_cons, List.map_cons, houts],
      List.forall_mem_cons.mpr ⟨command.operation.usesImports_expr hexpr, huses⟩⟩

/-! ### Bound names -/

def Layout.importedNames : Target → List String
  | .zkProgram => imports
  | .smartContract => imports ++ contractImports

theorem Layout.imports_subset (target : Target) :
    ∀ name ∈ imports, name ∈ importedNames target := by
  cases target <;> decide

theorem Layout.exists_append {start text : String} (h : ∃ body, text = start ++ body)
    (more : String) : ∃ body, text ++ more = start ++ body := by
  obtain ⟨body, rfl⟩ := h
  exact ⟨body ++ more, String.append_assoc⟩

theorem Layout.exists_source_eq (target : Target) (spelling : Spelling) (methodName : String)
    (paths : List Path) (statements : List Statement) :
    ∃ body, source target spelling methodName paths statements
      = preamble (importedNames target) ++ body := by
  cases target with
  | zkProgram =>
    change ∃ body, zkProgram spelling methodName paths statements = preamble imports ++ body
    unfold zkProgram
    generalize preamble imports = start
    repeat refine exists_append ?_ _
    exact ⟨"", String.append_empty.symm⟩
  | smartContract =>
    change ∃ body, smartContract spelling methodName paths statements
      = preamble (imports ++ contractImports) ++ body
    unfold smartContract
    generalize preamble (imports ++ contractImports) = start
    repeat refine exists_append ?_ _
    exact ⟨"", String.append_empty.symm⟩

namespace Outline

def parameters (outline : Outline) : Target → List String
  | .zkProgram =>
    publicAccessor :: (outline.paths.filter fun path => !path.isPublic).map outline.spelling.name
  | .smartContract => outline.paths.map outline.spelling.name

/-- The names that the method of a source binds: its parameters and the results of commands. -/
def boundNames (outline : Outline) (target : Target) : List String :=
  outline.parameters target ++ outline.statements.filterMap (·.out)

end Outline

theorem Path.head_identifier {path : Path} (h : Schema.IsVariablePath path)
    (hprivate : path.isPublic = false) : path.identifier.toList.head? = some 'p' := by
  obtain ⟨region, keys, rfl, hregion⟩ := h.region
  obtain rfl : region = privateRegion := by
    rcases Bool.or_eq_true_iff.mp hregion with hr | hr
    · exact beq_iff_eq.mp hr
    · rw [beq_iff_eq.mp hr] at hprivate
      cases hprivate
  have hjoined : ("_".intercalate ((privateRegion :: keys).map Identifier.cleaned)).toList.head?
      = some 'p' := by
    cases keys with
    | nil => decide +kernel
    | cons key rest =>
      have hcleaned : (Identifier.cleaned privateRegion).toList
          = ['p', 'r', 'i', 'v', 'a', 't', 'e'] := by decide +kernel
      rw [List.map_cons, List.map_cons, String.intercalate_cons_cons, String.toList_append,
        String.toList_append, hcleaned]
      rfl
  rw [identifier, Identifier.ofKeys, hjoined]
  exact hjoined

/-- **Parameters are no imports.**  They start with a letter with which no import does. -/
theorem Outline.Assembled.not_mem_importedNames {config : Config} {program : Program}
    {outline : Outline} (h : outline.Assembled config program) (hp : program.WellFormed)
    {name : String} (hname : name ∈ outline.parameters program.target) :
    name ∉ Layout.importedNames program.target := by
  have himports : ∀ target, ∀ other ∈ Layout.importedNames target,
      other.toList.head? ≠ some 'p' := by
    intro target
    cases target <;> decide
  have hprivate {path : Path} (hm : path ∈ outline.paths) (hpath : path.isPublic = false) :
      (outline.spelling.name path).toList.head? = some 'p' := by
    have hvariable : Schema.IsVariablePath path := by
      rw [h.paths] at hm
      obtain ⟨found, hfound⟩ := Tree.mem_leafPaths.mp (Schema.mem_inputPaths hm).1
      exact hp.schema.path path found hfound
    rw [spelling_name (h.inputs path hm), Names.inputName_of_private hpath]
    exact path.head_identifier hvariable hpath
  -- The accessor of the public input and the region of the private ones share their first letter.
  have hhead : name.toList.head? = some 'p' := by
    cases htarget : program.target with
    | zkProgram =>
      rw [htarget, parameters, List.mem_cons] at hname
      rcases hname with rfl | hname
      · decide
      · obtain ⟨path, hm, rfl⟩ := List.mem_map.mp hname
        obtain ⟨hm, hpath⟩ := List.mem_filter.mp hm
        exact hprivate hm (by simpa using hpath)
    | smartContract =>
      rw [htarget, parameters] at hname
      obtain ⟨path, hm, rfl⟩ := List.mem_map.mp hname
      refine hprivate hm ?_
      rw [h.paths, htarget] at hm
      rcases (Schema.mem_inputPaths hm).2 with hzk | hpath
      · cases hzk
      · exact hpath
  exact fun hm => himports program.target name hm hhead

theorem Outline.mem_boundNames {converter : Converter} {config : Config} {program : Program}
    {outline : Outline} (h : ofProgram converter config program = .ok outline) {name : String} :
    name ∈ outline.boundNames program.target ↔ name ∈ outline.parameters program.target ∨
      ∃ command ∈ program.commands, command.out = some name := by
  obtain ⟨-, -, names, -, -, hstatements⟩ := ofProgram_eq_ok.mp h
  have houts := (statementsOf_usesImports hstatements).1
  have hresult : (∃ statement ∈ outline.statements, statement.out = some name) ↔
      ∃ command ∈ program.commands, command.out = some name := by
    rw [← List.mem_map, houts, List.mem_map]
  rw [boundNames, List.mem_append, List.mem_filterMap, hresult]

namespace Compiler

/-- **An import is captured exactly if a result takes its name.**  The source of a program starts
with its imports, and its method binds the parameters and the results of commands.  No parameter is
an import, so bound and imported names are disjoint if and only if no result has an imported name.
What a statement mentions besides its references is imported, and it is bound again in the method if
and only if some result has that name. -/
theorem import_captured_iff {document : Json} {program : Program} {compiler : Compiler}
    {text : String} (hprogram : Program.ofJson document = .ok program)
    (htext : compiler.translate program = .ok text) :
    ∃ outline, Outline.ofProgram compiler.converter compiler.config program = .ok outline ∧
      text = Layout.source program.target outline.spelling compiler.config.methodName outline.paths
        outline.statements ∧
      (∃ body, text = Layout.preamble (Layout.importedNames program.target) ++ body) ∧
      (∀ name ∈ outline.parameters program.target,
        name ∉ Layout.importedNames program.target) ∧
      ((∀ name ∈ outline.boundNames program.target,
          name ∉ Layout.importedNames program.target) ↔
        ∀ command ∈ program.commands, ∀ out, command.out = some out →
          out ∉ Layout.importedNames program.target) ∧
      ∀ statement ∈ outline.statements, ∀ name ∈ statement.expr.mentions,
        name ∈ Layout.importedNames program.target ∧
          (name ∈ outline.boundNames program.target ↔
            ∃ command ∈ program.commands, command.out = some name) := by
  have hp := Program.wellFormed_ofJson hprogram
  obtain ⟨outline, houtline, -⟩ := bind_eq_ok.mp htext
  have hassembled := Outline.of_ofProgram hp houtline
  have hsource : text = Layout.source program.target outline.spelling compiler.config.methodName
      outline.paths outline.statements := by
    have hdirect : compiler.translate program = _ := Program.source_of_assembled houtline hassembled
    rw [htext] at hdirect
    exact Except.ok.inj hdirect
  have hparameters : ∀ name ∈ outline.parameters program.target,
      name ∉ Layout.importedNames program.target :=
    fun name hm => hassembled.not_mem_importedNames hp hm
  refine ⟨outline, houtline, hsource, ?_, hparameters, ?_, ?_⟩
  · rw [hsource]
    exact Layout.exists_source_eq ..
  · constructor
    · intro hdisjoint command hm out hout
      exact hdisjoint out ((Outline.mem_boundNames houtline).mpr (.inr ⟨command, hm, hout⟩))
    · intro hresults name hm
      rcases (Outline.mem_boundNames houtline).mp hm with hm | ⟨command, hm, hout⟩
      · exact hparameters name hm
      · exact hresults command hm name hout
  · obtain ⟨-, -, names, -, -, hstatements⟩ := Outline.ofProgram_eq_ok.mp houtline
    intro statement hm name hname
    have himport := Layout.imports_subset program.target name
      ((statementsOf_usesImports hstatements).2 statement hm name hname)
    refine ⟨himport, (Outline.mem_boundNames houtline).trans (or_iff_right ?_)⟩
    exact fun hparameter => hparameters name hparameter himport

/-- A program that adds a number to an input and gives the result a name. -/
def sumProgram (out : String) : Json :=
  let chain : Json := .array [.string "uint64-mina:field"]
  .object [("target", .string "o1js:zk-program"),
    ("inputSchema", .object [("private", .object [
      ("age", .object [("type", .string "setup"), ("transLinks", chain)])])]),
    ("commands", .array [.object [("add", .object [
      ("in", .array [
        .object [("type", .string "reference"),
          ("path", .array [.string "private", .string "age"])],
        .object [("type", .string "static"), ("value", .ofNat 1), ("transLinks", chain)]]),
      ("out", .string out)])]])]

/-- A result with a name of its own leaves the imports alone. -/
theorem import_captured_iff_sum : ∃ program text outline,
    Program.ofJson (sumProgram "total") = .ok program ∧
      translate {} program = .ok text ∧
      Outline.ofProgram Value.ofChain {} program = .ok outline ∧
      outline.boundNames program.target = ["publicInput", "private_age", "total"] ∧
      ∀ name ∈ outline.boundNames program.target,
        name ∉ Layout.importedNames program.target := by
  obtain ⟨program, outline, text, hprogram, houtline, htext, htarget, hcommands, hbound⟩ :=
    Outline.exists_of_decide (sumProgram "total") {} (fun program outline =>
      program.target = .zkProgram ∧ program.commands.map (·.out) = [some "total"] ∧
        outline.boundNames program.target = ["publicInput", "private_age", "total"])
      (by decide +kernel)
  have htext : translate {} program = .ok text := htext
  obtain ⟨same, hsame, -, -, -, hdisjoint, -⟩ := import_captured_iff hprogram htext
  rw [houtline] at hsame
  cases hsame
  refine ⟨program, text, outline, hprogram, htext, houtline, hbound, hdisjoint.mpr ?_⟩
  intro command hm out hout
  have hmem : some out ∈ program.commands.map (·.out) := List.mem_map.mpr ⟨command, hm, hout⟩
  rw [hcommands] at hmem
  rw [Option.some.inj (List.mem_singleton.mp hmem), htarget]
  decide

/-- **A result can take the name of a constructor.**  The program is accepted, and inside its method
the constructor means the result that it is to make. -/
theorem constructor_captured : ∃ program text outline,
    Program.ofJson (sumProgram "Field") = .ok program ∧
      translate {} program = .ok text ∧
      Outline.ofProgram Value.ofChain {} program = .ok outline ∧
      outline.statements.map (·.render outline.spelling.name)
        = ["const Field = private_age.add(Field(1))"] ∧
      "Field" ∈ outline.boundNames program.target ∧
      "Field" ∈ Layout.importedNames program.target := by
  obtain ⟨program, outline, text, hprogram, houtline, htext, hfacts⟩ :=
    Outline.exists_of_decide (sumProgram "Field") {} (fun program outline =>
      outline.statements.map (·.render outline.spelling.name)
          = ["const Field = private_age.add(Field(1))"] ∧
        "Field" ∈ outline.boundNames program.target ∧
        "Field" ∈ Layout.importedNames program.target) (by decide +kernel)
  exact ⟨program, text, outline, hprogram, htext, houtline, hfacts⟩

end Compiler

end Circuitry
