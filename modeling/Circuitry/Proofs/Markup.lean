import Circuitry.Proofs.Template

/-!
# Layouts as marked texts

A layout is written once and spelled in two ways: with placeholders it is a template, with names
and types it is a source.  A mark is what a layout puts on the page: a character of its own, or
the name, type or field of a path.  `HasMarks` says of a text that depends on a spelling that it is
a fixed list of marks, spelled one after the other, and that the scanner finds exactly these marks
in the template.

The texts with this property are closed under everything that layouts are made of, so both layouts
have it (`Layout.hasMarks_source`), as soon as the atoms of the statements hold no opening brace
and their references are among the paths that have names (`Expr.Safe`).
-/

namespace Circuitry

open Template (pieces isInert pieces_inert pieces_placeholder isInert_of_not_mem)

/-- What a layout puts on the page. -/
inductive Mark where
  /-- A character of the layout. -/
  | char (c : Char)
  /-- The name of a path. -/
  | name (path : Path)
  /-- The type of a path. -/
  | type (path : Path)
  /-- The public field of a path. -/
  | publicField (path : Path)

namespace Mark

def spell (spelling : Spelling) : Mark → List Char
  | .char c => [c]
  | .name path => (spelling.name path).toList
  | .type path => (spelling.type path).toList
  | .publicField path => (spelling.publicField path).toList

def piece : Mark → Template.Piece
  | .char c => .char c
  | .name path => .slot path.display.toList
  | .type path => .slot (Template.under typesRoot path).display.toList
  | .publicField path => .slot (Template.under publicFieldsRoot path).display.toList

def Spellable : Mark → Prop
  | .char _ => True
  | .name path | .type path | .publicField path => path.Spellable

end Mark

theorem Path.Spellable.under {path : Path} (h : path.Spellable) {root : String}
    (hroot : Schema.isKey root = true) : (Template.under root path).Spellable where
  ne_nil := List.cons_ne_nil _ _
  keys key hk := by
    rcases List.mem_cons.mp hk with rfl | hk
    · exact hroot
    · exact h.keys key hk

/-- The marks of a text that depends on a spelling.  They are all of a kind, they spell the text,
and the scanner finds them in the template, whatever stands behind it. -/
structure Marks (kind : Mark → Prop) (text : Spelling → String) (marks : List Mark) : Prop where
  kind : ∀ mark ∈ marks, kind mark
  spelled : ∀ spelling, (text spelling).toList = marks.flatMap (Mark.spell spelling)
  scanned : ∀ rest, pieces ((text Template.spelling).toList ++ rest)
    = marks.map Mark.piece ++ pieces rest

def HasMarks (kind : Mark → Prop) (text : Spelling → String) : Prop :=
  ∃ marks, Marks kind text marks

namespace HasMarks

variable {kind : Mark → Prop} {f g : Spelling → String}

/-! ### Closure -/

/-- **Texts in a row keep their marks**: none of them can start in one and end in the next. -/
theorem append (hf : HasMarks kind f) (hg : HasMarks kind g) :
    HasMarks kind fun spelling => f spelling ++ g spelling := by
  obtain ⟨first, hf⟩ := hf
  obtain ⟨second, hg⟩ := hg
  refine ⟨first ++ second, ?_, ?_, ?_⟩
  · intro mark hm
    rcases List.mem_append.mp hm with hm | hm
    · exact hf.kind mark hm
    · exact hg.kind mark hm
  · intro spelling
    rw [String.toList_append, hf.spelled, hg.spelled, List.flatMap_append]
  · intro rest
    rw [String.toList_append, List.append_assoc, hf.scanned, hg.scanned, List.map_append,
      List.append_assoc]

variable (hkind : ∀ c, kind (.char c))
include hkind

theorem text {s : String} (h : isInert s.toList = true) : HasMarks kind fun _ => s := by
  refine ⟨s.toList.map .char, ?_, ?_, ?_⟩
  · intro mark hm
    obtain ⟨c, -, rfl⟩ := List.mem_map.mp hm
    exact hkind c
  · intro spelling
    rw [List.flatMap_map]
    exact (List.flatMap_singleton' _).symm
  · intro rest
    rw [pieces_inert h, List.map_map]
    rfl

theorem plain {s : String} (h : '\x7b' ∉ s.toList) : HasMarks kind fun _ => s :=
  text hkind (isInert_of_not_mem h)

omit hkind

variable {path : Path}

theorem name (hname : kind (.name path)) (h : path.Spellable) :
    HasMarks kind fun spelling => spelling.name path := by
  refine ⟨[.name path], by simpa using hname, ?_, pieces_placeholder h⟩
  intro spelling
  exact (List.flatMap_singleton _ _).symm

theorem type (htype : kind (.type path)) (h : path.Spellable) :
    HasMarks kind fun spelling => spelling.type path := by
  refine ⟨[.type path], by simpa using htype, ?_, pieces_placeholder (h.under (by decide))⟩
  intro spelling
  exact (List.flatMap_singleton _ _).symm

theorem publicField (hfield : kind (.publicField path)) (h : path.Spellable) :
    HasMarks kind fun spelling => spelling.publicField path := by
  refine ⟨[.publicField path], by simpa using hfield, ?_, pieces_placeholder (h.under (by decide))⟩
  intro spelling
  exact (List.flatMap_singleton _ _).symm

include hkind

theorem lines {α : Type} {line : Spelling → α → String} {entries : List α}
    (h : ∀ entry ∈ entries, HasMarks kind fun spelling => line spelling entry) :
    HasMarks kind fun spelling => Layout.lines (line spelling) entries := by
  induction entries with
  | nil => exact text hkind rfl
  | cons entry rest ih =>
    have hrest := ih fun e he => h e (List.mem_cons_of_mem _ he)
    have hline := (h entry List.mem_cons_self).append (text hkind (s := "\n") rfl)
    simpa only [Layout.lines, List.map_cons, String.join_cons] using hline.append hrest

end HasMarks

/-! ### Expressions and statements -/

/-- An expression whose own texts hold no opening brace, and whose references are to declared
paths. -/
inductive Expr.Safe (declared : Path → Prop) : Expr → Prop
  | atom {text : String} : '\x7b' ∉ text.toList → Safe declared (.atom text)
  | reference {path : Path} : declared path → Safe declared (.reference path)
  | method {receiver : Expr} {name : String} {arguments : List Expr} :
      Safe declared receiver → '\x7b' ∉ name.toList →
      (∀ argument ∈ arguments, Safe declared argument) →
      Safe declared (.method receiver name arguments)
  | call {function : String} {arguments : List Expr} :
      '\x7b' ∉ function.toList → (∀ argument ∈ arguments, Safe declared argument) →
      Safe declared (.call function arguments)
  | array {items : List Expr} :
      (∀ item ∈ items, Safe declared item) → Safe declared (.array items)
  | spread {list : Expr} : Safe declared list → Safe declared (.spread list)

/-- A safe expression whose value has a name without opening braces. -/
structure Statement.Safe (declared : Path → Prop) (statement : Statement) : Prop where
  out : ∀ name, statement.out = some name → '\x7b' ∉ name.toList
  expr : statement.expr.Safe declared

theorem Expr.Safe.mono {declared declared' : Path → Prop} {expr : Expr}
    (h : expr.Safe declared) (hsub : ∀ path, declared path → declared' path) :
    expr.Safe declared' := by
  induction h with
  | atom ht => exact .atom ht
  | reference hp => exact .reference (hsub _ hp)
  | method _ hn _ ihr iha => exact .method ihr hn iha
  | call hf _ iha => exact .call hf iha
  | array _ ihi => exact .array ihi
  | spread _ ih => exact .spread ih

theorem Expr.renderAll_eq_map (spell : Path → String) (items : List Expr) :
    renderAll spell items = items.map (render spell) := by
  induction items with
  | nil => rfl
  | cons item rest ih => rw [renderAll, ih, List.map_cons]

/-- **The text of a safe expression depends on the spelling of declared paths only.** -/
theorem Expr.Safe.render_congr {declared : Path → Prop} {spell other : Path → String}
    {expr : Expr} (h : expr.Safe declared)
    (hspell : ∀ path, declared path → spell path = other path) :
    expr.render spell = expr.render other := by
  have hall {items : List Expr} (h : ∀ item ∈ items, item.render spell = item.render other) :
      renderAll spell items = renderAll other items := by
    rw [renderAll_eq_map, renderAll_eq_map]
    exact List.map_congr_left h
  induction h with
  | atom _ => simp only [render]
  | reference hp => simp only [render, hspell _ hp]
  | method _ _ _ ihr iha => simp only [render, ihr, hall iha]
  | call _ _ iha => simp only [render, hall iha]
  | array _ ihi => simp only [render, hall ihi]
  | spread _ ih => simp only [render, ih]

theorem Statement.Safe.render_congr {declared : Path → Prop} {spell other : Path → String}
    {statement : Statement} (h : statement.Safe declared)
    (hspell : ∀ path, declared path → spell path = other path) :
    statement.render spell = statement.render other := by
  rw [Statement.render, Statement.render, h.expr.render_congr hspell]

section

variable {kind : Mark → Prop} (hkind : ∀ c, kind (.char c))
  (hspell : ∀ mark, kind mark → mark.Spellable)
include hkind

theorem Expr.hasMarks_intercalate {items : List Expr}
    (h : ∀ item ∈ items, HasMarks kind fun spelling => item.render spelling.name) :
    HasMarks kind fun spelling => ", ".intercalate (Expr.renderAll spelling.name items) := by
  induction items with
  | nil => simpa only [Expr.renderAll, String.intercalate_nil] using HasMarks.text hkind rfl
  | cons item rest ih =>
    have hitem := h item List.mem_cons_self
    have hrest := ih fun e he => h e (List.mem_cons_of_mem _ he)
    cases rest with
    | nil => simpa only [Expr.renderAll, String.intercalate_singleton] using hitem
    | cons next rest =>
      simp only [Expr.renderAll, String.intercalate_cons_cons] at hrest ⊢
      exact (hitem.append (.text hkind rfl)).append hrest

include hspell

/-- **A safe expression consists of the characters of its texts and the names of its
references.** -/
theorem Expr.Safe.hasMarks {expr : Expr} (h : expr.Safe fun path => kind (.name path)) :
    HasMarks kind fun spelling => expr.render spelling.name := by
  induction h with
  | atom ht => simpa only [Expr.render] using HasMarks.plain hkind ht
  | reference hp => simpa only [Expr.render] using HasMarks.name hp (hspell _ hp)
  | method _ hn _ ihr iha =>
    simp only [Expr.render]
    exact ((((ihr.append (.text hkind rfl)).append (.plain hkind hn)).append
      (.text hkind rfl)).append (hasMarks_intercalate hkind iha)).append (.text hkind rfl)
  | call hf _ iha =>
    simp only [Expr.render]
    exact (((HasMarks.plain hkind hf).append (.text hkind rfl)).append
      (hasMarks_intercalate hkind iha)).append (.text hkind rfl)
  | array _ ihi =>
    simp only [Expr.render]
    exact ((HasMarks.text hkind rfl).append (hasMarks_intercalate hkind ihi)).append
      (.text hkind rfl)
  | spread _ ih =>
    simp only [Expr.render]
    exact (HasMarks.text hkind rfl).append ih

theorem Statement.Safe.hasMarks {statement : Statement}
    (h : statement.Safe fun path => kind (.name path)) :
    HasMarks kind fun spelling => statement.render spelling.name := by
  have hexpr := h.expr.hasMarks hkind hspell
  unfold Statement.render
  cases hout : statement.out with
  | none => exact hexpr
  | some name =>
    exact (((HasMarks.text hkind rfl).append (.plain hkind (h.out name hout))).append
      (.text hkind rfl)).append hexpr

namespace Layout

omit hspell in
theorem hasMarks_preamble {names : List String} (h : ∀ name ∈ names, '\x7b' ∉ name.toList) :
    HasMarks kind fun _ => preamble names := by
  have hnames : HasMarks kind fun _ => lines (fun name => "  " ++ name ++ ",") names :=
    HasMarks.lines hkind fun name hm =>
      ((HasMarks.text hkind rfl).append (.plain hkind (h name hm))).append (.text hkind rfl)
  exact ((HasMarks.text hkind rfl).append hnames).append (.text hkind rfl)

theorem hasMarks_block (indent : Nat) {statements : List Statement}
    (h : ∀ statement ∈ statements, statement.Safe fun path => kind (.name path)) :
    HasMarks kind fun spelling => block spelling.name indent statements := by
  have hspaces : '\x7b' ∉ (String.ofList (List.replicate indent ' ')).toList := by
    rw [String.toList_ofList]
    intro hm
    exact absurd (List.eq_of_mem_replicate hm) (by decide)
  exact HasMarks.lines hkind fun statement hm =>
    (HasMarks.plain hkind hspaces).append ((h statement hm).hasMarks hkind hspell)

variable {methodName : String} {paths : List Path} {statements : List Statement}
  (hmethod : '\x7b' ∉ methodName.toList)
  (hpaths : ∀ path ∈ paths, kind (.name path) ∧ kind (.type path))
  (hstatements : ∀ statement ∈ statements, statement.Safe fun path => kind (.name path))
include hmethod hpaths hstatements

theorem hasMarks_zkProgram
    (hfields : ∀ path ∈ paths, path.isPublic = true → kind (.publicField path)) :
    HasMarks kind fun spelling => zkProgram spelling methodName paths statements := by
  have hpreamble : HasMarks kind fun _ => preamble imports :=
    hasMarks_preamble hkind (by decide)
  have hpublic : HasMarks kind fun spelling =>
      lines (fun path => "  " ++ spelling.publicField path ++ ": " ++ spelling.type path ++ ",")
        (paths.filter fun path => path.isPublic) := by
    refine HasMarks.lines hkind fun path hm => ?_
    obtain ⟨hm, hp⟩ := List.mem_filter.mp hm
    have hfield := hfields path hm hp
    have htype := (hpaths path hm).2
    exact (((((HasMarks.text hkind rfl).append (.publicField hfield (hspell _ hfield))).append
      (.text hkind rfl)).append (.type htype (hspell _ htype))).append (.text hkind rfl))
  have htypes : HasMarks kind fun spelling =>
      lines (fun path => "        " ++ spelling.type path ++ ",")
        (paths.filter fun path => !path.isPublic) := by
    refine HasMarks.lines hkind fun path hm => ?_
    have htype := (hpaths path (List.mem_filter.mp hm).1).2
    exact ((HasMarks.text hkind rfl).append (.type htype (hspell _ htype))).append
      (.text hkind rfl)
  have hnames : HasMarks kind fun spelling =>
      lines (fun path => "        " ++ spelling.name path ++ ",")
        (paths.filter fun path => !path.isPublic) := by
    refine HasMarks.lines hkind fun path hm => ?_
    have hname := (hpaths path (List.mem_filter.mp hm).1).1
    exact ((HasMarks.text hkind rfl).append (.name hname (hspell _ hname))).append
      (.text hkind rfl)
  have hblock := hasMarks_block hkind hspell 8 hstatements
  have htext {s : String} (h : isInert s.toList = true) : HasMarks kind fun _ => s :=
    .text hkind h
  exact hpreamble.append (htext rfl) |>.append hpublic |>.append (htext rfl)
    |>.append (htext rfl) |>.append (htext rfl) |>.append (htext rfl) |>.append (htext rfl)
    |>.append (.plain hkind hmethod) |>.append (htext rfl) |>.append (htext rfl)
    |>.append htypes |>.append (htext rfl) |>.append (htext rfl) |>.append (htext rfl)
    |>.append hnames |>.append (htext rfl) |>.append hblock
    |>.append (htext rfl) |>.append (htext rfl) |>.append (htext rfl) |>.append (htext rfl)

theorem hasMarks_smartContract :
    HasMarks kind fun spelling => smartContract spelling methodName paths statements := by
  have hpreamble : HasMarks kind fun _ => preamble (imports ++ contractImports) :=
    hasMarks_preamble hkind (by decide)
  have hparameters : HasMarks kind fun spelling =>
      lines (fun path => "    " ++ spelling.name path ++ ": " ++ spelling.type path ++ ",")
        paths := by
    refine HasMarks.lines hkind fun path hm => ?_
    obtain ⟨hname, htype⟩ := hpaths path hm
    exact (((((HasMarks.text hkind rfl).append (.name hname (hspell _ hname))).append
      (.text hkind rfl)).append (.type htype (hspell _ htype))).append (.text hkind rfl))
  have hblock := hasMarks_block hkind hspell 4 hstatements
  have htext {s : String} (h : isInert s.toList = true) : HasMarks kind fun _ => s :=
    .text hkind h
  exact hpreamble.append (htext rfl) |>.append (htext rfl) |>.append (.plain hkind hmethod)
    |>.append (htext rfl) |>.append hparameters |>.append (htext rfl) |>.append hblock
    |>.append (htext rfl) |>.append (htext rfl)

theorem hasMarks_source (target : Target) (hfields : target = .zkProgram →
    ∀ path ∈ paths, path.isPublic = true → kind (.publicField path)) :
    HasMarks kind fun spelling => source target spelling methodName paths statements := by
  cases target with
  | zkProgram => exact hasMarks_zkProgram hkind hspell hmethod hpaths hstatements (hfields rfl)
  | smartContract => exact hasMarks_smartContract hkind hspell hmethod hpaths hstatements

end Layout

end

end Circuitry
