import Circuitry.Proofs.Names
import Mathlib.Data.List.Basic

/-!
# Reading the signature of a source

A source declares its inputs on lines of their own: the fields of the public input, the types and
names of the parameters.  `Layout.between` reads such a list back from the text of a source, as the
lines between two lines that are known.  Here it is shown to find what the layouts wrote
(`declaredTypes_zkProgram`, `declaredParameters_smartContract` and their like): every entry stands
on one line, and the line in front of a list does not occur before it, nor the line behind a list
in it.
-/

namespace Circuitry.Layout

def textLines (text : String) : List String :=
  (text.toList.splitOn '\n').map String.ofList

/-- The lines of a text behind the first line `opening`, up to the line `closing`. -/
def between (opening closing text : String) : List String :=
  ((textLines text).dropWhile (· != opening)).tail.takeWhile (· != closing)

/-! ### Whole lines -/

/-- A text that consists of the given lines and their ends, whatever stands behind it. -/
def WholeLines (text : String) (head : List String) : Prop :=
  ∀ rest, textLines (text ++ rest) = head ++ textLines rest

namespace WholeLines

theorem append {a b : String} {first second : List String} (ha : WholeLines a first)
    (hb : WholeLines b second) : WholeLines (a ++ b) (first ++ second) := by
  intro rest
  rw [String.append_assoc, ha, hb, List.append_assoc]

theorem newline (text : String) : WholeLines (text ++ "\n") (textLines text) := by
  intro rest
  have htext : (text ++ "\n" ++ rest).toList = text.toList ++ '\n' :: rest.toList := by
    simp [String.toList_append]
  rw [textLines, htext, List.splitOn_append_cons_self, List.map_append]
  rfl

theorem line (text : String) (h : '\n' ∉ text.toList) : WholeLines (text ++ "\n") [text] := by
  have hlines : textLines text = [text] := by
    rw [textLines, List.splitOn_eq_singleton h, List.map_singleton, String.ofList_toList]
  exact hlines ▸ newline text

theorem append_parts {text : String} {head : List String} (h : WholeLines text head)
    (first middle last : String) (hline : '\n' ∉ (first ++ middle ++ last).toList) :
    WholeLines (text ++ first ++ middle ++ (last ++ "\n")) (head ++ [first ++ middle ++ last]) := by
  have hparts := h.append (line _ hline)
  simpa only [String.append_assoc] using hparts

theorem lines {α : Type} {line : α → String} {entries : List α}
    (h : ∀ entry ∈ entries, '\n' ∉ (line entry).toList) :
    WholeLines (Layout.lines line entries) (entries.map line) := by
  induction entries with
  | nil =>
    intro rest
    exact congrArg textLines (String.empty_append)
  | cons entry rest ih =>
    have hentry := WholeLines.line _ (h entry List.mem_cons_self)
    have hrest := ih fun e he => h e (List.mem_cons_of_mem _ he)
    simpa only [Layout.lines, List.map_cons, String.join_cons, List.singleton_append] using
      hentry.append hrest

end WholeLines

def Starts (text : String) (head : List String) : Prop :=
  ∃ front back, text = front ++ back ∧ WholeLines front head

theorem Starts.append {text : String} {head : List String} (h : Starts text head) (rest : String) :
    Starts (text ++ rest) head := by
  obtain ⟨front, back, rfl, hfront⟩ := h
  exact ⟨front, back ++ rest, String.append_assoc, hfront⟩

theorem WholeLines.starts {text : String} {head : List String} (h : WholeLines text head) :
    Starts text head :=
  ⟨text, "", String.append_empty.symm, h⟩

/-- **The lines between two lines are found** where the first of them has no earlier occurrence and
the second none in between. -/
theorem Starts.between_eq {text opening closing : String} {head inside : List String}
    (h : Starts text head) (before : List String)
    (hhead : ∃ after, head = before ++ opening :: (inside ++ closing :: after))
    (hopening : opening ∉ before) (hclosing : closing ∉ inside) :
    between opening closing text = inside := by
  obtain ⟨front, back, rfl, hfront⟩ := h
  obtain ⟨after, rfl⟩ := hhead
  have hbefore : ∀ line ∈ before, (line != opening) = true := by
    intro line hm
    exact bne_iff_ne.mpr fun heq => hopening (heq ▸ hm)
  have hinside : ∀ line ∈ inside, (line != closing) = true := by
    intro line hm
    exact bne_iff_ne.mpr fun heq => hclosing (heq ▸ hm)
  rw [between, hfront, List.append_assoc, List.dropWhile_append_of_pos hbefore, List.cons_append,
    List.dropWhile_cons_of_neg (by simp), List.tail_cons, List.append_assoc,
    List.takeWhile_append_of_pos hinside, List.cons_append, List.takeWhile_cons_of_neg (by simp),
    List.append_nil]

/-! ### The lists of a source -/

/-- The fields that a program declares for its public input. -/
def declaredFields (text : String) : List String :=
  between "export class PublicInput extends Struct(\x7b" "\x7d) \x7b\x7d" text

def declaredTypes (text : String) : List String :=
  between "      privateInputs: [" "      ]," text

def declaredNames (text : String) : List String :=
  between "        publicInput," "      ) \x7b" text

def declaredParameters (methodName text : String) : List String :=
  between ("  @method " ++ methodName ++ "(") "  ) \x7b" text

def fieldLine (spelling : Spelling) (path : Path) : String :=
  "  " ++ spelling.publicField path ++ ": " ++ spelling.type path ++ ","

def typeLine (spelling : Spelling) (path : Path) : String :=
  "        " ++ spelling.type path ++ ","

def nameLine (spelling : Spelling) (path : Path) : String :=
  "        " ++ spelling.name path ++ ","

def parameterLine (spelling : Spelling) (path : Path) : String :=
  "    " ++ spelling.name path ++ ": " ++ spelling.type path ++ ","

def preambleLines (names : List String) : List String :=
  ["import \x7b"] ++ names.map (fun name => "  " ++ name ++ ",") ++ ["\x7d from \"o1js\";", ""]

theorem wholeLines_preamble {names : List String} (h : ∀ name ∈ names, '\n' ∉ name.toList) :
    WholeLines (preamble names) (preambleLines names) := by
  have hnames : WholeLines (lines (fun name => "  " ++ name ++ ",") names)
      (names.map fun name => "  " ++ name ++ ",") := by
    refine .lines fun name hm => ?_
    simp [String.toList_append, h name hm]
  exact ((WholeLines.newline "import \x7b").append hnames).append
    (.newline "\x7d from \"o1js\";\n")

theorem append_comma_ne {text line : String} (h : line.toList.getLast? ≠ some ',') :
    line ≠ text ++ "," := by
  rintro rfl
  exact h (by simp [String.toList_append])

theorem not_mem_name (token : SourceType) : '\n' ∉ token.name.toList := by
  cases token <;> decide

/-- The lines of a program before the types of its private inputs. -/
def linesBeforeTypes (spelling : Spelling) (methodName : String) (paths : List Path) :
    List String :=
  preambleLines imports ++ ["export class PublicInput extends Struct(\x7b"] ++
    (paths.filter fun path => path.isPublic).map (fieldLine spelling) ++
    ["\x7d) \x7b\x7d", "", "export const zkProgram = ZkProgram(\x7b",
      "  publicInput: PublicInput,", "  methods: \x7b"] ++ ["    " ++ methodName ++ ": \x7b"]

theorem not_mem_linesBeforeTypes {spelling : Spelling} {methodName : String} {paths : List Path}
    {line : String} (hfixed : line ∉ preambleLines imports ++
      ["export class PublicInput extends Struct(\x7b", "\x7d) \x7b\x7d", "",
        "export const zkProgram = ZkProgram(\x7b", "  publicInput: PublicInput,",
        "  methods: \x7b"])
    (hfield : ':' ∉ line.toList ∨ line.toList.getLast? ≠ some ',')
    (hmethod : line.toList.getLast? ≠ some '\x7b') :
    line ∉ linesBeforeTypes spelling methodName paths := by
  intro hm
  have hfieldLine : ∀ path, line ≠ fieldLine spelling path := by
    rintro path rfl
    rcases hfield with hcolon | hlast
    · exact hcolon (by simp [fieldLine, String.toList_append])
    · exact append_comma_ne hlast rfl
  have hmethodLine : line ≠ "    " ++ methodName ++ ": \x7b" := by
    rintro rfl
    rw [String.toList_append, List.getLast?_append] at hmethod
    exact hmethod rfl
  simp only [linesBeforeTypes, List.mem_append, List.mem_map, List.mem_singleton] at hm
  rcases hm with (((hm | hm) | ⟨path, -, hm⟩) | hm) | hm
  · exact hfixed (List.mem_append_left _ hm)
  · exact hfixed (List.mem_append_right _ (hm ▸ List.mem_cons_self))
  · exact hfieldLine path hm.symm
  · exact hfixed (List.mem_append_right _ (List.mem_cons_of_mem _ hm))
  · exact hmethodLine hm

section

variable {spelling : Spelling} {methodName : String} {paths : List Path}
  {statements : List Statement} (hmethod : '\n' ∉ methodName.toList)
  (htypes : ∀ path ∈ paths, ∃ token : SourceType, spelling.type path = token.name)
  (hnames : ∀ path ∈ paths, '\n' ∉ (spelling.name path).toList)
include hmethod htypes hnames

/-- **The parameters of a smart contract can be read back.** -/
theorem declaredParameters_smartContract :
    declaredParameters methodName (smartContract spelling methodName paths statements)
      = paths.map (parameterLine spelling) := by
  have hpreamble : WholeLines (preamble (imports ++ contractImports))
      (preambleLines (imports ++ contractImports)) := wholeLines_preamble (by decide)
  have hparameters : WholeLines (lines (fun path =>
      "    " ++ spelling.name path ++ ": " ++ spelling.type path ++ ",") paths)
      (paths.map (parameterLine spelling)) := by
    refine .lines fun path hm => ?_
    obtain ⟨token, htoken⟩ := htypes path hm
    simp [String.toList_append, hnames path hm, htoken, not_mem_name token]
  have hopening : '\n' ∉ ("  @method " ++ methodName ++ "(").toList := by
    simp [String.toList_append, hmethod]
  have hstarts : Starts (smartContract spelling methodName paths statements) _ :=
    hpreamble.append (.line "export class ZkSmartContract extends SmartContract \x7b" (by decide))
      |>.append_parts "  @method " methodName "(" hopening |>.append hparameters
      |>.append (.line "  ) \x7b" (by decide)) |>.starts
      |>.append (block spelling.name 4 statements) |>.append "  \x7d\n" |>.append "\x7d\n"
  refine hstarts.between_eq (preambleLines (imports ++ contractImports) ++
    ["export class ZkSmartContract extends SmartContract \x7b"]) ?_ ?_ ?_
  · exact ⟨[], by simp only [List.append_assoc, List.cons_append, List.nil_append]⟩
  · intro hm
    have hat : '@' ∈ ("  @method " ++ methodName ++ "(").toList := by
      simp [String.toList_append]
    have hall : ∀ line ∈ preambleLines (imports ++ contractImports) ++
        ["export class ZkSmartContract extends SmartContract \x7b"], '@' ∉ line.toList := by
      decide
    exact hall _ hm hat
  · intro hm
    obtain ⟨path, -, hline⟩ := List.mem_map.mp hm
    exact append_comma_ne (by decide) hline.symm

variable (hfields : ∀ path ∈ paths, '\n' ∉ (spelling.publicField path).toList)
include hfields

theorem zkProgram_starts : Starts (zkProgram spelling methodName paths statements)
    (linesBeforeTypes spelling methodName paths ++ ["      privateInputs: ["] ++
      (paths.filter fun path => !path.isPublic).map (typeLine spelling) ++
      ["      ],", "      method(", "        publicInput,"] ++
      (paths.filter fun path => !path.isPublic).map (nameLine spelling) ++
      ["      ) \x7b"]) := by
  have hpreamble : WholeLines (preamble imports) (preambleLines imports) :=
    wholeLines_preamble (by decide)
  have hpublic : WholeLines (lines (fun path =>
      "  " ++ spelling.publicField path ++ ": " ++ spelling.type path ++ ",")
      (paths.filter fun path => path.isPublic))
      ((paths.filter fun path => path.isPublic).map (fieldLine spelling)) := by
    refine .lines fun path hm => ?_
    have hm := (List.mem_filter.mp hm).1
    obtain ⟨token, htoken⟩ := htypes path hm
    simp [String.toList_append, hfields path hm, htoken, not_mem_name token]
  have htypeLines : WholeLines (lines (fun path => "        " ++ spelling.type path ++ ",")
      (paths.filter fun path => !path.isPublic))
      ((paths.filter fun path => !path.isPublic).map (typeLine spelling)) := by
    refine .lines fun path hm => ?_
    obtain ⟨token, htoken⟩ := htypes path (List.mem_filter.mp hm).1
    simp [String.toList_append, htoken, not_mem_name token]
  have hnameLines : WholeLines (lines (fun path => "        " ++ spelling.name path ++ ",")
      (paths.filter fun path => !path.isPublic))
      ((paths.filter fun path => !path.isPublic).map (nameLine spelling)) := by
    refine .lines fun path hm => ?_
    simp [String.toList_append, hnames path (List.mem_filter.mp hm).1]
  have hmethodLine : '\n' ∉ ("    " ++ methodName ++ ": \x7b").toList := by
    simp [String.toList_append, hmethod]
  have hstarts : Starts (zkProgram spelling methodName paths statements) _ :=
    hpreamble.append (.line "export class PublicInput extends Struct(\x7b" (by decide))
      |>.append hpublic |>.append (.newline "\x7d) \x7b\x7d\n")
      |>.append (.line "export const zkProgram = ZkProgram(\x7b" (by decide))
      |>.append (.line "  publicInput: PublicInput," (by decide))
      |>.append (.line "  methods: \x7b" (by decide))
      |>.append_parts "    " methodName ": \x7b" hmethodLine
      |>.append (.line "      privateInputs: [" (by decide)) |>.append htypeLines
      |>.append (.line "      ]," (by decide)) |>.append (.line "      method(" (by decide))
      |>.append (.line "        publicInput," (by decide)) |>.append hnameLines
      |>.append (.line "      ) \x7b" (by decide)) |>.starts
      |>.append (block spelling.name 8 statements) |>.append "      \x7d\n"
      |>.append "    \x7d\n" |>.append "  \x7d\n" |>.append "\x7d);\n"
  -- The closing line of the class comes with the empty line behind it, so these are two lines.
  have htwo : textLines "\x7d) \x7b\x7d\n" = ["\x7d) \x7b\x7d", ""] := rfl
  rw [htwo] at hstarts
  simp only [linesBeforeTypes, List.append_assoc, List.cons_append, List.nil_append] at hstarts ⊢
  exact hstarts

theorem declaredFields_zkProgram :
    declaredFields (zkProgram spelling methodName paths statements)
      = (paths.filter fun path => path.isPublic).map (fieldLine spelling) := by
  refine (zkProgram_starts hmethod htypes hnames hfields).between_eq (preambleLines imports)
    ?_ (by decide) ?_
  · simp only [linesBeforeTypes, List.append_assoc, List.cons_append, List.nil_append]
    exact ⟨_, rfl⟩
  · intro hm
    obtain ⟨path, -, hline⟩ := List.mem_map.mp hm
    exact append_comma_ne (by decide) hline.symm

theorem declaredTypes_zkProgram :
    declaredTypes (zkProgram spelling methodName paths statements)
      = (paths.filter fun path => !path.isPublic).map (typeLine spelling) := by
  refine (zkProgram_starts hmethod htypes hnames hfields).between_eq
    (linesBeforeTypes spelling methodName paths) ?_
    (not_mem_linesBeforeTypes (by decide) (by decide) (by decide)) ?_
  · simp only [List.append_assoc, List.cons_append, List.nil_append]
    exact ⟨_, rfl⟩
  · intro hm
    obtain ⟨path, hpath, hline⟩ := List.mem_map.mp hm
    obtain ⟨token, htoken⟩ := htypes path (List.mem_filter.mp hpath).1
    rw [typeLine, htoken] at hline
    cases token <;> exact absurd hline (by decide)

theorem declaredNames_zkProgram :
    declaredNames (zkProgram spelling methodName paths statements)
      = (paths.filter fun path => !path.isPublic).map (nameLine spelling) := by
  refine (zkProgram_starts hmethod htypes hnames hfields).between_eq
    (linesBeforeTypes spelling methodName paths ++ ["      privateInputs: ["] ++
      (paths.filter fun path => !path.isPublic).map (typeLine spelling) ++
      ["      ],", "      method("]) ?_ ?_ ?_
  · simp only [List.append_assoc, List.cons_append, List.nil_append]
    exact ⟨_, rfl⟩
  · intro hm
    rcases List.mem_append.mp hm with hm | hm
    · rcases List.mem_append.mp hm with hm | hm
      · rcases List.mem_append.mp hm with hm | hm
        · exact not_mem_linesBeforeTypes (by decide) (by decide) (by decide) hm
        · exact absurd hm (by decide)
      · obtain ⟨path, hpath, hline⟩ := List.mem_map.mp hm
        obtain ⟨token, htoken⟩ := htypes path (List.mem_filter.mp hpath).1
        rw [typeLine, htoken] at hline
        cases token <;> exact absurd hline (by decide)
    · exact absurd hm (by decide)
  · intro hm
    obtain ⟨path, -, hline⟩ := List.mem_map.mp hm
    exact append_comma_ne (by decide) hline.symm

end

end Circuitry.Layout
