/-
What a run shows on the screen.

A text is made of spans, each in a colour or none; whether colours are
shown is decided when the text is written. Paths are shown as seen from
the root of the project.
-/
import ModuleAtlas.Path
import ModuleAtlas.Report

namespace ModuleAtlas.CommandLine

-- ================================================================ spans

inductive Style where
  | plain
  | red
  | green
  | yellow
  | cyan
  | dim
  deriving Repr, DecidableEq

structure Span where
  style : Style
  text : String
  deriving Repr, DecidableEq

/-- The number that switches a style on. -/
def Style.code? : Style → Option Nat
  | plain => none
  | red => some 31
  | green => some 32
  | yellow => some 33
  | cyan => some 36
  | dim => some 2

def Span.write (coloured : Bool) (s : Span) : String :=
  match s.style.code?, coloured with
  | some code, true => s!"\x1b[{code}m" ++ s.text ++ "\x1b[0m"
  | _, _ => s.text

/-- A text that may show colours. -/
abbrev Screen := List Span

def Screen.write (coloured : Bool) (s : Screen) : String :=
  String.join (s.map (·.write coloured))

namespace Screen

/-- A line with a value in a style of its own; the line end has none. -/
def labelled (label : String) (style : Style) (value : String) : Screen :=
  [⟨.plain, label⟩, ⟨style, value⟩, ⟨.plain, "\n"⟩]

/-- A line in one style. -/
def styled (style : Style) (text : String) : Screen := labelled "" style text

def line (text : String) : Screen := styled .plain text

/-- A section, unless it has no items. -/
def unlessEmpty {α : Type} (items : List α) (head : Screen) (shown : α → Screen) : Screen :=
  if items.isEmpty then [] else head ++ items.flatMap shown

/-- The number, with blanks before it up to so many characters. -/
def padded (width n : Nat) : String :=
  let digits := toString n
  String.ofList (List.replicate (width - digits.length) ' ') ++ digits

-- =============================================================== screens

/-- The way around a cycle, back to where it starts. -/
def wayAround (root : String) (c : Cycle) : String :=
  " -> ".intercalate ((c.nodes ++ c.nodes.take 1).map (Path.relative "/" root))

/-- A report, with at most `top` of the unused exports. -/
def ofReport (p : Project) (r : Report) (top : Int) : Screen :=
  let root := p.rootPath
  let seen := Path.relative "/" root
  let found := r.cycles.length
  let depth := r.complexity.meanDepth.text
  styled .cyan s!"\n{root}\n" ++
  line s!"  Files:   {r.totalFiles}" ++
  line s!"  Imports: {r.totalImports}" ++
  line s!"  Exports: {r.totalExports}" ++
  labelled "  Cycles:  " (if found = 0 then .green else .red) (toString found) ++
  (if p.skipped.isEmpty then []
    else labelled "  Skipped: " .yellow (toString p.skipped.length)) ++
  unlessEmpty r.mostImported (line "\nMost imported:")
    (fun m => line s!"  {padded 4 m.count}  {seen m.path}") ++
  unlessEmpty r.cycles.zipIdx (styled .red "\nCircular dependencies:")
    (fun (c, i) => line s!"  {i + 1}. {wayAround root c}") ++
  (if r.unusedExports.isEmpty then []
    else
      styled .yellow s!"\nPotentially unused exports ({r.unusedExports.length}):" ++
      (firstOf top r.unusedExports).flatMap fun name => line s!"  {name}") ++
  unlessEmpty r.isolated (line s!"\nIsolated files ({r.isolated.length}):")
    (fun path => labelled "  " .dim (seen path)) ++
  line s!"\nDependency depth: max {r.complexity.maxDepth}, avg {depth}" ++
  line ""

/-- The cycles of a project. -/
def ofCycles (p : Project) (cycles : List Cycle) : Screen :=
  let seen := Path.relative "/" p.rootPath
  if cycles.isEmpty then styled .green "No circular dependencies found."
  else
    let noun := if cycles.length = 1 then "dependency" else "dependencies"
    styled .red s!"Found {cycles.length} circular {noun}:" ++
    cycles.zipIdx.flatMap fun (c, i) =>
      line s!"  Cycle {i + 1}:" ++
      c.nodes.flatMap fun path => line s!"    - {seen path}"

end Screen

end ModuleAtlas.CommandLine
