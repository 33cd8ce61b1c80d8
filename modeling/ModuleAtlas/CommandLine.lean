/-
The program from its command line to what it shows.

A run reads the words of the command line and the file tree. It shows
something, may leave a file in the tree, and ends with an exit code: 0
if all went well, 1 if the run failed or cycles were found that were
asked for, and 2 if the command line was refused.
-/
import ModuleAtlas.CommandLine.Request
import ModuleAtlas.CommandLine.Screen
import ModuleAtlas.Report.Export
import ModuleAtlas.Survey

namespace ModuleAtlas.CommandLine

-- ============================================================= outcomes

/-- What a run left: what it showed and warned about, the file it saved
and the tree with it, and the error of the system that ended it, if one
did. -/
structure Outcome where
  exitCode : Nat
  output : Screen
  warnings : List String
  saved : Option (String × String)
  tree : FileTree
  crash : Option SystemError

/-- The output as text. -/
def Outcome.text (coloured : Bool) (o : Outcome) : String := o.output.write coloured

def version : String := "0.1.0"

def usage : String := "Usage: tsdeps [OPTIONS] COMMAND [ARGS]..."

/-- A run that only shows something. -/
def showing (t : FileTree) (s : Screen) : Outcome := ⟨0, s, [], none, t, none⟩

-- ================================================================= runs

/-- What a run says about its own progress; a run that is not verbose
says no more than warnings. -/
def spoken (verbose : Bool) (log : List LogLine) : List String :=
  (log.filter fun l => verbose || l.level == .warning).map LogLine.render

/-- What a task does with a project. -/
def Task.perform (task : Task) (t : FileTree) (now : String) (p : Project) (said : List String) :
    Outcome :=
  let g := p.itsGraph
  match task with
  | .analyze format output =>
    let text := match format with
      | .json => g.toJson.render (.block 2)
      | .dot => g.toDot
    match output with
    | none => ⟨0, Screen.line text, said, none, t, none⟩
    | some path =>
      let done := s!"Wrote {g.nodes.entries.length} nodes, {g.edgeCount} edges to {path}"
      let content := text ++ "\n"
      match t.save path content.toUTF8.toList with
      | .ok t => ⟨0, [], said ++ [done], some (path, content), t, none⟩
      | .error e => ⟨1, [], said, none, t, some e⟩
  | .report top asJson =>
    let r := p.report top
    let shown := if asJson then Screen.line ((r.toJson now).render (.block 2))
      else Screen.ofReport p r top
    ⟨0, shown, said, none, t, none⟩
  | .cycles => ⟨if g.cycles.isEmpty then 0 else 1, Screen.ofCycles p g.cycles, said, none, t, none⟩

/-- Runs the program in a tree at a time. -/
def run (grammar : Grammar) (t : FileTree) (now : String) (words : List String) : Outcome :=
  if words.isEmpty then ⟨2, [], [usage], none, t, none⟩
  else
    match Request.ofWords t words with
    | .error refusal => ⟨2, [], [usage, "Error: " ++ refusal.message], none, t, none⟩
    | .ok .showVersion => showing t (Screen.line ("tsdeps, version " ++ version))
    | .ok .showHelp => showing t (Screen.line usage)
    | .ok (.run task config root) =>
      match Survey.ofDirectory grammar t config root with
      | .error failure => ⟨1, [], ["Error: " ++ failure.message], none, t, none⟩
      | .ok survey => task.perform t now survey.project (spoken config.verbose survey.log)

end ModuleAtlas.CommandLine
