/-
The program.

The file tree is read from the first line of standard input, as an
archive. A file that is saved goes to standard output, as one line of
JSON behind all else, since the tree is not on the disk.
-/
import ModuleAtlas.Archive
import ModuleAtlas.CommandLine
import ModuleAtlas.Grammar.Parse
import ModuleAtlas.Json.Reader

open ModuleAtlas

/-- Runs the command line in the tree on standard input. -/
def main (words : List String) : IO UInt32 := do
  let line ← (← IO.getStdin).getLine
  let archive := Archive.ofJson ((Json.read? line).getD .null)
  let outcome := CommandLine.run Grammar.parse archive.tree archive.now words
  let coloured ← (← IO.getStdout).isTty
  IO.print (outcome.text coloured)
  for warning in outcome.warnings do
    IO.eprintln warning
  match outcome.saved with
  | some (path, content) =>
    IO.println (Json.render .line (.obj [("path", .str path), ("content", .str content)]))
  | none => pure ()
  match outcome.crash with
  | some e => IO.eprintln e.message
  | none => pure ()
  return UInt32.ofNat outcome.exitCode
