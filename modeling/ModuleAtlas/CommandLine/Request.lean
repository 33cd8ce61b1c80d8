/-
What a command line asks for.

The words before the command are for the program as a whole, those
behind it for the command. A value is checked where its option came
first, the directory after all options, and surplus words last.
-/
import ModuleAtlas.CommandLine.Options
import ModuleAtlas.Config
import ModuleAtlas.Text.Blank

namespace ModuleAtlas.CommandLine

-- ============================================================= settings

inductive Setting where
  | verbose
  | version
  | help
  | format
  | output
  | top
  | json
  | noJavascript
  | exclude
  | maxDepth
  | workers
  deriving Repr, DecidableEq

inductive Command where
  | analyze
  | report
  | cycles
  deriving Repr, DecidableEq

def Command.name : Command → String
  | analyze => "analyze"
  | report => "report"
  | cycles => "cycles"

def Command.all : List Command := [.analyze, .report, .cycles]

/-- The options of the program. -/
def programSwitches : List (Switch Setting) := [
  ⟨.version, ["--version"], false⟩,
  ⟨.verbose, ["--verbose", "-v"], false⟩,
  ⟨.help, ["--help"], false⟩]

/-- The options of a command. -/
def Command.switches (c : Command) : List (Switch Setting) :=
  (match c with
    | analyze => [⟨.format, ["--format", "-f"], true⟩, ⟨.output, ["-o", "--output"], true⟩]
    | report => [⟨.top, ["--top"], true⟩, ⟨.json, ["--json"], false⟩]
    | cycles => []) ++ [
  ⟨.noJavascript, ["--no-js"], false⟩,
  ⟨.exclude, ["--exclude", "-x"], true⟩,
  ⟨.maxDepth, ["--max-depth"], true⟩,
  ⟨.workers, ["--workers"], true⟩,
  ⟨.help, ["--help"], false⟩]

-- =============================================================== values

/-- A run of digits, in which single underscores may stand. -/
def digits? : List Char → (value : Int) → Option Int
  | [], value => some value
  | '_' :: c :: cs, value => if c.isDigit then digits? (c :: cs) value else none
  | c :: cs, value =>
    if c.isDigit then digits? cs (value * 10 + (c.toNat - '0'.toNat : Nat)) else none

/-- The integer that a text spells, blanks around it aside. -/
def integer? (text : String) : Option Int :=
  let unsigned := fun (cs : List Char) =>
    match cs with
    | c :: _ => if c.isDigit then digits? cs 0 else none
    | [] => none
  match Text.trim text.toList with
  | '-' :: cs => (unsigned cs).map (- ·)
  | '+' :: cs => unsigned cs
  | cs => unsigned cs

/-- The integer that a text spells, if it is not too small. -/
def atLeast (lowest : Int) (text : String) : Except Misfit Int :=
  match integer? text with
  | none => .error (.notInteger text)
  | some n => if n < lowest then .error (.tooSmall n lowest) else .ok n

inductive Format where
  | json
  | dot
  deriving Repr, DecidableEq

def format (text : String) : Except Misfit Format :=
  if text = "json" then .ok .json
  else if text = "dot" then .ok .dot
  else .error (.notAmong text ["json", "dot"])

/-- A path that must lead to a directory. -/
def directory (t : FileTree) (path : String) : Except Misfit String :=
  match t.look path with
  | .ok (some (.dir _)) => .ok path
  | .ok (some _) => .error (.notDirectory path)
  | _ => .error (.noDirectory path)

/-- A path that must not lead to a directory. -/
def outputFile (t : FileTree) (path : String) : Except Misfit String :=
  match t.look path with
  | .ok (some (.dir _)) => .error (.notFile path)
  | _ => .ok (Path.plain path)

-- ============================================================= requests

/-- What a command is to do, and with what. -/
inductive Task where
  | analyze (format : Format) (output : Option String)
  | report (top : Int) (asJson : Bool)
  | cycles
  deriving Repr, DecidableEq

inductive Request where
  | showVersion
  | showHelp
  | run (task : Task) (config : Config) (directory : String)

/-- A value of a setting, or the usual one if none was given. -/
def Reading.valueOr {α : Type} (r : Reading Setting) (s : Setting) (usual : α)
    (check : String → Except Misfit α) : Except Misfit α :=
  match r.value? s with
  | some text => check text
  | none => .ok usual

/-- The choices for the run that the settings make. -/
def configOf (verbose : Bool) (r : Reading Setting) : Except Misfit Config := do
  let usual : Config := {}
  return { usual with
    includeJavascript := !r.has .noJavascript
    excludeDirs := usual.excludeDirs ++ r.values .exclude
    maxDepth := ← r.valueOr .maxDepth usual.maxDepth (atLeast 0)
    verbose := verbose
    workers := ← r.valueOr .workers usual.workers (atLeast 1) }

/-- Whether the value of a setting fits. -/
def checkSetting (t : FileTree) (r : Reading Setting) : Setting → Except Misfit Unit
  | .format => do discard (r.valueOr .format .json format)
  | .output => do discard (r.valueOr .output "" (outputFile t))
  | .top => do discard (r.valueOr .top 10 (atLeast 1))
  | .maxDepth => do discard (r.valueOr .maxDepth 10 (atLeast 0))
  | .workers => do discard (r.valueOr .workers 4 (atLeast 1))
  | _ => return

/-- What a command is to do by its settings. -/
def taskOf (t : FileTree) (r : Reading Setting) : Command → Except Misfit Task
  | .analyze => do
    let output ← r.valueOr .output none fun path => some <$> outputFile t path
    return .analyze (← r.valueOr .format .json format) output
  | .report => do return .report (← r.valueOr .top 10 (atLeast 1)) (r.has .json)
  | .cycles => return .cycles

/-- Refuses a misfit as the value of a parameter. -/
def refused {α : Type} (parameter : String) : Except Misfit α → Except Refusal α
  | .ok a => .ok a
  | .error m => .error (.invalid parameter m)

/-- What the words behind a command ask of it. -/
def Command.request (c : Command) (t : FileTree) (verbose : Bool) (words : List String) :
    Except Refusal Request := do
  let r ← Reading.ofWords c.switches true words
  if r.has .help then return .showHelp
  for s in r.settings do
    let title := ((c.switches.find? (·.setting == s)).map Switch.title).getD ""
    refused title (checkSetting t r s)
  let root ← refused "'[SOURCE_DIR]'" (directory t (r.words.head?.getD "."))
  if 1 < r.words.length then throw (.tooMany (r.words.drop 1))
  return .run (← refused "" (taskOf t r c)) (← refused "" (configOf verbose r)) root

/-- What a command line asks for. A command that does not exist but
looks like an option is first read as one. -/
def Request.ofWords (t : FileTree) (words : List String) : Except Refusal Request := do
  let r ← Reading.ofWords programSwitches false words
  if r.has .version || r.has .help then return early r
  match r.words with
  | [] => throw .noCommand
  | name :: rest =>
    match Command.all.find? (·.name == name) with
    | some c => c.request t (r.has .verbose) rest
    | none =>
      if name.toList.head? == some '-' then
        let again ← Reading.ofWords programSwitches false r.words
        if again.has .version || again.has .help then return early again
      throw (.noSuchCommand name (Text.closest name (Command.all.map Command.name)))
where
  early (r : Reading Setting) : Request :=
    if r.settings.find? (fun s => s == .version || s == .help) == some .help then .showHelp
    else .showVersion

end ModuleAtlas.CommandLine
