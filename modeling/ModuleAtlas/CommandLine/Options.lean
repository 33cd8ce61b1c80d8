/-
Reading a command line: which words are options, which are their values,
and which are neither.

A word that starts with a hyphen names an option, or several of one
letter each. The value of an option is attached to its word or is the
next word, whatever that looks like. Two hyphens alone end the options.

The words are read one after the other (`Reading.take`), and what they
mean is only checked afterwards, so a word that is no option is reported
before any value that does not fit.
-/
import ModuleAtlas.Text.Quoted
import ModuleAtlas.Text.Similarity
import ModuleAtlas.Text.Split

namespace ModuleAtlas.CommandLine

-- ============================================================= refusals

/-- Why a value does not fit. -/
inductive Misfit where
  | notInteger (text : String)
  | tooSmall (value lowest : Int)
  | notAmong (text : String) (choices : List String)
  | noDirectory (path : String)
  | notDirectory (path : String)
  | notFile (path : String)
  deriving Repr, DecidableEq

/-- Why a command line is refused. -/
inductive Refusal where
  | noSuchOption (name : String) (close : List String)
  | lacksValue (name : String)
  | takesNoValue (name : String)
  | noCommand
  | noSuchCommand (name : String) (close : List String)
  | invalid (parameter : String) (misfit : Misfit)
  | tooMany (words : List String)
  deriving Repr, DecidableEq

def Misfit.message : Misfit → String
  | notInteger text => Text.quoted text ++ " is not a valid integer range."
  | tooSmall value lowest => s!"{value} is not in the range x>={lowest}."
  | notAmong text choices =>
    Text.quoted text ++ " is not one of " ++ ", ".intercalate (choices.map Text.quoted) ++ "."
  | noDirectory path => "Directory " ++ Text.quoted path ++ " does not exist."
  | notDirectory path => "Directory " ++ Text.quoted path ++ " is a file."
  | notFile path => "File " ++ Text.quoted path ++ " is a directory."

/-- The names that may have been meant by one that is not known. -/
def hint (kind : String) : List String → String
  | [] => ""
  | [one] => " Did you mean " ++ Text.quoted one ++ "?"
  | several => " (Possible " ++ kind ++ ": " ++
    ", ".intercalate ((several.mergeSort fun a b => !(b < a)).map Text.quoted) ++ ")"

def Refusal.message : Refusal → String
  | noSuchOption name close =>
    "No such option " ++ Text.quoted name ++ "." ++ hint "options" close
  | lacksValue name => "Option " ++ Text.quoted name ++ " requires an argument."
  | takesNoValue name => "Option " ++ Text.quoted name ++ " does not take a value."
  | noCommand => "Missing command."
  | noSuchCommand name close =>
    "No such command " ++ Text.quoted name ++ "." ++ hint "commands" close
  | invalid parameter misfit => "Invalid value for " ++ parameter ++ ": " ++ misfit.message
  | tooMany words =>
    let noun := if words.length = 1 then "argument" else "arguments"
    "Got unexpected extra " ++ noun ++ " (" ++ " ".intercalate words ++ ")"

-- ============================================================= switches

/-- An option: what it sets, how it is called, and whether a value goes
with it. -/
structure Switch (Setting : Type) where
  setting : Setting
  names : List String
  takesValue : Bool

namespace Switch

variable {Setting : Type}

/-- Whether a name is a long one. -/
def isLong (name : String) : Bool := "--".toList.isPrefixOf name.toList

/-- The switch of this name. -/
def find? (switches : List (Switch Setting)) (name : String) : Option (Switch Setting) :=
  switches.find? (·.names.contains name)

/-- The long names, in order. -/
def longNames (switches : List (Switch Setting)) : List String :=
  (switches.flatMap Switch.names).filter isLong

/-- How a message calls the switch. -/
def title (s : Switch Setting) : String :=
  " / ".intercalate (s.names.map Text.quoted)

end Switch

-- ============================================================== reading

/-- What was read so far: the settings with their values, in order, the
other words, and the option whose value comes next. Once it is `closed`,
every word is one of the others. -/
structure Reading (Setting : Type) where
  given : List (Setting × String)
  words : List String
  awaiting : Option (Setting × String)
  closed : Bool

namespace Reading

variable {Setting : Type}

def start : Reading Setting := ⟨[], [], none, false⟩

def give (r : Reading Setting) (setting : Setting) (value : String) : Reading Setting :=
  { r with given := r.given ++ [(setting, value)] }

/-- Takes the letters of a word that names options of one letter. -/
def takeLetters (switches : List (Switch Setting)) (r : Reading Setting) :
    List Char → Except Refusal (Reading Setting)
  | [] => .ok r
  | c :: cs =>
    let name := String.ofList ['-', c]
    match Switch.find? switches name with
    | none => .error (.noSuchOption name [])
    | some s =>
      if !s.takesValue then takeLetters switches (r.give s.setting "") cs
      else if cs.isEmpty then .ok { r with awaiting := some (s.setting, name) }
      else .ok (r.give s.setting (String.ofList cs))

/-- Takes a word that names an option. -/
def takeOption (switches : List (Switch Setting)) (r : Reading Setting) (word : String) :
    Except Refusal (Reading Setting) :=
  let (name, attached) : String × Option String :=
    match Text.aroundFirst '=' word.toList with
    | some (name, value) => (String.ofList name, some (String.ofList value))
    | none => (word, none)
  match (if Switch.isLong name then Switch.find? switches name else none) with
  | some s =>
    match s.takesValue, attached with
    | true, some value => .ok (r.give s.setting value)
    | true, none => .ok { r with awaiting := some (s.setting, name) }
    | false, some _ => .error (.takesNoValue name)
    | false, none => .ok (r.give s.setting "")
  | none =>
    if Switch.isLong word then
      .error (.noSuchOption name (Text.closest name (Switch.longNames switches)))
    else takeLetters switches r (word.toList.drop 1)

/-- Takes the next word. If options may not stand behind other words,
the first other word closes the reading. -/
def take (switches : List (Switch Setting)) (mixed : Bool) (r : Reading Setting) (word : String) :
    Except Refusal (Reading Setting) :=
  match r.awaiting with
  | some (setting, _) => .ok ({ r with awaiting := none }.give setting word)
  | none =>
    if r.closed then .ok { r with words := r.words ++ [word] }
    else if word = "--" then .ok { r with closed := true }
    else if word.toList.head? == some '-' && word != "-" then takeOption switches r word
    else .ok { r with words := r.words ++ [word], closed := !mixed }

/-- Reads all words. -/
def ofWords (switches : List (Switch Setting)) (mixed : Bool) (words : List String) :
    Except Refusal (Reading Setting) := do
  let r ← words.foldlM (take switches mixed) start
  match r.awaiting with
  | some (_, name) => throw (.lacksValue name)
  | none => return r

variable [BEq Setting]

/-- Whether the setting was made. -/
def has (r : Reading Setting) (setting : Setting) : Bool := r.given.any (·.1 == setting)

/-- All values that the setting was given. -/
def values (r : Reading Setting) (setting : Setting) : List String :=
  (r.given.filter (·.1 == setting)).map Prod.snd

/-- The value that counts: the last one. -/
def value? (r : Reading Setting) (setting : Setting) : Option String :=
  (r.values setting).getLast?

/-- The settings made, each where it was made first. -/
def settings (r : Reading Setting) : List Setting :=
  (r.given.map Prod.fst).foldl (fun seen s => if seen.contains s then seen else seen ++ [s]) []

end Reading

end ModuleAtlas.CommandLine
