/-
Glob patterns for names.

# Patterns

A pattern is read once into pieces (`pieces`): `*` for any run of
characters, `?` for any one, `[…]` for one of a set, and every other
character for itself. A `[` without its `]` is an ordinary character.

# Matching

`matchesFrom` answers for all ends of the name at once: from the row of
answers for the later pieces it makes the row for one piece more. So a
name is matched in time proportional to pattern times name, however
many stars the pattern has.

# Sets

In a set, `x-y` is the range from `x` to `y`, and a range that runs
backwards holds nothing. A `!` in front turns the set around. Empty
ranges are dropped before that is looked at: a `!` that only comes first
because of such a drop turns the set around as well, and a range that
started with it is then read as its two other characters.
-/
import ModuleAtlas.Text.Split

namespace ModuleAtlas.Glob

-- ============================================================ patterns

/-- A member of a set: a character, or the characters between two. -/
inductive Member where
  | one (c : Char)
  | range (low high : Char)
  deriving Repr, DecidableEq

/-- The member holds `c`. -/
def Member.holds : Member → Char → Bool
  | one a, c => a == c
  | range low high, c => low ≤ c && c ≤ high

/-- The member is a range that runs backwards. -/
def Member.isBackward : Member → Bool
  | one _ => false
  | range low high => high < low

/-- A piece of a pattern. -/
inductive Piece where
  | run
  | any
  | char (c : Char)
  | set (turned : Bool) (members : List Member)
  deriving Repr, DecidableEq

/-- The characters that one piece stands for; a run stands for none by
itself. -/
def Piece.accepts : Piece → Char → Bool
  | .run, _ => false
  | .any, _ => true
  | .char c, d => c == d
  | .set turned members, d => (members.any (·.holds d)) != turned

-- ================================================================ sets

/-- The members that the text between the brackets lists, empty ranges
included. -/
def members : List Char → List Member
  | a :: '-' :: b :: rest => .range a b :: members rest
  | a :: rest => .one a :: members rest
  | [] => []

/-- The set that remains of an unturned list of members when a leading
`!` that was not in front originally is read as the turn. -/
def turnLate : List Member → Piece
  | .one '!' :: rest => .set true rest
  | .range '!' high :: rest => .set true (.one '-' :: .one high :: rest)
  | members => .set false members

/-- The set with this text between its brackets. -/
def setOf (body : List Char) : Piece :=
  match body with
  | '!' :: rest => .set true ((members rest).filter (!·.isBackward))
  | _ =>
    let all := members body
    let kept := all.filter (!·.isBackward)
    if all.head? = kept.head? then .set false kept else turnLate kept

/-- The text of a set and what follows it, read after its `[`. The
closing bracket is the first `]` that is not the first member. -/
def setText? (s : List Char) : Option (List Char × List Char) :=
  let (front, rest) : List Char × List Char :=
    match s with
    | '!' :: ']' :: rest => (['!', ']'], rest)
    | '!' :: rest => (['!'], rest)
    | ']' :: rest => ([']'], rest)
    | _ => ([], s)
  match Text.aroundFirst ']' rest with
  | none => none
  | some (body, after) => some (front ++ body, after)

-- ============================================================= reading

/-- Reads at most `fuel` pieces. A piece takes at least one character,
so the length of the pattern is enough. -/
def piecesUpTo : (fuel : Nat) → List Char → List Piece
  | 0, _ => []
  | _, [] => []
  | fuel + 1, '*' :: rest => .run :: piecesUpTo fuel rest
  | fuel + 1, '?' :: rest => .any :: piecesUpTo fuel rest
  | fuel + 1, '[' :: rest =>
    match setText? rest with
    | some (body, after) => setOf body :: piecesUpTo fuel after
    | none => .char '[' :: piecesUpTo fuel rest
  | fuel + 1, c :: rest => .char c :: piecesUpTo fuel rest

/-- The pieces of a pattern. -/
def pieces (pattern : String) : List Piece :=
  piecesUpTo pattern.toList.length pattern.toList

-- ============================================================ matching

/-- For a row of answers, one per end of a text, the row that says
whether some later end (or this one) has the answer yes. -/
def orLater : List Bool → List Bool
  | [] => []
  | b :: bs =>
    let later := orLater bs
    (b || later.headD false) :: later

/-- For each end of `name`, the whole of it first, whether the pieces
match that end. -/
def matchesFrom : List Piece → List Char → List Bool
  | [], name => name.map (fun _ => false) ++ [true]
  | .run :: ps, name => orLater (matchesFrom ps name)
  | p :: ps, name =>
    (List.zipWith (fun c later => p.accepts c && later) name (matchesFrom ps name).tail) ++ [false]

/-- Whether the pattern matches the whole name. -/
def accepts (pattern name : String) : Bool :=
  (matchesFrom (pieces pattern) name.toList).headD false

/-- Whether one of the patterns matches the whole name. -/
def anyAccepts (patterns : List String) (name : String) : Bool :=
  patterns.any (accepts · name)

end ModuleAtlas.Glob
