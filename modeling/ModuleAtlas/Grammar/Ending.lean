/-
Where a statement ends without a semicolon.

A line end ends a statement, unless the next line continues it. A line
that starts with a sign which begins no statement continues the one
before; a bracket does if it can belong to the expression that the line
before ends with. The untyped dialect is stricter about brackets and
laxer about dots.
-/
import ModuleAtlas.Dialect
import ModuleAtlas.Grammar.Text

namespace ModuleAtlas.Grammar

/-- What ends a statement when a semicolon does not; what may continue
it on the next line depends on what it ended with. -/
inductive Ending where
  /-- An expression, which a bracket could continue. -/
  | expression
  /-- The head of a function, which its body could continue. -/
  | signature
  | other
  deriving Repr, DecidableEq

/-- The signs at the start of a line that continue the line before. -/
def continuingSigns (dialect : Dialect) (ending : Ending) : List Char :=
  ['\x60', ',', ';', '*', '%', '>', '<', '=', '?', '^', '|', '&', '/', ':'] ++
    (if dialect == .javascript then ['(', '[']
     else '.' :: (if ending == .expression then ['(', '['] else [])) ++
    (if ending == .signature then ['\x7b'] else [])

/-- Whether the line that ends continues with the token at an index.
Of signs that can begin a statement as well, `++` and `--` begin one,
and so does a negation. -/
def continuesAt (dialect : Dialect) (ending : Ending) (t : Text) (i : Nat) : Bool :=
  let c := t.char i
  let next := t.char (i + 1)
  let isOperatorWord := fun w => t.goesOn i w && !(t.char (i + w.length)).isAlpha
  (continuingSigns dialect ending).contains c ||
    ((c == '+' || c == '-') && next != c) ||
    (c == '!' && next == '=') ||
    (dialect == .javascript && c == '.' && !Text.isDigit next) ||
    isOperatorWord "in".toList || isOperatorWord "instanceof".toList

/-- Whether a statement may end at an index without a semicolon: at the
end of the text, before a closing brace, or at the end of a line that
does not continue. -/
def endsStatement (dialect : Dialect) (ending : Ending) (t : Text) (i : Nat) : Bool :=
  go (t.size + 1 - i) i
where
  go : (fuel : Nat) → Nat → Bool
    | 0, _ => true
    | fuel + 1, i =>
      let c := t.char i
      if t.size ≤ i then true
      else if c == '\x7d' then
        dialect == .javascript || ending == .expression ||
          t.char (t.skipWhile Text.isBreakableSpace (i + 1)) != ':'
      else if c == '\n' || (dialect == .javascript && Text.isLineTerminator c && c != '\r') then
        let (next, _) := t.nextToken i
        next ≥ t.size || !continuesAt dialect ending t next
      else
        match t.commentEnd? i with
        | some j => go fuel j
        | none => Text.isBreakableSpace c && go fuel (i + 1)

end ModuleAtlas.Grammar
