/-
How much two texts have in common.

The longest piece that both texts hold is matched first, then what is
left of it on both sides, and what is right of it. The similarity of two
texts is the share of their characters that are matched (`Share`), and
`closest` picks the texts most similar to a given one.
-/

namespace ModuleAtlas.Text

-- ============================================================= matching

/-- The number of characters that two texts have in common at their
front. -/
def commonFront : List Char → List Char → Nat
  | a :: as, b :: bs => if a = b then commonFront as bs + 1 else 0
  | _, _ => 0

/-- A piece that two texts share: where it starts in each, and its
length. -/
structure Shared where
  first : Nat
  second : Nat
  length : Nat
  deriving Repr, DecidableEq

/-- The longest piece that two texts share; of several the one that
comes first in the first text, then in the second. -/
def longestShared (a b : List Char) : Shared :=
  let starts := (List.range a.length).flatMap fun i => (List.range b.length).map (i, ·)
  starts.foldl (fun best (i, j) =>
    let length := commonFront (a.drop i) (b.drop j)
    if best.length < length then ⟨i, j, length⟩ else best) ⟨0, 0, 0⟩

/-- The number of characters that are matched, in at most so many
rounds. -/
def matchedWithin : (rounds : Nat) → List Char → List Char → Nat
  | 0, _, _ => 0
  | rounds + 1, a, b =>
    let s := longestShared a b
    if s.length = 0 then 0
    else
      matchedWithin rounds (a.take s.first) (b.take s.second) + s.length +
        matchedWithin rounds (a.drop (s.first + s.length)) (b.drop (s.second + s.length))

/-- The number of characters of the first text that are matched. A round
matches at least one of them. -/
def matched (a b : List Char) : Nat := matchedWithin a.length a b

-- =========================================================== similarity

/-- Twice a number of matched characters over a number of characters. -/
structure Share where
  matched : Nat
  total : Nat
  deriving Repr, DecidableEq

def share (a b : List Char) : Share := ⟨2 * matched a b, a.length + b.length⟩

/-- At least three fifths are matched. -/
def Share.isClose (s : Share) : Bool := 3 * s.total ≤ 5 * s.matched

def Share.le (s t : Share) : Bool := s.matched * t.total ≤ t.matched * s.total

/-- The texts that are close to a given one, at most three, the closest
ones first and equally close ones in reverse order of the texts. -/
def closest (text : String) (candidates : List String) : List String :=
  let scored := candidates.map fun c => (share c.toList text.toList, c)
  let close := scored.filter (·.1.isClose)
  ((close.mergeSort fun (s, c) (t, d) =>
    if s.le t && t.le s then !(c < d) else t.le s).take 3).map Prod.snd

end ModuleAtlas.Text
