import Elvis.Bytes

/-!
Suggestions for a mistyped name: the candidates that begin with it or lie within a few edits of it,
closest first.
-/

namespace Elvis

/-- Fills one row of the distance table from the row above it. The row belongs to a beginning of
the first text that ends in `x`; `left` and `diagonal` are the entries before the one to fill. -/
def fillRow (x : UInt8) : Nat → Nat → List Nat → Bytes → List Nat
  | left, diagonal, above :: row, y :: ys =>
      let entry := min (min (above + 1) (left + 1)) (diagonal + if x = y then 0 else 1)
      entry :: fillRow x entry above row ys
  | _, _, _, _ => []

/-- The distances from a text extended by `x` to the beginnings of `b`, from those of the text. -/
def nextRow (b : Bytes) (row : List Nat) (x : UInt8) : List Nat :=
  match row with
  | [] => []
  | first :: rest => (first + 1) :: fillRow x (first + 1) first rest b

/-- The least number of single-byte insertions, deletions and substitutions from `a` to `b`. -/
def editDistance (a b : Bytes) : Nat :=
  (a.foldl (nextRow b) (List.range (b.length + 1))).getLastD 0

/-- 0 for a candidate that begins with a non-empty input, the edit distance otherwise. -/
def score (input candidate : Bytes) : Nat :=
  if !input.isEmpty && input.isPrefixOf candidate then 0 else editDistance input candidate

/-- By score, then by bytes. -/
def closerOrEqual (a b : Nat × Bytes) : Bool :=
  a.1 < b.1 || (a.1 == b.1 && Bytes.le a.2 b.2)

/-- The distinct candidates within the distance, closest first; the input itself and the empty
text are not suggested. The capacity of a list is not modelled: the room that is reserved for
`maxResults` suggestions before any is found is always there. -/
def suggest (input : Bytes) (candidates : List Bytes) (maxResults maxDistance : Nat) :
    List Bytes :=
  let eligible := candidates.filter fun c => !c.isEmpty && c != input
  let scored := eligible.map fun c => (score input c, c)
  let close := (scored.filter fun entry => entry.1 ≤ maxDistance).mergeSort closerOrEqual
  ((close.map Prod.snd).eraseDups).take maxResults

end Elvis
