/-!
# Edit distance

The least number of insertions, deletions and replacements of single characters that turn one
text into another.  The table of distances between their beginnings is built row by row.
-/

namespace FragmentAssembly

/-- The rest of a row.  `corner`, `above` and `left` are the entries around the next one. -/
def distanceRowFrom (c : Char) : List Char → Nat → List Nat → Nat → List Nat
  | d :: ds, corner, above :: row, left =>
    let replaced := corner + if c = d then 0 else 1
    let entry := min replaced (min (above + 1) (left + 1))
    entry :: distanceRowFrom c ds above row entry
  | _, _, _, _ => []

/-- The row for a beginning that is longer by `c`. -/
def distanceRow (target : List Char) (row : List Nat) (c : Char) : List Nat :=
  match row with
  | [] => []
  | first :: row => (first + 1) :: distanceRowFrom c target first row (first + 1)

def editDistance (source target : List Char) : Nat :=
  (source.foldl (distanceRow target) (List.range (target.length + 1))).getLastD 0

end FragmentAssembly
