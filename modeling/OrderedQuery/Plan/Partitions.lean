import OrderedQuery.Binding.Env

/-!
# Partitions of a range of integers

A range is split into pieces of about the same size.  Their ends are computed in floats:
end `i` of `n` lies `i` steps above the low end, rounded to the nearest integer, a half
going up.  The last end is the high end itself.
-/

namespace OrderedQuery

/-- A parallel map: what is bound in each partition, and where. -/
structure Partitioning where
  partitions : List Binding
  position : Nat

namespace Partitioning

/-- The length of one piece. -/
def step (low high : Int64) (n : Nat) : Binary64 :=
  ((Binary64.ofInt high.toInt).sub (.ofInt low.toInt)).div (.ofInt n)

/-- End `i` of `n` pieces.  A sum beyond 64 bits ends the computation. -/
def boundary (low high : Int64) (n i : Nat) : Except QueryError Int64 :=
  if i = n then .ok high
  else
    let offset := ((step low high n).mul (.ofInt i)).toInt64
    match Value.int64? (low.toInt + offset.toInt) with
    | some b => .ok b
    | none => .error .aborted

/-- The row type of a piece. -/
def pieceType : RowType := .ofFields [.int, .int]

/-- Piece `i` of `n`. -/
def piece (low high : Int64) (n i : Nat) : Except QueryError Binding := do
  let a ← boundary low high n i
  let b ← boundary low high n (i + 1)
  let row ← Row.ofValues pieceType [.int a, .int b]
  .ok (.row row)

/-- The pieces of a range, each a row of its two ends. -/
def keyRanges (low high : Int64) (n : Nat) : Except QueryError (List Binding) :=
  if n = 0 then .error (.plan .zeroPartitions)
  else if high.toInt < low.toInt then
    .error (.plan (.invertedRange low.toInt high.toInt))
  else (List.range n).mapM (piece low high n)

end Partitioning
end OrderedQuery
