/-!
# Instances of the core library

Larger libraries bring instances of their own for the powers and the zero of natural numbers.
Definitions that are meant to run without them take those of the core library, whatever else is
imported: they open `CoreInstances`, as do proofs about what these definitions compute.
-/

namespace OrderedQuery.CoreInstances

attribute [scoped instance (high)] instPowNat
attribute [scoped instance (high)] Zero.ofOfNat0

end OrderedQuery.CoreInstances
