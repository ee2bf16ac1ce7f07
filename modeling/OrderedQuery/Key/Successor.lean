import OrderedQuery.Bytes

/-!
# The end of the keys with a common beginning

The keys that begin with a byte string lie together in the bytewise order.  They end right
before `Key.successor?` of that string.
-/

namespace OrderedQuery
namespace Key

/-- The least byte string above all those that begin with `b`: trailing `FF` bytes are
dropped and the last byte left is raised by one.  There is none if every byte is `FF`. -/
def successor? : Bytes → Option Bytes
  | [] => none
  | b :: rest =>
      match successor? rest with
      | some above => some (b :: above)
      | none => if b = 0xFF then none else some [b + 1]

end Key
end OrderedQuery
