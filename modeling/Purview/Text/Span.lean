/-
Byte extents. Every offset the library reports counts UTF-8 bytes from
the start of a text, whatever the characters in it. A `Span` is a
half-open extent: `start` is its first byte and `stop` the first byte
after it.

Offsets are kept in 32 bits, so there are none from `Span.limit` on, and
what would need one is left out by whoever reports it.
-/

namespace Purview

/-- A half-open extent of bytes. -/
structure Span where
  start : Nat
  stop : Nat
deriving DecidableEq

namespace Span

/-- The empty extent at one offset, where something is missing. -/
def empty (offset : Nat) : Span := ⟨offset, offset⟩

/-- The least number that is no offset. -/
def limit : Nat := UInt32.size

end Span

end Purview
