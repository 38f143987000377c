/-!
# Caches that forget what was used least recently

A cache keeps its entries in the order of their last use.  Looking an entry up is a use, and so is
storing it; storing more entries than the cache has room for drops the one whose last use is
longest ago.
-/

namespace LiveTemplate

set_option autoImplicit false

/-- Entries under keys, the one used most recently last. -/
structure Cache (κ α : Type) where
  entries : List (κ × α) := []
  deriving Repr, Inhabited

namespace Cache

variable {κ α : Type} [DecidableEq κ]

/-- The entry under a key. -/
def find? (c : Cache κ α) (key : κ) : Option α := c.entries.lookup key

/-- The number of entries. -/
def size (c : Cache κ α) : Nat := c.entries.length

/-- Makes an entry the one used most recently, in the place of any other under its key. -/
def use (c : Cache κ α) (key : κ) (a : α) : Cache κ α :=
  { entries := c.entries.filter (·.1 != key) ++ [(key, a)] }

/-- Drops the entries used least recently until at most `room` are left. -/
def trim (c : Cache κ α) (room : Nat) : Cache κ α :=
  { entries := c.entries.drop (c.entries.length - room) }

/-- Stores an entry in a cache that has room for `room` of them. -/
def store (c : Cache κ α) (room : Nat) (key : κ) (a : α) : Cache κ α := (c.use key a).trim room

end Cache

end LiveTemplate
