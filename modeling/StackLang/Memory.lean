import StackLang.Value

/-!
# Memory cells

A flat memory of cells with one value each.  Addresses are indices; cells are handed out from the
end only, so everything allotted since a mark can be given back, and never more than `limit` of
them exist.

* `here_allot?`: allotting cells moves the next address up by their number.
* `fetch?_put`: a store is seen at its own address and at no other.
-/

namespace StackLang

structure CellStore where
  cells : Array Value
  limit : Nat
deriving DecidableEq

namespace CellStore

def empty (limit : Nat) : CellStore :=
  ⟨#[], limit⟩

/-- The address that the next cell will get. -/
def here (m : CellStore) : Nat :=
  m.cells.size

/-- How many more cells can be allotted. -/
def available (m : CellStore) : Nat :=
  m.limit - m.here

/-- The memory with more cells that hold zero, and the address of the first of them. -/
def allot? (m : CellStore) (count : Nat) : Option (Nat × CellStore) :=
  if m.available < count then none
  else some (m.here, { m with cells := m.cells ++ Array.replicate count Value.zero })

/-- The value of a cell. -/
def fetch? (m : CellStore) (address : Nat) : Option Value :=
  m.cells[address]?

/-- Is the address that of an allotted cell? -/
def holds (m : CellStore) (address : Nat) : Bool :=
  address < m.here

/-- The memory with a new value in a cell.  An address that is not allotted changes nothing. -/
def put (m : CellStore) (address : Nat) (v : Value) : CellStore :=
  { m with cells := m.cells.setIfInBounds address v }

/-- The memory without the cells from the mark on. -/
def truncate (m : CellStore) (mark : Nat) : CellStore :=
  { m with cells := m.cells.take mark }

theorem here_allot? {m n : CellStore} {count first : Nat} (h : m.allot? count = some (first, n)) :
    first = m.here ∧ n.here = m.here + count := by
  unfold allot? at h
  split at h
  · cases h
  · cases h
    simp [here]

theorem fetch?_put {m : CellStore} {address : Nat} (h : m.holds address = true) (v : Value)
    (b : Nat) : (m.put address v).fetch? b = if b = address then some v else m.fetch? b := by
  have ha : address < m.cells.size := of_decide_eq_true h
  by_cases hb : b = address
  · simp [fetch?, put, hb, ha]
  · simp [fetch?, put, hb, Ne.symm hb]

@[simp] theorem here_put (m : CellStore) (address : Nat) (v : Value) :
    (m.put address v).here = m.here := by
  simp [put, here]

@[simp] theorem here_truncate (m : CellStore) (mark : Nat) :
    (m.truncate mark).here = min mark m.here := by
  simp [truncate, here]

end CellStore

end StackLang
