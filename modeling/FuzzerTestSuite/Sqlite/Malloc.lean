import Mathlib.Init

/-! The allocator SQLite runs on, any call of which may fail. -/
namespace FuzzerTestSuite.Sqlite

/-- Which of the calls of the allocator to come succeed. -/
abbrev Malloc := Nat → Bool

def Malloc.later (mem : Malloc) : Malloc := fun n => mem (n + 1)

/-- No call of the allocator will fail. -/
def Malloc.Granted (mem : Malloc) : Prop := ∀ n, mem n = true

theorem Malloc.Granted.later {mem : Malloc} (h : mem.Granted) : mem.later.Granted := fun n => h (n + 1)

end FuzzerTestSuite.Sqlite
