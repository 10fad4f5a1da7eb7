import Stencil.Tags

/-!
# The history of a pair of tags

A history starts with the default pair and grows at the top. It is never empty, and its bottom never
changes: `toList_push` and `toList_truncate` describe the two ways in which it is changed, and the
first entry survives both.
-/

namespace Stencil

/-- The pairs that have been in force for one flavor, the default one at the bottom. -/
structure History where
  /-- The default pair. -/
  first : Delims
  /-- The pairs set after it, the oldest first. -/
  later : List Delims := []
deriving DecidableEq, Repr

namespace History

def toList (h : History) : List Delims := h.first :: h.later

def size (h : History) : Nat := h.toList.length

def last (h : History) : Delims := h.later.getLastD h.first

def push (h : History) (tags : Delims) : History := { h with later := h.later ++ [tags] }

/-- Takes pairs off the top until at most `n` are left. The bottom always stays. -/
def truncate (h : History) (n : Nat) : History := { h with later := h.later.take (n - 1) }

/-- The pairs above the lowest `n`. -/
def above (h : History) (n : Nat) : List Delims := h.toList.drop n

@[simp] theorem toList_push (h : History) (tags : Delims) :
    (h.push tags).toList = h.toList ++ [tags] := rfl

@[simp] theorem last_push (h : History) (tags : Delims) : (h.push tags).last = tags := by
  simp [push, last]

@[simp] theorem first_push (h : History) (tags : Delims) : (h.push tags).first = h.first := rfl

@[simp] theorem first_truncate (h : History) (n : Nat) : (h.truncate n).first = h.first := rfl

@[simp] theorem size_push (h : History) (tags : Delims) : (h.push tags).size = h.size + 1 := by
  simp [size]

theorem size_pos (h : History) : 0 < h.size := Nat.succ_pos _

theorem toList_truncate (h : History) {n : Nat} (hn : 0 < n) :
    (h.truncate n).toList = h.toList.take n := by
  obtain ⟨m, rfl⟩ : ∃ m, n = m + 1 := ⟨n - 1, by omega⟩
  rfl

end History

end Stencil
