/-
Sorting.

Answers show lists in sorted order and, where two entries compare equal, in
the order they came in. Insertion sort does both in one line of structural
recursion, and the lists are short: declarations of a file, entries of a
directory, names of a binding.
-/

set_option autoImplicit false

namespace Provenance

section Sorting

variable {α : Type}

/-- Puts `a` before the first element it does not exceed. -/
def insertBy (cmp : α → α → Ordering) (a : α) : List α → List α
  | [] => [a]
  | b :: rest => if (cmp a b).isLE then a :: b :: rest else b :: insertBy cmp a rest

/-- The list sorted by `cmp`; equal elements keep their order, since an element is put before the
ones that followed it. -/
def sortBy (cmp : α → α → Ordering) : List α → List α
  | [] => []
  | a :: rest => insertBy cmp a (sortBy cmp rest)

/-- The list sorted by the order of a key. -/
def sortOn {κ : Type} [Ord κ] (key : α → κ) (xs : List α) : List α :=
  sortBy (fun a b => compare (key a) (key b)) xs

/-- The list in ascending order. -/
def sorted [Ord α] (xs : List α) : List α := sortBy compare xs

/-- The elements with repetitions removed; the first occurrence stays. -/
def distinct [DecidableEq α] (xs : List α) : List α :=
  xs.foldl (fun seen a => if a ∈ seen then seen else seen ++ [a]) []

end Sorting

end Provenance
