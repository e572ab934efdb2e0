/-
Finite sets as strictly increasing lists. `insert` and `union` keep the order,
so that a set is written in the same way however it was built.
-/

namespace ThemeVars.OrderedSet

variable {α : Type _}

/-- The set without `x` in it. -/
def remove [BEq α] (x : α) (set : List α) : List α := set.filter (· != x)

variable [Ord α]

/-- The set with `x` in it. -/
def insert (x : α) : List α → List α
  | [] => [x]
  | y :: ys =>
    match compare x y with
    | .lt => x :: y :: ys
    | .eq => y :: ys
    | .gt => y :: insert x ys

/-- The members of both lists. -/
def union (xs ys : List α) : List α := ys.foldl (fun set y => insert y set) xs

/-- The members of a list, in order and once each. -/
def ofList (xs : List α) : List α := union [] xs

end ThemeVars.OrderedSet
