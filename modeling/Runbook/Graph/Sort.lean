/-!
# Topological order

A depth-first walk that puts each node behind everything it depends on. It finds either an order or a cycle.
-/

namespace Runbook.Sort

/-- Appends a node to the order, after what it depends on. `path` holds the nodes being visited; to meet one of them again is a
cycle. The fuel bounds the length of the path. -/
def visit (deps : String → List String) : Nat → List String → List String → String → Except (List String) (List String)
  | 0, _, order, _ => .ok order
  | fuel + 1, path, order, id =>
    if order.contains id then .ok order
    else if path.contains id then .error (path.dropWhile (· != id) ++ [id])
    else do
      let order ← (deps id).foldlM (visit deps fuel (path ++ [id])) order
      return order ++ [id]

/-- The nodes in an order in which each comes after what it depends on, or a cycle: it starts and ends with one node, and each
node depends on the next. -/
def topological (ids : List String) (deps : String → List String) : Except (List String) (List String) :=
  ids.foldlM (visit deps (ids.length + 1) []) []

end Runbook.Sort
