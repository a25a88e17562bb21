import TalMarkup.Tree.Node

/-!
# Walking through a tree

`Node.descendants` walks with a stack of the nodes still to be visited: it takes the first, and puts
its children in front of the others. `Node.preorder` lists the same nodes by recursion on the tree
(`Node.walk_eq_preorderAll`).
-/

namespace TalMarkup

mutual

/-- The number of nodes of a tree. -/
def Node.count : Node → Nat
  | .element _ children => Node.countAll children + 1
  | .leaf _ _ _ => 1

/-- The number of nodes of several trees. -/
def Node.countAll : List Node → Nat
  | [] => 0
  | node :: nodes => node.count + Node.countAll nodes

end

mutual

/-- The node, and then for each child in turn that child's list. -/
def Node.preorder : Node → List Node
  | .element tag children => .element tag children :: Node.preorderAll children
  | .leaf kind location value => [.leaf kind location value]

/-- The lists of several nodes, one after the other. -/
def Node.preorderAll : List Node → List Node
  | [] => []
  | node :: nodes => node.preorder ++ Node.preorderAll nodes

end

namespace Node

theorem countAll_append : ∀ a b : List Node, countAll (a ++ b) = countAll a + countAll b
  | [], b => by simp [countAll]
  | node :: a, b => by simp [countAll, countAll_append a b, Nat.add_assoc]

/-- A node counts one more than its children. -/
theorem count_eq (node : Node) : node.count = countAll node.children + 1 := by
  cases node <;> simp [count, children, countAll]

/-- Visits the nodes on the stack, each of them before its children and these before the rest. -/
def walk : List Node → List Node
  | [] => []
  | node :: stack => node :: walk (node.children ++ stack)
termination_by stack => countAll stack
decreasing_by simp only [countAll_append, countAll, count_eq node]; omega

/-- The node and every node below it, in document order. -/
def descendants (node : Node) : List Node := walk [node]

theorem preorder_eq (node : Node) : node.preorder = node :: preorderAll node.children := by
  cases node <;> simp [preorder, children, preorderAll]

theorem preorderAll_append : ∀ a b : List Node, preorderAll (a ++ b) = preorderAll a ++ preorderAll b
  | [], b => rfl
  | node :: a, b => by
    rw [List.cons_append, preorderAll, preorderAll, preorderAll_append a b, List.append_assoc]

/-- **A walk lists the nodes on its stack with all below them, in document order.** -/
theorem walk_eq_preorderAll (stack : List Node) : walk stack = preorderAll stack := by
  fun_induction walk stack with
  | case1 => rw [preorderAll]
  | case2 node stack ih =>
    rw [ih, preorderAll_append, preorderAll, preorder_eq, List.cons_append]

end Node

/-- Every node of the template, in document order. -/
def Template.descendants (template : Template) : List Node := Node.walk template.children

end TalMarkup
