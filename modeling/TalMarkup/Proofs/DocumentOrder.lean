import Mathlib.Data.List.Nodup
import TalMarkup.Tree.Walk

/-!
# Document order

`Node.descendants` and `Template.descendants` list nodes in document order: a node comes in front of its children,
and each child, with all that is below it, in front of the next one. Here this is said in three ways.

* As a walk, step by step: a `Cursor` keeps the nodes that are still to be visited on a stack. It visits the nodes of
  the list, and then it ends (`Cursor.visits_walk`).
* By recursion on the tree (`Node.walk_eq_preorderAll`).
* By paths, which say which child to go to, level by level. The list leads along all paths there are
  (`Node.map_at?_pathsFrom`), each of them once and in lexicographic order (`Node.pairwise_pathsFrom`), and the paths
  that go on from one path stand together, right behind it (`Node.Together.of_at?`).

**`descendants_inDocumentOrder`** puts these together.
-/

namespace TalMarkup

/-! ## 1. Step by step -/

/-- A walk under way: the nodes still to be visited with all below them, the next one last. -/
structure Cursor where
  pending : Array Node

namespace Cursor

/-- The walk that starts with these nodes. -/
def ofNodes (nodes : List Node) : Cursor := ⟨nodes.reverse.toArray⟩

/-- Visits the next node: takes it off the stack, and pushes its children, the last one first. -/
def next? (cursor : Cursor) : Option (Node × Cursor) :=
  cursor.pending.back?.map fun node => (node, ⟨cursor.pending.pop ++ node.children.reverse⟩)

/-- The walk visits these nodes one after the other, and then it ends. -/
inductive Visits : Cursor → List Node → Prop
  | nil {cursor} (hnext : cursor.next? = none) : Visits cursor []
  | cons {cursor node rest nodes} (hnext : cursor.next? = some (node, rest)) (more : Visits rest nodes) :
      Visits cursor (node :: nodes)

theorem next?_ofNodes_cons (node : Node) (nodes : List Node) :
    (ofNodes (node :: nodes)).next? = some (node, ofNodes (node.children ++ nodes)) := by
  simp [next?, ofNodes]

/-- **A walk visits what is listed for its nodes.** -/
theorem visits_walk (nodes : List Node) : (ofNodes nodes).Visits (Node.walk nodes) := by
  fun_induction Node.walk nodes with
  | case1 => exact .nil rfl
  | case2 node nodes ih => exact .cons (next?_ofNodes_cons node nodes) ih

end Cursor

/-! ## 2. Along paths -/

namespace Node

/-- The node that a path leads to from a node on. -/
def below? (node : Node) : List Nat → Option Node
  | [] => some node
  | i :: path => node.children[i]?.bind (·.below? path)

/-- The node that a path leads to. It goes to one of the nodes first. -/
def at? (nodes : List Node) : List Nat → Option Node
  | [] => none
  | i :: path => nodes[i]?.bind (·.below? path)

mutual

/-- The paths from a node on, to itself and to every node below it. -/
def paths : Node → List (List Nat)
  | .element _ children => [] :: pathsFrom 0 children
  | .leaf _ _ _ => [[]]

/-- The paths to several nodes and to every node below them. The first of the nodes has this index. -/
def pathsFrom (i : Nat) : List Node → List (List Nat)
  | [] => []
  | node :: nodes => node.paths.map (i :: ·) ++ pathsFrom (i + 1) nodes

end

variable {node child below : Node} {nodes : List Node} {i : Nat} {path : List Nat}

theorem paths_eq (node : Node) : node.paths = [] :: pathsFrom 0 node.children := by
  cases node <;> rfl

theorem pathsFrom_append (i : Nat) (a b : List Node) :
    pathsFrom i (a ++ b) = pathsFrom i a ++ pathsFrom (i + a.length) b := by
  induction a generalizing i with
  | nil => rfl
  | cons node a ih =>
    rw [List.cons_append, pathsFrom, pathsFrom, ih, List.append_assoc, List.length_cons, Nat.add_right_comm,
      Nat.add_assoc]

/-- The paths to several nodes begin with the indices of these. -/
theorem exists_of_mem_pathsFrom (h : path ∈ pathsFrom i nodes) :
    ∃ j rest, path = j :: rest ∧ i ≤ j ∧ j < i + nodes.length := by
  induction nodes generalizing i with
  | nil => cases h
  | cons node nodes ih =>
    rw [pathsFrom, List.mem_append, List.mem_map] at h
    rw [List.length_cons]
    rcases h with ⟨rest, -, rfl⟩ | h
    · exact ⟨i, rest, rfl, Nat.le_refl i, by omega⟩
    · obtain ⟨j, rest, rfl, hle, hlt⟩ := ih h
      exact ⟨j, rest, rfl, by omega, by omega⟩

theorem below?_append (node : Node) (path more : List Nat) :
    node.below? (path ++ more) = (node.below? path).bind (·.below? more) := by
  induction path generalizing node with
  | nil => rfl
  | cons i path ih =>
    rw [List.cons_append, below?, below?, Option.bind_assoc]
    exact congrArg (node.children[i]?.bind ·) (funext ih)

theorem at?_append (h : at? nodes path = some node) (more : List Nat) :
    at? nodes (path ++ more) = node.below? more := by
  cases path with
  | nil => cases h
  | cons i path =>
    rw [at?] at h
    rw [List.cons_append, at?]
    obtain ⟨child, hchild, hbelow⟩ := Option.bind_eq_some_iff.1 h
    rw [hchild, Option.bind_some, below?_append, hbelow, Option.bind_some]

/-! ## 3. Paths and nodes -/

mutual

/-- **The paths from a node on lead to the nodes of its list**, one by one. -/
theorem map_below?_paths : ∀ node : Node, node.paths.map node.below? = node.preorder.map some
  | .leaf _ _ _ => rfl
  | .element tag children => by
    have hchildren : (pathsFrom 0 children).map (below? (.element tag children)) =
        (pathsFrom 0 children).map (at? children) := by
      refine List.map_congr_left fun path hpath => ?_
      obtain ⟨j, rest, rfl, -⟩ := exists_of_mem_pathsFrom hpath
      rfl
    rw [paths, preorder, List.map_cons, List.map_cons, hchildren, map_at?_drop children 0 children rfl]
    rfl

/-- The same of several nodes, which are what is left of others from their index on. -/
theorem map_at?_drop : ∀ (nodes : List Node) (i : Nat) (all : List Node), all.drop i = nodes →
    (pathsFrom i nodes).map (at? all) = (preorderAll nodes).map some
  | [], _, _, _ => rfl
  | node :: nodes, i, all, h => by
    have hnode : all[i]? = some node := by rw [← List.head?_drop, h]; rfl
    have hrest : all.drop (i + 1) = nodes := by rw [← List.tail_drop, h]; rfl
    have hpaths : (node.paths.map (i :: ·)).map (at? all) = node.paths.map node.below? := by
      rw [List.map_map]
      exact List.map_congr_left fun path _ => by rw [Function.comp_apply, at?, hnode, Option.bind_some]
    rw [pathsFrom, preorderAll, List.map_append, List.map_append, hpaths, map_below?_paths node,
      map_at?_drop nodes (i + 1) all hrest]

end

/-- **The paths lead to the nodes that are listed**, one by one. -/
theorem map_at?_pathsFrom (nodes : List Node) :
    (pathsFrom 0 nodes).map (at? nodes) = (preorderAll nodes).map some :=
  map_at?_drop nodes 0 nodes rfl

mutual

/-- **The paths from a node on are in lexicographic order.** -/
theorem pairwise_paths : ∀ node : Node, node.paths.Pairwise (· < ·)
  | .leaf _ _ _ => List.pairwise_singleton _ _
  | .element _ children => by
    rw [paths, List.pairwise_cons]
    refine ⟨fun path hpath => ?_, pairwise_pathsFrom 0 children⟩
    obtain ⟨j, rest, rfl, -⟩ := exists_of_mem_pathsFrom hpath
    exact List.nil_lt_cons j rest

theorem pairwise_pathsFrom : ∀ (i : Nat) (nodes : List Node), (pathsFrom i nodes).Pairwise (· < ·)
  | _, [] => List.Pairwise.nil
  | i, node :: nodes => by
    rw [pathsFrom, List.pairwise_append, List.pairwise_map]
    refine ⟨(pairwise_paths node).imp fun hlt => List.cons_lt_cons_iff.2 (Or.inr ⟨rfl, hlt⟩),
      pairwise_pathsFrom (i + 1) nodes, fun path hpath other hother => ?_⟩
    obtain ⟨rest, -, rfl⟩ := List.mem_map.1 hpath
    obtain ⟨j, rest', rfl, hle, -⟩ := exists_of_mem_pathsFrom hother
    exact List.cons_lt_cons_iff.2 (Or.inl hle)

end

/-- No path is met twice. -/
theorem nodup_pathsFrom (nodes : List Node) : (pathsFrom 0 nodes).Nodup := by
  refine (pairwise_pathsFrom 0 nodes).imp ?_
  rintro path _ hlt rfl
  exact List.lt_irrefl path hlt

mutual

theorem length_preorder : ∀ node : Node, node.preorder.length = node.count
  | .leaf _ _ _ => rfl
  | .element _ children => by rw [preorder, List.length_cons, length_preorderAll children, count]

/-- **As many nodes are listed as there are.** -/
theorem length_preorderAll : ∀ nodes : List Node, (preorderAll nodes).length = countAll nodes
  | [] => rfl
  | node :: nodes => by
    rw [preorderAll, List.length_append, length_preorder node, length_preorderAll nodes, countAll]

end

theorem length_paths (node : Node) : node.paths.length = node.count := by
  rw [← List.length_map (f := node.below?), map_below?_paths, List.length_map, length_preorder]

theorem preorderAll_eq_flatMap (nodes : List Node) : preorderAll nodes = nodes.flatMap preorder := by
  induction nodes with
  | nil => rfl
  | cons node nodes ih => rw [preorderAll, ih, List.flatMap_cons]

/-! ## 4. What is below a node stands together -/

/-- Among some paths those that go on from one of them stand together. They go on by these others. -/
def Together (among : List (List Nat)) (path : List Nat) (onward : List (List Nat)) : Prop :=
  ∃ before after, among = before ++ onward.map (path ++ ·) ++ after ∧
    ∀ other ∈ before ++ after, ¬ path <+: other

variable {onward : List (List Nat)}

/-- The paths to several nodes are those to the nodes in front of one, to it, and to the nodes behind it. -/
theorem pathsFrom_eq_of_getElem? (hchild : nodes[i]? = some child) :
    pathsFrom 0 nodes = pathsFrom 0 (nodes.take i) ++
      (child.paths.map (i :: ·) ++ pathsFrom (i + 1) (nodes.drop (i + 1))) := by
  obtain ⟨hi, rfl⟩ := List.getElem?_eq_some_iff.1 hchild
  calc pathsFrom 0 nodes
    _ = pathsFrom 0 (nodes.take i ++ nodes[i] :: nodes.drop (i + 1)) := by
      rw [← List.drop_eq_getElem_cons hi, List.take_append_drop]
    _ = _ := by
      rw [pathsFrom_append, List.length_take_of_le (Nat.le_of_lt hi), Nat.zero_add, pathsFrom]

/-- A path to another node does not go on from a path to this one. -/
theorem not_prefix_of_mem_pathsFrom {j : Nat} {other : List Nat} (h : other ∈ pathsFrom j nodes)
    (hi : i < j ∨ j + nodes.length ≤ i) : ¬ (i :: path) <+: other := by
  intro hprefix
  obtain ⟨k, rest, rfl, hle, hlt⟩ := exists_of_mem_pathsFrom h
  obtain ⟨rfl, -⟩ := List.cons_prefix_cons.1 hprefix
  omega

/-- What stands together among the paths from a child on stands together among those to the children. -/
theorem Together.cons (hchild : nodes[i]? = some child) (h : Together child.paths path onward) :
    Together (pathsFrom 0 nodes) (i :: path) onward := by
  obtain ⟨before, after, hpaths, hother⟩ := h
  have hinside : ∀ rest ∈ before ++ after, ¬ (i :: path) <+: i :: rest := fun rest hrest hprefix =>
    hother rest hrest (List.cons_prefix_cons.1 hprefix).2
  refine ⟨pathsFrom 0 (nodes.take i) ++ before.map (i :: ·),
    after.map (i :: ·) ++ pathsFrom (i + 1) (nodes.drop (i + 1)), ?_, fun other hmem => ?_⟩
  · rw [pathsFrom_eq_of_getElem? hchild, hpaths]
    simp [Function.comp_def]
  · simp only [List.mem_append, List.mem_map] at hmem
    rcases hmem with (hfront | ⟨rest, hrest, rfl⟩) | ⟨rest, hrest, rfl⟩ | hback
    · have hlength := List.length_take_le i nodes
      exact not_prefix_of_mem_pathsFrom hfront (Or.inr (by omega))
    · exact hinside rest (List.mem_append_left _ hrest)
    · exact hinside rest (List.mem_append_right _ hrest)
    · exact not_prefix_of_mem_pathsFrom hback (Or.inl (Nat.lt_succ_self i))

theorem Together.of_below? (h : node.below? path = some below) : Together node.paths path below.paths := by
  induction path generalizing node with
  | nil =>
    cases h
    exact ⟨[], [], by simp, by simp⟩
  | cons i path ih =>
    obtain ⟨child, hchild, hbelow⟩ := Option.bind_eq_some_iff.1 h
    obtain ⟨before, after, hpaths, hother⟩ := Together.cons hchild (ih hbelow)
    refine ⟨[] :: before, after, by rw [paths_eq, hpaths]; rfl, fun other hmem => ?_⟩
    rcases List.mem_cons.1 hmem with rfl | hmem
    · exact fun hprefix => List.cons_ne_nil i path (List.prefix_nil.1 hprefix)
    · exact hother other hmem

/-- **The paths that go on from the path of a node stand together**, and they are the paths from this node on. -/
theorem Together.of_at? (h : at? nodes path = some node) : Together (pathsFrom 0 nodes) path node.paths := by
  cases path with
  | nil => cases h
  | cons i path =>
    obtain ⟨child, hchild, hbelow⟩ := Option.bind_eq_some_iff.1 h
    exact Together.cons hchild (Together.of_below? hbelow)

/-- The places of the paths that stand together are those behind the paths in front of them. -/
theorem prefix_iff_of_together {before after : List (List Nat)} {other : List Nat} {j : Nat}
    (hother : ∀ other ∈ before ++ after, ¬ path <+: other)
    (hj : (before ++ onward.map (path ++ ·) ++ after)[j]? = some other) :
    path <+: other ↔ before.length ≤ j ∧ j < before.length + onward.length := by
  rw [List.append_assoc] at hj
  by_cases hfront : j < before.length
  · rw [List.getElem?_append_left hfront] at hj
    have hnot := hother other (List.mem_append_left _ (List.mem_of_getElem? hj))
    exact iff_of_false hnot fun h => absurd h.1 (Nat.not_le.2 hfront)
  · rw [List.getElem?_append_right (Nat.not_lt.1 hfront)] at hj
    by_cases hinside : j < before.length + onward.length
    · rw [List.getElem?_append_left (by rw [List.length_map]; omega)] at hj
      obtain ⟨more, -, rfl⟩ := List.mem_map.1 (List.mem_of_getElem? hj)
      exact iff_of_true (List.prefix_append path more) ⟨Nat.not_lt.1 hfront, hinside⟩
    · rw [List.getElem?_append_right (by rw [List.length_map]; omega)] at hj
      have hnot := hother other (List.mem_append_right _ (List.mem_of_getElem? hj))
      exact iff_of_false hnot fun h => hinside h.2

/-- **Along the paths every node is met**, and nothing else. -/
theorem mem_pathsFrom_iff : path ∈ pathsFrom 0 nodes ↔ (at? nodes path).isSome := by
  constructor
  · intro hmem
    have hsome := List.mem_map_of_mem (f := at? nodes) hmem
    rw [map_at?_pathsFrom] at hsome
    obtain ⟨node, -, hnode⟩ := List.mem_map.1 hsome
    rw [← hnode]
    rfl
  · intro hsome
    obtain ⟨node, hnode⟩ := Option.isSome_iff_exists.1 hsome
    obtain ⟨before, after, hpaths, -⟩ := Together.of_at? hnode
    rw [hpaths, paths_eq, List.map_cons, List.append_nil]
    exact List.mem_append_left _ (List.mem_append_right _ List.mem_cons_self)

end Node

/-! ## 5. The whole list -/

/-- The list holds these nodes and all nodes below them, in document order. -/
structure InDocumentOrder (roots listed : List Node) : Prop where
  /-- It is the lists of the nodes, one after the other. -/
  eq_flatMap : listed = roots.flatMap Node.preorder
  /-- A walk that starts with the nodes visits those in the list, and then it ends. -/
  visits : (Cursor.ofNodes roots).Visits listed
  length_eq : listed.length = Node.countAll roots
  /-- There is an entry for every path that leads to a node, and it is the node there. -/
  mem_iff : ∀ path, path ∈ Node.pathsFrom 0 roots ↔ (Node.at? roots path).isSome
  at_eq : (Node.pathsFrom 0 roots).map (Node.at? roots) = listed.map some
  /-- The paths are in lexicographic order, so none is met twice. -/
  ordered : (Node.pathsFrom 0 roots).Pairwise (· < ·)
  /-- At the place of a node its own list begins. The paths there are those that go on from its path. -/
  together : ∀ i path node, (Node.pathsFrom 0 roots)[i]? = some path → listed[i]? = some node →
    (listed.drop i).take node.count = node.preorder ∧
      ∀ j other, (Node.pathsFrom 0 roots)[j]? = some other → (path <+: other ↔ i ≤ j ∧ j < i + node.count)

namespace Node

theorem at?_of_getElem? {roots : List Node} {i : Nat} {path : List Nat} {node : Node}
    (hpath : (pathsFrom 0 roots)[i]? = some path) (hnode : (preorderAll roots)[i]? = some node) :
    at? roots path = some node := by
  have hat := congrArg (fun nodes : List (Option Node) => nodes[i]?) (map_at?_pathsFrom roots)
  rw [List.getElem?_map, List.getElem?_map, hpath, hnode] at hat
  exact Option.some.inj hat

/-- The list from the place of a node on begins with its own list. -/
theorem take_drop_preorderAll {roots : List Node} {path : List Nat} {node : Node} {before after : List (List Nat)}
    (hat : at? roots path = some node)
    (hpaths : pathsFrom 0 roots = before ++ node.paths.map (path ++ ·) ++ after) :
    ((preorderAll roots).drop before.length).take node.count = node.preorder := by
  have hcount : (node.paths.map (path ++ ·)).length = node.count := by rw [List.length_map, length_paths]
  have honward : ((pathsFrom 0 roots).drop before.length).take node.count = node.paths.map (path ++ ·) := by
    rw [hpaths, List.append_assoc, List.drop_left, ← hcount, List.take_left]
  have hlisted : (((preorderAll roots).drop before.length).take node.count).map some =
      node.preorder.map some := by
    rw [List.map_take, List.map_drop, ← map_at?_pathsFrom, ← map_below?_paths, ← List.map_drop, ← List.map_take,
      honward, List.map_map]
    exact List.map_congr_left fun more _ => at?_append hat more
  exact List.map_injective_iff.2 (fun _ _ => Option.some.inj) hlisted

/-- **What is below a node stands right behind it**, and nothing else does until it ends. -/
theorem together_of_getElem? {roots : List Node} {i : Nat} {path : List Nat} {node : Node}
    (hpath : (pathsFrom 0 roots)[i]? = some path) (hnode : (preorderAll roots)[i]? = some node) :
    ((preorderAll roots).drop i).take node.count = node.preorder ∧
      ∀ j other, (pathsFrom 0 roots)[j]? = some other →
        (path <+: other ↔ i ≤ j ∧ j < i + node.count) := by
  have hat := at?_of_getElem? hpath hnode
  obtain ⟨before, after, hpaths, hother⟩ := Together.of_at? hat
  -- the path is met once, so its place is where those that go on from it begin
  have hplace : (pathsFrom 0 roots)[before.length]? = some path := by
    rw [hpaths, List.append_assoc, List.getElem?_append_right (Nat.le_refl _), Nat.sub_self, paths_eq,
      List.map_cons, List.append_nil]
    rfl
  obtain rfl : i = before.length :=
    (List.getElem?_inj (List.getElem?_eq_some_iff.1 hpath).1 (nodup_pathsFrom roots)).1 (hpath.trans hplace.symm)
  refine ⟨take_drop_preorderAll hat hpaths, fun j other hj => ?_⟩
  rw [hpaths] at hj
  rw [prefix_iff_of_together hother hj, length_paths]

end Node

theorem inDocumentOrder_walk (roots : List Node) : InDocumentOrder roots (Node.walk roots) := by
  rw [Node.walk_eq_preorderAll]
  constructor
  case eq_flatMap => exact Node.preorderAll_eq_flatMap roots
  case visits =>
    rw [← Node.walk_eq_preorderAll]
    exact Cursor.visits_walk roots
  case length_eq => exact Node.length_preorderAll roots
  case mem_iff => exact fun path => Node.mem_pathsFrom_iff
  case at_eq => exact Node.map_at?_pathsFrom roots
  case ordered => exact Node.pairwise_pathsFrom 0 roots
  case together => exact fun i path node hpath hnode => Node.together_of_getElem? hpath hnode

/-- **The descendants of a node are the node and all below it in document order, and those of a template are all its
    nodes.** The list of a node is the node, followed by the lists of its children. -/
theorem descendants_inDocumentOrder :
    (∀ node : Node, InDocumentOrder [node] node.descendants ∧
        node.descendants = node :: node.children.flatMap Node.descendants) ∧
      ∀ template : Template, InDocumentOrder template.children template.descendants := by
  have hpreorder : ∀ node : Node, node.descendants = node.preorder := fun node => by
    rw [Node.descendants, Node.walk_eq_preorderAll, Node.preorderAll, Node.preorderAll, List.append_nil]
  refine ⟨fun node => ⟨inDocumentOrder_walk [node], ?_⟩, fun template => inDocumentOrder_walk template.children⟩
  rw [hpreorder, Node.preorder_eq, Node.preorderAll_eq_flatMap, funext hpreorder]

end TalMarkup
