import TalMarkup.Proofs.LineLookup
import TalMarkup.Proofs.Pieces
import TalMarkup.Tree.Walk

/-!
# Where nodes are located

A node is located in the line that its piece begins in, however many lines the piece goes over. So in
document order the lines of nodes never go back (`InOrder`).

**`Template.located_of_parse`**: so it is in every template that is read. The lines are lines of the
source, and a look-up in the source's line index leads to the same locations.
-/

namespace TalMarkup

/-! ## 1. Nodes in order -/

/-- The nodes and all below them are located in the file, in lines that never go back, and that come after
    `low` line feeds at least and after `high` at most. -/
structure InOrder (file : String) (low high : Nat) (nodes : List Node) : Prop where
  file_eq : ∀ node ∈ Node.preorderAll nodes, node.location.file = file
  low_lt : ∀ node ∈ Node.preorderAll nodes, low < node.location.line
  le_high : ∀ node ∈ Node.preorderAll nodes, node.location.line ≤ high + 1
  ordered : (Node.preorderAll nodes).Pairwise fun a b => a.location.line ≤ b.location.line

namespace InOrder

variable {file : String} {low mid high : Nat} {nodes others children : List Node}

theorem nil : InOrder file low high [] :=
  ⟨fun _ h => (nomatch h), fun _ h => (nomatch h), fun _ h => (nomatch h), List.Pairwise.nil⟩

theorem mono {low' high' : Nat} (hlow : low' ≤ low) (hhigh : high ≤ high')
    (h : InOrder file low high nodes) : InOrder file low' high' nodes := by
  refine ⟨h.file_eq, fun node hnode => ?_, fun node hnode => ?_, h.ordered⟩
  · exact Nat.lt_of_le_of_lt hlow (h.low_lt node hnode)
  · exact Nat.le_trans (h.le_high node hnode) (Nat.succ_le_succ hhigh)

/-- **Nodes in order may be followed by nodes that are in order behind them.** -/
theorem append (h : InOrder file low mid nodes) (h' : InOrder file mid high others) (hlow : low ≤ mid)
    (hhigh : mid ≤ high) : InOrder file low high (nodes ++ others) := by
  have hfront := h.mono (Nat.le_refl low) hhigh
  have hback := h'.mono hlow (Nat.le_refl high)
  have hall := Node.preorderAll_append nodes others
  constructor
  case file_eq => rw [hall]; exact List.forall_mem_append.2 ⟨hfront.file_eq, hback.file_eq⟩
  case low_lt => rw [hall]; exact List.forall_mem_append.2 ⟨hfront.low_lt, hback.low_lt⟩
  case le_high => rw [hall]; exact List.forall_mem_append.2 ⟨hfront.le_high, hback.le_high⟩
  case ordered =>
    rw [hall, List.pairwise_append]
    refine ⟨h.ordered, h'.ordered, fun a ha b hb => ?_⟩
    have hmid := h.le_high a ha
    have hmid' := h'.low_lt b hb
    omega

/-- **A node comes in front of its children.** -/
theorem single {node : Node} (hlocation : node.location = .after file low)
    (h : InOrder file low high node.children) (hhigh : low ≤ high) : InOrder file low high [node] := by
  have hall : Node.preorderAll [node] = node :: Node.preorderAll node.children := by
    rw [Node.preorderAll, Node.preorderAll, List.append_nil, Node.preorder_eq]
  have hfile : node.location.file = file := by rw [hlocation]; rfl
  have hline : node.location.line = low + 1 := by rw [hlocation]; rfl
  constructor
  case file_eq => rw [hall]; exact List.forall_mem_cons.2 ⟨hfile, h.file_eq⟩
  case low_lt => rw [hall]; exact List.forall_mem_cons.2 ⟨by omega, h.low_lt⟩
  case le_high => rw [hall]; exact List.forall_mem_cons.2 ⟨by omega, h.le_high⟩
  case ordered =>
    rw [hall]
    refine List.pairwise_cons.2 ⟨fun below hbelow => ?_, h.ordered⟩
    have hlow := h.low_lt below hbelow
    omega

/-- A node with its piece, in front of nodes that are in order behind this piece. -/
theorem cons {node : Node} {before piece rest : List Char}
    (hlocation : node.location = .after file (newlines before))
    (hchildren : InOrder file (newlines before) (newlines (before ++ piece)) node.children)
    (h : InOrder file (newlines (before ++ piece)) (newlines (before ++ piece ++ rest)) nodes) :
    InOrder file (newlines before) (newlines (before ++ (piece ++ rest))) (node :: nodes) := by
  have hpiece : newlines before ≤ newlines (before ++ piece) := by simp
  have hrest : newlines (before ++ piece) ≤ newlines (before ++ piece ++ rest) := by simp
  rw [← List.append_assoc]
  exact (single hlocation hchildren hpiece).append h hpiece hrest

end InOrder

/-- **Nodes that are placed in a text are in order**, from its first line to its last. -/
theorem Placed.inOrder {file : String} {before text : List Char} {nodes : List Node}
    (h : Placed file before nodes text) :
    InOrder file (newlines before) (newlines (before ++ text)) nodes := by
  induction h with
  | nil => exact .nil
  | leaf _ _ _ ih => exact .cons rfl .nil ih
  | single _ _ hlocation _ ih => exact .cons hlocation .nil ih
  | pair _ _ hlocation _ _ _ ihInside ihMore =>
    exact .cons hlocation (ihInside.mono (by simp) (by simp)) ihMore

theorem Prolog.Placed.inOrder {file : String} {before text : List Char} {nodes : List Node}
    (h : Prolog.Placed file before nodes text) :
    InOrder file (newlines before) (newlines (before ++ text)) nodes := by
  induction h with
  | nil => exact .nil
  | @leaf before gap kind value nodes rest _ _ _ _ _ ih =>
    have hleaf : InOrder file (newlines (before ++ gap)) (newlines (before ++ gap ++ (value ++ rest)))
        (.leaf kind (.after file (newlines (before ++ gap))) (String.ofList value) :: nodes) :=
      .cons rfl .nil ih
    rw [List.append_assoc] at hleaf
    exact hleaf.mono (by simp) (Nat.le_refl _)

/-! ## 2. The whole template -/

namespace Template

/-- The nodes of the template are located in the file as they stand in the source. -/
structure Located (file source : String) (template : Template) : Prop where
  /-- The template itself is located at the start of the file. -/
  start : template.location.file = file ∧ template.location.line = 1
  /-- The source is the pieces of the nodes, and each of them is located in the line that its piece begins
      in: after as many line feeds as stand in front of it. -/
  placed : ∃ mark head body first rest, source.toList = mark ++ head ++ body ∧
    (mark = [] ∨ mark = [Prolog.byteOrderMark]) ∧ template.children = first ++ rest ∧
      Prolog.Placed file mark first head ∧ TalMarkup.Placed file (mark ++ head) rest body
  /-- In document order the lines never go back. -/
  ordered : (template.descendants.map fun node => node.location.line).Pairwise (· ≤ ·)
  /-- They are lines of the source. -/
  lines : ∀ node ∈ template.descendants, node.location.file = file ∧ 1 ≤ node.location.line ∧
    node.location.line ≤ (LineIndex.ofSource source).lineCount
  /-- At every place of the source the line index leads to the location there, never to the line 0. -/
  found : ∀ before after, source.toList = before ++ after →
    Location.ofLine file ((LineIndex.ofSource source).lineOf (String.ofList before).utf8ByteSize) =
      .ok (.after file (newlines before))

/-- **Every node is located where its piece begins.** -/
theorem located_of_parse {options : Options} {source : String} {template : Template}
    (h : parse options source = .ok template) : Located options.sourceFile source template := by
  have hstart : template.location = .after options.sourceFile 0 := by
    obtain ⟨next, hread⟩ := parse_eq_ok_iff.1 h
    obtain ⟨prolog, nodes, -, -, -, rfl, -⟩ := read_eq_ok_iff.1 hread
    rfl
  obtain ⟨mark, head, body, first, rest, hsource, -, hchildren, hfirst, hrest⟩ := placed_of_parse h
  have horder : InOrder options.sourceFile 0 (newlines source.toList) template.children := by
    rw [hsource, hchildren]
    exact (hfirst.inOrder.mono (Nat.zero_le _) (Nat.le_refl _)).append hrest.inOrder (Nat.zero_le _)
      (by simp)
  constructor
  case start => rw [hstart]; exact ⟨rfl, rfl⟩
  case placed => exact placed_of_parse h
  case ordered =>
    rw [descendants, Node.walk_eq_preorderAll]
    exact List.pairwise_map.2 horder.ordered
  case lines =>
    rw [descendants, Node.walk_eq_preorderAll, LineIndex.lineCount_ofSource]
    intro node hnode
    exact ⟨horder.file_eq node hnode, horder.low_lt node hnode, horder.le_high node hnode⟩
  case found =>
    intro before after hsplit
    rw [LineIndex.lineOf_of_append hsplit]
    rfl

theorem located_of_parse_lines :
    ∃ template,
      parse { sourceFile := "a.html" } "<!DOCTYPE a [\n]>\n<a\n x='1'>t\n<b/></a>" = .ok template ∧
        (Node.preorderAll template.children).map (fun node => node.location.line) = [1, 3, 4, 5] ∧
        Located "a.html" "<!DOCTYPE a [\n]>\n<a\n x='1'>t\n<b/></a>" template := by
  obtain ⟨template, h, hlines⟩ := exists_of_map_parse (show (parse { sourceFile := "a.html" }
    "<!DOCTYPE a [\n]>\n<a\n x='1'>t\n<b/></a>").map (fun template =>
      (Node.preorderAll template.children).map fun node => node.location.line) = .ok [1, 3, 4, 5] by decide +kernel)
  exact ⟨template, h, hlines, located_of_parse h⟩

end Template

end TalMarkup
