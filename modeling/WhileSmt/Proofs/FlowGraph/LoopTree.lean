import Mathlib.Logic.Relation
import WhileSmt.FlowGraph.Printer
import WhileSmt.Proofs.FlowGraph.SpanningTree
import WhileSmt.Proofs.Text

/-!
The flow graph of a program as a whole, and what its drawing and its summary say of it. The
printers know loops by the numbers of the nodes alone, and this is right because all edges of the
tree lead to greater numbers.

Main statement (`Program.flowGraph_loopTree`): the graph is a tree that spans its nodes, numbered
in the order of a depth-first walk from the root, with one more edge for every loop, from the end of
its body back to it. These edges are the dashed ones of the drawing and those that the summary
counts.
-/

namespace WhileSmt

namespace FlowGraph

/-- The nodes of a graph with their labels. -/
def nodes (g : FlowGraph) : List (String × Nat) :=
  g.labels.zipIdx

/-- The graph is a tree with one more edge for every loop, for a program with the given numbers of
statements. -/
structure LoopTree (g : FlowGraph) (c : Counts) : Prop where
  root_eq : g.root = 0
  /-- Simple statements have one node, branches three and loops two. -/
  size : g.labels.length = 1 + c.assignments + c.assertions + 3 * c.branches + 2 * c.loops
  /-- The numbers of the nodes are their places in a depth-first walk. -/
  order : DepthFirst (treeEdges g.edges) [g.root] (List.range g.labels.length)
  rising : ∀ e ∈ treeEdges g.edges, e.source < e.target
  /-- Every node but the root is the target of one edge of the tree. -/
  parents : (treeEdges g.edges).map Edge.target = List.range' 1 (g.labels.length - 1)
  reached : ∀ node < g.labels.length, Relation.ReflTransGen (Down g.edges) g.root node
  edges_length : g.edges.length = g.labels.length - 1 + c.loops
  backEdges_length : g.backEdges.length = c.loops
  /-- The edges back are those that close a loop. -/
  closing : ∀ e ∈ g.edges, e.isBack = true ↔ ∃ body, Closes g.nodes g.edges body e
  /-- A loop stands above the end of its body. -/
  above : ∀ e ∈ g.backEdges, Relation.TransGen (Down g.edges) e.target e.source
  /-- Every loop is closed by one edge. -/
  closed : ∀ body, ("Loop Body", body) ∈ g.nodes →
    ∃! e, e ∈ g.edges ∧ Closes g.nodes g.edges body e

end FlowGraph

namespace Grown

variable {parent first : Nat} {labels : List String} {edges : List Edge}
  {nodes : List (String × Nat)} {body : Nat} {e e' : Edge}

/-- The edge from a loop to its body belongs to the tree: it has a label, and edges back have
none. -/
theorem mem_treeEdges_of_closes (h : Grown parent first labels edges) (hparent : parent < first)
    (hcloses : Closes nodes edges body e) :
    { source := e.target, target := body, label := some "T" } ∈ treeEdges edges := by
  obtain ⟨-, -, hdown, -⟩ := hcloses
  refine mem_treeEdges.mpr ⟨hdown, Bool.eq_false_iff.mpr fun hback => ?_⟩
  have hlabel := (h.closes hparent _ hdown hback).1
  simp at hlabel

/-- An edge that closes a loop leads to a node above its source. -/
theorem transGen_of_closes (h : Grown parent first labels edges) (hparent : parent < first)
    (hcloses : Closes nodes edges body e) :
    Relation.TransGen (Down edges) e.target e.source := by
  have hbody : Down edges e.target body :=
    ⟨_, h.mem_treeEdges_of_closes hparent hcloses, rfl, rfl⟩
  obtain ⟨-, -, -, hsource | hdown⟩ := hcloses
  · rw [hsource]
    exact .single hbody
  · exact .tail (.single hbody) hdown

theorem lt_of_transGen (h : Grown parent first labels edges) (hparent : parent < first)
    {upper lower : Nat} (hdown : Relation.TransGen (Down edges) upper lower) : upper < lower := by
  have hstep : ∀ m n, Down edges m n → m < n := by
    rintro m n ⟨d, hd, rfl, rfl⟩
    exact h.rising hparent d hd
  induction hdown with
  | single hlast => exact hstep _ _ hlast
  | tail _ hlast ih => exact Nat.lt_trans ih (hstep _ _ hlast)

/-- The edges that close a loop are edges back. -/
theorem isBack_of_closes (h : Grown parent first labels edges) (hparent : parent < first)
    (hcloses : Closes nodes edges body e) : e.isBack = true :=
  isBack_iff.mpr (h.lt_of_transGen hparent (h.transGen_of_closes hparent hcloses))

/-- No two edges close the same loop: the body has one node above it, and to this node one edge
leads back. -/
theorem eq_of_closes (h : Grown parent first labels edges) (hparent : parent < first)
    (he : e ∈ edges) (he' : e' ∈ edges) (hcloses : Closes nodes edges body e)
    (hcloses' : Closes nodes edges body e') : e = e' := by
  have hparents : ((treeEdges edges).map Edge.target).Nodup := by
    rw [h.targets hparent]
    exact List.nodup_range'
  have hdown := List.inj_on_of_nodup_map hparents (h.mem_treeEdges_of_closes hparent hcloses)
    (h.mem_treeEdges_of_closes hparent hcloses') rfl
  have htarget : e.target = e'.target := congrArg Edge.source hdown
  exact List.inj_on_of_nodup_map (h.nodup_targets_back hparent)
    (List.mem_filter.mpr ⟨he, h.isBack_of_closes hparent hcloses⟩)
    (List.mem_filter.mpr ⟨he', h.isBack_of_closes hparent hcloses'⟩) htarget

/-- Every node of a part can be reached from the node that it hangs below. -/
theorem reached (h : Grown 0 1 labels edges) (node : Nat) (hnode : node < 1 + labels.length) :
    Relation.ReflTransGen (Down edges) 0 node := by
  induction node using Nat.strongRecOn with
  | ind node ih =>
    rcases Nat.eq_zero_or_pos node with rfl | hpos
    · exact .refl
    · have hmem : node ∈ (treeEdges edges).map Edge.target := by
        rw [h.targets Nat.one_pos, List.mem_range'_1]
        omega
      obtain ⟨e, he, rfl⟩ := List.mem_map.mp hmem
      have hlt := h.rising Nat.one_pos e he
      exact .tail (ih e.source hlt (by omega)) ⟨e, he, rfl, rfl⟩

/-- The nodes of a part come in the order of a depth-first walk from the node above them. -/
theorem depthFirst (h : Grown 0 1 labels edges) :
    DepthFirst (treeEdges edges) [0] (List.range (labels.length + 1)) := by
  have hwalk := h.walks Nat.one_pos (treeEdges edges) [] [] (fun _ _ _ => rfl) .done
  rw [List.append_nil (List.range' 1 labels.length)] at hwalk
  rw [List.range_eq_range', List.range'_succ]
  exact .visit hwalk

/-- An edge is either one of the tree or one back. -/
theorem length_edges (h : Grown parent first labels edges) (hparent : parent < first) :
    edges.length = labels.length + labels.count "Loop Body" := by
  have htree : (treeEdges edges).length = labels.length := by
    simpa using congrArg List.length (h.targets hparent)
  rw [List.length_eq_length_filter_add Edge.isBack, h.length_back hparent, Nat.add_comm, ← htree]
  rfl

end Grown

/-! ## The drawing -/

namespace FlowGraph

variable {e : Edge}

/-- The line of the edge in the drawing asks for a dashed stroke. -/
def Dashed (e : Edge) : Prop :=
  "style=dashed".toList <:+: (dotEdge e).toList

theorem dashed_of_isBack (hlabel : e.label = none) (hback : e.isBack = true) : Dashed e := by
  refine ⟨("  n" ++ Text.natural e.source ++ " -> n" ++ Text.natural e.target ++ " [").toList,
    ("];\n").toList, ?_⟩
  simp [dotEdge, hlabel, hback]

/-- The letter `s` stands in the line of no other edge. -/
theorem not_mem_dotEdge (hlabel : e.label ∈ [none, some "T", some "F"]) (hback : e.isBack = false) :
    's' ∉ (dotEdge e).toList := by
  have hdigits : ∀ n, 's' ∉ Text.digits n := fun n hmem =>
    absurd (Text.isDigit_of_mem_digits hmem) (by decide)
  simp only [List.mem_cons, List.not_mem_nil, or_false] at hlabel
  rcases hlabel with hlabel | hlabel | hlabel
  · simp [dotEdge, hlabel, hback, Text.natural, hdigits]
  · simp [dotEdge, hlabel, hback, Text.natural, hdigits, labelAttribute, escapeLabel, replaceChar]
  · simp [dotEdge, hlabel, hback, Text.natural, hdigits, labelAttribute, escapeLabel, replaceChar]

theorem dashed_iff (hlabel : e.label ∈ [none, some "T", some "F"])
    (hnone : e.isBack = true → e.label = none) : Dashed e ↔ e.isBack = true := by
  constructor
  · intro hdashed
    by_contra hback
    refine not_mem_dotEdge hlabel (Bool.eq_false_iff.mpr hback) (hdashed.subset ?_)
    decide
  · exact fun hback => dashed_of_isBack (hnone hback) hback

end FlowGraph

/-! ## Programs -/

namespace Program

variable (p : Program)

theorem flowGraph_grown :
    Grown 0 1 (Block.flow 0 1 p.statements).labels p.flowGraph.edges :=
  Block.flow_grown p.statements 0 1 Nat.one_pos

/-- The nodes of the graph are the root and those of the statements. -/
theorem nodes_flowGraph : p.flowGraph.nodes =
    ("Program Start", 0) :: (Block.flow 0 1 p.statements).labels.zipIdx 1 :=
  rfl

theorem length_labels_flowGraph :
    p.flowGraph.labels.length = (Block.flow 0 1 p.statements).labels.length + 1 :=
  rfl

theorem length_backEdges : p.flowGraph.backEdges.length = (Block.counts p.statements).loops :=
  (p.flowGraph_grown.length_back Nat.one_pos).trans (Block.count_labels p.statements 0 1)

theorem length_edges_flowGraph : p.flowGraph.edges.length =
    p.flowGraph.labels.length - 1 + (Block.counts p.statements).loops := by
  rw [p.flowGraph_grown.length_edges Nat.one_pos, Block.count_labels, length_labels_flowGraph,
    Nat.add_sub_cancel]

/-- The edges back of a graph are those that close its loops. -/
theorem isBack_iff_closes : ∀ e ∈ p.flowGraph.edges,
    e.isBack = true ↔ ∃ body, Closes p.flowGraph.nodes p.flowGraph.edges body e := by
  intro e he
  constructor
  · intro hback
    obtain ⟨-, -, body, hcloses⟩ := p.flowGraph_grown.closes Nat.one_pos e he hback
    exact ⟨body, hcloses.mono (List.subset_cons_self _ _) (List.Subset.refl _)⟩
  · rintro ⟨body, hcloses⟩
    exact p.flowGraph_grown.isBack_of_closes Nat.one_pos hcloses

/-- Every loop of a program is closed by one edge of its graph. -/
theorem existsUnique_closes (body : Nat) (hbody : ("Loop Body", body) ∈ p.flowGraph.nodes) :
    ∃! e, e ∈ p.flowGraph.edges ∧ Closes p.flowGraph.nodes p.flowGraph.edges body e := by
  have hlabel : ("Loop Body", body) ≠ ("Program Start", 0) := by simp
  rw [nodes_flowGraph] at hbody
  obtain ⟨e, he, hcloses⟩ :=
    p.flowGraph_grown.closed body ((List.mem_cons.mp hbody).resolve_left hlabel)
  have hcloses := hcloses.mono (List.subset_cons_self ("Program Start", 0) _) (List.Subset.refl _)
  refine ⟨e, ⟨he, hcloses⟩, ?_⟩
  rintro e' ⟨he', hcloses'⟩
  exact p.flowGraph_grown.eq_of_closes Nat.one_pos he' he hcloses' hcloses

theorem loopTree : p.flowGraph.LoopTree (Block.counts p.statements) where
  root_eq := rfl
  size := by
    rw [length_labels_flowGraph, Block.length_labels]
    omega
  order := p.flowGraph_grown.depthFirst
  rising := p.flowGraph_grown.rising Nat.one_pos
  parents := p.flowGraph_grown.targets Nat.one_pos
  reached := by
    intro node hnode
    rw [length_labels_flowGraph] at hnode
    exact p.flowGraph_grown.reached node (by omega)
  edges_length := p.length_edges_flowGraph
  backEdges_length := p.length_backEdges
  closing := p.isBack_iff_closes
  above := by
    intro e he
    obtain ⟨he, hback⟩ := List.mem_filter.mp he
    obtain ⟨body, hcloses⟩ := (p.isBack_iff_closes e he).mp hback
    exact p.flowGraph_grown.transGen_of_closes Nat.one_pos hcloses
  closed := p.existsUnique_closes

/-- The flow graph of a program is a spanning tree and one edge back for every loop; the edges back
are those that are drawn dashed, and the summary counts them. -/
theorem flowGraph_loopTree : p.flowGraph.LoopTree (Block.counts p.statements) ∧
    (∀ e ∈ p.flowGraph.edges, FlowGraph.Dashed e ↔
      ∃ body, Closes p.flowGraph.nodes p.flowGraph.edges body e) ∧
    p.flowGraph.summary = "CFG Summary:\n============\n\n" ++
      "Total Nodes: " ++ Text.natural p.flowGraph.labels.length ++ "\n" ++
      "Total Edges: " ++ Text.natural p.flowGraph.edges.length ++ "\n" ++
      "Back Edges: " ++ Text.natural (Block.counts p.statements).loops ++ "\n" := by
  refine ⟨p.loopTree, ?_, ?_⟩
  · intro e he
    rw [← p.isBack_iff_closes e he]
    exact FlowGraph.dashed_iff (p.flowGraph_grown.label_mem e he) fun hback =>
      (p.flowGraph_grown.closes Nat.one_pos e he hback).1
  · rw [← p.length_backEdges]
    rfl

end Program

end WhileSmt
