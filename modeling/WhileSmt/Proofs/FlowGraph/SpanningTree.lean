import Mathlib.Data.List.Range
import WhileSmt.Proofs.CountingLoops

/-!
The parts of a flow graph: a tree that hangs below a node, numbered in the order of a depth-first
walk, and one edge back for every loop.

Main statements: the ways in which a part is put together (`Block.flow_grown`), the walk through its
tree (`Grown.walks`), the edges that close its loops (`Grown.closes`, `Grown.closed`), and the
numbers of its nodes and loops (`Block.length_labels`, `Block.count_labels`).
-/

namespace WhileSmt

/-! ## Trees -/

/-- The edges that do not lead back. -/
def treeEdges (edges : List Edge) : List Edge :=
  edges.filter fun e => !e.isBack

/-- The nodes right below a node, in order. -/
def children (tree : List Edge) (node : Nat) : List Nat :=
  (tree.filter fun e => e.source = node).map Edge.target

/-- A walk that goes down before it goes on: from the pending nodes it meets the nodes in order. -/
inductive DepthFirst (tree : List Edge) : List Nat → List Nat → Prop where
  | done : DepthFirst tree [] []
  | visit {node : Nat} {pending order : List Nat} :
      DepthFirst tree (children tree node ++ pending) order →
      DepthFirst tree (node :: pending) (node :: order)

/-- An edge of the tree leads from the first node to the second. -/
def Down (edges : List Edge) (upper lower : Nat) : Prop :=
  ∃ e ∈ treeEdges edges, e.source = upper ∧ e.target = lower

theorem mem_treeEdges {edges : List Edge} {e : Edge} :
    e ∈ treeEdges edges ↔ e ∈ edges ∧ e.isBack = false := by
  simp [treeEdges]

theorem Down.mono {edges edges' : List Edge} {upper lower : Nat} (h : Down edges upper lower)
    (hedges : edges ⊆ edges') : Down edges' upper lower := by
  obtain ⟨e, he, hends⟩ := h
  rw [mem_treeEdges] at he
  exact ⟨e, mem_treeEdges.mpr ⟨hedges he.1, he.2⟩, hends⟩

theorem treeEdges_append (edges₁ edges₂ : List Edge) :
    treeEdges (edges₁ ++ edges₂) = treeEdges edges₁ ++ treeEdges edges₂ :=
  List.filter_append ..

theorem isBack_iff {e : Edge} : e.isBack = true ↔ e.target < e.source := by
  simp [Edge.isBack]

theorem isBack_of_lt {e : Edge} (h : e.source < e.target) : e.isBack = false := by
  simp only [Edge.isBack, decide_eq_false_iff_not]
  omega

theorem treeEdges_cons_of_lt {e : Edge} (h : e.source < e.target) (edges : List Edge) :
    treeEdges (e :: edges) = e :: treeEdges edges := by
  simp [treeEdges, isBack_of_lt h]

theorem filter_isBack_cons {e : Edge} (h : e.source < e.target) (edges : List Edge) :
    (e :: edges).filter Edge.isBack = edges.filter Edge.isBack :=
  List.filter_cons_of_neg (by simp [isBack_of_lt h])

theorem children_append (tree₁ tree₂ : List Edge) (node : Nat) :
    children (tree₁ ++ tree₂) node = children tree₁ node ++ children tree₂ node := by
  simp [children]

theorem children_eq_nil {tree : List Edge} {node : Nat} (h : ∀ e ∈ tree, e.source ≠ node) :
    children tree node = [] := by
  simpa [children] using h

theorem children_cons_self (e : Edge) (tree : List Edge) :
    children (e :: tree) e.source = e.target :: children tree e.source := by
  simp [children]

theorem children_cons_of_ne {e : Edge} {node : Nat} (h : e.source ≠ node) (tree : List Edge) :
    children (e :: tree) node = children tree node := by
  simp [children, h]

/-! ## Parts of a graph -/

/-- A label with a parenthesis or a colon is not that of the body of a loop. -/
theorem ne_loopBody {label : String} {c : Char} (hmem : c ∈ label.toList)
    (hc : c ∉ "Loop Body".toList) : label ≠ "Loop Body" := by
  rintro rfl
  exact hc hmem

theorem loopLabel_ne (cond : Expr String) :
    "While (" ++ sourceLabel cond ++ ")" ≠ "Loop Body" :=
  ne_loopBody (c := '(') (by simp) (by decide)

/-- The edge closes the loop with the given body: it leads to the loop, from the body or from a node
right below it. -/
def Closes (nodes : List (String × Nat)) (edges : List Edge) (body : Nat) (e : Edge) : Prop :=
  (∃ cond, ("While (" ++ sourceLabel cond ++ ")", e.target) ∈ nodes) ∧ ("Loop Body", body) ∈ nodes ∧
    { source := e.target, target := body, label := some "T" } ∈ edges ∧
    (e.source = body ∨ Down edges body e.source)

/-- The ways in which the labels and edges of a part come about that hangs below the node `parent`
and whose nodes are numbered from `first` on: parts in a row, a node with a part below it, and a
loop around a part, with an edge back from the last node. -/
inductive Grown : Nat → Nat → List String → List Edge → Prop where
  | nil (parent first : Nat) : Grown parent first [] []
  | append {parent first : Nat} {labels₁ labels₂ : List String} {edges₁ edges₂ : List Edge} :
      Grown parent first labels₁ edges₁ →
      Grown parent (first + labels₁.length) labels₂ edges₂ →
      Grown parent first (labels₁ ++ labels₂) (edges₁ ++ edges₂)
  | node {parent first : Nat} {label : String} {mark : Option String} {labels : List String}
      {edges : List Edge} :
      label ≠ "Loop Body" → mark ∈ [none, some "T", some "F"] →
      Grown first (first + 1) labels edges →
      Grown parent first (label :: labels)
        ({ source := parent, target := first, label := mark } :: edges)
  | loop {parent first last : Nat} {cond : Expr String} {labels : List String}
      {edges : List Edge} :
      Grown (first + 1) (first + 2) labels edges →
      (last = first + 1 ∨ Down edges (first + 1) last) →
      Grown parent first (("While (" ++ sourceLabel cond ++ ")") :: "Loop Body" :: labels)
        ({ source := parent, target := first } ::
          { source := first, target := first + 1, label := some "T" } ::
          (edges ++ [{ source := last, target := first }]))

namespace Grown

variable {parent first last : Nat} {labels : List String} {edges : List Edge}

/-- The last node of the body of a loop comes after the loop. -/
theorem lt_last {n : Nat} (htargets : (treeEdges edges).map Edge.target = List.range' (first + 2) n)
    (hlast : last = first + 1 ∨ Down edges (first + 1) last) :
    first < last ∧ last < first + 2 + n := by
  rcases hlast with rfl | ⟨d, hd, -, rfl⟩
  · omega
  · have hmem : d.target ∈ List.range' (first + 2) n := htargets ▸ List.mem_map_of_mem hd
    rw [List.mem_range'_1] at hmem
    omega

/-- The edges of a loop other than that back to it. -/
theorem treeEdges_loop (hparent : parent < first) (hlast : first < last) :
    treeEdges ({ source := parent, target := first } ::
      { source := first, target := first + 1, label := some "T" } ::
      (edges ++ [{ source := last, target := first }])) =
    { source := parent, target := first } ::
      { source := first, target := first + 1, label := some "T" } :: treeEdges edges := by
  have hback : treeEdges [{ source := last, target := first }] = [] := by
    simp [treeEdges, Edge.isBack, hlast]
  rw [treeEdges_cons_of_lt hparent, treeEdges_cons_of_lt (Nat.lt_succ_self first),
    treeEdges_append, hback, List.append_nil]

/-- Every node of a part is the target of one edge of the tree, and these edges come in the order of
their targets. -/
theorem targets (h : Grown parent first labels edges) (hparent : parent < first) :
    (treeEdges edges).map Edge.target = List.range' first labels.length := by
  induction h with
  | nil parent first => rfl
  | append _ _ ih₁ ih₂ =>
    rw [treeEdges_append, List.map_append, ih₁ hparent, ih₂ (by omega), List.length_append,
      List.range'_append_1]
  | node _ _ _ ih =>
    rw [treeEdges_cons_of_lt hparent, List.map_cons, ih (Nat.lt_succ_self _), List.length_cons,
      List.range'_succ]
  | loop _ hlast ih =>
    have htargets := ih (Nat.lt_succ_self _)
    rw [treeEdges_loop hparent (lt_last htargets hlast).1, List.map_cons, List.map_cons, htargets,
      List.length_cons, List.length_cons, List.range'_succ, List.range'_succ]

/-- The edges of a part leave the node that it hangs below, or one of its own. -/
theorem sources (h : Grown parent first labels edges) (hparent : parent < first) :
    ∀ e ∈ edges, e.source = parent ∨ first ≤ e.source ∧ e.source < first + labels.length := by
  induction h with
  | nil parent first => simp
  | append _ _ ih₁ ih₂ =>
    intro e he
    rw [List.length_append]
    rcases List.mem_append.mp he with he | he
    · have hsource := ih₁ hparent e he
      omega
    · have hsource := ih₂ (by omega) e he
      omega
  | node _ _ _ ih =>
    intro e he
    rw [List.length_cons]
    rcases List.mem_cons.mp he with rfl | he
    · exact .inl rfl
    · have hsource := ih (Nat.lt_succ_self _) e he
      omega
  | loop hbody hlast ih =>
    intro e he
    have hbounds := lt_last (hbody.targets (Nat.lt_succ_self _)) hlast
    simp only [List.length_cons]
    simp only [List.mem_cons, List.mem_append, List.not_mem_nil, or_false] at he
    rcases he with rfl | rfl | he | rfl
    · exact .inl rfl
    · right
      dsimp only
      omega
    · have hsource := ih (Nat.lt_succ_self _) e he
      omega
    · right
      dsimp only
      omega

/-- All edges of the tree lead to greater numbers. -/
theorem rising (h : Grown parent first labels edges) (hparent : parent < first) :
    ∀ e ∈ treeEdges edges, e.source < e.target := by
  induction h with
  | nil parent first => simp [treeEdges]
  | append _ _ ih₁ ih₂ =>
    rw [treeEdges_append]
    exact List.forall_mem_append.mpr ⟨ih₁ hparent, ih₂ (by omega)⟩
  | node _ _ _ ih =>
    rw [treeEdges_cons_of_lt hparent]
    exact List.forall_mem_cons.mpr ⟨hparent, ih (Nat.lt_succ_self _)⟩
  | loop hbody hlast ih =>
    have hbounds := lt_last (hbody.targets (Nat.lt_succ_self _)) hlast
    rw [treeEdges_loop hparent hbounds.1]
    exact List.forall_mem_cons.mpr ⟨hparent,
      List.forall_mem_cons.mpr ⟨Nat.lt_succ_self _, ih (Nat.lt_succ_self _)⟩⟩

end Grown

/-! ## The order of the nodes -/

/-- A tree of `size` nodes from `first` on that hangs below the node `parent` is walked through in
the order of the numbers, wherever it stands in a larger tree. -/
def Walks (parent first size : Nat) (tree : List Edge) : Prop :=
  ∀ whole pending order,
    (∀ node, first ≤ node → node < first + size → children whole node = children tree node) →
    DepthFirst whole pending order →
    DepthFirst whole (children tree parent ++ pending) (List.range' first size ++ order)

namespace Walks

variable {parent first m n : Nat} {tree tree₁ tree₂ : List Edge}

theorem nil (parent first : Nat) : Walks parent first 0 [] := fun _ _ _ _ h => h

/-- Trees in a row, each of which leaves only its own nodes and that above it. -/
theorem append (hparent : parent < first) (h₁ : Walks parent first m tree₁)
    (h₂ : Walks parent (first + m) n tree₂)
    (hsources₁ : ∀ e ∈ tree₁, e.source = parent ∨ e.source < first + m)
    (hsources₂ : ∀ e ∈ tree₂, e.source = parent ∨ first + m ≤ e.source) :
    Walks parent first (m + n) (tree₁ ++ tree₂) := by
  intro whole pending order hwhole hrest
  rw [children_append, ← List.range'_append_1, List.append_assoc, List.append_assoc]
  refine h₁ whole _ _ ?_ (h₂ whole pending order ?_ hrest)
  · intro node hle hlt
    have hnone : children tree₂ node = [] := children_eq_nil fun e he => by
      have hsource := hsources₂ e he
      omega
    rw [hwhole node hle (by omega), children_append, hnone, List.append_nil]
  · intro node hle hlt
    have hnone : children tree₁ node = [] := children_eq_nil fun e he => by
      have hsource := hsources₁ e he
      omega
    rw [hwhole node (by omega) (by omega), children_append, hnone, List.nil_append]

/-- A node with a tree below it. -/
theorem node (hparent : parent < first) (h : Walks first (first + 1) n tree)
    (hsources : ∀ e ∈ tree, first ≤ e.source) (mark : Option String) :
    Walks parent first (n + 1) ({ source := parent, target := first, label := mark } :: tree) := by
  intro whole pending order hwhole hrest
  have hbelow : ∀ node, first ≤ node → node < first + (n + 1) →
      children whole node = children tree node := by
    intro node hle hlt
    have hne : parent ≠ node := by omega
    rw [hwhole node hle hlt]
    exact children_cons_of_ne hne tree
  have hnone : children tree parent = [] := children_eq_nil fun e he => by
    have hsource := hsources e he
    omega
  have hchildren : children ({ source := parent, target := first, label := mark } :: tree) parent =
      [first] := by
    rw [← hnone]
    exact children_cons_self _ tree
  rw [hchildren, List.range'_succ]
  refine .visit ?_
  rw [hbelow first (Nat.le_refl _) (by omega)]
  exact h whole pending order (fun node hle hlt => hbelow node (by omega) (by omega)) hrest

end Walks

namespace Grown

variable {parent first : Nat} {labels : List String} {edges : List Edge}

theorem le_source (h : Grown parent (parent + 1) labels edges) :
    ∀ e ∈ treeEdges edges, parent ≤ e.source := by
  intro e he
  have hsource := h.sources (Nat.lt_succ_self _) e (mem_treeEdges.mp he).1
  omega

/-- The tree of a part is walked through in the order of its numbers. -/
theorem walks (h : Grown parent first labels edges) (hparent : parent < first) :
    Walks parent first labels.length (treeEdges edges) := by
  induction h with
  | nil parent first => exact .nil parent first
  | append h₁ h₂ ih₁ ih₂ =>
    rw [treeEdges_append, List.length_append]
    refine .append hparent (ih₁ hparent) (ih₂ (by omega)) ?_ ?_
    · intro e he
      have hsource := h₁.sources hparent e (mem_treeEdges.mp he).1
      omega
    · intro e he
      have hsource := h₂.sources (by omega) e (mem_treeEdges.mp he).1
      omega
  | node _ _ h ih =>
    rw [treeEdges_cons_of_lt hparent]
    exact .node hparent (ih (Nat.lt_succ_self _)) h.le_source _
  | @loop parent first last cond labels edges h hlast ih =>
    have hbounds := lt_last (h.targets (Nat.lt_succ_self _)) hlast
    have hbody :=
      Walks.node (Nat.lt_succ_self first) (ih (Nat.lt_succ_self _)) h.le_source (some "T")
    rw [treeEdges_loop hparent hbounds.1]
    refine .node hparent hbody ?_ none
    refine List.forall_mem_cons.mpr ⟨Nat.le_refl _, ?_⟩
    intro e he
    exact Nat.le_of_succ_le (h.le_source e he)

end Grown

/-! ## The edges back -/

theorem Closes.mono {nodes nodes' : List (String × Nat)} {edges edges' : List Edge} {body : Nat}
    {e : Edge} (h : Closes nodes edges body e) (hnodes : nodes ⊆ nodes')
    (hedges : edges ⊆ edges') : Closes nodes' edges' body e := by
  obtain ⟨⟨cond, hloop⟩, hbody, hdown, hsource⟩ := h
  exact ⟨⟨cond, hnodes hloop⟩, hnodes hbody, hedges hdown, hsource.imp_right fun h => h.mono hedges⟩

namespace Grown

variable {parent first last : Nat} {labels labels₁ labels₂ : List String}
  {edges edges₁ edges₂ : List Edge} {body : Nat} {e : Edge}

theorem closes_left (h : Closes (labels₁.zipIdx first) edges₁ body e) :
    Closes ((labels₁ ++ labels₂).zipIdx first) (edges₁ ++ edges₂) body e := by
  rw [List.zipIdx_append]
  exact h.mono (List.subset_append_left _ _) (List.subset_append_left _ _)

theorem closes_right (h : Closes (labels₂.zipIdx (first + labels₁.length)) edges₂ body e) :
    Closes ((labels₁ ++ labels₂).zipIdx first) (edges₁ ++ edges₂) body e := by
  rw [List.zipIdx_append]
  exact h.mono (List.subset_append_right _ _) (List.subset_append_right _ _)

theorem closes_below {label : String} {edge : Edge}
    (h : Closes (labels.zipIdx (first + 1)) edges body e) :
    Closes ((label :: labels).zipIdx first) (edge :: edges) body e := by
  rw [List.zipIdx_cons]
  exact h.mono (List.subset_cons_self _ _) (List.subset_cons_self _ _)

theorem closes_body {loop : String} {enter down back : Edge}
    (h : Closes (labels.zipIdx (first + 2)) edges body e) :
    Closes ((loop :: "Loop Body" :: labels).zipIdx first) (enter :: down :: (edges ++ [back])) body
      e :=
  closes_below (closes_below (h.mono (List.Subset.refl _) (List.subset_append_left _ _)))

/-- The edge from the last node of a body closes the loop. -/
theorem closes_self (cond : Expr String) {enter : Edge}
    (hlast : last = first + 1 ∨ Down edges (first + 1) last) :
    Closes ((("While (" ++ sourceLabel cond ++ ")") :: "Loop Body" :: labels).zipIdx first)
      (enter :: { source := first, target := first + 1, label := some "T" } ::
        (edges ++ [{ source := last, target := first }])) (first + 1)
      { source := last, target := first } := by
  refine ⟨⟨cond, by simp⟩, by simp, by simp, hlast.imp_right fun hdown => hdown.mono ?_⟩
  intro d hd
  simp [hd]

/-- An edge back has no label, stays within its part, and closes a loop. -/
theorem closes (h : Grown parent first labels edges) (hparent : parent < first) :
    ∀ e ∈ edges, e.isBack = true → e.label = none ∧ first ≤ e.target ∧
      ∃ body, Closes (labels.zipIdx first) edges body e := by
  induction h with
  | nil parent first => simp
  | append _ _ ih₁ ih₂ =>
    intro e he hback
    rcases List.mem_append.mp he with he | he
    · obtain ⟨hlabel, hle, body, hbody⟩ := ih₁ hparent e he hback
      exact ⟨hlabel, hle, body, closes_left hbody⟩
    · obtain ⟨hlabel, hle, body, hbody⟩ := ih₂ (by omega) e he hback
      exact ⟨hlabel, by omega, body, closes_right hbody⟩
  | node _ _ _ ih =>
    intro e he hback
    rcases List.mem_cons.mp he with rfl | he
    · exact absurd (isBack_iff.mp hback) (Nat.lt_asymm hparent)
    · obtain ⟨hlabel, hle, body, hbody⟩ := ih (Nat.lt_succ_self _) e he hback
      exact ⟨hlabel, by omega, body, closes_below hbody⟩
  | @loop parent first last cond labels edges _ hlast ih =>
    intro e he hback
    simp only [List.mem_cons, List.mem_append, List.not_mem_nil, or_false] at he
    rcases he with rfl | rfl | he | rfl
    · exact absurd (isBack_iff.mp hback) (Nat.lt_asymm hparent)
    · exact absurd (isBack_iff.mp hback) (Nat.lt_asymm (Nat.lt_succ_self first))
    · obtain ⟨hlabel, hle, body, hbody⟩ := ih (Nat.lt_succ_self _) e he hback
      exact ⟨hlabel, by omega, body, closes_body hbody⟩
    · exact ⟨rfl, Nat.le_refl _, first + 1, closes_self cond hlast⟩

/-- Every loop of a part has an edge that closes it. -/
theorem closed (h : Grown parent first labels edges) :
    ∀ body, ("Loop Body", body) ∈ labels.zipIdx first →
      ∃ e ∈ edges, Closes (labels.zipIdx first) edges body e := by
  induction h with
  | nil parent first => simp
  | append _ _ ih₁ ih₂ =>
    intro body hbody
    rw [List.zipIdx_append, List.mem_append] at hbody
    rcases hbody with hbody | hbody
    · obtain ⟨e, he, hcloses⟩ := ih₁ body hbody
      exact ⟨e, List.mem_append_left _ he, closes_left hcloses⟩
    · obtain ⟨e, he, hcloses⟩ := ih₂ body hbody
      exact ⟨e, List.mem_append_right _ he, closes_right hcloses⟩
  | node hlabel _ _ ih =>
    intro body hbody
    rw [List.zipIdx_cons, List.mem_cons] at hbody
    rcases hbody with heq | hbody
    · exact absurd (congrArg Prod.fst heq).symm hlabel
    · obtain ⟨e, he, hcloses⟩ := ih body hbody
      exact ⟨e, List.mem_cons_of_mem _ he, closes_below hcloses⟩
  | @loop parent first last cond labels edges _ hlast ih =>
    intro body hbody
    rw [List.zipIdx_cons, List.zipIdx_cons, List.mem_cons, List.mem_cons] at hbody
    rcases hbody with heq | heq | hbody
    · exact absurd (congrArg Prod.fst heq).symm (loopLabel_ne cond)
    · cases heq
      exact ⟨_, by simp, closes_self cond hlast⟩
    · obtain ⟨e, he, hcloses⟩ := ih body hbody
      exact ⟨e, by simp [he], closes_body hcloses⟩

/-- The edges back of a part lead to its own nodes. -/
theorem target_bounds (h : Grown parent first labels edges) (hparent : parent < first)
    (he : e ∈ edges) (hback : e.isBack = true) :
    first ≤ e.target ∧ e.target < first + labels.length := by
  have hle := (h.closes hparent e he hback).2.1
  have hsource := h.sources hparent e he
  rw [isBack_iff] at hback
  omega

/-- The edges back of a loop are those of its body and its own. -/
theorem filter_isBack_loop {enter down : Edge} (henter : enter.source < enter.target)
    (hdown : down.source < down.target) (hlast : first < last) :
    (enter :: down :: (edges ++ [{ source := last, target := first }])).filter Edge.isBack =
      edges.filter Edge.isBack ++ [{ source := last, target := first }] := by
  rw [filter_isBack_cons henter, filter_isBack_cons hdown, List.filter_append,
    List.filter_cons_of_pos (isBack_iff.mpr hlast)]
  rfl

/-- No two edges back lead to the same loop. -/
theorem nodup_targets_back (h : Grown parent first labels edges) (hparent : parent < first) :
    ((edges.filter Edge.isBack).map Edge.target).Nodup := by
  induction h with
  | nil parent first => exact List.nodup_nil
  | append h₁ h₂ ih₁ ih₂ =>
    rw [List.filter_append, List.map_append]
    refine List.nodup_append.mpr ⟨ih₁ hparent, ih₂ (by omega), ?_⟩
    intro m hm n hn
    obtain ⟨d, hd, rfl⟩ := List.mem_map.mp hm
    obtain ⟨e, he, rfl⟩ := List.mem_map.mp hn
    rw [List.mem_filter] at hd he
    have hd' := h₁.target_bounds hparent hd.1 hd.2
    have he' := h₂.target_bounds (by omega) he.1 he.2
    omega
  | node _ _ _ ih =>
    rw [filter_isBack_cons hparent]
    exact ih (Nat.lt_succ_self _)
  | loop h hlast ih =>
    have hbounds := lt_last (h.targets (Nat.lt_succ_self _)) hlast
    rw [filter_isBack_loop hparent (Nat.lt_succ_self _) hbounds.1, List.map_append]
    refine List.nodup_append.mpr ⟨ih (Nat.lt_succ_self _), List.nodup_singleton _, ?_⟩
    intro m hm n hn
    obtain ⟨d, hd, rfl⟩ := List.mem_map.mp hm
    rw [List.mem_filter] at hd
    have hd' := h.target_bounds (Nat.lt_succ_self _) hd.1 hd.2
    cases List.mem_singleton.mp hn
    dsimp only
    omega

/-- There are as many edges back as bodies of loops. -/
theorem length_back (h : Grown parent first labels edges) (hparent : parent < first) :
    (edges.filter Edge.isBack).length = labels.count "Loop Body" := by
  induction h with
  | nil parent first => rfl
  | append _ _ ih₁ ih₂ =>
    rw [List.filter_append, List.length_append, ih₁ hparent, ih₂ (by omega), List.count_append]
  | node hlabel _ _ ih =>
    rw [filter_isBack_cons hparent, ih (Nat.lt_succ_self _),
      List.count_cons_of_ne hlabel]
  | @loop parent first last cond labels edges h hlast ih =>
    have hbounds := lt_last (h.targets (Nat.lt_succ_self _)) hlast
    rw [filter_isBack_loop hparent (Nat.lt_succ_self _) hbounds.1, List.length_append,
      ih (Nat.lt_succ_self _), List.count_cons_of_ne (loopLabel_ne cond), List.count_cons_self]
    rfl

theorem label_mem (h : Grown parent first labels edges) :
    ∀ e ∈ edges, e.label ∈ [none, some "T", some "F"] := by
  induction h with
  | nil parent first => simp
  | append _ _ ih₁ ih₂ => exact List.forall_mem_append.mpr ⟨ih₁, ih₂⟩
  | node _ hmark _ ih => exact List.forall_mem_cons.mpr ⟨hmark, ih⟩
  | loop _ _ ih =>
    refine List.forall_mem_cons.mpr ⟨by simp, List.forall_mem_cons.mpr ⟨by simp, ?_⟩⟩
    exact List.forall_mem_append.mpr ⟨ih, by simp⟩

end Grown

/-! ## The parts of a program -/

namespace Block

theorem labels_cons (parent first : Nat) (stmt : Stmt) (rest : Block) :
    (flow parent first (stmt :: rest)).labels = (stmt.flow parent first).labels ++
      (flow parent (first + (stmt.flow parent first).labels.length) rest).labels := by
  cases rest with
  | nil => exact (List.append_nil _).symm
  | cons next more => rfl

theorem edges_cons (parent first : Nat) (stmt : Stmt) (rest : Block) :
    (flow parent first (stmt :: rest)).edges = (stmt.flow parent first).edges ++
      (flow parent (first + (stmt.flow parent first).labels.length) rest).edges := by
  cases rest with
  | nil => exact (List.append_nil _).symm
  | cons next more => rfl

/-- The last node of a part is the node that it hangs below, or right below that node. -/
def Ends (parent : Nat) (part : FlowPart) : Prop :=
  part.last = parent ∨ Down part.edges parent part.last

theorem Ends.cons {parent first : Nat} {stmt : Stmt} {rest : Block}
    (hstmt : Ends parent (stmt.flow parent first))
    (hrest : Ends parent (flow parent (first + (stmt.flow parent first).labels.length) rest)) :
    Ends parent (flow parent first (stmt :: rest)) := by
  cases rest with
  | nil => exact hstmt
  | cons next more =>
    refine hrest.imp_right fun hdown => hdown.mono ?_
    rw [edges_cons parent first stmt]
    exact List.subset_append_right _ _

/-- A statement ends at the node that stands for it. -/
theorem ends_of_first {parent first : Nat} {part : FlowPart} {edges : List Edge}
    (hparent : parent < first) (hlast : part.last = first)
    (hedges : part.edges = { source := parent, target := first } :: edges) : Ends parent part := by
  refine .inr ⟨{ source := parent, target := first }, ?_, rfl, hlast.symm⟩
  rw [hedges, treeEdges_cons_of_lt hparent]
  exact List.mem_cons_self

theorem ends_flow (b : Block) (parent first : Nat) (hparent : parent < first) :
    Ends parent (flow parent first b) := by
  induction b using inductionOn generalizing parent first with
  | nil => exact .inl rfl
  | assign span a rest ih | check span cond rest ih =>
    exact .cons (ends_of_first hparent rfl rfl) (ih _ _ (by omega))
  | ifElse span cond t e rest _ _ ih | whileDo span cond body rest _ ih =>
    exact .cons (ends_of_first hparent rfl rfl) (ih _ _ (by omega))
  | forDo span init cond update body rest ih =>
    rw [flow_forDo]
    exact ih parent first hparent

theorem assignLabel_ne (a : Assignment) : a.label ≠ "Loop Body" :=
  ne_loopBody (c := ':') (by simp [Assignment.label]) (by decide)

theorem checkLabel_ne (cond : Expr String) : "Assert (" ++ sourceLabel cond ++ ")" ≠ "Loop Body" :=
  ne_loopBody (c := '(') (by simp) (by decide)

theorem branchLabel_ne (cond : Expr String) : "If (" ++ sourceLabel cond ++ ")" ≠ "Loop Body" :=
  ne_loopBody (c := '(') (by simp) (by decide)

/-- A branch is a node with two nodes below it, one for each arm. -/
theorem grown_branch {parent first other : Nat} {thenLabels elseLabels : List String}
    {thenEdges elseEdges : List Edge} (cond : Expr String)
    (hother : other = first + 2 + thenLabels.length)
    (ht : Grown (first + 1) (first + 2) thenLabels thenEdges)
    (he : Grown other (other + 1) elseLabels elseEdges) :
    Grown parent first
      (("If (" ++ sourceLabel cond ++ ")") :: "Then" :: thenLabels ++ "Else" :: elseLabels)
      ({ source := parent, target := first } ::
        { source := first, target := first + 1, label := some "T" } :: thenEdges ++
        { source := first, target := other, label := some "F" } :: elseEdges) := by
  have hthen : Grown first (first + 1) ("Then" :: thenLabels)
      ({ source := first, target := first + 1, label := some "T" } :: thenEdges) :=
    .node (by decide) (by simp) ht
  have hplace : first + 1 + ("Then" :: thenLabels).length = other := by
    rw [List.length_cons]
    omega
  have helse : Grown first (first + 1 + ("Then" :: thenLabels).length) ("Else" :: elseLabels)
      ({ source := first, target := other, label := some "F" } :: elseEdges) := by
    rw [hplace]
    exact .node (by decide) (by simp) he
  exact .node (branchLabel_ne cond) (by simp) (.append hthen helse)

/-- The part of a block comes about in the ways described. -/
theorem flow_grown (b : Block) (parent first : Nat) (hparent : parent < first) :
    Grown parent first (flow parent first b).labels (flow parent first b).edges := by
  induction b using inductionOn generalizing parent first with
  | nil => exact .nil parent first
  | assign span a rest ih =>
    rw [labels_cons, edges_cons]
    exact .append (.node (assignLabel_ne a) (by simp) (.nil _ _)) (ih parent _ (by omega))
  | check span cond rest ih =>
    rw [labels_cons, edges_cons]
    exact .append (.node (checkLabel_ne cond) (by simp) (.nil _ _)) (ih parent _ (by omega))
  | ifElse span cond t e rest iht ihe ih =>
    rw [labels_cons, edges_cons]
    have hthen := iht (first + 1) (first + 2) (Nat.lt_succ_self _)
    exact .append (grown_branch cond rfl hthen (ihe _ _ (Nat.lt_succ_self _)))
      (ih parent _ (by omega))
  | whileDo span cond body rest ihbody ih =>
    rw [labels_cons, edges_cons]
    have hends := ends_flow body (first + 1) (first + 2) (Nat.lt_succ_self _)
    exact .append (.loop (ihbody _ _ (Nat.lt_succ_self _)) hends) (ih parent _ (by omega))
  | forDo span init cond update body rest ih =>
    rw [flow_forDo]
    exact ih parent first hparent

/-- A block has a node for every assignment and assertion, three for a branch and two for a loop. -/
theorem length_labels (b : Block) (parent first : Nat) :
    (flow parent first b).labels.length = (counts b).assignments + (counts b).assertions +
      3 * (counts b).branches + 2 * (counts b).loops := by
  induction b using inductionOn generalizing parent first with
  | nil => rfl
  | assign span a rest ih | check span cond rest ih =>
    rw [labels_cons, List.length_append, ih]
    simp only [Stmt.flow, FlowPart.single, List.length_singleton, counts, Stmt.counts,
      Counts.assignments_add, Counts.assertions_add, Counts.branches_add, Counts.loops_add]
    omega
  | ifElse span cond t e rest iht ihe ih =>
    rw [labels_cons, List.length_append, ih]
    simp only [Stmt.flow, List.length_append, List.length_cons, iht, ihe, counts, Stmt.counts,
      Counts.assignments_add, Counts.assertions_add, Counts.branches_add, Counts.loops_add]
    omega
  | whileDo span cond body rest ihbody ih =>
    rw [labels_cons, List.length_append, ih]
    simp only [Stmt.flow, FlowPart.loop, List.length_cons, ihbody, counts, Stmt.counts,
      Counts.assignments_add, Counts.assertions_add, Counts.branches_add, Counts.loops_add]
    omega
  | forDo span init cond update body rest ih => rw [flow_forDo, counts_forDo, ih]

/-- A block has a node for the body of every loop. -/
theorem count_labels (b : Block) (parent first : Nat) :
    (flow parent first b).labels.count "Loop Body" = (counts b).loops := by
  induction b using inductionOn generalizing parent first with
  | nil => rfl
  | assign span a rest ih =>
    rw [labels_cons, List.count_append, ih]
    simp [Stmt.flow, FlowPart.single, counts, Stmt.counts, assignLabel_ne a]
  | check span cond rest ih =>
    rw [labels_cons, List.count_append, ih]
    simp [Stmt.flow, FlowPart.single, counts, Stmt.counts, checkLabel_ne cond]
  | ifElse span cond t e rest iht ihe ih =>
    rw [labels_cons, List.count_append, ih]
    simp [Stmt.flow, iht, ihe, counts, Stmt.counts, branchLabel_ne cond]
  | whileDo span cond body rest ihbody ih =>
    rw [labels_cons, List.count_append, ih]
    simp [Stmt.flow, FlowPart.loop, ihbody, counts, Stmt.counts, loopLabel_ne cond,
      Nat.add_comm]
  | forDo span init cond update body rest ih => rw [flow_forDo, counts_forDo, ih]

end Block

end WhileSmt
