import WhileSmt.Program.Printer

/-!
The flow graph of a program: a tree of its statements and the blocks they hold, with one more edge
per loop, from the last statement of the body back to the loop. Nodes are numbered from zero in
the order in which a reader meets them.
-/

namespace WhileSmt

/-- An edge from a node to another one; the two that leave a condition are labelled. -/
structure Edge where
  source : Nat
  target : Nat
  label : Option String := none
deriving DecidableEq

/-- An edge to an earlier node. -/
def Edge.isBack (e : Edge) : Bool :=
  e.target < e.source

/-- A graph with labelled nodes; the number of a node is its position. -/
structure FlowGraph where
  labels : List String
  edges : List Edge
  root : Nat := 0

namespace FlowGraph

/-- The edges that leave a node. -/
def successors (g : FlowGraph) (node : Nat) : List Edge :=
  g.edges.filter fun e => e.source = node

/-- What stands at a node. -/
def label (g : FlowGraph) (node : Nat) : String :=
  g.labels[node]?.getD ""

/-- The edges that close loops. -/
def backEdges (g : FlowGraph) : List Edge :=
  g.edges.filter Edge.isBack

end FlowGraph

/-- The nodes and edges of a statement or a block, and the node of its last statement. -/
structure FlowPart where
  labels : List String
  edges : List Edge
  last : Nat

/-- A statement without a block: one node. -/
def FlowPart.single (parent first : Nat) (label : String) : FlowPart where
  labels := [label]
  edges := [{ source := parent, target := first }]
  last := first

/-- Two parts in a row; the second starts after the nodes of the first. -/
def FlowPart.append (p q : FlowPart) : FlowPart where
  labels := p.labels ++ q.labels
  edges := p.edges ++ q.edges
  last := q.last

/-- A loop around the part of its body, which starts two nodes after the loop. -/
def FlowPart.loop (parent first : Nat) (cond : Expr String) (body : FlowPart) : FlowPart where
  labels := ("While (" ++ sourceLabel cond ++ ")") :: "Loop Body" :: body.labels
  edges := { source := parent, target := first } ::
    { source := first, target := first + 1, label := some "T" } ::
    (body.edges ++ [{ source := body.last, target := first }])
  last := first

mutual

/-- The part of a statement under the node `parent`, where `first` is the next free node. A
counting loop is shown as its first assignment and a loop whose body ends with its second. -/
def Stmt.flow (parent first : Nat) : Stmt → FlowPart
  | .assign _ a => .single parent first a.label
  | .check _ cond => .single parent first ("Assert (" ++ sourceLabel cond ++ ")")
  | .ifElse _ cond t e =>
    let thenPart := Block.flow (first + 1) (first + 2) t
    let other := first + 2 + thenPart.labels.length
    let elsePart := Block.flow other (other + 1) e
    { labels := ("If (" ++ sourceLabel cond ++ ")") :: "Then" :: thenPart.labels ++
        "Else" :: elsePart.labels
      edges := { source := parent, target := first } ::
        { source := first, target := first + 1, label := some "T" } :: thenPart.edges ++
        { source := first, target := other, label := some "F" } :: elsePart.edges
      last := first }
  | .whileDo _ cond body => .loop parent first cond (Block.flow (first + 1) (first + 2) body)
  | .forDo _ init cond update body =>
    let bodyPart := Block.flow (first + 2) (first + 3) body
    let updatePart :=
      FlowPart.single (first + 2) (first + 3 + bodyPart.labels.length) update.label
    (FlowPart.single parent first init.label).append
      (.loop parent (first + 1) cond (bodyPart.append updatePart))

/-- The part of a block; the last statement of an empty block is the node that holds it. -/
def Block.flow (parent first : Nat) : List Stmt → FlowPart
  | [] => { labels := [], edges := [], last := parent }
  | [s] => s.flow parent first
  | s :: next :: rest =>
    let part := s.flow parent first
    part.append (Block.flow parent (first + part.labels.length) (next :: rest))

end

/-- The flow graph of a program. -/
def Program.flowGraph (p : Program) : FlowGraph :=
  let part := Block.flow 0 1 p.statements
  { labels := "Program Start" :: part.labels, edges := part.edges }

end WhileSmt
