import WhileSmt.FlowGraph.Basic
import WhileSmt.Text.Json

/-!
Four texts of a flow graph: a listing, a summary, a drawing for a layout tool, and JSON.
-/

namespace WhileSmt

/-- The forms in which a flow graph can be printed. -/
inductive GraphFormat where
  | text
  | dot
  | json
  | summary
deriving DecidableEq

namespace FlowGraph

/-! ## Listing and summary -/

/-- A node that follows, in the list under a node. -/
def successorLine (g : FlowGraph) (e : Edge) : String :=
  "      -> " ++ Text.natural e.target ++ " (" ++ g.label e.target ++ ")\n"

/-- A node of the plain listing, with the nodes that follow it or without them. -/
def nodeLines (g : FlowGraph) (successors : Bool) (node : Nat) (label : String) : String :=
  "  " ++ Text.natural node ++ ": " ++ label ++ "\n" ++
    if successors then String.join ((g.successors node).map g.successorLine) else ""

/-- An edge of the plain listing. -/
def edgeLine (e : Edge) : String :=
  "  " ++ Text.natural e.source ++ " -> " ++ Text.natural e.target ++
    (match e.label with
      | some label => " [" ++ label ++ "]"
      | none => "") ++ "\n"

/-- The nodes, with the edges that leave each of them if `successors` is set, and the edges. -/
def listing (g : FlowGraph) (successors : Bool) : String :=
  "Control Flow Graph (CFG):\n===========================\n\nNodes:\n" ++
    String.join (g.labels.zipIdx.map fun (label, node) => g.nodeLines successors node label) ++
    "\nEdges:\n" ++ String.join (g.edges.map edgeLine)

/-- The size of a graph and the number of its loops, as a short text. -/
def summary (g : FlowGraph) : String :=
  "CFG Summary:\n============\n\n" ++
    "Total Nodes: " ++ Text.natural g.labels.length ++ "\n" ++
    "Total Edges: " ++ Text.natural g.edges.length ++ "\n" ++
    "Back Edges: " ++ Text.natural g.backEdges.length ++ "\n"

/-! ## Drawing -/

/-- Replaces every occurrence of a character by a text. -/
def replaceChar (c : Char) (replacement : List Char) (text : List Char) : List Char :=
  text.flatMap fun d => if d = c then replacement else [d]

/-- Escapes a label: backslashes first, then newlines, quotation marks and braces. -/
def escapeLabel (text : List Char) : List Char :=
  replaceChar '\x7d' ['\\', '\x7d']
    (replaceChar '\x7b' ['\\', '\x7b']
      (replaceChar '"' ['\\', '"']
        (replaceChar '\n' ['\\', 'n']
          (replaceChar '\\' ['\\', '\\'] text))))

/-- The label of a node or an edge in a drawing. -/
def labelAttribute (label : String) : String :=
  "label=\"" ++ String.ofList (escapeLabel label.toList) ++ "\""

/-- The labels of the nodes that stand for blocks. -/
def blockLabels : List String :=
  ["Then", "Else", "Loop Body"]

/-- The shape of a node: blocks are ellipses, the root is an oval, and the rest are boxes. -/
def shapeAttribute (g : FlowGraph) (node : Nat) (label : String) : String :=
  if label ∈ blockLabels then "shape=ellipse, "
  else if node = g.root then "shape=oval, "
  else ""

/-- A node of a drawing. -/
def dotNode (g : FlowGraph) (node : Nat) (label : String) : String :=
  "  n" ++ Text.natural node ++ " [" ++ g.shapeAttribute node label ++ labelAttribute label ++
    "];\n"

/-- An edge; back edges are dashed. -/
def dotEdge (e : Edge) : String :=
  let attributes := (e.label.map labelAttribute).toList ++
    if e.isBack then ["style=dashed"] else []
  "  n" ++ Text.natural e.source ++ " -> n" ++ Text.natural e.target ++
    (if attributes.isEmpty then "" else " [" ++ ", ".intercalate attributes ++ "]") ++ ";\n"

/-- A graph as a drawing. -/
def dot (g : FlowGraph) : String :=
  "digraph CFG \x7b\n  node [shape=box, style=rounded];\n\n" ++
    String.join (g.labels.zipIdx.map fun (label, node) => g.dotNode node label) ++ "\n" ++
    String.join (g.edges.map dotEdge) ++ "\x7d\n"

/-! ## JSON -/

/-- A node as an object. -/
def jsonNode (node : Nat) (label : String) : Text.JsonText :=
  .object [("id", .number node), ("label", .string label)]

/-- An edge; a label that is absent is left out. -/
def jsonEdge (e : Edge) : Text.JsonText :=
  .object ([("from", .number e.source), ("to", .number e.target)] ++
    (e.label.map fun label => ("label", Text.JsonText.string label)).toList)

/-- A graph as a document with the lists of its nodes and its edges. -/
def json (g : FlowGraph) : String :=
  Text.JsonText.document (.object
    [("nodes", .array (g.labels.zipIdx.map fun (label, node) => jsonNode node label)),
     ("edges", .array (g.edges.map jsonEdge))])

/-- The text of a graph in a format; `detailed` matters to the listing only. -/
def render (g : FlowGraph) (detailed : Bool) : GraphFormat → String
  | .text => g.listing detailed
  | .dot => g.dot
  | .json => g.json
  | .summary => g.summary

end FlowGraph

end WhileSmt
