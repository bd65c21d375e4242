import CallResolution.Handle

/-!
Graphs in the DOT language. Labels are escaped so that they stay on their lines and inside
their quotes; carriage returns are dropped.
-/

namespace CallResolution.Dot

def escapeChar : Char → List Char
  | '\\' => ['\\', '\\']
  | '"' => ['\\', '"']
  | '\n' => ['\\', 'n']
  | '\r' => []
  | '<' => ['\\', '<']
  | '>' => ['\\', '>']
  | char => [char]

def escapeChars (chars : List Char) : List Char :=
  chars.flatMap escapeChar

def escapeLabel (text : String) : String :=
  String.ofList (escapeChars text.toList)

structure Node where
  id : NodeId
  label : String
  fill : Option String
  deriving DecidableEq, Repr

structure Edge where
  source : NodeId
  target : NodeId
  label : Option String
  deriving DecidableEq, Repr

structure Graph where
  name : String
  title : Option String
  nodes : List Node
  edges : List Edge
  deriving DecidableEq, Repr

def quoted (text : String) : String :=
  "\"" ++ escapeLabel text ++ "\""

def Node.line (node : Node) : String :=
  let style := match node.fill with
    | some color => ", style=filled, fillcolor=" ++ color
    | none => ""
  "    " ++ node.id.label ++ " [label=" ++ quoted node.label ++ style ++ "];"

def Edge.line (edge : Edge) : String :=
  let attributes := match edge.label with
    | some label => " [label=" ++ quoted label ++ "]"
    | none => ""
  "    " ++ edge.source.label ++ " -> " ++ edge.target.label ++ attributes ++ ";"

namespace Graph

def header (graph : Graph) : List String :=
  let titleLines := match graph.title with
    | some title => ["    label=" ++ quoted title ++ ";", "    labelloc=t;"]
    | none => []
  ["digraph " ++ graph.name ++ " \x7b"] ++ titleLines ++
    ["    node [shape=box, fontname=\"Courier\", fontsize=10];",
      "    edge [fontname=\"Courier\", fontsize=9];", ""]

def lines (graph : Graph) : List String :=
  graph.header ++ graph.nodes.map Node.line ++ graph.edges.map Edge.line ++ ["\x7d"]

def render (graph : Graph) : String :=
  String.join (graph.lines.map fun line => line ++ "\n")

end Graph

end CallResolution.Dot
