import CallResolution.CallGraph.Drawing
import CallResolution.Proofs.CallChains
import CallResolution.Proofs.DotText

/-!
Drawn call graphs. The text lists every method and every edge once, in their order, and shows who
is called by nobody, who calls nobody and how many calls an edge stands for. Names cannot add to it.
-/

namespace CallResolution

namespace Digraph

variable {α β γ : Type}

theorem nodeEntries_eq (graph : Digraph α β) :
    graph.nodeEntries = graph.nodes.toList.zipIdx.map fun entry => (⟨entry.2⟩, entry.1) :=
  Handle.filterMap_upTo_entry graph.nodes

def edgesBySource (graph : Digraph α β) : List (Edge β) :=
  graph.nodeIds.flatMap fun node => graph.edges.toList.filter fun edge => edge.source == node

namespace Consistent

variable {graph : Digraph α β} (consistent : graph.Consistent)

include consistent

theorem map_outgoingEdges (view : Edge β → γ) (node : NodeId) :
    (graph.outgoingEdges node).map (fun entry => view entry.2) =
      (graph.edges.toList.filter fun edge => edge.source == node).map view := by
  rw [outgoingEdges, consistent.outgoingIds, List.map_filterMap, ← filterMap_edgesWhere]
  refine List.filterMap_congr fun id _ => ?_
  rw [Option.map_map]
  rfl

theorem edgesBySource_perm : graph.edgesBySource.Perm graph.edges.toList := by
  refine perm_groups (Handle.nodup_upTo graph.nodeCount) fun edge member => ?_
  exact Handle.mem_upTo.mpr (consistent.endsBound edge (by simpa using member)).1

end Consistent

end Digraph

namespace Dot

def FilledWith (color line : String) : Prop :=
  (", style=filled, fillcolor=" ++ color ++ "];").toList <:+ line.toList

end Dot

namespace CallGraph

def headerLines (title : Option String) : List String :=
  let titleLines := match title with
    | some text => ["    label=\"" ++ Dot.escapeLabel text ++ "\";", "    labelloc=t;"]
    | none => []
  ["digraph CallGraph \x7b"] ++ titleLines ++
    ["    node [shape=box, fontname=\"Courier\", fontsize=10];",
      "    edge [fontname=\"Courier\", fontsize=9];", ""]

def fillText (callGraph : CallGraph) (method : MethodId) : String :=
  if method ∈ callGraph.entryPoints then ", style=filled, fillcolor=lightgreen"
  else if method ∈ callGraph.leafMethods then ", style=filled, fillcolor=lightblue"
  else ""

def methodLine (callGraph : CallGraph) (program : Program) (entry : MethodId × Nat) : String :=
  "    n" ++ toString entry.2 ++ " [label=\"" ++ Dot.escapeLabel (methodLabel program entry.1) ++
    "\"" ++ callGraph.fillText entry.1 ++ "];"

def edgeLine (edge : Edge (List CallSite)) : String :=
  "    n" ++ toString edge.source.index ++ " -> n" ++ toString edge.target.index ++
    (if 1 < edge.data.length then " [label=\"" ++ toString edge.data.length ++ "\"]" else "") ++ ";"

structure DrawnAs (callGraph : CallGraph) (program : Program) (title : Option String)
    (text : String) : Prop where
  lines : Dot.textLines text = headerLines title ++
    callGraph.methods.zipIdx.map (callGraph.methodLine program) ++
    callGraph.graph.edgesBySource.map edgeLine ++ ["\x7d", ""]
  methods : callGraph.methods.Nodup
  edges : callGraph.graph.edgesBySource.Perm callGraph.graph.edges.toList
  green : ∀ entry ∈ callGraph.methods.zipIdx,
    Dot.FilledWith "lightgreen" (callGraph.methodLine program entry) ↔
      entry.1 ∈ callGraph.entryPoints
  blue : ∀ entry ∈ callGraph.methods.zipIdx,
    Dot.FilledWith "lightblue" (callGraph.methodLine program entry) ↔
      entry.1 ∈ callGraph.leafMethods ∧ entry.1 ∉ callGraph.entryPoints
  arrows : Dot.arrows text.toList = callGraph.edgeCount

theorem line_drawEdge (edge : Edge (List CallSite)) : (drawEdge edge).line = edgeLine edge := by
  unfold drawEdge edgeLine Dot.Edge.line
  apply String.toList_injective
  by_cases several : 1 < edge.data.length
  · simp only [several, if_true, Dot.quoted, Dot.escapeLabel_number]
    simp [Handle.label, Arena.labelStem]
  · simp only [several, if_false]
    simp [Handle.label, Arena.labelStem]

theorem lines_drawing_edges {callGraph : CallGraph} (consistent : callGraph.graph.Consistent)
    (program : Program) (title : Option String) :
    (callGraph.drawing program title).edges.map Dot.Edge.line =
      callGraph.graph.edgesBySource.map edgeLine := by
  have drawn : (callGraph.drawing program title).edges =
      callGraph.graph.edgesBySource.map drawEdge := by
    simp only [drawing, Digraph.edgesBySource, List.map_flatMap, consistent.map_outgoingEdges]
  rw [drawn, List.map_map]
  exact List.map_congr_left fun edge _ => line_drawEdge edge

theorem header_drawing (callGraph : CallGraph) (program : Program) (title : Option String) :
    (callGraph.drawing program title).header = headerLines title := by
  cases title with
  | none => rfl
  | some text =>
      have quoted : "    label=" ++ Dot.quoted text ++ ";" =
          "    label=\"" ++ Dot.escapeLabel text ++ "\";" := by
        apply String.toList_injective
        simp [Dot.quoted]
      simp only [Dot.Graph.header, drawing, headerLines, quoted]
      rfl

theorem tame_drawing (callGraph : CallGraph) (program : Program) (title : Option String) :
    (callGraph.drawing program title).Tame := by
  refine ⟨Dot.quiet_of_plain (by simp [drawing]) (by simp [drawing]), ?_⟩
  intro node member color filled
  obtain ⟨entry, _, same⟩ := List.mem_map.mp member
  rw [← same, drawNode] at filled
  dsimp only at filled
  unfold nodeFill at filled
  split at filled
  · cases filled
    exact Dot.quiet_of_plain (by simp) (by simp)
  · split at filled
    · cases filled
      exact Dot.quiet_of_plain (by simp) (by simp)
    · cases filled

theorem methodLine_eq (callGraph : CallGraph) (program : Program) (entry : MethodId × Nat) :
    ∃ front : String, callGraph.methodLine program entry =
      front ++ "\"" ++ callGraph.fillText entry.1 ++ "];" :=
  ⟨_, rfl⟩

theorem methodLine_green (callGraph : CallGraph) (program : Program) (entry : MethodId × Nat) :
    Dot.FilledWith "lightgreen" (callGraph.methodLine program entry) ↔
      entry.1 ∈ callGraph.entryPoints := by
  obtain ⟨front, line⟩ := callGraph.methodLine_eq program entry
  rw [line, Dot.FilledWith, fillText]
  constructor
  · rintro ⟨before, same⟩
    by_contra called
    -- the third character from the end tells the attributes apart
    have third := congrArg (fun chars => chars.reverse[2]?) same
    by_cases leaf : entry.1 ∈ callGraph.leafMethods
    · simp [called, leaf] at third
    · simp [called, leaf] at third
  · intro uncalled
    exact ⟨(front ++ "\"").toList, by simp [uncalled]⟩

theorem methodLine_blue (callGraph : CallGraph) (program : Program) (entry : MethodId × Nat) :
    Dot.FilledWith "lightblue" (callGraph.methodLine program entry) ↔
      entry.1 ∈ callGraph.leafMethods ∧ entry.1 ∉ callGraph.entryPoints := by
  obtain ⟨front, line⟩ := callGraph.methodLine_eq program entry
  rw [line, Dot.FilledWith, fillText]
  constructor
  · rintro ⟨before, same⟩
    have third := congrArg (fun chars => chars.reverse[2]?) same
    by_cases called : entry.1 ∈ callGraph.entryPoints
    · simp [called] at third
    · by_cases leaf : entry.1 ∈ callGraph.leafMethods
      · exact ⟨leaf, called⟩
      · simp [called, leaf] at third
  · rintro ⟨leaf, called⟩
    exact ⟨(front ++ "\"").toList, by simp [called, leaf]⟩

namespace Records

variable {seen : List MethodId} {placed : List Resolution} {callGraph : CallGraph}
  {method : MethodId} {node : NodeId}

theorem mem_methodsAt_filter (records : callGraph.Records seen placed)
    (found : callGraph.nodeOf? method = some node) (test : NodeId → Bool) :
    method ∈ callGraph.methodsAt (callGraph.graph.nodeIds.filter test) ↔ test node = true := by
  rw [records.mem_methodsAt]
  constructor
  · rintro ⟨other, listed, again⟩
    cases found.symm.trans again
    exact (List.mem_filter.mp listed).2
  · intro passes
    have bound := records.node_bound found
    exact ⟨node, List.mem_filter.mpr ⟨Handle.mem_upTo.mpr bound, passes⟩, found⟩

theorem mem_entryPoints_iff (records : callGraph.Records seen placed)
    (found : callGraph.nodeOf? method = some node) :
    method ∈ callGraph.entryPoints ↔ callGraph.graph.inDegree node = 0 := by
  rw [entryPoints, Digraph.entryNodes, records.mem_methodsAt_filter found, List.isEmpty_iff,
    Digraph.inDegree, List.length_eq_zero_iff]

theorem mem_leafMethods_iff (records : callGraph.Records seen placed)
    (found : callGraph.nodeOf? method = some node) :
    method ∈ callGraph.leafMethods ↔ callGraph.graph.outDegree node = 0 := by
  rw [leafMethods, Digraph.exitNodes, records.mem_methodsAt_filter found, List.isEmpty_iff,
    Digraph.outDegree, List.length_eq_zero_iff]

theorem line_drawNode (records : callGraph.Records seen placed) (program : Program)
    (found : callGraph.nodeOf? method = some node) :
    (callGraph.drawNode program (node, method)).line =
      callGraph.methodLine program (method, node.index) := by
  unfold drawNode nodeFill methodLine fillText Dot.Node.line
  simp only [← records.mem_entryPoints_iff found, ← records.mem_leafMethods_iff found]
  apply String.toList_injective
  by_cases entry : method ∈ callGraph.entryPoints
  · simp [entry, Dot.quoted, Handle.label, Arena.labelStem]
  · by_cases leaf : method ∈ callGraph.leafMethods
    · simp [entry, leaf, Dot.quoted, Handle.label, Arena.labelStem]
    · simp [entry, leaf, Dot.quoted, Handle.label, Arena.labelStem]

theorem lines_drawing_nodes (records : callGraph.Records seen placed) (program : Program)
    (title : Option String) :
    (callGraph.drawing program title).nodes.map Dot.Node.line =
      callGraph.methods.zipIdx.map (callGraph.methodLine program) := by
  rw [drawing, Digraph.nodeEntries_eq, List.map_map, List.map_map]
  refine List.map_congr_left ?_
  rintro ⟨method, position⟩ member
  have listed : callGraph.graph.node? ⟨position⟩ = some method := by
    simpa [Digraph.node?] using List.mem_zipIdx_iff_getElem?.mp member
  exact records.line_drawNode program ((records.nodeOf _ _).mpr listed)

theorem drawnAs (records : callGraph.Records seen placed) (program : Program)
    (title : Option String) :
    callGraph.DrawnAs program title (callGraph.drawing program title).render := by
  have tame := callGraph.tame_drawing program title
  have consistent := records.consistent
  have edges := lines_drawing_edges consistent program title
  refine ⟨?_, ?_, consistent.edgesBySource_perm,
    fun entry _ => callGraph.methodLine_green program entry,
    fun entry _ => callGraph.methodLine_blue program entry, ?_⟩
  · rw [tame.textLines_render, Dot.Graph.lines, header_drawing, records.lines_drawing_nodes, edges,
      List.append_assoc]
    rfl
  · rw [records.methods]
    exact nodup_eraseDups seen
  · have count := congrArg List.length edges
    rw [List.length_map, List.length_map, consistent.edgesBySource_perm.length_eq,
      Array.length_toList] at count
    rw [tame.arrows_render, count]
    rfl

end Records

/-- The text of a drawn call graph lists the graph and nothing else, whatever the names hold. -/
theorem drawing_lists_graph {program : Program} {classes : List ClassDecl}
    {detached : List DetachedMethod} (loaded : Program.load classes detached = .ok program)
    (policy : Policy) (requests : List Request) (options : BuildOptions)
    {schedule : List (BlockId × BlockEntry)} (shuffled : schedule.Perm program.blockEntries) :
    let built := Hierarchy.afterHistory program policy requests
    ∃ callGraph events, (buildScheduled built.1 options schedule built.2).1 =
        .ok (callGraph, events) ∧
      ∀ title, callGraph.DrawnAs program title (callGraph.drawing program title).render := by
  have held := Hierarchy.exact_afterHistory program policy requests
  obtain ⟨_, callGraph, _, built, _, _, records⟩ :=
    buildScheduled_records (Program.load_wellFormed loaded) options shuffled held
  exact ⟨callGraph, _, congrArg Prod.fst built, records.drawnAs program⟩

def forgedClasses : List ClassDecl :=
  let name := "A\"];\n    n1 -> n0; //"
  let call (callee : String) : Statement := .invoke ⟨.static, name, ⟨callee, ["\r\n"]⟩⟩
  [⟨name, none, [], .publicBit,
    [⟨⟨"a->b\\", []⟩, .publicBit, [[call "<init>", .other "nop", call "<init>"]]⟩,
      ⟨⟨"<init>", ["\r\n"]⟩, .publicBit, [[]]⟩]⟩]

def forgedProgram : Program :=
  (Program.load forgedClasses []).toOption.getD .empty

theorem forgedProgram_loaded : Program.load forgedClasses [] = .ok forgedProgram := by
  decide +kernel

def forgedBuild : Except BuildError (CallGraph × List Event) :=
  let built := Hierarchy.afterHistory forgedProgram .standard []
  (buildScheduled built.1 .sequential forgedProgram.blockEntries built.2).1

def forgedGraph : CallGraph :=
  (forgedBuild.toOption.map Prod.fst).getD (.empty .sequential)

theorem drawing_lists_graph_forged :
    ∃ callGraph events, forgedBuild = .ok (callGraph, events) ∧
      Dot.textLines (callGraph.drawing forgedProgram (some "\"\n->")).render =
        ["digraph CallGraph \x7b", "    label=\"\\\"\\n-\\>\";", "    labelloc=t;",
          "    node [shape=box, fontname=\"Courier\", fontsize=10];",
          "    edge [fontname=\"Courier\", fontsize=9];", "",
          "    n0 [label=\"A\\\"];\\n    n1 -\\> n0; //.a-\\>b\\\\()\", " ++
            "style=filled, fillcolor=lightgreen];",
          "    n1 [label=\"A\\\"];\\n    n1 -\\> n0; //.\\<init\\>(\\n)\", " ++
            "style=filled, fillcolor=lightblue];",
          "    n0 -> n1 [label=\"2\"];", "\x7d", ""] ∧
      Dot.arrows (callGraph.drawing forgedProgram none).render.toList = 1 := by
  obtain ⟨callGraph, events, answered, drawn⟩ := drawing_lists_graph forgedProgram_loaded
    .standard [] .sequential (.refl _)
  obtain rfl : callGraph = forgedGraph := by
    rw [forgedGraph, forgedBuild, answered]
    rfl
  refine ⟨forgedGraph, events, answered, (drawn _).lines.trans ?_, (drawn none).arrows.trans ?_⟩
  · decide +kernel
  · decide +kernel

end CallGraph

end CallResolution
