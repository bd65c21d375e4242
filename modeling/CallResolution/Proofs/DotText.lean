import CallResolution.Dot

/-!
The text of a drawn graph. Whatever a label holds, escaping keeps it on its line and takes its
arrows apart. So the text falls into the lines it was made of, and its arrows are its edges.
-/

namespace CallResolution.Dot

def textLines (text : String) : List String :=
  (text.split '\n').toList.map String.Slice.copy

def arrows (chars : List Char) : Nat :=
  (chars.zip chars.tail).count ('-', '>')

variable {left right chars : List Char}

theorem arrows_cons_cons (first second : Char) (rest : List Char) :
    arrows (first :: second :: rest) =
      arrows (second :: rest) + if first = '-' ∧ second = '>' then 1 else 0 := by
  simp [arrows, List.count_cons]

theorem arrows_cons_of_ne {char : Char} (apart : char ≠ '-') (rest : List Char) :
    arrows (char :: rest) = arrows rest := by
  cases rest with
  | nil => rfl
  | cons second rest => simp [arrows_cons_cons, apart]

theorem arrows_cons_of_head (char : Char) (clean : chars.head? ≠ some '>') :
    arrows (char :: chars) = arrows chars := by
  cases chars with
  | nil => rfl
  | cons second rest =>
      have apart : second ≠ '>' := by simpa using clean
      simp [arrows_cons_cons, apart]

theorem arrows_append (left : List Char) (clean : right.head? ≠ some '>') :
    arrows (left ++ right) = arrows left + arrows right := by
  induction left with
  | nil => simp [arrows]
  | cons first left ih =>
      cases left with
      | nil =>
          rw [List.singleton_append, arrows_cons_of_head first clean]
          simp [arrows]
      | cons second left =>
          rw [List.cons_append, List.cons_append, arrows_cons_cons, arrows_cons_cons,
            ← List.cons_append, ih]
          omega

/-- Characters that keep to their line, hold no arrow and complete none. -/
structure Quiet (chars : List Char) : Prop where
  oneLine : '\n' ∉ chars
  noHead : chars.head? ≠ some '>'
  arrowless : arrows chars = 0

theorem Quiet.append (leftQuiet : Quiet left) (rightQuiet : Quiet right) :
    Quiet (left ++ right) := by
  refine ⟨?_, ?_, ?_⟩
  · rw [List.mem_append]
    rintro (before | after)
    · exact leftQuiet.oneLine before
    · exact rightQuiet.oneLine after
  · cases left with
    | nil => exact rightQuiet.noHead
    | cons first left => simpa using leftQuiet.noHead
  · rw [arrows_append left rightQuiet.noHead, leftQuiet.arrowless, rightQuiet.arrowless]

theorem Quiet.concat {first second : String} (firstQuiet : Quiet first.toList)
    (secondQuiet : Quiet second.toList) : Quiet (first ++ second).toList := by
  rw [String.toList_append]
  exact firstQuiet.append secondQuiet

theorem quiet_of_plain (oneLine : '\n' ∉ chars) (noHead : '>' ∉ chars) : Quiet chars := by
  refine ⟨oneLine, ?_, ?_⟩
  · intro head
    exact noHead (List.mem_of_mem_head? head)
  · rw [arrows, List.count_eq_zero]
    intro member
    exact noHead (List.mem_of_mem_tail (List.of_mem_zip member).2)

theorem escapeChar_cases (char : Char) :
    char = '\r' ∧ escapeChar char = [] ∨
      char ∈ ['\\', '"', '\n', '<', '>'] ∧
        (∃ letter ∈ ['\\', '"', 'n', '<', '>'], escapeChar char = ['\\', letter]) ∨
      char ∉ ['\\', '"', '\n', '\r', '<', '>'] ∧ escapeChar char = [char] := by
  unfold escapeChar
  split
  case h_4 => exact .inl ⟨rfl, rfl⟩
  case h_7 => simp_all
  all_goals exact .inr (.inl ⟨by simp, _, by simp, rfl⟩)

theorem quiet_escapeChar (char : Char) : Quiet (escapeChar char) := by
  rcases escapeChar_cases char with ⟨_, dropped⟩ | ⟨_, letter, listed, masked⟩ | ⟨kept, same⟩
  · rw [dropped]
    exact quiet_of_plain (by simp) (by simp)
  · rw [masked]
    -- a `>` is not plain, but behind its backslash it completes no arrow
    have other : ∀ letter ∈ ['\\', '"', 'n', '<', '>'], letter ≠ '\n' ∧ letter ≠ '-' := by simp
    obtain ⟨apart, noDash⟩ := other letter listed
    refine ⟨?_, by simp, ?_⟩
    · simp [apart.symm]
    · rw [arrows_cons_of_ne (by decide), arrows_cons_of_ne noDash]
      rfl
  · rw [same]
    simp only [List.mem_cons, List.not_mem_nil, or_false, not_or] at kept
    obtain ⟨_, _, newline, _, _, head⟩ := kept
    exact quiet_of_plain (by simpa using Ne.symm newline) (by simpa using Ne.symm head)

theorem escapeChars_closed {property : List Char → Prop} (empty : property [])
    (joined : ∀ {left right}, property left → property right → property (left ++ right))
    (escaped : ∀ char, property (escapeChar char)) (chars : List Char) :
    property (escapeChars chars) := by
  induction chars with
  | nil => exact empty
  | cons char chars ih =>
      have split : escapeChars (char :: chars) = escapeChar char ++ escapeChars chars :=
        List.flatMap_cons
      rw [split]
      exact joined (escaped char) ih

theorem quiet_escapeChars (chars : List Char) : Quiet (escapeChars chars) :=
  escapeChars_closed (quiet_of_plain (by simp) (by simp)) .append quiet_escapeChar chars

theorem toList_escapeLabel (text : String) :
    (escapeLabel text).toList = escapeChars text.toList :=
  String.toList_ofList

theorem quiet_quoted (text : String) : Quiet (quoted text).toList := by
  have mark : Quiet "\"".toList := quiet_of_plain (by simp) (by simp)
  have escaped : Quiet (escapeLabel text).toList := by
    rw [toList_escapeLabel]
    exact quiet_escapeChars text.toList
  exact (mark.concat escaped).concat mark

theorem isDigit_of_mem_number {number : Nat} {char : Char}
    (member : char ∈ (toString number).toList) : char.isDigit = true := by
  rw [Nat.toString_eq_ofList_toDigits, String.toList_ofList] at member
  exact Nat.isDigit_of_mem_toDigits (Nat.succ_pos 9) (Nat.le_refl 10) member

theorem quiet_number (number : Nat) : Quiet (toString number).toList := by
  refine quiet_of_plain ?_ ?_
  · intro newline
    exact absurd (isDigit_of_mem_number newline) (by decide)
  · intro head
    exact absurd (isDigit_of_mem_number head) (by decide)

theorem escapeChar_digit {char : Char} (digit : char.isDigit = true) :
    escapeChar char = [char] := by
  have special : ∀ other ∈ ['\\', '"', '\n', '<', '>'], other.isDigit = false := by simp
  rcases escapeChar_cases char with ⟨same, _⟩ | ⟨listed, _⟩ | ⟨_, kept⟩
  · rw [same] at digit
    exact absurd digit (by decide)
  · rw [special char listed] at digit
    cases digit
  · exact kept

theorem escapeLabel_number (number : Nat) : escapeLabel (toString number) = toString number := by
  have kept {chars : List Char} (digits : ∀ char ∈ chars, char.isDigit = true) :
      escapeChars chars = chars := by
    induction chars with
    | nil => rfl
    | cons char chars ih =>
        have rest := ih fun other member => digits other (List.mem_cons_of_mem _ member)
        rw [escapeChars, List.flatMap_cons, escapeChar_digit (digits char (by simp))]
        exact congrArg (char :: ·) rest
  rw [escapeLabel, kept fun _ => isDigit_of_mem_number, String.ofList_toList]

theorem quiet_label (node : NodeId) : Quiet node.label.toList := by
  have stem : Quiet (Arena.labelStem .nodes).toList :=
    quiet_of_plain (by simp [Arena.labelStem]) (by simp [Arena.labelStem])
  exact stem.concat (quiet_number node.index)

theorem quiet_indent : Quiet "    ".toList :=
  quiet_of_plain (by simp) (by simp)

theorem quiet_nodeLine {node : Node} (fill : ∀ color ∈ node.fill, Quiet color.toList) :
    Quiet node.line.toList := by
  have opening : Quiet " [label=".toList := quiet_of_plain (by simp) (by simp)
  have closing : Quiet "];".toList := quiet_of_plain (by simp) (by simp)
  have named := (quiet_indent.concat (quiet_label node.id)).concat opening
  have styled {style : String} (quiet : Quiet style.toList) :=
    ((named.concat (quiet_quoted node.label)).concat quiet).concat closing
  unfold Node.line
  cases given : node.fill with
  | none => exact styled (quiet_of_plain (by simp) (by simp))
  | some color =>
      have filled : Quiet ", style=filled, fillcolor=".toList := quiet_of_plain (by simp) (by simp)
      exact styled (filled.concat (fill color given))

theorem edgeLine_eq (edge : Edge) : ∃ attributes : String, Quiet attributes.toList ∧ edge.line =
    "    " ++ edge.source.label ++ " -> " ++ edge.target.label ++ attributes ++ ";" := by
  unfold Edge.line
  cases edge.label with
  | none => exact ⟨"", quiet_of_plain (by simp) (by simp), rfl⟩
  | some label =>
      have opening : Quiet " [label=".toList := quiet_of_plain (by simp) (by simp)
      have closing : Quiet "]".toList := quiet_of_plain (by simp) (by simp)
      exact ⟨_, (opening.concat (quiet_quoted label)).concat closing, rfl⟩

theorem edgeLine_arrow (edge : Edge) :
    '\n' ∉ edge.line.toList ∧ arrows edge.line.toList = 1 := by
  obtain ⟨attributes, quiet, line⟩ := edgeLine_eq edge
  have closing : Quiet ";".toList := quiet_of_plain (by simp) (by simp)
  have before := quiet_indent.concat (quiet_label edge.source)
  have after := ((quiet_label edge.target).concat quiet).concat closing
  have split : edge.line.toList = ("    " ++ edge.source.label).toList ++
      (" -> ".toList ++ (edge.target.label ++ attributes ++ ";").toList) := by
    rw [line]
    simp only [String.toList_append, List.append_assoc]
  rw [split]
  constructor
  · simp only [List.mem_append, not_or]
    exact ⟨before.oneLine, by simp, after.oneLine⟩
  · rw [arrows_append _ (by simp), arrows_append _ after.noHead, before.arrowless, after.arrowless]
    rfl

/-- Names and colours are written as they are, so they have to be quiet by themselves. -/
structure Graph.Tame (graph : Graph) : Prop where
  name : Quiet graph.name.toList
  fills : ∀ node ∈ graph.nodes, ∀ color ∈ node.fill, Quiet color.toList

theorem Graph.Tame.header {graph : Graph} (tame : graph.Tame) :
    ∀ line ∈ graph.header, Quiet line.toList := by
  intro line member
  simp only [Graph.header, List.mem_append] at member
  rcases member with (first | title) | defaults
  · rw [List.mem_singleton.mp first]
    have opening : Quiet "digraph ".toList := quiet_of_plain (by simp) (by simp)
    exact (opening.concat tame.name).concat (quiet_of_plain (by simp) (by simp))
  · cases given : graph.title with
    | none => simp [given] at title
    | some text =>
        have opening : Quiet "    label=".toList := quiet_of_plain (by simp) (by simp)
        have closing : Quiet ";".toList := quiet_of_plain (by simp) (by simp)
        rw [given] at title
        rcases List.mem_cons.mp title with same | place
        · rw [same]
          exact (opening.concat (quiet_quoted text)).concat closing
        · rw [List.mem_singleton.mp place]
          exact quiet_of_plain (by simp) (by simp)
  · simp only [List.mem_cons, List.not_mem_nil, or_false] at defaults
    rcases defaults with rfl | rfl | rfl <;> exact quiet_of_plain (by simp) (by simp)

theorem render_toList (graph : Graph) :
    graph.render.toList = graph.lines.flatMap fun line => line.toList ++ ['\n'] := by
  simp [Graph.render, String.toList_join, List.flatMap_map]

theorem splitOn_joined {lines : List String} (oneLine : ∀ line ∈ lines, '\n' ∉ line.toList) :
    (lines.flatMap fun line => line.toList ++ ['\n']).splitOn '\n' =
      lines.map String.toList ++ [[]] := by
  induction lines with
  | nil => simp
  | cons line lines ih =>
      have rest := ih fun other member => oneLine other (List.mem_cons_of_mem _ member)
      rw [List.flatMap_cons, List.append_assoc, List.singleton_append,
        List.splitOn_append_cons_self_of_not_mem (oneLine line (by simp)), rest]
      rfl

theorem arrows_joined_append (line : String) (rest : List Char) :
    arrows (line.toList ++ ['\n'] ++ rest) = arrows line.toList + arrows rest := by
  rw [List.append_assoc, List.singleton_append, arrows_append _ (by simp),
    arrows_cons_of_ne (by decide)]

theorem arrows_joined_quiet {lines : List String} (quiet : ∀ line ∈ lines, Quiet line.toList)
    (rest : List Char) :
    arrows ((lines.flatMap fun line => line.toList ++ ['\n']) ++ rest) = arrows rest := by
  induction lines with
  | nil => rfl
  | cons line lines ih =>
      have others := ih fun other member => quiet other (List.mem_cons_of_mem _ member)
      rw [List.flatMap_cons, List.append_assoc, arrows_joined_append, others,
        (quiet line (by simp)).arrowless, Nat.zero_add]

theorem arrows_joined_edges (edges : List Edge) (rest : List Char) :
    arrows (((edges.map Edge.line).flatMap fun line => line.toList ++ ['\n']) ++ rest) =
      edges.length + arrows rest := by
  induction edges with
  | nil => simp
  | cons edge edges ih =>
      rw [List.map_cons, List.flatMap_cons, List.append_assoc, arrows_joined_append, ih,
        (edgeLine_arrow edge).2, List.length_cons]
      omega

namespace Graph.Tame

variable {graph : Graph} (tame : graph.Tame)

include tame

theorem nodeLines : ∀ line ∈ graph.nodes.map Node.line, Quiet line.toList := by
  intro line member
  obtain ⟨node, listed, same⟩ := List.mem_map.mp member
  rw [← same]
  exact quiet_nodeLine (tame.fills node listed)

theorem oneLine : ∀ line ∈ graph.lines, '\n' ∉ line.toList := by
  intro line member
  simp only [Graph.lines, List.mem_append] at member
  rcases member with ((header | node) | edge) | last
  · exact (tame.header line header).oneLine
  · exact (tame.nodeLines line node).oneLine
  · obtain ⟨_, _, rfl⟩ := List.mem_map.mp edge
    exact (edgeLine_arrow _).1
  · rw [List.mem_singleton.mp last]
    simp

theorem textLines_render : textLines graph.render = graph.lines ++ [""] := by
  rw [textLines, String.toList_split_char, render_toList, splitOn_joined tame.oneLine,
    List.map_append, List.map_map]
  simp

theorem arrows_render : arrows graph.render.toList = graph.edges.length := by
  rw [render_toList, Graph.lines, List.flatMap_append, List.flatMap_append, List.flatMap_append,
    List.append_assoc, List.append_assoc, arrows_joined_quiet tame.header,
    arrows_joined_quiet tame.nodeLines, arrows_joined_edges]
  rfl

end Graph.Tame

end CallResolution.Dot
