import VtableCloud.Digraph.LevelOrder
import VtableCloud.Hierarchy.Basic

/-!
# A cloud as a Graphviz graph

`Hierarchy.graphviz` writes a line for each node of a cloud, breadth first, followed
by a line for each edge to one of its children.
-/

namespace VtableCloud

namespace Hierarchy

/-- The nodes of a cloud, those nearer to the root first. -/
def levelOrder (h : Hierarchy) (root : NodeId) : List NodeId := h.childGraph.levelOrder root

def graphvizNode (h : Hierarchy) (id : NodeId) : String := s!"\t \"{(h.key id).text}\";\n"

def graphvizEdge (h : Hierarchy) (parent child : NodeId) : String :=
  s!"\t \"{(h.key parent).text}\" -> \"{(h.key child).text}\";\n"

/-- The line of a node and the lines of its edges. -/
def graphvizRow (h : Hierarchy) (id : NodeId) : List String :=
  h.graphvizNode id :: (h.children id).map (h.graphvizEdge id)

def graphvizLines (h : Hierarchy) (className : String) (root : NodeId) : List String :=
  s!"digraph \"{className}\" \x7b\n" :: (h.levelOrder root).flatMap h.graphvizRow ++ ["\x7d\n"]

/-- The cloud of a root class as the text of a directed graph. -/
def graphviz (h : Hierarchy) (className : String) : Except HierarchyError String := do
  return String.join (h.graphvizLines className (← h.rootId className))

end Hierarchy

end VtableCloud
