import Sigil.Pool.Unfold

namespace Sigil

namespace Tree

def label {α : Type} (note : Note) (kind : Kind α) : String :=
  kind.text note.lead ++ (match note.name with | some name => s!" ({name})" | none => "")
    ++ (if note.matcher.isSome then " [matcher]" else "")

def passing (isLast : Bool) : String := if isLast then "   " else " │ "

def branching (isLast : Bool) : String := if isLast then " └─" else " ├─"

mutual

/-- The lines of a tree. `first` comes before the line of its root and `rest` before all others. -/
def lines (first rest : String) : Tree Note → List String
  | .node note kind => (first ++ " " ++ label note kind) :: layerLines rest kind

def layerLines (rest : String) : Kind (Tree Note) → List String
  | .alt ts => branchLines rest ts
  | .seq ts => branchLines rest ts
  | .rep t _ => lines (rest ++ branching true) (rest ++ passing true) t
  | .ctx _ t => lines (rest ++ branching true) (rest ++ passing true) t
  | .lit _ | .any _ | .range .. | .anchor _ => []

def branchLines (rest : String) : List (Tree Note) → List String
  | [] => []
  | t :: ts =>
    lines (rest ++ branching ts.isEmpty) (rest ++ passing ts.isEmpty) t ++ branchLines rest ts

end

def diagram (t : Tree Note) : String := String.join ((t.lines "" "").map (· ++ "\n"))

end Tree

def Pool.diagram (p : Pool) (id : PatternId) : String := ((p.tree? id).map (·.diagram)).getD ""

end Sigil
