/-! # Outlines

An outline is a labelled tree that is drawn with one row for each label. A row is led by strokes
that join it to its parent, and by the strokes of the siblings that its ancestors still have. -/
namespace ByteAutomata

inductive Outline where
  | branch (label : String) (children : List Outline)

namespace Outline

mutual

/-- The rows of an outline, where `row` leads the first and `stem` the ones below it. -/
def rows (row stem : String) : Outline → List String
  | branch label children => (row ++ " " ++ label ++ "\n") :: childRows stem children

def childRows (stem : String) : List Outline → List String
  | [] => []
  | [last] => rows (stem ++ " └─") (stem ++ "   ") last
  | child :: rest => rows (stem ++ " ├─") (stem ++ " │ ") child ++ childRows stem rest

end

protected def toString (o : Outline) : String := String.join (o.rows "" "")

end Outline
end ByteAutomata
