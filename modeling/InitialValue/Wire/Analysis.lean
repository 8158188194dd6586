import InitialValue.Expression.Tree
import InitialValue.Wire.Request

/-! Direction fields, comparisons and descriptions as values. -/

namespace InitialValue

open Wire Wire.Value

def Frame.toValue (r : Frame) : Value :=
  .record [("x_min", .ofFloat r.xMin), ("x_max", .ofFloat r.xMax), ("y_min", .ofFloat r.yMin),
    ("y_max", .ofFloat r.yMax), ("nx", .count r.nx), ("ny", .count r.ny)]

def Sample.toValue (s : Sample) : Value :=
  .record [("x", .ofFloat s.x), ("y", .ofFloat s.y),
    ("direction", ofOption (fun (dx, dy) => .ofFloats [dx, dy]) s.direction)]

def DirectionField.toValue (d : DirectionField) : Value :=
  .record [("spec", d.frame.toValue), ("samples", .list (d.samples.map Sample.toValue))]

def Comparison.toValue (c : Comparison) : Value :=
  .record [("methods", .list [c.methods.1.toValue, c.methods.2.toValue]),
    ("x_values", .ofFloats c.xs), ("differences", .ofFloats c.differences),
    ("max_difference", .ofFloat c.maxDifference), ("max_difference_x", .ofFloat c.maxDifferenceX)]

def MethodInfo.toValue (i : MethodInfo) : Value :=
  .record [("name", .text i.name), ("formula", .text i.formula),
    ("description", .text i.description), ("order", .count (.ofNat i.order)),
    ("error_type", .text i.errorType), ("stages", .list (i.stages.map .text))]

namespace Expression.Catalog

/-- The whole catalog. -/
def toValue : Value :=
  let texts (names : List String) : Value := .list (names.map .text)
  .record [("functions", .list (functions.map fun (category, names) =>
      .record [("category", .text category.label), ("names", texts names)])),
    ("constants", texts constants), ("variables", texts coordinates),
    ("operators", texts operators)]

end Expression.Catalog

end InitialValue
