/-! The fixed-step methods: their names, and what a reader is told about them
next to results. -/

namespace InitialValue

inductive Method where
  | euler | heun | rungeKutta
  deriving DecidableEq, Repr

/-- A name that belongs to no method, in lower case. -/
structure UnknownMethod where
  name : String
  deriving DecidableEq, Repr

def UnknownMethod.message (u : UnknownMethod) : String := "Unknown method: " ++ u.name

/-- A description of a method for display. -/
structure MethodInfo where
  name : String
  formula : String
  description : String
  order : Nat
  errorType : String
  stages : List String
  deriving DecidableEq, Repr

namespace Method

def all : List Method := [.euler, .heun, .rungeKutta]

/-- The accepted names, in lower case. -/
def names : List (String × Method) :=
  [("euler", .euler), ("heun", .heun), ("rk4", .rungeKutta), ("runge_kutta", .rungeKutta),
    ("runge-kutta", .rungeKutta)]

/-- The method of a name, in which the case of ASCII letters does not matter. -/
def ofName (name : String) : Except UnknownMethod Method :=
  let lower := name.map Char.toLower
  match names.lookup lower with
  | some m => .ok m
  | none => .error ⟨lower⟩

/-- The short name that stands in stored data. -/
def tag : Method → String
  | .euler => "euler"
  | .heun => "heun"
  | .rungeKutta => "rk4"

/-- The name in plots and messages. -/
def label : Method → String
  | .euler => "Euler"
  | .heun => "Heun"
  | .rungeKutta => "Runge-Kutta"

def info : Method → MethodInfo
  | .euler =>
    { name := "Euler's method"
      formula := "y_\x7bn+1\x7d = y_n + h * f(x_n, y_n)"
      description := "First-order explicit method"
      order := 1
      errorType := "O(h^2) local, O(h) global"
      stages := ["y_\x7bn+1\x7d = y_n + h * f(x_n, y_n)"] }
  | .heun =>
    { name := "Heun's method (improved Euler)"
      formula := "y_\x7bn+1\x7d = y_n + (h/2) * [f(x_n, y_n) + f(x_\x7bn+1\x7d, y_pred)]"
      description := "Second-order predictor-corrector method"
      order := 2
      errorType := "O(h^3) local, O(h^2) global"
      stages :=
        ["Predictor: y_pred = y_n + h * f(x_n, y_n)",
          "Corrector: y_\x7bn+1\x7d = y_n + (h/2) * [f(x_n, y_n) + f(x_\x7bn+1\x7d, y_pred)]"] }
  | .rungeKutta =>
    { name := "Runge-Kutta method (4th order)"
      formula := "y_\x7bn+1\x7d = y_n + (h/6) * (k1 + 2k2 + 2k3 + k4)"
      description := "Classical fourth-order method"
      order := 4
      errorType := "O(h^5) local, O(h^4) global"
      stages :=
        ["k1 = f(x_n, y_n)",
          "k2 = f(x_n + h/2, y_n + k1*h/2)",
          "k3 = f(x_n + h/2, y_n + k2*h/2)",
          "k4 = f(x_n + h, y_n + k3*h)",
          "y_\x7bn+1\x7d = y_n + (h/6)(k1 + 2k2 + 2k3 + k4)"] }

theorem mem_all (m : Method) : m ∈ all := by cases m <;> decide

end Method

end InitialValue
