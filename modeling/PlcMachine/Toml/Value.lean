/-! # TOML values

What a TOML document says once its notation is read. A document is a table, and tables keep their keys
in the order in which they are first written.
-/

namespace PlcMachine.Toml

/-- A TOML value. Floats and times are kept as they are written. -/
inductive Value where
  | string (s : String)
  | integer (n : Int)
  | float (written : String)
  | boolean (b : Bool)
  | dateTime (written : String)
  | array (items : List Value)
  | table (entries : List (String × Value))
deriving Repr

end PlcMachine.Toml
