import RuleEditor.Data.Value
import RuleEditor.Number.Decimal
import RuleEditor.Text.Quoted

/-!
# The text of plain data

How a value reads inside a message or as the label of an option. A text stands for itself; inside a
list or a record it is quoted.
-/
namespace RuleEditor.Value

mutual

/-- The text of a value inside a list or a record. -/
def shown : Value → String
  | .null => "None"
  | .bool b => if b then "True" else "False"
  | .int n => toString n
  | .float x => x.render "inf" "nan"
  | .text s => Text.quoted s
  | .list items => "[" ++ shownItems items ++ "]"
  | .record members => "\x7b" ++ shownMembers members ++ "\x7d"

def shownItems : List Value → String
  | [] => ""
  | [v] => shown v
  | v :: w :: vs => shown v ++ ", " ++ shownItems (w :: vs)

def shownMembers : List (String × Value) → String
  | [] => ""
  | [(k, v)] => Text.quoted k ++ ": " ++ shown v
  | (k, v) :: m :: ms => Text.quoted k ++ ": " ++ shown v ++ ", " ++ shownMembers (m :: ms)

end

/-- The text of a value on its own. -/
def display : Value → String
  | .text s => s
  | v => v.shown

instance : ToString Value where
  toString := display

end RuleEditor.Value
