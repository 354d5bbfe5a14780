import RuleEditor.Session.Reference

/-!
# What moves may draw on

A scope says which nodes, paths and rules the moves of a session may draw on, and what they may do. Claims about
runs are made for the scopes that the turns of the run stay in.
-/
namespace RuleEditor

/-- A request for the reference at a path. -/
structure Ticket where
  path : String
  token : Nat
  epoch : Nat
deriving DecidableEq

/-- Sorts of moves that name no path. -/
inductive Deed where
  | recast
  | store
  | takeUp

/-- What a move does to the data that it comes upon, and that nothing checks: it gives a comparison another left
operand, brings in an expression, puts an expression in the place of a node, or a new condition, joins operands by
an operator, leaves a choice with fewer branches, takes up a stored rule, or puts a rule away without taking up
another one. -/
inductive Feat where
  | lead (c : Comparison) (left : Node)
  | supply (e : Node)
  | fill (old : Node)
  | clear (old : Node)
  | join (operator : Value)
  | drop (left : Choice)
  | load (d : Document)
  | abandon

/-- What moves may draw on: nodes that are supplied, paths that are named, branches of which the condition is
turned into one of another kind, requests that are answered, references to rules that were selected, and what is
found about versions of rules. References are `listed` whose rules are looked up to be checked. -/
structure Scope where
  given : Node → Prop
  here : String → Prop
  turned : Choice → Int → Kind → Prop
  asked : Ticket → Prop
  chosen : Reference → Prop
  listed : Reference → Prop
  found : Value → Value → Finding → Prop
  may : Deed → Prop
  dares : Feat → Prop

/-- The scope that any move is in. -/
def Scope.any : Scope where
  given _ := True
  here _ := True
  turned _ _ _ := True
  asked _ := True
  chosen _ := True
  listed _ := True
  found _ _ _ := True
  may _ := True
  dares _ := True

/-- With a path, the paths above it are named too. -/
def Scope.Upward (sc : Scope) : Prop :=
  ∀ path parent, sc.here path → Address.parent? path = .ok (some parent) → sc.here parent

end RuleEditor
