import RuleEditor.Proofs.Outcome
import RuleEditor.Stored.Reader
import RuleEditor.Stored.Writer

/-! Normal forms of definitions. A normal expression declares a type in every leaf and in every chain
the type that follows from its operands; a normal condition has a name; a normal choice carries only
labels that can be told from the stored name of the result. What a review found about a referenced
rule is no part of a normal form. -/
namespace RuleEditor

/-- The reference without what a check of its rule found. -/
def Reference.unreviewed (r : Reference) : Reference :=
  { r with mismatch := none, declared := .null, evaluated := .null }

namespace Node

mutual

/-- The tree without what checks of the referenced rules found. -/
def unreviewed : Node → Node
  | .absent => .absent
  | .several items => .several (unreviewedItems items)
  | .literal type value => .literal type value
  | .field type path => .field type path
  | .call type name arguments => .call type name (unreviewedArguments arguments)
  | .reference target => .reference target.unreviewed
  | .chain type operands operators => .chain type (unreviewedItems operands) operators
  | .comparison name left operator right => .comparison name left.unreviewed operator right.unreviewed
  | .group name children conjunction negated =>
    .group name (unreviewedItems children) conjunction negated
  | .ruleCheck name target => .ruleCheck name target.unreviewed
  | .choice branches otherwise label =>
    .choice (unreviewedBranches branches) otherwise.unreviewed label

def unreviewedItems : List Node → List Node
  | [] => []
  | node :: nodes => node.unreviewed :: unreviewedItems nodes

def unreviewedArguments : List (Argument Node) → List (Argument Node)
  | [] => []
  | ⟨name, value⟩ :: arguments => ⟨name, value.unreviewed⟩ :: unreviewedArguments arguments

def unreviewedBranches : List (Branch Node) → List (Branch Node)
  | [] => []
  | ⟨condition, result, label⟩ :: branches =>
    ⟨condition.unreviewed, result.unreviewed, label⟩ :: unreviewedBranches branches

end

mutual

/-- An expression that declares a type in every leaf, and whose chains have two operands or more, one
operator fewer, and the inferred type. -/
def NormalExpression : Node → Prop
  | .literal type _ | .field type _ => type.isPresent
  | .call type _ arguments => type.isPresent ∧ NormalArguments arguments
  | .reference target => target.type.isPresent
  | .chain type operands operators =>
    2 ≤ operands.length ∧ operators.length + 1 = operands.length ∧
      Typing.infer Typing.arithmetic operands operators = .ok type ∧ NormalExpressions operands
  | _ => False

def NormalExpressions : List Node → Prop
  | [] => True
  | node :: nodes => node.NormalExpression ∧ NormalExpressions nodes

def NormalArguments : List (Argument Node) → Prop
  | [] => True
  | ⟨_, value⟩ :: arguments => value.NormalExpression ∧ NormalArguments arguments

end

/-- The right side of a comparison: nothing, several expressions or one. -/
def NormalRight : Node → Prop
  | .absent => True
  | .several items => NormalExpressions items
  | node => node.NormalExpression

mutual

/-- A condition with names throughout, over normal expressions. -/
def NormalCondition : Node → Prop
  | .comparison name left _ right => name.isPresent ∧ left.NormalExpression ∧ right.NormalRight
  | .group name children _ _ => name.isPresent ∧ NormalConditions children
  | .ruleCheck name target => name.isPresent ∧ target.type.isPresent
  | _ => False

def NormalConditions : List Node → Prop
  | [] => True
  | node :: nodes => node.NormalCondition ∧ NormalConditions nodes

end

end Node

/-- The label of the slot at `path` can be told from its stored name: it is the positional one of a
result that selects no rule, or the identifier of the selected rule, or a text that was typed and is
neither of both. -/
def ResultLabel.Recoverable (path : String) (result : Node) (l : ResultLabel) : Prop :=
  ∃ default, Label.positional path .expression = .ok default ∧
    ((l = .positional ∧ result.selected? = none) ∨
      (∃ target id, result.selected? = some target ∧ target.id = .text id ∧ id ≠ default ∧
        l = ⟨.text id, .target, false⟩) ∨
      (∃ text, l = ⟨text, .typed, true⟩ ∧ text.isPresent ∧ text.same (.text default) = false ∧
        ∀ target, result.selected? = some target → text.same target.id = false))

namespace Node

def NormalBranches : List (Branch Node) → Prop
  | [] => True
  | ⟨condition, result, _⟩ :: branches =>
    condition.NormalCondition ∧ result.NormalExpression ∧ NormalBranches branches

/-- The labels of branches from the `i`-th one on can be told from their stored names. -/
def RecoverableLabels (i : Nat) : List (Branch Node) → Prop
  | [] => True
  | ⟨_, result, label⟩ :: branches =>
    label.Recoverable (Choice.resultPath i) result ∧ RecoverableLabels (i + 1) branches

/-- A definition in normal form. -/
def NormalDefinition : Node → Prop
  | .choice branches otherwise label =>
    NormalBranches branches ∧ RecoverableLabels 0 branches ∧ otherwise.NormalExpression ∧
      label.Recoverable Choice.otherwisePath otherwise
  | .comparison name left operator right =>
    (Node.comparison name left operator right).NormalCondition
  | .group name children conjunction negated =>
    (Node.group name children conjunction negated).NormalCondition
  | .ruleCheck name target => (Node.ruleCheck name target).NormalCondition
  | node => node.NormalExpression

/-! ### Leaving findings out -/

theorem unreviewedItems_length (nodes : List Node) : (unreviewedItems nodes).length = nodes.length := by
  induction nodes with
  | nil => rfl
  | cons node nodes ih => simp only [unreviewedItems, List.length_cons, ih]

theorem type_unreviewed : ∀ node : Node, node.unreviewed.type = node.type
  | .choice _ otherwise _ => type_unreviewed otherwise
  | .absent | .several _ | .literal .. | .field .. | .call .. | .reference _ | .chain ..
  | .comparison .. | .group .. | .ruleCheck .. => rfl

theorem infer_unreviewed (numeric : List String) (operands : List Node) (operators : List Value) :
    Typing.infer numeric (unreviewedItems operands) operators =
      Typing.infer numeric operands operators := by
  cases operands with
  | nil => rfl
  | cons first rest => simp only [Typing.infer, unreviewedItems, type_unreviewed]

/-- An inferred type is never missing. -/
theorem infer_present {numeric : List String} {operands : List Node} {operators : List Value}
    {type : Value} (h : Typing.infer numeric operands operators = .ok type) : type.isPresent := by
  obtain ⟨arithmetic, _, h⟩ := bind_eq_ok.mp h
  cases arithmetic with
  | true =>
      cases h
      rfl
  | false =>
      cases operands with
      | nil =>
          cases h
          rfl
      | cons first rest =>
          obtain ⟨declared, _, h⟩ := bind_eq_ok.mp h
          cases h
          cases missing : declared.isMissing <;> simp [Value.orElse, Value.isPresent, missing]
          rfl

mutual

theorem normalExpression_unreviewed : ∀ node : Node, node.NormalExpression → node.unreviewed.NormalExpression
  | .literal .., h | .field .., h | .reference _, h => h
  | .call _ _ arguments, h => ⟨h.1, normalArguments_unreviewed arguments h.2⟩
  | .chain _ operands _, h => by
      obtain ⟨two, count, inferred, normal⟩ := h
      exact ⟨by rwa [unreviewedItems_length], by rwa [unreviewedItems_length],
        by rwa [infer_unreviewed], normalExpressions_unreviewed operands normal⟩

theorem normalExpressions_unreviewed : ∀ nodes : List Node, NormalExpressions nodes →
    NormalExpressions (unreviewedItems nodes)
  | [], _ => trivial
  | node :: nodes, h => ⟨normalExpression_unreviewed node h.1, normalExpressions_unreviewed nodes h.2⟩

theorem normalArguments_unreviewed : ∀ arguments : List (Argument Node), NormalArguments arguments →
    NormalArguments (unreviewedArguments arguments)
  | [], _ => trivial
  | ⟨_, value⟩ :: arguments, h =>
      ⟨normalExpression_unreviewed value h.1, normalArguments_unreviewed arguments h.2⟩

end

theorem selected?_unreviewed (node : Node) :
    node.unreviewed.selected? = node.selected?.map Reference.unreviewed := by
  cases node with
  | reference target =>
      simp only [unreviewed, selected?]
      have same : target.unreviewed.isResolved = target.isResolved := rfl
      rw [same]
      split <;> rfl
  | _ => rfl

end Node

end RuleEditor
