import RuleEditor.Proofs.Session.Seated
import RuleEditor.Proofs.Session.Staleness

/-!
# Types of chains

After every edit the types of the chains around a place are inferred anew. Only a chain on the right side of a
comparison may have another type: when the left operand is changed, the right side takes on its type as a whole. It
has that type for as long as it is not built anew.
-/
namespace RuleEditor

/-- The chain has the type that is inferred for it. -/
def Chain.Inferred (numeric : List String) (c : Chain) : Prop :=
  ∃ type, Typing.infer numeric c.operands c.operators = .ok type ∧ (type = c.type ∨ type.same c.type = true)

/-- The chain has been on the right side of a comparison that was led by a left operand then, and has its type. It has
not been built anew since: the operators, and how many operands they join, are those that it had there. -/
def Chain.Follows (led : Comparison → Node → Prop) (c : Chain) : Prop :=
  ∃ comparison left, ∃ old : Chain, led comparison left ∧ comparison.OnRight old.node ∧ left.type = .ok c.type ∧
    c.operators = old.operators ∧ c.operands.length = old.operands.length

namespace Node

/-- The node has the inferred type, if it is a chain. -/
def Inferred (numeric : List String) (node : Node) : Prop := ∀ c : Chain, node = c.node → c.Inferred numeric

/-- The node has the inferred type if it is a chain, or it follows a left operand on the right side of a comparison. -/
def InferredAt (numeric : List String) (led : Comparison → Node → Prop) (seat : Seat) (node : Node) : Prop :=
  ∀ c : Chain, node = c.node → c.Inferred numeric ∨ (seat.operands = .operand ∧ c.Follows led)

variable {numeric : List String} {led : Comparison → Node → Prop} {seat seat' : Seat} {node : Node} {steps : List Step}

theorem InferredAt.move (h : node.InferredAt numeric led seat)
    (hs : seat.operands = .operand → seat'.operands = .operand) : node.InferredAt numeric led seat' :=
  fun c is => (h c is).imp_right fun right => ⟨hs right.1, right.2⟩

end Node

/-- The steps lead to the right side of a comparison, or on from there to the operand of a chain. -/
def OnRight (steps : List Step) : Prop :=
  ∃ above side operands, steps = above ++ side :: operands ∧ (side = .right ∨ ∃ i, side = .rightItem i) ∧
    ∀ step ∈ operands, ∃ i, step = .operand i

theorem OnRight.cons {steps : List Step} (step : Step) (h : OnRight steps) : OnRight (step :: steps) := by
  obtain ⟨above, side, operands, rfl, right, below⟩ := h
  exact ⟨step :: above, side, operands, rfl, right, below⟩

namespace Conversation

def sum : Chain := ⟨.text "text", [.literal (.text "text") (.int 0), .literal (.text "text") (.int 0)], [.text "+"]⟩

end Conversation

end RuleEditor
