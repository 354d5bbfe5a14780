import RuleEditor.Proofs.Session.Errands
import RuleEditor.Proofs.Session.Intact

/-!
# Definitions stay formed

In a formed tree every chain, wherever it stands, has at least two operands and one operator fewer than
operands, and no group is empty. Whatever is done to a session, its rule has a formed definition, as long as the
rules and the nodes that it is given are formed. The paths, indexes, operators and kinds that edits name may be
any, and any edit or call may fail.
-/
namespace RuleEditor

namespace Node

def Formed (node : Node) : Prop := Everywhere Proportioned node

/-- A formed tree is one in which the proportions are asked for, and nothing of the references. -/
theorem intact_iff_formed {node : Node} : node.Intact True (fun _ => True) ↔ node.Formed :=
  ⟨fun h => h.mono fun _ here => here.1 trivial, fun h => h.mono fun _ here => ⟨fun _ => here, fun _ _ => trivial⟩⟩

end Node

namespace Session

variable {sc : Scope} {s s' : Session}

/-- The rule that is edited, if there is one, has a formed definition. -/
def Formed (s : Session) : Prop := ∀ d, s.document = some d → d.definition.Formed

theorem intact_iff_formed : s.Intact True (fun _ => True) ↔ s.Formed :=
  forall₂_congr fun _ _ => Node.intact_iff_formed

theorem Moves.formed (hs : ∀ node, sc.given node → node.Formed) (h : s.Formed) (moves : Moves sc s s') :
    s'.Formed := by
  have lasting : Lasting fun _ => True := ⟨fun _ _ _ => trivial, fun _ _ _ => trivial⟩
  have keeps : sc.Keeps True fun _ => True :=
    { unselected := lasting.unselected
      leads := lasting.leads
      given := fun node given => Node.intact_iff_formed.mpr (hs node given)
      chosen := fun _ _ => trivial
      reviewed := fun _ _ _ _ _ _ => trivial }
  exact intact_iff_formed.mp (moves.intact keeps (intact_iff_formed.mpr h))

end Session

namespace Conversation

/-- Supplied nodes are formed; any path may be named, and any answer may come. -/
def formedScope : Scope := { Scope.any with given := Node.Formed }

theorem open_formedScope : formedScope.Open := ⟨fun _ => trivial, fun _ => trivial, fun _ _ _ => trivial⟩

theorem formed_next {c : Conversation} {t : Turn} (h : c.session.Formed)
    (hs : ∀ node ∈ t.supplied, node.Formed) : (c.next t).session.Formed := by
  have moves : Session.Moves formedScope c.session (c.next t).session :=
    open_formedScope.next_moves (fun _ _ _ _ => trivial) (fun _ _ => trivial) hs
      (fun _ _ _ _ _ _ _ _ _ => trivial) (fun _ _ _ _ _ _ _ _ _ => trivial) (fun _ _ => trivial) fun _ _ => trivial
  exact moves.formed (fun _ given => given) h

theorem formed_run {c : Conversation} {turns : List Turn} (h : c.session.Formed)
    (hs : ∀ t ∈ turns, ∀ node ∈ t.supplied, node.Formed) : (c.run turns).session.Formed := by
  induction turns generalizing c with
  | nil => exact h
  | cons t rest ih =>
      obtain ⟨first, others⟩ := List.forall_mem_cons.mp hs
      exact ih (formed_next h first) others

/-- In every conversation, and after each of its turns, the rule that is edited has a formed definition. -/
theorem definition_formed (catalogue : Catalogue) (settings : Settings) (id : String) (connected : Bool)
    (turns : List Turn) (hs : ∀ t ∈ turns, ∀ node ∈ t.supplied, node.Formed) {d : Document}
    (ho : ((opening (.start catalogue settings id connected)).run turns).session.document = some d) :
    d.definition.Formed :=
  formed_run (c := opening (.start catalogue settings id connected)) (fun _ none => by cases none) hs d ho

/-- A rule that adds three numbers. -/
def total : Document where
  form := .expression
  type := .text "number"
  definition := .chain (.text "number")
    [.literal (.text "number") (.int 1), .literal (.text "number") (.int 2), .literal (.text "number") (.int 3)]
    [.text "+", .text "-"]
  ruleType := .null
  uuid := .text "t-1"
  version := .int 1
  id := .text "TOTAL"
  description := .null

/-- The second number is taken out of the sum and then the first, and what is left is multiplied. -/
def trimming : List Turn :=
  [.edit (.loadRule total), .edit (.removeOperand "root" 1), .edit (.removeOperand "root" 0),
    .edit (.wrapExpression "root" (.text "*"))]

def plain : Session :=
  .start ⟨[], [], [], [], [], "field"⟩
    ⟨"", "", "testing", "", .ofInt 10, "field", "number", ["+", "-"], [], 8, "INFO", "json"⟩ "es" false

theorem trimming_formed :
    (∀ t ∈ trimming, ∀ node ∈ t.supplied, node.Formed) ∧
      ∃ d, ((opening plain).run trimming).session.document = some d ∧ d.definition.Formed := by
  have supplied : ∀ t ∈ trimming, ∀ node ∈ t.supplied, node.Formed := by
    simp [trimming, Turn.supplied, Edit.supplied, total, ← Node.intact_iff_formed]
  have opened : ((opening plain).run trimming).session.document =
      some { total with
        definition := .chain (.text "number")
          [.literal (.text "number") (.int 3), .literal (.text "number") (.int 0)] [.text "*"] } := by
    rfl
  exact ⟨supplied, _, opened, definition_formed _ _ _ _ trimming supplied opened⟩

end Conversation

end RuleEditor
