import RuleEditor.Proofs.Edit.Intact
import RuleEditor.Proofs.Session.Moves

/-!
# Definitions stay intact

Whatever holds everywhere in the rules and the nodes that a session is given, in the proportions of trees and about
references, holds everywhere in its rule: each move keeps it.
-/
namespace RuleEditor

/-- All that moves put into a definition is intact. -/
structure Scope.Keeps (sc : Scope) (strict : Prop) (Q : Reference → Prop) : Prop where
  unselected : Unselected Q
  leads : sc.Leads strict Q
  given : ∀ node, sc.given node → node.Intact strict Q
  chosen : ∀ target, sc.chosen target → Q target
  reviewed : ∀ live target f, Q live → live.sameTarget target = true → sc.found target.uuid target.version f →
    Q (live.reviewed f)

namespace Session

open Editing

variable {strict : Prop} {Q : Reference → Prop} {sc : Scope} {s s' : Session}

/-- The rule that is edited, if there is one, has an intact definition. -/
def Intact (strict : Prop) (Q : Reference → Prop) (s : Session) : Prop :=
  ∀ d, s.document = some d → d.definition.Intact strict Q

theorem intact_committed {d : Document} {tree : Node} (h : tree.Intact strict Q) :
    (s.committed d tree).Intact strict Q := by
  intro d' same
  cases same
  exact h

/-- Whatever form a new rule has, it starts without references and in the right proportions. -/
theorem intact_initial (form type : Value) :
    Ends (initial form type) s (fun start _ => start.1.Intact strict Q) (fun _ _ => True) := by
  unfold initial
  refine bind_get ?_
  split
  · refine bind_lift (fun _ => trivial) fun node made => ends_pure ?_
    obtain ⟨children, rfl, length, all⟩ := Fresh.group_eq made
    exact Node.intact_member (.group (fun none => by simp [none] at length) all)
  · refine bind_lift (fun _ => trivial) fun node made => ends_pure ?_
    obtain ⟨name, condition, t, v, t', v', first, rfl⟩ := Fresh.choice_eq made
    simpa using Node.intact_condition first
  · refine bind_lift (fun _ => trivial) fun node made => ends_pure ?_
    obtain ⟨t, v, rfl⟩ := Fresh.literal_eq made
    exact Node.intact_literal
  · exact ends_throw trivial

theorem Move.intact (keeps : sc.Keeps strict Q) (h : s.Intact strict Q) (move : Move sc s s') :
    s'.Intact strict Q := by
  cases move with
  | aside aside =>
      intro d opened
      exact h d (aside.document ▸ opened)
  | remember => exact h
  | place _ _ opened _ found rewrite placed =>
      have old := Node.intact_find (h _ opened) found
      have new := Node.intact_rewrite keeps.unselected keeps.leads keeps.given old rewrite
      exact intact_committed (Node.intact_placed (h _ opened) new placed)
  | recast _ opened same recast =>
      exact intact_committed (Node.intact_recast keeps.unselected (same ▸ h _ opened) recast)
  | choose _ _ _ opened _ _ chosen placed target =>
      exact intact_committed
        (Node.intact_placed (h _ opened) (Node.intact_chosen (keeps.chosen _ target) chosen) placed)
  | recheck _ opened rechecked =>
      exact intact_committed (Node.intact_rechecked (h _ opened) keeps.reviewed rechecked)
  | @store _ d _ _ _ opened =>
      intro d' same
      cases same
      exact h d opened
  | restart => exact h
  | create started =>
      intro d same
      cases same
      exact (intact_initial _ _).ok started
  | load given =>
      intro d same
      cases same
      exact keeps.given _ given

theorem Moves.intact (keeps : sc.Keeps strict Q) (h : s.Intact strict Q) (moves : Moves sc s s') :
    s'.Intact strict Q := by
  induction moves with
  | refl => exact h
  | tail _ move ih => exact move.intact keeps ih

end Session

end RuleEditor
