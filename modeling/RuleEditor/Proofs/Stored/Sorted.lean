import RuleEditor.Proofs.Stored.RoundTrip
import RuleEditor.Proofs.Tree.Sorts
import RuleEditor.Rule.Document

/-!
# Sorts of what is written

Writing takes expressions in the places of expressions and conditions in those of conditions only, and each form of
definition is read back in its own form only. So a document that can be written and read back has nodes of the
right sorts.
-/
namespace RuleEditor

namespace Stored

open Node

variable {node : Node} {joining : Option Joining} {v : Value}

mutual

/-- Only expressions are written as expressions. -/
theorem admitted_of_expression : (node : Node) → {seat : Seat} → {v : Value} → writeExpression node = .ok v →
    seat ≠ .condition ∧ seat ≠ .choice → node.Seated Admitted seat
  | .literal .., _, _, _, place => seated_literal.mpr (admitted_of_isExpression rfl _ place)
  | .field .., _, _, _, place => seated_field.mpr (admitted_of_isExpression rfl _ place)
  | .reference _, _, _, _, place => seated_reference.mpr (admitted_of_isExpression rfl _ place)
  | .call _ _ arguments, _, _, h, place => by
      obtain ⟨vs, written, -⟩ := bind_eq_ok.mp h
      exact seated_call.mpr ⟨admitted_of_isExpression rfl _ place, admitted_of_arguments arguments written⟩
  | .chain _ operands _, seat, _, h, place => by
      obtain ⟨vs, written, -⟩ := bind_eq_ok.mp h
      have below : seat.operands ≠ .condition ∧ seat.operands ≠ .choice := by cases seat <;> decide
      exact seated_chain.mpr ⟨admitted_of_isExpression rfl _ place, admitted_of_expressions operands written below⟩
  | .absent, _, _, no, _ | .several _, _, _, no, _ | .comparison .., _, _, no, _ | .group .., _, _, no, _
  | .ruleCheck .., _, _, no, _ | .choice .., _, _, no, _ => by cases no

theorem admitted_of_expressions : (nodes : List Node) → {seat : Seat} → {vs : List Value} →
    writeExpressions nodes = .ok vs → seat ≠ .condition ∧ seat ≠ .choice → ∀ node ∈ nodes, node.Seated Admitted seat
  | [], _, _, _, _ => nofun
  | node :: nodes, _, _, h, place => by
      obtain ⟨v, first, h⟩ := bind_eq_ok.mp h
      obtain ⟨vs, rest, -⟩ := bind_eq_ok.mp h
      exact List.forall_mem_cons.mpr ⟨admitted_of_expression node first place, admitted_of_expressions nodes rest place⟩

theorem admitted_of_arguments : (arguments : List (Argument Node)) → {vs : List Value} →
    writeArguments arguments = .ok vs → ∀ a ∈ arguments, a.value.Seated Admitted .expression
  | [], _, _ => nofun
  | ⟨name, value⟩ :: arguments, _, h => by
      obtain ⟨v, first, h⟩ := bind_eq_ok.mp h
      obtain ⟨vs, rest, -⟩ := bind_eq_ok.mp h
      exact List.forall_mem_cons.mpr
        ⟨admitted_of_expression value first (by decide), admitted_of_arguments arguments rest⟩

end

theorem admitted_of_right (h : writeRight node = .ok v) : node.Seated Admitted .right := by
  cases node with
  | absent => exact seated_absent.mpr rfl
  | several items =>
      obtain ⟨vs, written, -⟩ := bind_eq_ok.mp h
      exact seated_several.mpr ⟨rfl, admitted_of_expressions items written (by decide)⟩
  | _ => exact admitted_of_expression _ h (by decide)

mutual

theorem admitted_of_condition : (node : Node) → {v : Value} → writeCondition node = .ok v →
    node.Seated Admitted .condition
  | .comparison _ left _ right, _, h => by
      obtain ⟨r, writtenRight, h⟩ := bind_eq_ok.mp h
      obtain ⟨l, writtenLeft, -⟩ := bind_eq_ok.mp h
      exact seated_comparison.mpr
        ⟨rfl, admitted_of_expression left writtenLeft (by decide), admitted_of_right writtenRight⟩
  | .group _ children _ _, _, h => by
      obtain ⟨vs, written, -⟩ := bind_eq_ok.mp h
      exact seated_group.mpr ⟨rfl, admitted_of_conditions children written⟩
  | .ruleCheck .., _, _ => seated_ruleCheck.mpr rfl
  | .absent, _, no | .several _, _, no | .literal .., _, no | .field .., _, no | .call .., _, no | .reference _, _, no
  | .chain .., _, no | .choice .., _, no => by cases no

theorem admitted_of_conditions : (nodes : List Node) → {vs : List Value} → writeConditions nodes = .ok vs →
    ∀ node ∈ nodes, node.Seated Admitted .condition
  | [], _, _ => nofun
  | node :: nodes, _, h => by
      obtain ⟨v, first, h⟩ := bind_eq_ok.mp h
      obtain ⟨vs, rest, -⟩ := bind_eq_ok.mp h
      exact List.forall_mem_cons.mpr ⟨admitted_of_condition node first, admitted_of_conditions nodes rest⟩

end

theorem admitted_of_branches {branches : List (Branch Node)} {i : Nat} {vs : List Value}
    (h : writeBranches i branches = .ok vs) :
    ∀ b ∈ branches, b.condition.Seated Admitted .condition ∧ b.result.Seated Admitted .expression := by
  induction branches generalizing i vs with
  | nil => nofun
  | cons branch branches ih =>
      obtain ⟨v, first, h⟩ := bind_eq_ok.mp h
      obtain ⟨vs, rest, -⟩ := bind_eq_ok.mp h
      obtain ⟨c, condition, first⟩ := bind_eq_ok.mp first
      obtain ⟨r, result, -⟩ := bind_eq_ok.mp first
      exact List.forall_mem_cons.mpr
        ⟨⟨admitted_of_condition _ condition, admitted_of_expression _ result (by decide)⟩, ih rest⟩

theorem admitted_of_choice {c : Choice} (h : writeChoice c = .ok v) : c.node.Seated Admitted .choice := by
  obtain ⟨vs, branches, h⟩ := bind_eq_ok.mp h
  obtain ⟨o, otherwise, -⟩ := bind_eq_ok.mp h
  exact seated_choice.mpr ⟨rfl, admitted_of_expression _ otherwise (by decide), admitted_of_branches branches⟩

/-! ### Forms -/

/-- An expression that is written is read neither as a condition nor as a choice. -/
theorem reads_of_expression (h : writeExpression node = .ok v) (path : String) (back : Node) :
    readCondition joining path v ≠ .ok back ∧ readChoice joining v ≠ .ok back := by
  cases node with
  | literal | field =>
      cases h
      simp [readCondition, checked?, readChoice, Members.contains, Members.get?]
  | reference target =>
      cases h
      cases known : target.ruleType.isNull <;>
        simp [readCondition, checked?, readChoice, Members.contains, Members.get?, targetMembers, known]
  | call | chain =>
      obtain ⟨vs, -, made⟩ := bind_eq_ok.mp h
      cases made
      simp [readCondition, checked?, readChoice, Members.contains, Members.get?]
  | _ => cases h

/-- A condition that is written is read neither as an expression nor as a choice. -/
theorem reads_of_condition (h : writeCondition node = .ok v) (back : Node) :
    readExpression joining v ≠ .ok back ∧ readChoice joining v ≠ .ok back := by
  cases node with
  | comparison =>
      obtain ⟨r, -, h⟩ := bind_eq_ok.mp h
      obtain ⟨l, -, made⟩ := bind_eq_ok.mp h
      cases made
      simp [readExpression, readRaw, readChoice, Members.contains, Members.get?]
  | group =>
      obtain ⟨vs, -, made⟩ := bind_eq_ok.mp h
      cases made
      simp [readExpression, readRaw, readChoice, Members.contains, Members.get?]
  | ruleCheck =>
      cases h
      simp [readExpression, readRaw, readChoice, Members.contains, Members.get?]
  | _ => cases h

/-- A choice that is written is read neither as an expression nor as a condition. -/
theorem reads_of_choice {c : Choice} (h : writeChoice c = .ok v) (path : String) (back : Node) :
    readExpression joining v ≠ .ok back ∧ readCondition joining path v ≠ .ok back := by
  obtain ⟨vs, -, h⟩ := bind_eq_ok.mp h
  obtain ⟨o, -, h⟩ := bind_eq_ok.mp h
  obtain ⟨name, -, made⟩ := bind_eq_ok.mp h
  cases made
  simp [readExpression, readRaw, readCondition, checked?]

/-- A definition that is written, and read back in some form, is of the sort that the form asks for. -/
theorem admitted_of_read {form : Form} {back : Node} (hw : writeDefinition node = .ok v)
    (hr : readDefinition joining (.text form.text) v = .ok back) : node.Seated Admitted (.ofForm form) := by
  simp only [readDefinition, ofValue?_form] at hr
  cases node with
  | choice branches otherwise label =>
      cases form with
      | choice => exact admitted_of_choice (c := ⟨branches, otherwise, label⟩) hw
      | condition => exact absurd hr (reads_of_choice hw _ _).2
      | expression => exact absurd hr (reads_of_choice hw "root" _).1
  | comparison | group | ruleCheck =>
      cases form with
      | choice => exact absurd hr (reads_of_condition hw _).2
      | condition => exact admitted_of_condition _ hw
      | expression => exact absurd hr (reads_of_condition hw _).1
  | _ =>
      cases form with
      | choice => exact absurd hr (reads_of_expression hw "root" _).2
      | condition => exact absurd hr (reads_of_expression hw _ _).1
      | expression => exact admitted_of_expression _ hw (by decide)

end Stored

namespace Document

open Stored

/-- The document can be written, and what is written can be read. -/
def Readable (catalogue : Option Catalogue) (d : Document) : Prop :=
  ∃ o d', d.write = .ok o ∧ Document.read catalogue o = .ok d'

theorem Readable.sorted {catalogue : Option Catalogue} {d : Document} (h : d.Readable catalogue) :
    d.definition.Seated Node.Admitted (.ofForm d.form) ∧ d.type.isMissing = false := by
  obtain ⟨o, d', written, read⟩ := h
  obtain ⟨v, definition, made⟩ := bind_eq_ok.mp written
  cases made
  obtain ⟨back, reads, read⟩ := bind_eq_ok.mp read
  obtain ⟨about, -, read⟩ := bind_eq_ok.mp read
  simp only [part_cons, part_nil, if_true, if_false, String.reduceEq] at reads read
  refine ⟨admitted_of_read definition reads, ?_⟩
  simp only [make, ofValue?_form] at read
  split at read
  · cases read
  · rename_i present
    simpa using present

end Document

end RuleEditor
