import RuleEditor.Proofs.Edit.Intact
import RuleEditor.WellFormed

/-!
# Trees without violations

A tree without violations has the right proportions everywhere, and a branch in each choice. Where each choice has a
branch, none is reported to have none.
-/
namespace RuleEditor

open Node

/-- The node has a branch, if it is a choice. -/
def Node.Branched : Node → Prop
  | .choice branches _ _ => branches ≠ []
  | _ => True

theorem Node.branched_slot {step : Step} {old new node node' : Node} (slot : Slot step old new node node')
    (h : node.Branched) : node'.Branched := by
  cases slot with
  | condition | result => simpa only [Branched, ne_eq, List.set_eq_nil_iff] using h
  | otherwise => exact h
  | _ => trivial

namespace Violation

variable {c : Option Catalogue} {path : String} {right : Bool} {vs : List Violation}

theorem when_eq_nil {p : Bool} {v : Violation} : when p v = [] ↔ p = false := by
  cases p <;> simp [when]

theorem eq_of_mem_when {p : Bool} {v w : Violation} (h : w ∈ when p v) : p = true ∧ w = v := by
  cases p with
  | true => exact ⟨rfl, List.mem_singleton.mp h⟩
  | false => cases h

/-- The violations of the first and those of the rest are all. -/
theorem append_eq_ok {first rest : Except Fault (List Violation)}
    (h : (do let a ← first; let b ← rest; return a ++ b) = .ok vs) :
    ∃ a b, first = .ok a ∧ rest = .ok b ∧ vs = a ++ b := by
  obtain ⟨a, known, h⟩ := bind_eq_ok.mp h
  obtain ⟨b, below, h⟩ := bind_eq_ok.mp h
  cases h
  exact ⟨a, b, known, below, rfl⟩

theorem ofNode_choice {branches : List (Branch Node)} {otherwise : Node} {label : ResultLabel}
    (h : ofNode c path right (.choice branches otherwise label) = .ok vs) :
    ∃ inner last, ofBranches c path 0 branches = .ok inner ∧
      (otherwise = .absent ∧ last = [] ∨ ofNode c (Address.render path [.otherwise]) false otherwise = .ok last) ∧
      vs = when branches.isEmpty (noBranches path) ++ when otherwise.isAbsent (noOtherwise path) ++ inner ++ last := by
  obtain ⟨inner, below, h⟩ := bind_eq_ok.mp h
  cases otherwise with
  | absent =>
      cases h
      exact ⟨inner, [], below, .inl ⟨rfl, rfl⟩, rfl⟩
  | _ =>
      obtain ⟨last, ends, made⟩ := bind_eq_ok.mp h
      cases made
      exact ⟨inner, last, below, .inr ends, rfl⟩

theorem not_mem_ofCount {name operator : Value} {side : Node} {at? : String}
    (h : ofCount c path name operator side = .ok vs) : noBranches at? ∉ vs := by
  intro there
  unfold ofCount at h
  split at h
  · cases h
    cases there
  · obtain ⟨count, -, h⟩ := bind_eq_ok.mp h
    split at h
    · cases h
      cases there
    · cases h
      cases List.mem_singleton.mp there

/-! ### No violations -/

mutual

theorem proportioned_ofNode : (node : Node) → {path : String} → {right : Bool} →
    ofNode c path right node = .ok [] → node.Everywhere fun part => part.Proportioned ∧ part.Branched
  | .absent, _, _, _ | .literal .., _, _, _ | .field .., _, _, _ | .reference _, _, _, _ | .ruleCheck .., _, _, _ =>
    .intro ⟨trivial, trivial⟩ nofun
  | .several items, path, right, h => by
      unfold ofNode at h
      split at h
      · exact .intro ⟨trivial, trivial⟩ (proportioned_ofItems items h)
      · cases h
  | .call _ _ arguments, path, right, h => .intro ⟨trivial, trivial⟩ (proportioned_ofArguments arguments h)
  | .chain _ operands operators, path, right, h => by
      obtain ⟨inner, below, made⟩ := bind_eq_ok.mp h
      have none := Except.ok.inj made
      simp only [List.append_eq_nil_iff, when_eq_nil, decide_eq_false_iff_not] at none
      obtain ⟨⟨enough, fits⟩, rfl⟩ := none
      refine .intro ⟨⟨by omega, by omega⟩, trivial⟩ (proportioned_ofOperands operands below)
  | .comparison name left operator side, path, right, h => by
      obtain ⟨inLeft, first, h⟩ := bind_eq_ok.mp h
      obtain ⟨inRight, second, h⟩ := bind_eq_ok.mp h
      obtain ⟨count, -, made⟩ := bind_eq_ok.mp h
      have none := Except.ok.inj made
      simp only [List.append_eq_nil_iff] at none
      obtain ⟨⟨rfl, rfl⟩, rfl⟩ := none
      exact .intro ⟨trivial, trivial⟩
        (Everywhere.comparison_inside.mpr ⟨proportioned_ofNode left first, proportioned_ofNode side second⟩)
  | .group name children _ _, path, right, h => by
      obtain ⟨inner, below, made⟩ := bind_eq_ok.mp h
      have none := Except.ok.inj made
      simp only [List.append_eq_nil_iff, when_eq_nil, List.isEmpty_eq_false_iff] at none
      obtain ⟨some, rfl⟩ := none
      exact .intro ⟨some, trivial⟩ (proportioned_ofChildren children below)
  | .choice branches otherwise _, path, right, h => by
      obtain ⟨inner, last, below, ends, none⟩ := ofNode_choice h
      have none := none.symm
      simp only [List.append_eq_nil_iff, when_eq_nil, List.isEmpty_eq_false_iff] at none
      obtain ⟨⟨⟨some, there⟩, rfl⟩, rfl⟩ := none
      have last : otherwise.Everywhere fun part => part.Proportioned ∧ part.Branched := by
        rcases ends with ⟨rfl, -⟩ | ends
        · cases there
        · exact proportioned_ofNode otherwise ends
      exact .intro ⟨trivial, some⟩ (Everywhere.choice_inside.mpr ⟨last, proportioned_ofBranches branches below⟩)

theorem proportioned_ofItems : (items : List Node) → {path : String} → {i : Nat} → ofItems c path i items = .ok [] →
    ∀ item ∈ items, item.Everywhere fun part => part.Proportioned ∧ part.Branched
  | [], _, _, _ => nofun
  | node :: rest, path, i, h => by
      obtain ⟨a, b, first, below, none⟩ := append_eq_ok h
      obtain ⟨rfl, rfl⟩ := List.append_eq_nil_iff.mp none.symm
      exact List.forall_mem_cons.mpr ⟨proportioned_ofNode node first, proportioned_ofItems rest below⟩

theorem proportioned_ofOperands : (operands : List Node) → {path : String} → {i : Nat} →
    ofOperands c path i operands = .ok [] →
    ∀ operand ∈ operands, operand.Everywhere fun part => part.Proportioned ∧ part.Branched
  | [], _, _, _ => nofun
  | node :: rest, path, i, h => by
      obtain ⟨a, b, first, below, none⟩ := append_eq_ok h
      obtain ⟨rfl, rfl⟩ := List.append_eq_nil_iff.mp none.symm
      exact List.forall_mem_cons.mpr ⟨proportioned_ofNode node first, proportioned_ofOperands rest below⟩

theorem proportioned_ofChildren : (children : List Node) → {path : String} → {i : Nat} →
    ofChildren c path i children = .ok [] →
    ∀ child ∈ children, child.Everywhere fun part => part.Proportioned ∧ part.Branched
  | [], _, _, _ => nofun
  | node :: rest, path, i, h => by
      obtain ⟨a, b, first, below, none⟩ := append_eq_ok h
      obtain ⟨rfl, rfl⟩ := List.append_eq_nil_iff.mp none.symm
      exact List.forall_mem_cons.mpr ⟨proportioned_ofNode node first, proportioned_ofChildren rest below⟩

theorem proportioned_ofArguments : (arguments : List (Argument Node)) → {path : String} → {i : Nat} →
    ofArguments c path i arguments = .ok [] →
    ∀ part ∈ arguments.map (·.value), part.Everywhere fun part => part.Proportioned ∧ part.Branched
  | [], _, _, _ => nofun
  | ⟨name, value⟩ :: rest, path, i, h => by
      obtain ⟨a, b, first, below, none⟩ := append_eq_ok h
      obtain ⟨rfl, rfl⟩ := List.append_eq_nil_iff.mp none.symm
      exact List.forall_mem_cons.mpr ⟨proportioned_ofNode value first, proportioned_ofArguments rest below⟩

theorem proportioned_ofBranches : (branches : List (Branch Node)) → {path : String} → {i : Nat} →
    ofBranches c path i branches = .ok [] →
    ∀ b ∈ branches, (b.condition.Everywhere fun part => part.Proportioned ∧ part.Branched) ∧
      b.result.Everywhere fun part => part.Proportioned ∧ part.Branched
  | [], _, _, _ => nofun
  | ⟨condition, result, label⟩ :: rest, path, i, h => by
      obtain ⟨inCondition, first, h⟩ := bind_eq_ok.mp h
      obtain ⟨inResult, second, h⟩ := bind_eq_ok.mp h
      obtain ⟨others, below, made⟩ := bind_eq_ok.mp h
      have none := Except.ok.inj made
      simp only [List.append_eq_nil_iff] at none
      obtain ⟨⟨rfl, rfl⟩, rfl⟩ := none
      exact List.forall_mem_cons.mpr ⟨⟨proportioned_ofNode condition first, proportioned_ofNode result second⟩,
        proportioned_ofBranches rest below⟩

end

theorem ensureWellFormed_eq_ok {c : Option Catalogue} {tree : Node} :
    tree.ensureWellFormed c = .ok () ↔ Violation.all c tree = .ok [] := by
  unfold Node.ensureWellFormed
  cases Violation.all c tree with
  | error fault => exact iff_of_false nofun nofun
  | ok vs =>
      cases vs with
      | nil => exact iff_of_true rfl rfl
      | cons v vs => exact iff_of_false nofun nofun

theorem proportioned_of_wellFormed {tree : Node} (h : tree.ensureWellFormed c = .ok ()) :
    tree.Everywhere fun part => part.Proportioned ∧ part.Branched := by
  obtain ⟨vs, known, h⟩ := bind_eq_ok.mp h
  split at h
  · unfold all at known
    split at known
    · cases known
    · exact proportioned_ofNode _ known
    · exact proportioned_ofNode _ known
  · cases h

/-! ### Choices with branches -/

mutual

theorem branched_ofNode : (node : Node) → {path : String} → {right : Bool} → {vs : List Violation} →
    node.Everywhere Branched → ofNode c path right node = .ok vs → ∀ at?, noBranches at? ∉ vs
  | .absent, path, right, vs, _, h, at?, there => by
      cases h
      cases (eq_of_mem_when there).2
  | .literal .., _, _, _, _, h, _, there | .field .., _, _, _, _, h, _, there | .reference _, _, _, _, _, h, _, there
  | .ruleCheck .., _, _, _, _, h, _, there => by
      cases h
      cases there
  | .several items, path, right, vs, all, h, at?, there => by
      unfold ofNode at h
      split at h
      · exact branched_ofItems items all.inside h at? there
      · cases h
        cases List.mem_singleton.mp there
  | .call _ _ arguments, path, right, vs, all, h, at?, there => branched_ofArguments arguments all.inside h at? there
  | .chain _ operands operators, path, right, vs, all, h, at?, there => by
      obtain ⟨inner, below, made⟩ := bind_eq_ok.mp h
      cases made
      rcases List.mem_append.mp there with there | there
      · rcases List.mem_append.mp there with there | there <;> cases (eq_of_mem_when there).2
      · exact branched_ofOperands operands all.inside below at? there
  | .comparison name left operator side, path, right, vs, all, h, at?, there => by
      obtain ⟨onLeft, onRight⟩ := Everywhere.comparison_inside.mp all.inside
      obtain ⟨inLeft, first, h⟩ := bind_eq_ok.mp h
      obtain ⟨inRight, second, h⟩ := bind_eq_ok.mp h
      obtain ⟨count, counted, made⟩ := bind_eq_ok.mp h
      cases made
      rcases List.mem_append.mp there with there | there
      · rcases List.mem_append.mp there with there | there
        · exact branched_ofNode left onLeft first at? there
        · exact branched_ofNode side onRight second at? there
      · exact not_mem_ofCount counted there
  | .group name children _ _, path, right, vs, all, h, at?, there => by
      obtain ⟨inner, below, made⟩ := bind_eq_ok.mp h
      cases made
      rcases List.mem_append.mp there with there | there
      · cases (eq_of_mem_when there).2
      · exact branched_ofChildren children all.inside below at? there
  | .choice branches otherwise _, path, right, vs, all, h, at?, there => by
      obtain ⟨inOtherwise, inBranches⟩ := Everywhere.choice_inside.mp all.inside
      obtain ⟨inner, last, below, ends, rfl⟩ := ofNode_choice h
      rcases List.mem_append.mp there with there | there
      · rcases List.mem_append.mp there with there | there
        · rcases List.mem_append.mp there with there | there
          · exact all.here (List.isEmpty_iff.mp (eq_of_mem_when there).1)
          · cases (eq_of_mem_when there).2
        · exact branched_ofBranches branches inBranches below at? there
      · rcases ends with ⟨-, rfl⟩ | ends
        · cases there
        · exact branched_ofNode otherwise inOtherwise ends at? there

theorem branched_ofItems : (items : List Node) → {path : String} → {i : Nat} → {vs : List Violation} →
    (∀ item ∈ items, item.Everywhere Branched) → ofItems c path i items = .ok vs → ∀ at?, noBranches at? ∉ vs
  | [], _, _, _, _, h, _, there => by
      cases h
      cases there
  | node :: rest, path, i, vs, all, h, at?, there => by
      obtain ⟨here, others⟩ := List.forall_mem_cons.mp all
      obtain ⟨a, b, first, below, rfl⟩ := append_eq_ok h
      exact (List.mem_append.mp there).elim (branched_ofNode node here first at?)
        (branched_ofItems rest others below at?)

theorem branched_ofOperands : (operands : List Node) → {path : String} → {i : Nat} → {vs : List Violation} →
    (∀ operand ∈ operands, operand.Everywhere Branched) → ofOperands c path i operands = .ok vs →
    ∀ at?, noBranches at? ∉ vs
  | [], _, _, _, _, h, _, there => by
      cases h
      cases there
  | node :: rest, path, i, vs, all, h, at?, there => by
      obtain ⟨here, others⟩ := List.forall_mem_cons.mp all
      obtain ⟨a, b, first, below, rfl⟩ := append_eq_ok h
      exact (List.mem_append.mp there).elim (branched_ofNode node here first at?)
        (branched_ofOperands rest others below at?)

theorem branched_ofChildren : (children : List Node) → {path : String} → {i : Nat} → {vs : List Violation} →
    (∀ child ∈ children, child.Everywhere Branched) → ofChildren c path i children = .ok vs →
    ∀ at?, noBranches at? ∉ vs
  | [], _, _, _, _, h, _, there => by
      cases h
      cases there
  | node :: rest, path, i, vs, all, h, at?, there => by
      obtain ⟨here, others⟩ := List.forall_mem_cons.mp all
      obtain ⟨a, b, first, below, rfl⟩ := append_eq_ok h
      exact (List.mem_append.mp there).elim (branched_ofNode node here first at?)
        (branched_ofChildren rest others below at?)

theorem branched_ofArguments : (arguments : List (Argument Node)) → {path : String} → {i : Nat} →
    {vs : List Violation} → (∀ part ∈ arguments.map (·.value), part.Everywhere Branched) →
    ofArguments c path i arguments = .ok vs → ∀ at?, noBranches at? ∉ vs
  | [], _, _, _, _, h, _, there => by
      cases h
      cases there
  | ⟨name, value⟩ :: rest, path, i, vs, all, h, at?, there => by
      obtain ⟨here, others⟩ := List.forall_mem_cons.mp all
      obtain ⟨a, b, first, below, rfl⟩ := append_eq_ok h
      exact (List.mem_append.mp there).elim (branched_ofNode value here first at?)
        (branched_ofArguments rest others below at?)

theorem branched_ofBranches : (branches : List (Branch Node)) → {path : String} → {i : Nat} → {vs : List Violation} →
    (∀ b ∈ branches, b.condition.Everywhere Branched ∧ b.result.Everywhere Branched) →
    ofBranches c path i branches = .ok vs → ∀ at?, noBranches at? ∉ vs
  | [], _, _, _, _, h, _, there => by
      cases h
      cases there
  | ⟨condition, result, label⟩ :: rest, path, i, vs, all, h, at?, there => by
      obtain ⟨⟨inCondition, inResult⟩, others⟩ := List.forall_mem_cons.mp all
      obtain ⟨a, first, h⟩ := bind_eq_ok.mp h
      obtain ⟨b, second, h⟩ := bind_eq_ok.mp h
      obtain ⟨d, below, made⟩ := bind_eq_ok.mp h
      cases made
      rcases List.mem_append.mp there with there | there
      · exact (List.mem_append.mp there).elim (branched_ofNode condition inCondition first at?)
          (branched_ofNode result inResult second at?)
      · exact branched_ofBranches rest others below at? there

end

theorem branched_all {tree : Node} (hb : tree.Everywhere Branched) (h : all c tree = .ok vs) :
    ∀ at?, noBranches at? ∉ vs := by
  unfold all at h
  split at h
  · cases h
    exact fun _ there => by cases List.mem_singleton.mp there
  · exact branched_ofNode _ hb h
  · exact branched_ofNode _ hb h

end Violation

end RuleEditor
