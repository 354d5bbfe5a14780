import RuleEditor.Proofs.Tree.Sorts
import RuleEditor.Proofs.Tree.Violations

/-!
# Trees that are accepted

Where each node is of a sort that its place admits, a tree has no violations exactly if it has the right proportions
everywhere and a branch in each choice. So it does not depend on the path of a tree whether it has any.
-/
namespace RuleEditor

open Node

/-- The node is of a sort that its seat admits, has the right proportions, and a branch if it is a choice. -/
structure Node.Whole (seat : Seat) (node : Node) : Prop where
  admitted : node.Admitted seat
  proportioned : node.Proportioned
  branched : node.Branched

/-- Where the sorts are right, the proportions and the branches are all that is left to ask for. -/
theorem Node.whole_of_everywhere {seat : Seat} {node : Node} (hs : node.Seated Admitted seat)
    (ha : node.Everywhere fun part => part.Proportioned ∧ part.Branched) : node.Seated Whole seat :=
  (hs.and_everywhere ha).mono fun _ _ here => ⟨here.1, here.2.1, here.2.2⟩

namespace Violation

variable {seat : Seat} {node : Node} {path : String}

/-- There are no violations at any path. -/
def Clean (seat : Seat) (node : Node) : Prop := ∀ path, ofNode none path (decide (seat = .right)) node = .ok []

theorem Clean.plain (h : Clean seat node) (hp : seat ≠ .right) (path : String) :
    ofNode none path false node = .ok [] := by
  have here := h path
  rwa [decide_eq_false hp] at here

/-! ### Lists of clean nodes -/

theorem ofItems_clean {items : List Node} (h : ∀ item ∈ items, Clean .operand item) (path : String) (i : Nat) :
    ofItems none path i items = .ok [] := by
  induction items generalizing i with
  | nil => rfl
  | cons item rest ih =>
      obtain ⟨first, others⟩ := List.forall_mem_cons.mp h
      rw [ofItems, first.plain (by decide), ih others]
      rfl

theorem ofOperands_clean {operands : List Node} (hp : seat ≠ .right) (h : ∀ operand ∈ operands, Clean seat operand)
    (path : String) (i : Nat) : ofOperands none path i operands = .ok [] := by
  induction operands generalizing i with
  | nil => rfl
  | cons operand rest ih =>
      obtain ⟨first, others⟩ := List.forall_mem_cons.mp h
      rw [ofOperands, first.plain hp, ih others]
      rfl

theorem ofChildren_clean {children : List Node} (h : ∀ child ∈ children, Clean .condition child) (path : String)
    (i : Nat) : ofChildren none path i children = .ok [] := by
  induction children generalizing i with
  | nil => rfl
  | cons child rest ih =>
      obtain ⟨first, others⟩ := List.forall_mem_cons.mp h
      rw [ofChildren, first.plain (by decide), ih others]
      rfl

theorem ofArguments_clean {arguments : List (Argument Node)} (h : ∀ a ∈ arguments, Clean .expression a.value)
    (path : String) (i : Nat) : ofArguments none path i arguments = .ok [] := by
  induction arguments generalizing i with
  | nil => rfl
  | cons argument rest ih =>
      obtain ⟨first, others⟩ := List.forall_mem_cons.mp h
      rw [ofArguments, first.plain (by decide), ih others]
      rfl

theorem ofBranches_clean {branches : List (Branch Node)}
    (h : ∀ b ∈ branches, Clean .condition b.condition ∧ Clean .expression b.result) (path : String) (i : Nat) :
    ofBranches none path i branches = .ok [] := by
  induction branches generalizing i with
  | nil => rfl
  | cons branch rest ih =>
      obtain ⟨⟨condition, result⟩, others⟩ := List.forall_mem_cons.mp h
      rw [ofBranches, condition.plain (by decide), result.plain (by decide), ih others]
      rfl

/-! ### Trees -/

theorem operands_ne_right (seat : Seat) : seat.operands ≠ .right := by
  cases seat <;> decide

/-- A node is clean if it is whole and what is inside it is clean. -/
theorem clean_of_parts (whole : node.Whole seat) (hi : ∀ part ∈ node.parts seat, Clean part.1 part.2) :
    Clean seat node := by
  intro path
  cases node with
  | absent =>
      cases seat with
      | right => rfl
      | _ => cases whole.admitted
  | several items =>
      cases seat with
      | right => exact ofItems_clean (fun item within => hi _ (List.mem_map_of_mem within)) path 0
      | _ => cases whole.admitted
  | literal | field | reference | ruleCheck => rfl
  | call _ _ arguments =>
      exact ofArguments_clean (fun a within => hi (.expression, a.value) (List.mem_map.mpr ⟨a, within, rfl⟩)) path 0
  | chain _ operands operators =>
      obtain ⟨enough, fits⟩ := whole.proportioned
      have below := ofOperands_clean (operands_ne_right seat)
        (fun operand within => hi _ (List.mem_map_of_mem within)) path 0
      have few : decide (operands.length < 2) = false := decide_eq_false (by omega)
      have unfit : decide ((operators.length : Int) ≠ operands.length - 1) = false := decide_eq_false (by omega)
      rw [ofNode, below, few, unfit]
      rfl
  | comparison name left operator side =>
      have first : Clean .expression left := hi (.expression, left) List.mem_cons_self
      have second : ofNode none (Address.render path [.right]) true side = .ok [] :=
        hi (.right, side) (List.mem_cons_of_mem _ List.mem_cons_self) _
      rw [ofNode, first.plain (by decide), second]
      rfl
  | group name children conjunction negated =>
      have below := ofChildren_clean (fun child within => hi _ (List.mem_map_of_mem within)) path 0
      rw [ofNode, below, List.isEmpty_eq_false_iff.mpr whole.proportioned]
      rfl
  | choice branches otherwise label =>
      have ends : Clean .expression otherwise := hi (.expression, otherwise) List.mem_cons_self
      have last := ends.plain (by decide) (Address.render path [.otherwise])
      have below := ofBranches_clean (fun b within =>
        ⟨hi (.condition, b.condition) (List.mem_cons_of_mem _ (List.mem_flatMap.mpr ⟨b, within, by simp⟩)),
          hi (.expression, b.result) (List.mem_cons_of_mem _ (List.mem_flatMap.mpr ⟨b, within, by simp⟩))⟩) path 0
      rw [ofNode, below, List.isEmpty_eq_false_iff.mpr whole.branched]
      cases otherwise with
      | absent => cases last
      | _ =>
          rw [last]
          rfl

theorem clean_of_seated (h : node.Seated Whole seat) : Clean seat node := by
  induction h with
  | intro here _ ih => exact clean_of_parts here ih

/-- Where the sorts are right, a tree has no violations exactly if it is whole. -/
theorem clean_iff (h : node.Seated Admitted seat) :
    ofNode none path (decide (seat = .right)) node = .ok [] ↔ node.Seated Whole seat := by
  constructor
  · exact fun none => whole_of_everywhere h (proportioned_ofNode node none)
  · exact fun whole => clean_of_seated whole path

end Violation

namespace Node

theorem Seated.sorted {seat : Seat} {node : Node} (h : node.Seated Whole seat) : node.Seated Admitted seat :=
  h.mono fun _ _ here => here.admitted

/-- A definition of the right sorts is well formed exactly if it is whole. -/
theorem wellFormed_iff {form : Form} {tree : Node} (h : tree.Seated Admitted (Seat.ofForm form)) :
    tree.ensureWellFormed none = .ok () ↔ tree.Seated Whole (Seat.ofForm form) := by
  constructor
  · exact fun formed => whole_of_everywhere h (Violation.proportioned_of_wellFormed formed)
  · intro whole
    have plain : Seat.ofForm form ≠ .right := by
      cases form <;> decide
    have clean := (Violation.clean_of_seated whole).plain plain
    rw [Violation.ensureWellFormed_eq_ok]
    cases tree with
    | absent => cases form <;> cases h.here
    | choice => exact clean "case"
    | _ => exact clean "root"

end Node

end RuleEditor
