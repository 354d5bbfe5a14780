import RuleEditor.Proofs.Edit.ResultLabels
import RuleEditor.Proofs.Label.Issued
import RuleEditor.Proofs.Tree.Accepted

/-!
# Conditions that change their kind

A condition that changes its kind has the kind that was asked for, with one exception: a group that is to become a
comparison gives way to its only child, and the child keeps its own kind. The result is well formed in any case.
-/
namespace RuleEditor.Node

open Labelling

variable {c : Catalogue} {kind : Kind} {path : String} {old new node child left right : Node}
  {name label operator : Value} {conjunction : Conjunction} {negated : Bool} {n n' : Numbering}

/-! ### New conditions -/

theorem kind_of_condition (h : Fresh.condition c name = .ok node) : node.conditionKind = .ok .comparison := by
  obtain ⟨t, path, operator, t', v, rfl⟩ := Fresh.condition_eq h
  rfl

theorem name_of_condition (h : Fresh.condition c name = .ok node) : node.name = .ok name := by
  obtain ⟨operator, -, h⟩ := bind_eq_ok.mp h
  obtain ⟨right, -, h⟩ := bind_eq_ok.mp h
  cases h
  rfl

theorem whole_condition (h : Fresh.condition c name = .ok node) : node.Seated Whole .condition := by
  obtain ⟨t, path, operator, t', v, rfl⟩ := Fresh.condition_eq h
  refine seated_comparison.mpr ⟨⟨rfl, trivial, trivial⟩, ?_, ?_⟩
  · exact seated_field.mpr ⟨rfl, trivial, trivial⟩
  · exact seated_literal.mpr ⟨rfl, trivial, trivial⟩

theorem whole_group {children : List Node} (hs : children ≠ [])
    (ha : ∀ child ∈ children, child.Seated Whole .condition) (conjunction : Conjunction) (negated : Bool) :
    (Node.group name children conjunction negated).Seated Whole .condition :=
  seated_group.mpr ⟨⟨rfl, hs, trivial⟩, ha⟩

/-! ### Renamed conditions -/

theorem kind_of_renamed (h : old.renamed name = .ok new) : new.conditionKind = old.conditionKind := by
  cases old <;> cases h <;> rfl

theorem whole_renamed (hw : old.Seated Whole .condition) (hr : old.renamed name = .ok new) :
    new.Seated Whole .condition := by
  cases old <;> cases hr
  case call => cases hw.here.admitted
  case comparison => exact seated_comparison.mpr ⟨⟨rfl, trivial, trivial⟩, (seated_comparison.mp hw).2⟩
  case group => exact whole_group hw.here.proportioned (seated_group.mp hw).2 _ _
  case ruleCheck => exact seated_ruleCheck.mpr ⟨rfl, trivial, trivial⟩

/-! ### Changes of kind -/

theorem whole_kindChange (hw : old.Seated Whole .condition) (hc : KindChange c kind old new) :
    new.Seated Whole .condition := by
  cases hc with
  | same => exact hw
  | reference => exact seated_ruleCheck.mpr ⟨rfl, trivial, trivial⟩
  | comparison _ made => exact whole_condition made
  | lifted renamed => exact whole_renamed ((seated_group.mp hw).2 _ List.mem_cons_self) renamed
  | group _ some all =>
      refine whole_group some (fun child within => ?_) _ _
      obtain ⟨name, made⟩ := all child within
      exact whole_condition made
  | wrapped _ made =>
      exact whole_group (List.cons_ne_nil _ _)
        (List.forall_mem_cons.mpr ⟨hw, List.forall_mem_singleton.mpr (whole_condition made)⟩) _ _

/-- The node is a group of a single condition, which is no comparison. -/
def HoldsOther (node : Node) : Prop :=
  ∃ name child conjunction negated, node = .group name [child] conjunction negated ∧
    child.conditionKind ≠ .ok .comparison

theorem not_holdsOther_single {conjunction : Conjunction} {negated : Bool} :
    ¬ (Node.group name [child] conjunction negated).HoldsOther ↔ child.conditionKind = .ok .comparison := by
  constructor
  · intro no
    by_contra other
    exact no ⟨_, _, _, _, rfl, other⟩
  · rintro comparison ⟨_, _, _, _, same, other⟩
    cases same
    exact other comparison

/-- The kind is the one that was asked for, unless a comparison was and the only child is no comparison. -/
theorem kind_of_kindChange (h : KindChange c kind old new) :
    new.conditionKind = .ok kind ↔ ¬ (kind = .comparison ∧ old.HoldsOther) := by
  cases h with
  | same own =>
      refine iff_of_true own ?_
      rintro ⟨rfl, _, _, _, _, rfl, -⟩
      cases own
  | reference | group | wrapped =>
      refine iff_of_true rfl ?_
      rintro ⟨⟨⟩, -⟩
  | comparison crowded made =>
      refine iff_of_true (kind_of_condition made) ?_
      rintro ⟨-, _, _, _, _, single, -⟩
      exact crowded _ _ _ _ single
  | lifted renamed =>
      rw [kind_of_renamed renamed]
      exact not_holdsOther_single.symm.trans (not_congr (and_iff_right rfl)).symm

/-- A comparison that becomes a group is the first of two children, and the second has another name. -/
theorem wrapped_kindChange {operator : Value} {left right : Node}
    (h : KindChange c .group (.comparison name left operator right) new) :
    ∃ label added other, new = .group label [.comparison name left operator right, added] .all false ∧
      added.name = .ok other ∧ other ≠ name := by
  cases h with
  | same own => cases own
  | group other _ _ => exact absurd rfl other
  | wrapped issued made =>
      obtain ⟨number, -, -, -, distinct⟩ := Label.next_eq_ok issued
      exact ⟨_, _, _, rfl, name_of_condition made, fun same => distinct (same ▸ List.mem_cons_self)⟩

/-! ### Changes that succeed -/

/-- The only comparison of a group comes out of it as it is, if it has a label. -/
theorem changeKind_alone {label : Value} (h : label.isPresent = true) :
    ((Node.group name [.comparison label left operator right] conjunction negated).changeKind c path
      .comparison).run n = (.ok (.comparison label left operator right), n) := by
  have carried : Label.afterChange path .comparison .null label = .ok label := by
    simp only [Label.afterChange, h, reduceCtorEq, false_and, if_false, if_true]
  have kind : (Node.group name [.comparison label left operator right] conjunction negated).conditionKind =
      .ok .group := rfl
  have name : (Node.comparison label left operator right).name = .ok label := rfl
  unfold changeKind
  rw [run_bind_of (run_known kind), if_neg (by decide)]
  dsimp only
  rw [run_bind_of (run_known name), run_bind_of (run_known carried)]
  rfl

/-- A comparison is grouped if a label can be issued for the one beside it, and there is what a new one begins with. -/
theorem changeKind_grouped {label : String} {added : Node} {position : Nat}
    (ha : Address.position path = .ok position)
    (hi : (Label.next path .comparison [name]).run n = (.ok label, n'))
    (hm : Fresh.condition c (.text label) = .ok added) :
    ∃ own, ((Node.comparison name left operator right).changeKind c path .group).run n =
      (.ok (.group own [.comparison name left operator right, added] .all false), n') := by
  obtain ⟨text, positional⟩ := Label.positional_of_position ha .group
  have own : Label.afterChange path .group .null .null = .ok (.text text) := by
    unfold Label.afterChange
    rw [positional]
    rfl
  refine ⟨.text text, ?_⟩
  have kind : (Node.comparison name left operator right).conditionKind = .ok .comparison := rfl
  unfold changeKind
  rw [run_bind_of (run_known kind), if_neg (by decide)]
  dsimp only
  rw [run_bind_of (run_known own), run_bind_of hi, run_bind_of (run_known hm)]
  rfl

/-! ### Every change -/

/-- Whatever kind a well-formed condition is turned into: the result is well formed, and it has that kind except where
the only child of a group stands in for a comparison that it is not. A condition that has the kind already stays as it
is, and a comparison is kept as the first child of its group. -/
theorem kind_changed_iff {path : String} (hs : old.Seated Admitted .condition)
    (ha : Violation.ofNode none path false old = .ok [])
    (hc : (old.changeKind c path kind).run n = (.ok new, n')) :
    (new.conditionKind = .ok kind ↔ ¬ (kind = .comparison ∧ old.HoldsOther)) ∧
      new.Seated Admitted .condition ∧ Violation.ofNode none path false new = .ok [] ∧
      (old.conditionKind = .ok kind → new = old) ∧
      (∀ name left operator right, old = .comparison name left operator right → kind = .group →
        ∃ label added other, new = .group label [old, added] .all false ∧ added.name = .ok other ∧ other ≠ name) := by
  have shape := changeKind_eq hc
  have whole : new.Seated Whole .condition := whole_kindChange ((Violation.clean_iff hs).mp ha) shape
  refine ⟨kind_of_kindChange shape, whole.sorted, (Violation.clean_iff whole.sorted).mpr whole, ?_, ?_⟩
  · exact fun already => changeKind_same already hc
  · rintro name left operator right rfl rfl
    exact wrapped_kindChange shape

/-- A comparison of a field with a number. -/
def sample (name : String) (n : Int) : Node :=
  .comparison (.text name) (.field (.text "number") (.text "AGE")) (.text "equal") (.literal (.text "number") (.int n))

theorem sample_whole (name : String) (n : Int) : (sample name n).Seated Whole .condition :=
  seated_comparison.mpr ⟨⟨rfl, trivial, trivial⟩, seated_field.mpr ⟨rfl, trivial, trivial⟩,
    seated_literal.mpr ⟨rfl, trivial, trivial⟩⟩

/-- The comparison in a group, beside a new one. -/
theorem sample_grouped :
    (sample "Adult" 18).Seated Admitted .condition ∧ Violation.ofNode none "root" false (sample "Adult" 18) = .ok [] ∧
      ∃ new n', ((sample "Adult" 18).changeKind Choice.premiums "root" .group).run .fresh = (.ok new, n') ∧
        new.conditionKind = .ok .group ∧
        ∃ label added other, new = .group label [sample "Adult" 18, added] .all false ∧ added.name = .ok other ∧
          other ≠ .text "Adult" := by
  have sorted := (sample_whole "Adult" 18).sorted
  have accepted : Violation.ofNode none "root" false (sample "Adult" 18) = .ok [] := by rfl
  obtain ⟨new, n', changed⟩ : ∃ new n',
      ((sample "Adult" 18).changeKind Choice.premiums "root" .group).run .fresh = (.ok new, n') := ⟨_, _, by rfl⟩
  obtain ⟨kind, -, -, -, wrapped⟩ := kind_changed_iff sorted accepted changed
  exact ⟨sorted, accepted, new, n', changed, kind.mpr (by rintro ⟨⟨⟩, -⟩), wrapped _ _ _ _ rfl rfl⟩

/-- Two comparisons in a group that stands alone in another one. -/
def pair : Node := .group (.text "Group 1") [sample "Adult" 18, sample "Senior" 65] .all false

def lonely : Node := .group (.text "Group 1") [pair] .all false

/-- What should be a comparison is the group of two. -/
theorem lonely_stays_group :
    lonely.Seated Admitted .condition ∧ Violation.ofNode none "root" false lonely = .ok [] ∧
      (lonely.changeKind Choice.premiums "root" .comparison).run .fresh = (.ok pair, .fresh) ∧
      pair.conditionKind ≠ .ok .comparison := by
  have inner : pair.Seated Whole .condition :=
    whole_group (List.cons_ne_nil _ _)
      (List.forall_mem_cons.mpr ⟨sample_whole _ _, List.forall_mem_singleton.mpr (sample_whole _ _)⟩) _ _
  have whole : lonely.Seated Whole .condition :=
    whole_group (List.cons_ne_nil _ _) (List.forall_mem_singleton.mpr inner) _ _
  exact ⟨whole.sorted, (Violation.clean_iff whole.sorted).mpr whole, by rfl, nofun⟩

end RuleEditor.Node
