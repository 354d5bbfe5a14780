import RuleEditor.Edit.Chain
import RuleEditor.Edit.Choice
import RuleEditor.Edit.Comparison
import RuleEditor.Proofs.Outcome

/-!
# What edits make

For each edit that succeeds, the shape of what it makes: which parts are kept, and which ones are new.
-/
namespace RuleEditor

/-! ### Labelling -/

namespace Labelling

variable {α β : Type} {n n' : Numbering}

theorem run_bind_eq (x : Labelling α) (f : α → Labelling β) (n : Numbering) :
    (x >>= f).run n =
      match (x.run n).1 with
      | .ok a => (f a).run (x.run n).2
      | .error fault => (.error fault, (x.run n).2) := by
  show (ExceptT.bindCont f (x.run n).1) (x.run n).2 = _
  cases (x.run n).1 <;> rfl

theorem run_bind {x : Labelling α} {f : α → Labelling β} {b : β} (h : (x >>= f).run n = (.ok b, n')) :
    ∃ a n₁, x.run n = (.ok a, n₁) ∧ (f a).run n₁ = (.ok b, n') := by
  rw [run_bind_eq] at h
  cases first : (x.run n).1 with
  | ok a =>
      rw [first] at h
      exact ⟨a, (x.run n).2, Prod.ext first rfl, h⟩
  | error fault =>
      rw [first] at h
      cases h

theorem run_lift {x : Except Fault α} {a : α} (h : (liftM x : Labelling α).run n = (.ok a, n')) : x = .ok a := by
  cases x with
  | ok b =>
      cases h
      rfl
  | error fault => cases h

theorem run_pure {a b : α} (h : (pure a : Labelling α).run n = (.ok b, n')) : a = b := by
  cases h
  rfl

theorem run_bind_of {x : Labelling α} {f : α → Labelling β} {a : α} (h : x.run n = (.ok a, n')) :
    (x >>= f).run n = (f a).run n' := by
  rw [run_bind_eq, h]
theorem run_known {x : Except Fault α} {a : α} (h : x = .ok a) : (liftM x : Labelling α).run n = (.ok a, n) := by
  rw [h]
  rfl
end Labelling

/-! ### New nodes -/

namespace Fresh

theorem literal_eq {type : Value} {node : Node} (h : literal type = .ok node) : ∃ t v, node = .literal t v := by
  obtain ⟨v, -, rfl⟩ := map_eq_ok.mp h
  exact ⟨_, v, rfl⟩

theorem condition_eq {c : Catalogue} {name : Value} {node : Node} (h : condition c name = .ok node) :
    ∃ t path operator t' v, node = .comparison name (.field t path) operator (.literal t' v) := by
  obtain ⟨operator, -, h⟩ := bind_eq_ok.mp h
  obtain ⟨right, made, h⟩ := bind_eq_ok.mp h
  obtain ⟨t', v, rfl⟩ := literal_eq made
  cases h
  exact ⟨_, _, _, t', v, rfl⟩

theorem conditions_eq {c : Catalogue} {names : List Value} {nodes : List Node} (h : conditions c names = .ok nodes) :
    nodes.length = names.length ∧ ∀ node ∈ nodes, ∃ name, condition c name = .ok node := by
  obtain ⟨length, all⟩ := mapM_eq_ok h
  refine ⟨length, fun node within => ?_⟩
  obtain ⟨name, -, made⟩ := all node within
  exact ⟨name, made⟩

theorem group_eq {c : Catalogue} {name : Value} {names : List Value} {node : Node} (h : group c name names = .ok node) :
    ∃ children, node = .group name children .all false ∧ children.length = names.length ∧
      ∀ child ∈ children, ∃ name, condition c name = .ok child := by
  obtain ⟨children, made, h⟩ := bind_eq_ok.mp h
  cases h
  exact ⟨children, rfl, conditions_eq made⟩

theorem choice_eq {c : Catalogue} {type : Value} {node : Node} (h : choice c type = .ok node) :
    ∃ name condition t v t' v', Fresh.condition c name = .ok condition ∧
      node = .choice [⟨condition, .literal t v, .positional⟩] (.literal t' v') .positional := by
  obtain ⟨branch, made, h⟩ := bind_eq_ok.mp h
  obtain ⟨otherwise, last, h⟩ := bind_eq_ok.mp h
  cases h
  obtain ⟨condition, first, made⟩ := bind_eq_ok.mp made
  obtain ⟨result, second, made⟩ := bind_eq_ok.mp made
  cases made
  obtain ⟨t, v, rfl⟩ := literal_eq second
  obtain ⟨t', v', rfl⟩ := literal_eq last
  exact ⟨_, condition, t, v, t', v', first, rfl⟩

end Fresh

/-! ### Conditions -/

theorem Label.length_forChildrenAfter {parent : String} {kind : Kind} {siblings : List Value} {count : Nat}
    {n n' : Numbering} {labels : List String}
    (h : (Label.forChildrenAfter parent kind siblings count).run n = (.ok labels, n')) : labels.length = count := by
  induction count generalizing siblings labels n n' with
  | zero =>
      cases Labelling.run_pure h
      rfl
  | succ count ih =>
      obtain ⟨label, n₁, -, h⟩ := Labelling.run_bind h
      obtain ⟨others, n₂, below, h⟩ := Labelling.run_bind h
      cases Labelling.run_pure h
      exact congrArg (· + 1) (ih below)

/-- The new members of a group that an edit adds to: a comparison, or a group of comparisons. -/
inductive Fresh.Member (c : Catalogue) : Node → Prop where
  | comparison {name node} : Fresh.condition c name = .ok node → Fresh.Member c node
  | group {name children} : children ≠ [] → (∀ child ∈ children, ∃ name, Fresh.condition c name = .ok child) →
      Fresh.Member c (.group name children .all false)

namespace Group

variable {c : Catalogue} {path : String} {g g' : Group} {n n' : Numbering}

theorem addChild_eq (h : (addChild c path g).run n = (.ok g', n')) :
    ∃ child, Fresh.Member c child ∧ g' = { g with children := g.children ++ [child] } := by
  obtain ⟨names, n₁, -, h⟩ := Labelling.run_bind h
  obtain ⟨label, n₂, -, h⟩ := Labelling.run_bind h
  obtain ⟨child, n₃, made, h⟩ := Labelling.run_bind h
  exact ⟨child, .comparison (Labelling.run_lift made), (Labelling.run_pure h).symm⟩

theorem addChildGroup_eq (h : (addChildGroup c path g).run n = (.ok g', n')) :
    ∃ child, Fresh.Member c child ∧ g' = { g with children := g.children ++ [child] } := by
  obtain ⟨names, n₁, -, h⟩ := Labelling.run_bind h
  obtain ⟨label, n₂, -, h⟩ := Labelling.run_bind h
  obtain ⟨labels, n₃, two, h⟩ := Labelling.run_bind h
  obtain ⟨child, n₄, made, h⟩ := Labelling.run_bind h
  obtain ⟨children, rfl, length, all⟩ := Fresh.group_eq (Labelling.run_lift made)
  rw [List.length_map, Label.length_forChildrenAfter two] at length
  refine ⟨_, .group (fun none => ?_) all, (Labelling.run_pure h).symm⟩
  simp [none] at length

theorem updateChild_eq {child : Node} {i : Nat} (h : updateChild i child g = .ok g') :
    g' = { g with children := g.children.set i child } := by
  simp only [updateChild, Index.replace?, Index.place?_ofNat] at h
  split at h
  · rename_i children same
    split at same
    · cases h
      cases same
      rfl
    · cases same
  · cases h

theorem removeChild_eq {i : Int} (h : removeChild i g = .ok (some g')) :
    ∃ children, g' = { g with children } ∧ children ≠ [] ∧ ∀ child ∈ children, child ∈ g.children := by
  unfold removeChild at h
  split at h
  · cases h
  · rename_i children none erased
    cases h
    obtain ⟨j, -, rfl⟩ := Option.map_eq_some_iff.mp erased
    exact ⟨_, rfl, fun empty => none empty, fun child => List.mem_of_mem_eraseIdx⟩
  · cases h

theorem reorder_eq {source destination : Int} (h : reorder source destination g = .ok g') :
    ∃ children, g' = { g with children } ∧ children ≠ [] ∧ ∀ child ∈ children, child ∈ g.children := by
  unfold reorder at h
  split at h
  · rename_i child rest found erased
    cases h
    obtain ⟨j, -, here⟩ := Option.bind_eq_some_iff.mp found
    obtain ⟨j', -, rfl⟩ := Option.map_eq_some_iff.mp erased
    have inserted : Index.gap (g.children.eraseIdx j').length destination ≤ (g.children.eraseIdx j').length :=
      Nat.min_le_right _ _
    refine ⟨_, rfl, fun empty => ?_, fun m within => ?_⟩
    · have : child ∈ Index.insert (g.children.eraseIdx j') destination child :=
        (List.mem_insertIdx inserted).mpr (.inl rfl)
      rw [empty] at this
      cases this
    · rcases (List.mem_insertIdx inserted).mp within with rfl | within
      · exact List.mem_of_getElem? here
      · exact List.mem_of_mem_eraseIdx within
  · cases h

end Group

namespace Node

/-- What a condition becomes when it is turned into another kind. -/
inductive KindChange (c : Catalogue) : Kind → Node → Node → Prop where
  | same {kind node} : node.conditionKind = .ok kind → KindChange c kind node node
  | reference {old name} : KindChange c .reference old (Fresh.ruleCheck name)
  | comparison {old name new} : (∀ name child conjunction negated, old ≠ .group name [child] conjunction negated) →
      Fresh.condition c name = .ok new → KindChange c .comparison old new
  | lifted {name child conjunction negated label new} : child.renamed label = .ok new →
      KindChange c .comparison (.group name [child] conjunction negated) new
  | group {old name children} : old.conditionKind ≠ .ok .comparison → children ≠ [] →
      (∀ child ∈ children, ∃ name, Fresh.condition c name = .ok child) →
      KindChange c .group old (.group name children .all false)
  | wrapped {name left operator right label path sibling added n n'} :
      (Label.next path .comparison [name]).run n = (.ok sibling, n') → Fresh.condition c (.text sibling) = .ok added →
      KindChange c .group (.comparison name left operator right)
        (.group label [.comparison name left operator right, added] .all false)

theorem changeKind_eq {c : Catalogue} {path : String} {kind : Kind} {old new : Node} {n n' : Numbering}
    (h : (old.changeKind c path kind).run n = (.ok new, n')) : KindChange c kind old new := by
  unfold changeKind at h
  obtain ⟨k, n₁, known, h⟩ := Labelling.run_bind h
  split at h
  · rename_i already
    cases Labelling.run_pure h
    exact .same (already ▸ Labelling.run_lift known)
  · split at h
    · obtain ⟨label, n₂, -, h⟩ := Labelling.run_bind h
      cases Labelling.run_pure h
      exact .reference
    · split at h
      · obtain ⟨name, n₂, -, h⟩ := Labelling.run_bind h
        obtain ⟨label, n₃, -, h⟩ := Labelling.run_bind h
        exact .lifted (Labelling.run_lift h)
      · rename_i crowded
        obtain ⟨label, n₂, -, h⟩ := Labelling.run_bind h
        exact .comparison crowded (Labelling.run_lift h)
    · obtain ⟨label, n₂, -, h⟩ := Labelling.run_bind h
      split at h
      · obtain ⟨sibling, n₃, issued, h⟩ := Labelling.run_bind h
        obtain ⟨added, n₄, made, h⟩ := Labelling.run_bind h
        cases Labelling.run_pure h
        exact .wrapped issued (Labelling.run_lift made)
      · rename_i other
        obtain ⟨labels, n₃, two, h⟩ := Labelling.run_bind h
        obtain ⟨children, rfl, length, all⟩ := Fresh.group_eq (Labelling.run_lift h)
        rw [List.length_map, Label.length_forChildrenAfter two] at length
        refine .group (fun comparison => ?_) (fun none => ?_) all
        · cases old <;> cases comparison
          exact other _ _ _ _ rfl
        · simp [none] at length
    · cases h

/-- Only a condition changes its kind. -/
theorem kind_of_changeKind {c : Catalogue} {path : String} {kind : Kind} {old new : Node} {n n' : Numbering}
    (h : (old.changeKind c path kind).run n = (.ok new, n')) : ∃ own, old.conditionKind = .ok own := by
  obtain ⟨own, n₁, known, -⟩ := Labelling.run_bind h
  exact ⟨own, Labelling.run_lift known⟩

/-- Nothing changes about a condition of the kind that is asked for. -/
theorem changeKind_already {c : Catalogue} {path : String} {kind : Kind} {old : Node} {n : Numbering}
    (h : old.conditionKind = .ok kind) : (old.changeKind c path kind).run n = (.ok old, n) := by
  unfold changeKind
  rw [Labelling.run_bind_of (Labelling.run_known h), if_pos rfl]
  rfl

theorem changeKind_same {c : Catalogue} {path : String} {kind : Kind} {old new : Node} {n n' : Numbering}
    (ha : old.conditionKind = .ok kind) (h : (old.changeKind c path kind).run n = (.ok new, n')) : new = old := by
  cases (changeKind_already ha).symm.trans h
  rfl

end Node

/-! ### Comparisons -/

namespace Comparison

variable {catalogue : Catalogue} {c c' : Comparison}

theorem freshOperand_eq {node : Node} (h : c.freshOperand = .ok node) : ∃ t v, node = .literal t v := by
  obtain ⟨type, -, made⟩ := bind_eq_ok.mp h
  exact Fresh.literal_eq made

theorem freshOperands_eq {count : Int} {nodes : List Node} (h : c.freshOperands count = .ok nodes) :
    ∀ node ∈ nodes, ∃ t v, node = .literal t v := by
  obtain ⟨type, -, made⟩ := bind_eq_ok.mp h
  intro node within
  obtain ⟨type, -, made⟩ := (mapM_eq_ok made).2 node within
  exact Fresh.literal_eq made

theorem changeOperator_eq {operator : Value} (h : changeOperator catalogue operator c = .ok c') :
    ∃ oldArity newArity right, c.reshaped oldArity newArity = .ok right ∧ c' = { c with operator, right } := by
  obtain ⟨old, -, h⟩ := bind_eq_ok.mp h
  obtain ⟨new, -, h⟩ := bind_eq_ok.mp h
  obtain ⟨right, made, h⟩ := bind_eq_ok.mp h
  cases h
  exact ⟨_, _, right, made, rfl⟩

theorem changeLeft_eq {left : Node} (h : changeLeft left c = .ok c') : c' = { c with left, right := c'.right } := by
  obtain ⟨type, -, h⟩ := bind_eq_ok.mp h
  split at h
  · cases h
    rfl
  · obtain ⟨items, -, h⟩ := bind_eq_ok.mp h
    cases h
    rfl
  · obtain ⟨right, -, h⟩ := bind_eq_ok.mp h
    cases h
    rfl

theorem openOperands?_eq {count : OperandCount} {items : List Node} (h : openOperands? count c = some items) :
    c.right = .several items := by
  unfold openOperands? at h
  split at h
  · rename_i same
    split at h
    · cases h
      exact same
    · cases h
  · cases h

theorem addOperand_eq (h : addOperand catalogue c = .ok c') :
    c' = c ∨ ∃ items t v, c.right = .several items ∧ c' = { c with right := .several (items ++ [.literal t v]) } := by
  obtain ⟨count, -, h⟩ := bind_eq_ok.mp h
  split at h
  · rename_i items is
    split at h
    · obtain ⟨added, made, h⟩ := bind_eq_ok.mp h
      obtain ⟨t, v, rfl⟩ := freshOperand_eq made
      cases h
      exact .inr ⟨items, t, v, openOperands?_eq is, rfl⟩
    · cases h
      exact .inl rfl
  · cases h
    exact .inl rfl

theorem removeOperand_eq {index : Int} (h : removeOperand catalogue index c = .ok c') :
    c' = c ∨ ∃ items rest, c.right = .several items ∧ (∀ node ∈ rest, node ∈ items) ∧
      c' = { c with right := .several rest } := by
  obtain ⟨count, -, h⟩ := bind_eq_ok.mp h
  split at h
  · rename_i items is
    split at h
    · split at h
      · rename_i rest erased
        cases h
        obtain ⟨j, -, rfl⟩ := Option.map_eq_some_iff.mp erased
        exact .inr ⟨items, _, openOperands?_eq is, fun node => List.mem_of_mem_eraseIdx, rfl⟩
      · cases h
    · cases h
      exact .inl rfl
  · cases h
    exact .inl rfl

end Comparison

/-! ### Chains -/

namespace Chain

variable {numeric : List String} {c c' : Chain}

theorem build_eq {operands : List Node} {operators : List Value} (h : build numeric operands operators = .ok c) :
    ∃ type, Typing.infer numeric operands operators = .ok type ∧ c = ⟨type, operands, operators⟩ := by
  obtain ⟨type, inferred, h⟩ := bind_eq_ok.mp h
  cases h
  exact ⟨type, inferred, rfl⟩

/-- As many operators are fitted as stand between the operands. -/
theorem length_fit {joining : Option Joining} {operands : List Node} {operators fitted : List Value}
    (h : fit joining operands operators = .ok fitted) : fitted.length = operands.length - 1 := by
  simp only [fit] at h
  split at h
  · cases h
    have := operators.length_take_le (operands.length - 1)
    omega
  · obtain ⟨filler, _, h⟩ := bind_eq_ok.mp h
    cases h
    have := operators.length_take_le (operands.length - 1)
    simp only [List.length_append, List.length_replicate]
    omega

/-- With an operand, one operator goes. -/
theorem fits_without {i : Nat} {operators : List Value} (hw : i < c.operands.length)
    (he : 2 ≤ c.operands.length) (hf : c.operators.length + 1 = c.operands.length)
    (hi : operatorsWithout i c.operators = .ok operators) :
    operators.length + 1 = (c.operands.eraseIdx i).length := by
  rw [List.length_eraseIdx_of_lt hw]
  unfold operatorsWithout at hi
  split at hi
  · rename_i empty
    rw [List.isEmpty_iff] at empty
    simp only [empty, List.length_nil] at hf
    omega
  · split at hi
    · rename_i there
      cases hi
      rw [List.length_eraseIdx_of_lt there]
      omega
    · cases hi

theorem updateOperator_eq {index : Int} {operator : Value} (h : updateOperator numeric index operator c = .ok c') :
    ∃ type operators, operators.length = c.operators.length ∧
      Typing.infer numeric c.operands operators = .ok type ∧ (∀ o ∈ operators, o ∈ c.operators ∨ o = operator) ∧
      c' = ⟨type, c.operands, operators⟩ := by
  unfold updateOperator at h
  split at h
  · rename_i operators replaced
    obtain ⟨j, -, rfl⟩ := Option.map_eq_some_iff.mp replaced
    obtain ⟨type, inferred, rfl⟩ := build_eq h
    exact ⟨type, _, List.length_set, inferred, fun o within => List.mem_or_eq_of_mem_set within, rfl⟩
  · cases h

theorem wrap_eq {operator : Value} {e : Node} (h : wrap numeric operator e = .ok c) :
    ∃ own t v type, e.type = .ok own ∧ Typing.infer numeric [e, .literal t v] [operator] = .ok type ∧
      c = ⟨type, [e, .literal t v], [operator]⟩ := by
  obtain ⟨own, declared, h⟩ := bind_eq_ok.mp h
  obtain ⟨added, made, h⟩ := bind_eq_ok.mp h
  obtain ⟨t, v, rfl⟩ := Fresh.literal_eq made
  obtain ⟨type, inferred, rfl⟩ := build_eq h
  exact ⟨own, t, v, type, declared, inferred, rfl⟩

theorem insertOperand_eq {operator : Value} {after : Int} (h : insertOperand numeric operator after c = .ok c') :
    ∃ t v, Typing.infer numeric c'.operands c'.operators = .ok c'.type ∧
      (∀ e ∈ c'.operands, e = .literal t v ∨ e ∈ c.operands) ∧ ∀ o ∈ c'.operators, o = operator ∨ o ∈ c.operators := by
  unfold insertOperand at h
  split at h
  · rename_i within
    obtain ⟨own, -, h⟩ := bind_eq_ok.mp h
    obtain ⟨added, made, h⟩ := bind_eq_ok.mp h
    obtain ⟨t, v, rfl⟩ := Fresh.literal_eq made
    obtain ⟨type, inferred, rfl⟩ := build_eq h
    have place : after.toNat + 1 ≤ c.operands.length := by omega
    have gap : Index.gap c.operators.length after ≤ c.operators.length := Nat.min_le_right _ _
    exact ⟨t, v, inferred, fun e => (List.mem_insertIdx place).mp, fun o => (List.mem_insertIdx gap).mp⟩
  · cases h

/-- The last operand is left on its own, in normal form, or those that are left make up a chain. -/
theorem removeOperand_eq {index : Int} {new : Node} (h : removeOperand numeric index c = .ok new) :
    (∃ e ∈ c.operands, e.normalized numeric none = .ok new) ∨
      ∃ c' : Chain, new = c'.node ∧ Typing.infer numeric c'.operands c'.operators = .ok c'.type ∧
        (∀ e ∈ c'.operands, e ∈ c.operands) ∧ ∀ o ∈ c'.operators, o ∈ c.operators := by
  unfold removeOperand at h
  split at h
  · obtain ⟨operators, without, h⟩ := bind_eq_ok.mp h
    have fewer : ∀ o ∈ operators, o ∈ c.operators := by
      unfold operatorsWithout at without
      split at without
      · cases without
        exact fun _ none => by cases none
      · split at without
        · cases without
          exact fun o => List.mem_of_mem_eraseIdx
        · cases without
    split at h
    · cases h
    · rename_i e alone
      exact .inl ⟨e, List.mem_of_mem_eraseIdx (alone ▸ List.mem_cons_self), h⟩
    · obtain ⟨c', made, h⟩ := bind_eq_ok.mp h
      cases h
      obtain ⟨type, inferred, rfl⟩ := build_eq made
      exact .inr ⟨_, rfl, inferred, fun e => List.mem_of_mem_eraseIdx, fewer⟩
  · cases h

/-- No operator is filled in that was not there, if types are not looked up. -/
theorem mem_of_fit {operands : List Node} {operators fitted : List Value}
    (h : fit none operands operators = .ok fitted) : ∀ o ∈ fitted, o ∈ operators := by
  simp only [fit] at h
  split at h
  · cases h
    exact fun o => List.mem_of_mem_take
  · obtain ⟨filler, last, h⟩ := bind_eq_ok.mp h
    cases h
    intro o within
    rcases List.mem_append.mp within with within | within
    · exact List.mem_of_mem_take within
    · cases List.eq_of_mem_replicate within
      unfold Chain.filler at last
      split at last
      · rename_i none _ _
        cases none
      · rename_i there
        cases last
        exact List.mem_of_mem_take (List.mem_of_getLast? there)
      · cases last

end Chain

namespace Node

/-- An expression without parts. -/
inductive Leaf : Node → Prop where
  | literal {type value} : Leaf (.literal type value)
  | field {type path} : Leaf (.field type path)
  | call {type name} : Leaf (.call type name [])
  | reference {target} : Leaf (.reference target)

theorem leaf_of_fromSource {source : String} {field : Value} {old new : Node}
    (h : old.fromSource source field = .ok new) : new.Leaf := by
  obtain ⟨type, -, h⟩ := bind_eq_ok.mp h
  split at h
  · obtain ⟨t, v, rfl⟩ := Fresh.literal_eq h
    exact .literal
  · cases h
    exact .field
  · cases h
    exact .call
  · cases h
    exact .reference
  · cases h

end Node

/-! ### Choices -/

namespace Choice

variable {catalogue : Catalogue} {c c' : Choice}

theorem addBranch_eq {n n' : Numbering} (h : (addBranch catalogue c).run n = (.ok c', n')) :
    ∃ name condition t v, Fresh.condition catalogue name = .ok condition ∧
      c' = { c with branches := c.branches ++ [⟨condition, .literal t v, .positional⟩] } := by
  obtain ⟨names, n₁, -, h⟩ := Labelling.run_bind h
  obtain ⟨label, n₂, -, h⟩ := Labelling.run_bind h
  obtain ⟨condition, n₃, first, h⟩ := Labelling.run_bind h
  obtain ⟨type, n₄, -, h⟩ := Labelling.run_bind h
  obtain ⟨result, n₅, second, h⟩ := Labelling.run_bind h
  cases Labelling.run_pure h
  obtain ⟨t, v, rfl⟩ := Fresh.literal_eq (Labelling.run_lift second)
  exact ⟨_, condition, t, v, Labelling.run_lift first, rfl⟩

theorem branch_eq {index : Int} {branch : Branch Node} (h : Choice.branch index c = .ok branch) :
    ∃ i, Index.place? c.branches.length index = some i ∧ c.branches[i]? = some branch := by
  unfold Choice.branch at h
  split at h
  · rename_i found
    cases h
    exact Option.bind_eq_some_iff.mp found
  · cases h

theorem withBranch_eq {index : Int} {branch : Branch Node} (h : withBranch index branch c = .ok c') :
    ∃ i, Index.place? c.branches.length index = some i ∧ c' = { c with branches := c.branches.set i branch } := by
  unfold withBranch at h
  split at h
  · rename_i replaced
    cases h
    obtain ⟨i, place, rfl⟩ := Option.map_eq_some_iff.mp replaced
    exact ⟨i, place, rfl⟩
  · cases h

/-- The edit of a branch puts another one in its place. -/
theorem edit_eq {index : Int} (change : Branch Node → Branch Node)
    (h : (do withBranch index (change (← Choice.branch index c)) c) = .ok c') :
    ∃ i branch, Index.place? c.branches.length index = some i ∧ c.branches[i]? = some branch ∧
      c' = { c with branches := c.branches.set i (change branch) } := by
  obtain ⟨branch, found, h⟩ := bind_eq_ok.mp h
  obtain ⟨i, place, here⟩ := branch_eq found
  obtain ⟨i', place', rfl⟩ := withBranch_eq h
  cases place.symm.trans place'
  exact ⟨i, branch, place, here, rfl⟩

theorem setResult_eq {index : Int} {result : Node} (h : setResult index result c = .ok c') :
    ∃ i branch label, Index.place? c.branches.length index = some i ∧ c.branches[i]? = some branch ∧
      c' = { c with branches := c.branches.set i { branch with result, label } } := by
  obtain ⟨i, branch, place, here, rfl⟩ := edit_eq (fun branch =>
    { branch with result, label := branch.label.afterResult branch.result result }) h
  exact ⟨i, branch, _, place, here, rfl⟩

theorem setResultLabel_eq {index : Int} {text : Value} (h : setResultLabel index text c = .ok c') :
    ∃ i branch label, c.branches[i]? = some branch ∧
      c' = { c with branches := c.branches.set i { branch with label } } := by
  obtain ⟨i, branch, -, here, rfl⟩ := edit_eq (fun branch =>
    { branch with label := .typed text branch.result }) h
  exact ⟨i, branch, _, here, rfl⟩

theorem changeConditionKind_eq {index : Int} {kind : Kind} {n n' : Numbering}
    (h : (changeConditionKind catalogue index kind c).run n = (.ok c', n')) :
    ∃ i branch condition n₁ n₂, Index.place? c.branches.length index = some i ∧ c.branches[i]? = some branch ∧
      (branch.condition.changeKind catalogue (conditionPath index) kind).run n₁ = (.ok condition, n₂) ∧
      c' = { c with branches := c.branches.set i { branch with condition } } := by
  obtain ⟨branch, n₁, found, h⟩ := Labelling.run_bind h
  obtain ⟨condition, n₂, changed, h⟩ := Labelling.run_bind h
  obtain ⟨i, branch', place, here, rfl⟩ := edit_eq (fun branch => { branch with condition })
    (Labelling.run_lift h)
  obtain ⟨i', place', here'⟩ := branch_eq (Labelling.run_lift found)
  cases place.symm.trans place'
  cases here.symm.trans here'
  exact ⟨i, branch, condition, _, _, place, here, changed, rfl⟩

theorem removeBranch_eq {index : Int} (h : removeBranch index c = .ok c') :
    ∃ i, c' = { c with branches := c.branches.eraseIdx i } := by
  unfold removeBranch at h
  split at h
  · rename_i erased
    cases h
    obtain ⟨i, -, rfl⟩ := Option.map_eq_some_iff.mp erased
    exact ⟨i, rfl⟩
  · cases h

theorem branches_of_removeBranch {index : Int} (ho : 1 < c.branches.length) (h : removeBranch index c = .ok c') :
    c'.branches ≠ [] := by
  obtain ⟨i, rfl⟩ := removeBranch_eq h
  intro none
  have length := congrArg List.length none
  rw [List.length_eraseIdx, List.length_nil] at length
  split at length <;> omega

end Choice

end RuleEditor
