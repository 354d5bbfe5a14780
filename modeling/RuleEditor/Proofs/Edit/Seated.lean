import RuleEditor.Proofs.Edit.Shapes
import RuleEditor.Proofs.Session.Rewrite
import RuleEditor.Proofs.Tree.Seats

/-!
# Seated trees stay seated

Which properties of nodes at their seats every change of a definition keeps, said once. `Scope.Seats` lists what
such a property has to allow: the nodes that edits make, and the ways in which edits move nodes between seats.
-/
namespace RuleEditor

namespace Node

def IsCondition (node : Node) : Prop := ∃ kind, node.conditionKind = .ok kind

def Named (node : Node) : Prop := ∃ name, node.name = .ok name

theorem isCondition_comparison {name operator : Value} {left right : Node} :
    (Node.comparison name left operator right).IsCondition := ⟨_, rfl⟩

theorem isCondition_group {name : Value} {children : List Node} {conjunction : Conjunction} {negated : Bool} :
    (Node.group name children conjunction negated).IsCondition := ⟨_, rfl⟩

theorem isCondition_ruleCheck {name : Value} {target : Reference} : (Node.ruleCheck name target).IsCondition :=
  ⟨_, rfl⟩

theorem IsCondition.named {node : Node} (h : node.IsCondition) : node.Named := by
  obtain ⟨kind, known⟩ := h
  cases node <;> cases known <;> exact ⟨_, rfl⟩

/-- What has a name has its parts at the same seats wherever it stands. -/
theorem Named.parts_eq {node : Node} (h : node.Named) (seat seat' : Seat) : node.parts seat = node.parts seat' := by
  obtain ⟨name, has⟩ := h
  cases node <;> cases has <;> rfl

theorem Leaf.parts_eq {node : Node} (h : node.Leaf) (seat : Seat) : node.parts seat = [] := by
  cases h <;> rfl

end Node

open Node

/-- The node is on the right side of the comparison: the operand there, one of several, or an operand of a chain there. -/
inductive Comparison.OnRight (c : Comparison) : Node → Prop where
  | whole : c.OnRight c.right
  | item {items : List Node} {e : Node} : c.right = .several items → e ∈ items → c.OnRight e
  | operand {type : Value} {operands : List Node} {operators : List Value} {e : Node} :
      c.OnRight (.chain type operands operators) → e ∈ operands → c.OnRight e

/-- What the moves of a scope put at a seat may stand there. -/
structure Scope.Seats (sc : Scope) (numeric : List String) (P : Seat → Node → Prop) : Prop where
  supplied : ∀ {e}, sc.dares (.supply e) → e.Seated P .expression
  left : ∀ {c left}, sc.dares (.lead c left) → left.Seated P .expression
  leaf : ∀ {e}, e.Leaf → P .expression e
  condition : ∀ {c}, c.IsCondition → P .condition c
  nothing : P .right .absent
  several : ∀ items, P .right (.several items)
  -- what may stand at one seat may stand at another one
  operand : ∀ {e}, P .expression e → P .operand e
  right : ∀ {e}, P .operand e → P .right e
  item : ∀ {e}, P .right e → e ≠ .absent → (∀ items, e ≠ .several items) → P .operand e
  inner : ∀ {seat old type}, sc.dares (.fill old) → P seat old → old.type = .ok type → P seat.operands old
  outer : ∀ {seat type operands operators e}, P seat (.chain type operands operators) → P seat.operands e →
    e.isExpression = true → P seat e
  -- what may take the place of another node
  cleared : ∀ {seat old new}, sc.dares (.clear old) → P seat old → new.IsCondition → P seat new
  filled : ∀ {seat old new}, sc.dares (.fill old) → P seat old → P .expression new → P seat new
  lifted : ∀ {seat old new}, P seat old → old.IsCondition → P .condition new → new.Named → P seat new
  call : ∀ {seat type name arguments name' arguments'}, P seat (.call type name arguments) →
    P seat (.call type name' arguments')
  reference : ∀ {seat target target'}, P seat (.reference target) → P seat (.reference target')
  choice : ∀ {seat branches otherwise label branches' otherwise' label'}, P seat (.choice branches otherwise label) →
    P .expression otherwise' → (branches ≠ [] → branches' ≠ [] ∨ sc.dares (.drop ⟨branches', otherwise', label'⟩)) →
    P seat (.choice branches' otherwise' label')
  -- chains
  joined : ∀ {type operands operator}, sc.dares (.join operator) → Typing.infer numeric operands [operator] = .ok type →
    P .expression (.chain type operands [operator])
  rebuilt : ∀ {seat type operands operators type' operands' operators'}, P seat (.chain type operands operators) →
    Typing.infer numeric operands' operators' = .ok type' → (∀ o ∈ operators', o ∈ operators ∨ sc.dares (.join o)) →
    P seat (.chain type' operands' operators')
  retyped : ∀ {c left type e e'}, sc.dares (.lead c left) → left.type = .ok type → c.OnRight e → P .operand e →
    e.retyped type = .ok e' → P .operand e'
  -- a slot is filled, and the types of chains are inferred anew, or the type of what is in the slot stays
  settled : ∀ {seat step old new node mid node'}, Slot step old new node mid → mid.reinferAt numeric [] = .ok node' →
    P seat node → P (seat.after step) new → P seat node'
  alike : ∀ {seat step old new node node'}, Slot step old new node node' → new.type = old.type →
    P seat node → P (seat.after step) new → P seat node'

namespace Node

variable {sc : Scope} {numeric : List String} {P : Seat → Node → Prop} {seat : Seat} {catalogue : Catalogue}
  {old new node node' : Node}

theorem Seated.moved {seat' : Seat} (h : node.Seated P seat) (hs : node.parts seat = node.parts seat')
    (hh : P seat' node) : node.Seated P seat' := .intro hh (hs ▸ h.inside)

theorem seated_leaf (leaf : node.Leaf) (hh : P seat node) : node.Seated P seat := by
  refine .intro hh ?_
  rw [leaf.parts_eq]
  exact fun _ none => by cases none

section Seats

variable (seats : sc.Seats numeric P)

include seats

/-! ### Between seats -/

theorem Seated.to_operand (h : node.Seated P .right) (ho : node ≠ .absent) (hs : ∀ items, node ≠ .several items) :
    node.Seated P .operand := h.move rfl (seats.item h.here ho hs)

theorem Seated.to_right (h : node.Seated P .operand) : node.Seated P .right := h.move rfl (seats.right h.here)

theorem seated_operand : (e : Node) → e.Seated P .expression → e.Seated P .operand
  | .chain type operands operators, h => by
      obtain ⟨here, all⟩ := seated_chain.mp h
      exact seated_chain.mpr ⟨seats.operand here, fun operand within => seated_operand operand (all operand within)⟩
  | .absent, h | .several _, h | .literal .., h | .field .., h | .call .., h | .reference _, h | .comparison .., h
  | .group .., h | .ruleCheck .., h | .choice .., h => h.moved rfl (seats.operand h.here)

/-- An expression that may stand on its own may stand in the place of a node that it may replace. -/
theorem Seated.fill (h : new.Seated P .expression) (hh : P seat new) : new.Seated P seat := by
  cases seat with
  | expression | condition | choice => exact h.move rfl hh
  | right | operand => exact (seated_operand seats new h).move rfl hh

theorem seated_literal_operands (t v : Value) (seat : Seat) : (Node.literal t v).Seated P seat.operands := by
  have alone : (Node.literal t v).Seated P .expression := seated_leaf .literal (seats.leaf .literal)
  cases seat with
  | expression | condition | choice => exact alone
  | right | operand => exact seated_operand seats _ alone

theorem seated_literal_right (t v : Value) : (Node.literal t v).Seated P .right :=
  (seated_literal_operands seats t v .right).to_right seats

/-! ### New nodes -/

theorem seated_fresh {name : Value} (hm : Fresh.condition catalogue name = .ok node) (hh : P seat node) :
    node.Seated P seat := by
  obtain ⟨t, path, operator, t', v, rfl⟩ := Fresh.condition_eq hm
  exact seated_comparison.mpr ⟨hh, seated_leaf .field (seats.leaf .field), seated_literal_right seats t' v⟩

theorem seated_condition {name : Value} (h : Fresh.condition catalogue name = .ok node) :
    node.Seated P .condition := by
  obtain ⟨t, path, operator, t', v, rfl⟩ := Fresh.condition_eq h
  exact seated_fresh seats h (seats.condition isCondition_comparison)

theorem seated_conditions {children : List Node}
    (h : ∀ child ∈ children, ∃ name, Fresh.condition catalogue name = .ok child) :
    ∀ child ∈ children, child.Seated P .condition := by
  intro child within
  obtain ⟨name, h⟩ := h child within
  exact seated_condition seats h

theorem seated_member (member : Fresh.Member catalogue node) : node.Seated P .condition := by
  cases member with
  | comparison made => exact seated_condition seats made
  | group _ all => exact seated_group.mpr ⟨seats.condition isCondition_group, seated_conditions seats all⟩

/-- One condition may stand where another one does. -/
theorem seated_like (h : old.Seated P seat) (hw : old.IsCondition) (hi : new.IsCondition) : P seat new :=
  seats.lifted h.here hw (seats.condition hi) hi.named

theorem seated_renamed {name : Value} (h : old.Seated P seat) (hr : old.renamed name = .ok new) :
    new.Seated P seat ∧ new.Named := by
  cases old <;> cases hr <;> refine ⟨?_, _, rfl⟩
  case call => exact seated_call.mpr ⟨seats.call h.here, (seated_call.mp h).2⟩
  case comparison =>
    exact seated_comparison.mpr
      ⟨seated_like seats h isCondition_comparison isCondition_comparison, (seated_comparison.mp h).2⟩
  case group =>
    exact seated_group.mpr ⟨seated_like seats h isCondition_group isCondition_group, (seated_group.mp h).2⟩
  case ruleCheck => exact seated_ruleCheck.mpr (seated_like seats h isCondition_ruleCheck isCondition_ruleCheck)

theorem seated_kindChange {kind : Kind} (h : old.Seated P seat) (hw : old.IsCondition)
    (hc : KindChange catalogue kind old new) : new.Seated P seat := by
  cases hc with
  | same => exact h
  | reference => exact seated_ruleCheck.mpr (seated_like seats h hw isCondition_ruleCheck)
  | comparison _ made =>
      obtain ⟨t, path, operator, t', v, rfl⟩ := Fresh.condition_eq made
      exact seated_fresh seats made (seated_like seats h hw isCondition_comparison)
  | lifted renamed =>
      have child := (seated_group.mp h).2 _ List.mem_cons_self
      obtain ⟨lifted, named⟩ := seated_renamed seats child renamed
      exact lifted.moved (named.parts_eq _ _) (seats.lifted h.here hw lifted.here named)
  | group _ _ all =>
      exact seated_group.mpr ⟨seated_like seats h hw isCondition_group, seated_conditions seats all⟩
  | wrapped _ made =>
      refine seated_group.mpr ⟨seated_like seats h hw isCondition_group, List.forall_mem_cons.mpr ⟨?_, ?_⟩⟩
      · exact h.moved rfl (seats.condition isCondition_comparison)
      · exact List.forall_mem_singleton.mpr (seated_condition seats made)

/-! ### Chains -/

theorem seated_ofNormal {type : Value} {operands operands' : List Node} {operators : List Value}
    (hh : P seat (.chain type operands operators))
    (ha : ∀ e ∈ operands', e.Seated P seat.operands ∧ e.isExpression = true)
    (hm : Chain.ofNormal numeric none operands' operators = .ok node) :
    node.Seated P seat ∧ node.isExpression = true := by
  match operands', hm with
  | [e], hm =>
      cases hm
      obtain ⟨alone, expression⟩ := ha _ List.mem_cons_self
      exact ⟨alone.move seat.operands_operands (seats.outer hh alone.here expression), expression⟩
  | first :: second :: rest, hm =>
      obtain ⟨fitted, fits, hm⟩ := bind_eq_ok.mp hm
      obtain ⟨type', inferred, hm⟩ := bind_eq_ok.mp hm
      cases hm
      have rebuilt := seats.rebuilt hh inferred fun o within => .inl (Chain.mem_of_fit fits o within)
      exact ⟨seated_chain.mpr ⟨rebuilt, fun e within => (ha e within).1⟩, rfl⟩

omit seats in
mutual

theorem seated_normalized (seats : sc.Seats numeric P) : (e : Node) → {seat : Seat} → {e' : Node} → e.Seated P seat →
    e.normalized numeric none = .ok e' → e'.Seated P seat ∧ e'.isExpression = true
  | .chain _ operands operators, seat, e', old, h => by
      obtain ⟨operands', below, made⟩ := bind_eq_ok.mp h
      exact seated_ofNormal seats old.here (seated_normalizedOperands seats operands (seated_chain.mp old).2 below) made
  | .call _ _ arguments, seat, e', old, h => by
      obtain ⟨arguments', below, made⟩ := bind_eq_ok.mp h
      cases made
      have inside := seated_normalizedArguments seats arguments (seated_call.mp old).2 below
      exact ⟨seated_call.mpr ⟨seats.call old.here, inside⟩, rfl⟩
  | .literal .., seat, e', old, h | .field .., seat, e', old, h | .reference .., seat, e', old, h => by
      cases h
      exact ⟨old, rfl⟩
  | .absent, seat, e', _, h | .several .., seat, e', _, h | .comparison .., seat, e', _, h | .group .., seat, e', _, h
  | .ruleCheck .., seat, e', _, h | .choice .., seat, e', _, h => by cases h

theorem seated_normalizedOperands (seats : sc.Seats numeric P) : (operands : List Node) → {seat : Seat} →
    {operands' : List Node} → (∀ operand ∈ operands, operand.Seated P seat) →
    normalizedOperands numeric none operands = .ok operands' →
    ∀ operand ∈ operands', operand.Seated P seat ∧ operand.isExpression = true
  | [], seat, operands', _, h => by
      cases h
      exact fun _ within => by cases within
  | e :: rest, seat, operands', old, h => by
      obtain ⟨e', first, h⟩ := bind_eq_ok.mp h
      obtain ⟨rest', below, made⟩ := bind_eq_ok.mp h
      cases made
      obtain ⟨here, others⟩ := List.forall_mem_cons.mp old
      exact List.forall_mem_cons.mpr
        ⟨seated_normalized seats e here first, seated_normalizedOperands seats rest others below⟩

theorem seated_normalizedArguments (seats : sc.Seats numeric P) : (arguments : List (Argument Node)) →
    {arguments' : List (Argument Node)} →
    (∀ a ∈ arguments, a.value.Seated P .expression) →
    normalizedArguments numeric none arguments = .ok arguments' → ∀ a ∈ arguments', a.value.Seated P .expression
  | [], arguments', _, h => by
      cases h
      exact fun _ within => by cases within
  | ⟨name, value⟩ :: rest, arguments', old, h => by
      obtain ⟨value', first, h⟩ := bind_eq_ok.mp h
      obtain ⟨rest', below, made⟩ := bind_eq_ok.mp h
      cases made
      obtain ⟨here, others⟩ := List.forall_mem_cons.mp old
      exact List.forall_mem_cons.mpr
        ⟨(seated_normalized seats value here first).1, seated_normalizedArguments seats rest others below⟩

end

theorem seated_wrap {operator : Value} {c : Chain} (h : old.Seated P seat) (hf : sc.dares (.fill old))
    (hj : sc.dares (.join operator)) (hw : Chain.wrap numeric operator old = .ok c) :
    c.node.Seated P seat := by
  obtain ⟨own, t, v, type, declared, inferred, rfl⟩ := Chain.wrap_eq hw
  have here : P seat (.chain type [old, .literal t v] [operator]) :=
    seats.filled hf h.here (seats.joined hj inferred)
  have first : old.Seated P seat.operands := h.move seat.operands_operands.symm (seats.inner hf h.here declared)
  refine seated_chain.mpr ⟨here, List.forall_mem_cons.mpr ⟨first, List.forall_mem_singleton.mpr ?_⟩⟩
  exact seated_literal_operands seats t v seat

theorem seated_insertOperand {operator : Value} {after : Int} {c c' : Chain} (h : c.node.Seated P seat)
    (hj : sc.dares (.join operator)) (hi : Chain.insertOperand numeric operator after c = .ok c') :
    c'.node.Seated P seat := by
  obtain ⟨t, v, inferred, operands, operators⟩ := Chain.insertOperand_eq hi
  refine seated_chain.mpr ⟨seats.rebuilt h.here inferred fun o within => ?_, fun e within => ?_⟩
  · rcases operators o within with rfl | there
    · exact .inr hj
    · exact .inl there
  · rcases operands e within with rfl | there
    · exact seated_literal_operands seats t v seat
    · exact (seated_chain.mp h).2 e there

theorem seated_removeOperand {index : Int} {c : Chain} (h : c.node.Seated P seat)
    (hr : Chain.removeOperand numeric index c = .ok new) : new.Seated P seat := by
  rcases Chain.removeOperand_eq hr with ⟨e, there, normal⟩ | ⟨c', rfl, inferred, operands, operators⟩
  · obtain ⟨alone, expression⟩ := seated_normalized seats e ((seated_chain.mp h).2 e there) normal
    exact alone.move seat.operands_operands (seats.outer h.here alone.here expression)
  · refine seated_chain.mpr ⟨seats.rebuilt h.here inferred fun o within => .inl (operators o within), ?_⟩
    exact fun e within => (seated_chain.mp h).2 e (operands e within)

theorem seated_updateOperator {index : Int} {operator : Value} {c c' : Chain} (h : c.node.Seated P seat)
    (hj : sc.dares (.join operator)) (hu : Chain.updateOperator numeric index operator c = .ok c') :
    c'.node.Seated P seat := by
  obtain ⟨type, operators, -, inferred, known, rfl⟩ := Chain.updateOperator_eq hu
  refine seated_chain.mpr ⟨seats.rebuilt h.here inferred fun o within => ?_, (seated_chain.mp h).2⟩
  rcases known o within with there | rfl
  · exact .inl there
  · exact .inr hj

/-! ### Comparisons -/

omit seats in
mutual

/-- An operand takes on the type of the left side of its comparison. -/
theorem seated_retyped (seats : sc.Seats numeric P) {c : Comparison} {left : Node} {type : Value}
    (hl : sc.dares (.lead c left)) (hd : left.type = .ok type) : (e : Node) → {e' : Node} → c.OnRight e →
    e.Seated P .operand → e.retyped type = .ok e' → e'.Seated P .operand
  | .chain t operands operators, e', right, h, retyped => by
      have here := seats.retyped hl hd right h.here retyped
      obtain ⟨operands', below, made⟩ := bind_eq_ok.mp retyped
      cases made
      have inside := seated_retypedOperands seats hl hd operands (fun _ within => right.operand within)
        (seated_chain.mp h).2 below
      exact seated_chain.mpr ⟨here, inside⟩
  | .call .., e', right, h, retyped => by
      have here := seats.retyped hl hd right h.here retyped
      cases retyped
      exact seated_call.mpr ⟨here, (seated_call.mp h).2⟩
  | .literal .., e', right, h, retyped | .field .., e', right, h, retyped | .reference .., e', right, h, retyped => by
      have here := seats.retyped hl hd right h.here retyped
      cases retyped
      simpa using here
  | .absent, e', _, h, retyped | .several .., e', _, h, retyped | .comparison .., e', _, h, retyped
  | .group .., e', _, h, retyped | .ruleCheck .., e', _, h, retyped | .choice .., e', _, h, retyped => by
      cases retyped

theorem seated_retypedOperands (seats : sc.Seats numeric P) {c : Comparison} {left : Node} {type : Value}
    (hl : sc.dares (.lead c left)) (hd : left.type = .ok type) : (operands : List Node) →
    {operands' : List Node} → (∀ operand ∈ operands, c.OnRight operand) →
    (∀ operand ∈ operands, operand.Seated P .operand) → retypedOperands type operands = .ok operands' →
    ∀ operand ∈ operands', operand.Seated P .operand
  | [], operands', _, _, retyped => by
      cases retyped
      exact fun _ within => by cases within
  | e :: rest, operands', right, h, retyped => by
      obtain ⟨e', first, retyped⟩ := bind_eq_ok.mp retyped
      obtain ⟨rest', below, made⟩ := bind_eq_ok.mp retyped
      cases made
      obtain ⟨rightHere, rightBelow⟩ := List.forall_mem_cons.mp right
      obtain ⟨here, others⟩ := List.forall_mem_cons.mp h
      exact List.forall_mem_cons.mpr
        ⟨seated_retyped seats hl hd e rightHere here first,
          seated_retypedOperands seats hl hd rest rightBelow others below⟩

end

theorem seated_followLeft {c : Comparison} {left e e' : Node} {type : Value} (hl : sc.dares (.lead c left))
    (hd : left.type = .ok type) (hr : c.OnRight e) (h : e.Seated P .operand)
    (hf : Comparison.followLeft type e = .ok e') : e'.Seated P .operand := by
  unfold Comparison.followLeft at hf
  split at hf
  · exact seated_retyped seats hl hd _ hr h hf
  · obtain ⟨own, -, hf⟩ := bind_eq_ok.mp hf
    split at hf
    · cases hf
      exact h
    · exact seated_retyped seats hl hd _ hr h hf

theorem seated_changeLeft {c c' : Comparison} {left : Node} (h : c.right.Seated P .right)
    (hl : sc.dares (.lead c left)) (hc : Comparison.changeLeft left c = .ok c') :
    c'.right.Seated P .right := by
  obtain ⟨type, declared, hc⟩ := bind_eq_ok.mp hc
  split at hc
  · cases hc
    exact h
  · rename_i items same
    obtain ⟨items', followed, hc⟩ := bind_eq_ok.mp hc
    cases hc
    rw [same] at h
    refine seated_several.mpr ⟨seats.several _, fun item' within => ?_⟩
    obtain ⟨item, there, followed⟩ := (mapM_eq_ok followed).2 item' within
    exact seated_followLeft seats hl declared (.item same there) ((seated_several.mp h).2 item there) followed
  · rename_i one single
    obtain ⟨right, followed, hc⟩ := bind_eq_ok.mp hc
    cases hc
    have operand := h.to_operand seats one single
    exact (seated_followLeft seats hl declared .whole operand followed).to_right seats

/-- The right side of another shape is made of old operands and new literals. -/
theorem seated_reshaped {c : Comparison} {oldArity newArity : Int} {right : Node} (h : c.right.Seated P .right)
    (hm : c.reshaped oldArity newArity = .ok right) : right.Seated P .right := by
  have fresh {operand : Node} (hm : c.freshOperand = .ok operand) : operand.Seated P .right := by
    obtain ⟨t, v, rfl⟩ := Comparison.freshOperand_eq hm
    exact seated_literal_right seats t v
  have freshAll {count : Int} {operands : List Node} (hm : c.freshOperands count = .ok operands) :
      ∀ operand ∈ operands, operand.Seated P .operand := fun operand within => by
    obtain ⟨t, v, rfl⟩ := Comparison.freshOperands_eq hm operand within
    exact seated_literal_operands seats t v .right
  have list {items : List Node} (all : ∀ item ∈ items, item.Seated P .operand) : (several items).Seated P .right :=
    seated_several.mpr ⟨seats.several items, all⟩
  unfold Comparison.reshaped at hm
  split at hm
  · cases hm
    exact seated_absent.mpr seats.nothing
  · split at hm
    · split at hm
      · exact fresh hm
      · rename_i same
        cases hm
        exact ((seated_several.mp (same ▸ h)).2 _ List.mem_cons_self).to_right seats
      · exact fresh hm
      · cases hm
        exact h
    · split at hm
      · rename_i items same
        have all := (seated_several.mp (same ▸ h)).2
        split at hm
        · cases hm
          exact list fun item within => all item (List.mem_of_mem_take within)
        · obtain ⟨added, new, hm⟩ := bind_eq_ok.mp hm
          cases hm
          exact list (List.forall_mem_append.mpr ⟨all, freshAll new⟩)
      · obtain ⟨added, new, hm⟩ := bind_eq_ok.mp hm
        cases hm
        exact list (freshAll new)
      · rename_i single one
        split at hm
        · obtain ⟨added, new, hm⟩ := bind_eq_ok.mp hm
          cases hm
          exact list (List.forall_mem_cons.mpr ⟨h.to_operand seats one single, freshAll new⟩)
        · obtain ⟨added, new, hm⟩ := bind_eq_ok.mp hm
          cases hm
          exact list (freshAll new)

/-! ### Everything that is done to a definition -/

theorem seated_rewrite {path : String} {mark : Mark} (h : old.Seated P seat)
    (rewrite : Rewrite sc catalogue numeric path mark old new) : new.Seated P seat := by
  have group {g g' : Group} (h : g.node.Seated P seat) (all : ∀ child ∈ g'.children, child.Seated P .condition) :
      g'.node.Seated P seat := seated_group.mpr ⟨seated_like seats h isCondition_group isCondition_group, all⟩
  have comparison {c c' : Comparison} (h : c.node.Seated P seat) (left : c'.left.Seated P .expression)
      (right : c'.right.Seated P .right) : c'.node.Seated P seat :=
    seated_comparison.mpr ⟨seated_like seats h isCondition_comparison isCondition_comparison, left, right⟩
  cases rewrite with
  | kindChanged changed => exact seated_kindChange seats h (kind_of_changeKind changed) (changeKind_eq changed)
  | childAdded added =>
      obtain ⟨child, member, rfl⟩ := Group.addChild_eq added
      exact group h (List.forall_mem_append.mpr ⟨(seated_group.mp h).2, by simpa using seated_member seats member⟩)
  | groupAdded added =>
      obtain ⟨child, member, rfl⟩ := Group.addChildGroup_eq added
      exact group h (List.forall_mem_append.mpr ⟨(seated_group.mp h).2, by simpa using seated_member seats member⟩)
  | emptied made clears =>
      obtain ⟨t, path, operator, t', v, rfl⟩ := Fresh.condition_eq made
      exact seated_fresh seats made (seats.cleared clears h.here isCondition_comparison)
  | childRemoved removed =>
      obtain ⟨children, rfl, -, kept⟩ := Group.removeChild_eq removed
      exact group h fun child within => (seated_group.mp h).2 child (kept child within)
  | renamed renamed => exact (seated_renamed seats h renamed).1
  | childRenamed found renamed updated =>
      cases Group.updateChild_eq updated
      have all := (seated_group.mp h).2
      exact group h (seated_set all (seated_renamed seats (all _ (List.mem_of_getElem? found)) renamed).1 _)
  | conjunctionSet set =>
      obtain ⟨conjunction, -, set⟩ := bind_eq_ok.mp set
      split at set
      · rename_i name children own negated
        cases set
        exact seated_group.mpr ⟨seated_like seats h isCondition_group isCondition_group, (seated_group.mp h).2⟩
      · cases set
  | negationToggled => exact group h (seated_group.mp h).2
  | reordered moved =>
      obtain ⟨children, rfl, -, kept⟩ := Group.reorder_eq moved
      exact group h fun child within => (seated_group.mp h).2 child (kept child within)
  | operatorChanged changed =>
      obtain ⟨_, _, right, made, rfl⟩ := Comparison.changeOperator_eq changed
      obtain ⟨-, inLeft, inRight⟩ := seated_comparison.mp h
      exact comparison h inLeft (seated_reshaped seats inRight made)
  | leftChanged _ changed leads =>
      have right := seated_changeLeft seats (seated_comparison.mp h).2.2 leads changed
      rw [Comparison.changeLeft_eq changed]
      exact comparison h (seats.left leads) right
  | rightAdded added =>
      rcases Comparison.addOperand_eq added with rfl | ⟨items, t, v, same, rfl⟩
      · exact h
      · obtain ⟨-, inLeft, inRight⟩ := seated_comparison.mp h
        rw [same, seated_several] at inRight
        have last := seated_literal_operands seats t v .right
        exact comparison h inLeft (seated_several.mpr
          ⟨seats.several _, List.forall_mem_append.mpr ⟨inRight.2, List.forall_mem_singleton.mpr last⟩⟩)
  | rightRemoved removed =>
      rcases Comparison.removeOperand_eq removed with rfl | ⟨items, rest, same, kept, rfl⟩
      · exact h
      · obtain ⟨-, inLeft, inRight⟩ := seated_comparison.mp h
        rw [same, seated_several] at inRight
        exact comparison h inLeft (seated_several.mpr
          ⟨seats.several _, fun item within => inRight.2 item (kept item within)⟩)
  | replaced _ supplies fills =>
      have given := seats.supplied supplies
      exact given.fill seats (seats.filled fills h.here given.here)
  | sourceChanged changed fills =>
      have leaf := leaf_of_fromSource changed
      exact seated_leaf leaf (seats.filled fills h.here (seats.leaf leaf))
  | wrapped wrapped fills joins => exact seated_wrap seats h fills joins wrapped
  | operandInserted inserted joins => exact seated_insertOperand seats h joins inserted
  | operandRemoved removed => exact seated_removeOperand seats h removed
  | operatorUpdated updated joins => exact seated_updateOperator seats h joins updated
  | checkCleared cleared =>
      obtain ⟨label, -, cleared⟩ := bind_eq_ok.mp cleared
      cases cleared
      exact seated_ruleCheck.mpr (seated_like seats h isCondition_ruleCheck isCondition_ruleCheck)
  | referenceCleared => exact seated_reference.mpr (seats.reference h.here)

theorem seated_recast {mark : Mark} {c c' : Choice} (h : c.node.Seated P seat)
    (recast : Recast sc catalogue mark c c') : c'.node.Seated P seat := by
  obtain ⟨here, last, all⟩ := seated_choice.mp h
  have edited {i : Nat} {b : Branch Node} (put : b.condition.Seated P .condition ∧ b.result.Seated P .expression) :
      (Choice.node { c with branches := c.branches.set i b }).Seated P seat := by
    refine seated_choice.mpr ⟨seats.choice here last.here fun some => .inl ?_, last, fun b' within => ?_⟩
    · simpa only [ne_eq, List.set_eq_nil_iff] using some
    · rcases List.mem_or_eq_of_mem_set within with there | rfl
      · exact all b' there
      · exact put
  cases recast with
  | added added =>
      obtain ⟨name, condition, t, v, made, rfl⟩ := Choice.addBranch_eq added
      refine seated_choice.mpr ⟨seats.choice here last.here fun _ => .inl (by simp), last, ?_⟩
      have result : (Node.literal t v).Seated P .expression := seated_leaf .literal (seats.leaf .literal)
      refine List.forall_mem_append.mpr ⟨all, ?_⟩
      exact List.forall_mem_singleton.mpr ⟨seated_condition seats made, result⟩
  | removed removed drops =>
      obtain ⟨i, rfl⟩ := Choice.removeBranch_eq removed
      exact seated_choice.mpr
        ⟨seats.choice here last.here fun _ => .inr drops, last, fun b within => all b (List.mem_of_mem_eraseIdx within)⟩
  | kindChanged _ changed =>
      obtain ⟨i, branch, condition, _, _, -, found, turned, rfl⟩ := Choice.changeConditionKind_eq changed
      obtain ⟨inCondition, inResult⟩ := all _ (List.mem_of_getElem? found)
      have was := kind_of_changeKind turned
      exact edited ⟨seated_kindChange seats inCondition was (changeKind_eq turned), inResult⟩
  | resultLabelled labelled =>
      obtain ⟨i, branch, label, found, rfl⟩ := Choice.setResultLabel_eq labelled
      exact edited (b := { branch with label }) (all branch (List.mem_of_getElem? found))
  | otherwiseLabelled => exact seated_choice.mpr ⟨seats.choice here last.here .inl, last, all⟩

theorem seated_placed {steps : List Step} {tree tree' : Node} (h : tree.Seated P seat)
    (hp : new.Seated P (seat.along steps)) (placed : Placed numeric new steps tree tree') :
    tree'.Seated P seat := by
  cases placed with
  | put replaced inferred =>
      have woven : weave numeric new steps tree = .ok tree' := by rw [weave_eq, replaced, ok_bind, inferred]
      exact h.woven seats.settled seats.several hp woven
  | result set =>
      obtain ⟨i, branch, label, -, found, rfl⟩ := Choice.setResult_eq set
      obtain ⟨here, last, all⟩ := seated_choice.mp h
      refine seated_choice.mpr ⟨seats.choice here last.here fun some => .inl ?_, last, fun b within => ?_⟩
      · simpa only [ne_eq, List.set_eq_nil_iff] using some
      · rcases List.mem_or_eq_of_mem_set within with there | rfl
        · exact all b there
        · exact ⟨(all _ (List.mem_of_getElem? found)).1, hp⟩
  | otherwise =>
      obtain ⟨here, -, all⟩ := seated_choice.mp h
      exact seated_choice.mpr ⟨seats.choice here hp.here .inl, hp, all⟩

theorem seated_chosen {path : String} {target : Reference} (h : old.Seated P seat)
    (chosen : Chosen path target old new) : new.Seated P seat := by
  cases chosen with
  | check selected =>
      obtain ⟨label, -, selected⟩ := bind_eq_ok.mp selected
      cases selected
      exact seated_ruleCheck.mpr (seated_like seats h isCondition_ruleCheck isCondition_ruleCheck)
  | reference => exact seated_reference.mpr (seats.reference h.here)

theorem seated_rechecked {found : Value → Value → Finding → Prop} {tree tree' : Node} (h : tree.Seated P seat)
    (rechecked : Rechecked found tree tree') : tree'.Seated P seat := by
  induction rechecked with
  | refl => exact h
  | step _ wrote _ ih =>
      obtain ⟨steps, old, new, there, reviews, replaced⟩ := writeReview?_eq wrote
      have was := h.find there
      refine ih (h.replaced seats.alike seats.several there ?_ ?_ replaced)
      · cases reviews <;> rfl
      · cases reviews with
        | reference => exact seated_reference.mpr (seats.reference was.here)
        | check => exact seated_ruleCheck.mpr (seated_like seats was isCondition_ruleCheck isCondition_ruleCheck)

end Seats

end Node

end RuleEditor
