import RuleEditor.Proofs.Edit.Shapes
import RuleEditor.Proofs.Session.Rewrite
import RuleEditor.Proofs.Tree.Everywhere

/-!
# Intact trees

What every change of a definition keeps, said once: the proportions of chains and groups, if they are asked for,
and a property of all references that new and retyped references have as well.
-/
namespace RuleEditor

/-- A reference without a rule has the property. -/
def Unselected (Q : Reference → Prop) : Prop :=
  ∀ type version ruleType, Q { Reference.unselected type version with ruleType }

/-- A property of references that edits keep: a reference without a rule has it, and a type makes no difference. -/
structure Lasting (Q : Reference → Prop) : Prop where
  retyped : ∀ r type, Q r → Q { r with type }
  unselected : Unselected Q

theorem Unselected.fresh {Q : Reference → Prop} (h : Unselected Q) (type : Value) : Q (Fresh.reference type) :=
  h type (.int 1) .null

namespace Node

/-- The node itself, without its parts, has the right proportions. -/
def Proportioned : Node → Prop
  | .chain _ operands operators => 2 ≤ operands.length ∧ operators.length + 1 = operands.length
  | .group _ children _ _ => children ≠ []
  | _ => True

/-- Every reference in the tree has a property. -/
def EveryReference (Q : Reference → Prop) (node : Node) : Prop :=
  Everywhere (fun part => ∀ r, part.target? = some r → Q r) node

/-- Everywhere in the tree the proportions are right, if that is asked for, and all references have a property. -/
def Intact (strict : Prop) (Q : Reference → Prop) (node : Node) : Prop :=
  Everywhere (fun part => (strict → part.Proportioned) ∧ ∀ r, part.target? = some r → Q r) node

theorem everyReference_iff_intact {Q : Reference → Prop} {node : Node} :
    node.EveryReference Q ↔ node.Intact False Q :=
  ⟨fun h => h.mono fun _ here => ⟨False.elim, here⟩, fun h => h.mono fun _ here => here.2⟩

section Constructors

variable {strict : Prop} {Q : Reference → Prop} {type name operator : Value} {items operands children : List Node}
  {arguments : List (Argument Node)} {operators : List Value} {left right otherwise : Node}
  {branches : List (Branch Node)} {conjunction : Conjunction} {negated : Bool} {label : ResultLabel}
  {target : Reference}

theorem intact_iff {node : Node} : node.Intact strict Q ↔
    ((strict → node.Proportioned) ∧ ∀ r, node.target? = some r → Q r) ∧
      ∀ part ∈ node.inner, part.Intact strict Q :=
  ⟨fun h => ⟨h.here, h.inside⟩, fun h => .intro h.1 h.2⟩

@[simp] theorem intact_absent : Node.absent.Intact strict Q := by
  rw [intact_iff]
  simp [Proportioned, target?, inner]

@[simp] theorem intact_literal {value : Value} : (Node.literal type value).Intact strict Q := by
  rw [intact_iff]
  simp [Proportioned, target?, inner]

@[simp] theorem intact_field {path : Value} : (Node.field type path).Intact strict Q := by
  rw [intact_iff]
  simp [Proportioned, target?, inner]

@[simp] theorem intact_reference : (Node.reference target).Intact strict Q ↔ Q target := by
  rw [intact_iff]
  simp [Proportioned, target?, inner]

@[simp] theorem intact_ruleCheck : (Node.ruleCheck name target).Intact strict Q ↔ Q target := by
  rw [intact_iff]
  simp [Proportioned, target?, inner]

@[simp] theorem intact_several :
    (Node.several items).Intact strict Q ↔ ∀ item ∈ items, item.Intact strict Q := by
  rw [intact_iff]
  simp [Proportioned, target?, inner]

@[simp] theorem intact_call :
    (Node.call type name arguments).Intact strict Q ↔ ∀ a ∈ arguments, a.value.Intact strict Q := by
  rw [intact_iff]
  simp [Proportioned, target?, inner]

@[simp] theorem intact_chain : (Node.chain type operands operators).Intact strict Q ↔
    (strict → 2 ≤ operands.length ∧ operators.length + 1 = operands.length) ∧
      ∀ operand ∈ operands, operand.Intact strict Q := by
  rw [intact_iff]
  simp [Proportioned, target?, inner]

@[simp] theorem intact_comparison :
    (Node.comparison name left operator right).Intact strict Q ↔ left.Intact strict Q ∧ right.Intact strict Q := by
  rw [intact_iff]
  simp [Proportioned, target?, inner]

@[simp] theorem intact_group : (Node.group name children conjunction negated).Intact strict Q ↔
    (strict → children ≠ []) ∧ ∀ child ∈ children, child.Intact strict Q := by
  rw [intact_iff]
  simp [Proportioned, target?, inner]

@[simp] theorem intact_choice : (Node.choice branches otherwise label).Intact strict Q ↔
    otherwise.Intact strict Q ∧ ∀ b ∈ branches, b.condition.Intact strict Q ∧ b.result.Intact strict Q := by
  rw [intact_iff]
  simp only [Proportioned, target?, implies_true, true_and, reduceCtorEq, false_implies]
  exact Everywhere.choice_inside

end Constructors

variable {strict : Prop} {Q : Reference → Prop} {old new node node' : Node}

/-- Filling a slot leaves the proportions of a node. -/
theorem Slot.proportioned {step : Step} (slot : Slot step old new node node') (h : node.Proportioned) :
    node'.Proportioned := by
  cases slot <;> simp_all [Proportioned]

theorem Slot.target?_eq {step : Step} (slot : Slot step old new node node') : node'.target? = none := by
  cases slot <;> rfl

theorem intact_replace {steps : List Step} (h : node.Intact strict Q) (hp : new.Intact strict Q)
    (hr : Node.replace new steps node = .ok node') : node'.Intact strict Q := by
  refine Everywhere.replace ?_ ?_ h hp hr
  · intro step old new node node' slot here
    refine ⟨fun asked => slot.proportioned (here.1 asked), fun r no => ?_⟩
    rw [slot.target?_eq] at no
    cases no
  · exact fun items => ⟨fun _ => trivial, fun r no => by cases no⟩

theorem intact_find {steps : List Step} (h : node.Intact strict Q) (hf : node.find steps = .ok old) :
    old.Intact strict Q := Everywhere.find h hf

/-! ### Nodes that edits make -/

theorem intact_renamed {name : Value} (h : old.Intact strict Q) (hr : old.renamed name = .ok new) :
    new.Intact strict Q := by
  cases old <;> cases hr <;> simp_all

theorem intact_condition {c : Catalogue} {name : Value} (h : Fresh.condition c name = .ok node) :
    node.Intact strict Q := by
  obtain ⟨_, _, _, _, _, rfl⟩ := Fresh.condition_eq h
  simp

theorem intact_member {c : Catalogue} (h : Fresh.Member c node) : node.Intact strict Q := by
  cases h with
  | comparison made => exact intact_condition made
  | group some all =>
      refine intact_group.mpr ⟨fun _ => some, fun child within => ?_⟩
      obtain ⟨name, made⟩ := all child within
      exact intact_condition made

theorem intact_kindChange {c : Catalogue} {kind : Kind} (unselected : Unselected Q) (h : old.Intact strict Q)
    (hc : KindChange c kind old new) : new.Intact strict Q := by
  cases hc with
  | same => exact h
  | reference => exact intact_ruleCheck.mpr (unselected.fresh _)
  | comparison _ made => exact intact_condition made
  | lifted renamed => exact intact_renamed ((intact_group.mp h).2 _ List.mem_cons_self) renamed
  | group _ some all => exact intact_member (.group some all)
  | wrapped _ made => simpa using ⟨intact_comparison.mp h, intact_condition made⟩

mutual

/-- Retyping changes types only. -/
theorem intact_retyped {type : Value} (lasting : Lasting Q) : (e : Node) → {e' : Node} → e.Intact strict Q →
    e.retyped type = .ok e' → e'.Intact strict Q
  | .chain t operands operators, e', h, retyped => by
      obtain ⟨operands', below, made⟩ := bind_eq_ok.mp retyped
      cases made
      obtain ⟨length, all⟩ := intact_retypedOperands lasting operands (intact_chain.mp h).2 below
      exact intact_chain.mpr ⟨length ▸ (intact_chain.mp h).1, all⟩
  | .literal .., e', h, retyped => by
      cases retyped
      exact intact_literal
  | .field .., e', h, retyped => by
      cases retyped
      exact intact_field
  | .call .., e', h, retyped => by
      cases retyped
      exact intact_call.mpr (intact_call.mp h)
  | .reference .., e', h, retyped => by
      cases retyped
      exact intact_reference.mpr (lasting.retyped _ _ (intact_reference.mp h))
  | .absent, e', h, retyped | .several .., e', h, retyped | .comparison .., e', h, retyped
  | .group .., e', h, retyped | .ruleCheck .., e', h, retyped | .choice .., e', h, retyped => by
      cases retyped

theorem intact_retypedOperands {type : Value} (lasting : Lasting Q) : (operands : List Node) → {operands' : List Node} →
    (∀ operand ∈ operands, operand.Intact strict Q) → retypedOperands type operands = .ok operands' →
    operands'.length = operands.length ∧ ∀ operand ∈ operands', operand.Intact strict Q
  | [], operands', _, retyped => by
      cases retyped
      exact ⟨rfl, fun _ within => by cases within⟩
  | e :: rest, operands', h, retyped => by
      obtain ⟨e', first, retyped⟩ := bind_eq_ok.mp retyped
      obtain ⟨rest', below, made⟩ := bind_eq_ok.mp retyped
      cases made
      obtain ⟨here, others⟩ := List.forall_mem_cons.mp h
      obtain ⟨length, all⟩ := intact_retypedOperands lasting rest others below
      exact ⟨congrArg (· + 1) length, List.forall_mem_cons.mpr ⟨intact_retyped lasting e here first, all⟩⟩

end

theorem intact_ofNormal {numeric : List String} {joining : Option Joining} {operands : List Node}
    {operators : List Value} (h : ∀ operand ∈ operands, operand.Intact strict Q)
    (hm : Chain.ofNormal numeric joining operands operators = .ok node) : node.Intact strict Q := by
  match operands, hm with
  | [operand], hm =>
      cases hm
      exact h _ List.mem_cons_self
  | first :: second :: rest, hm =>
      obtain ⟨fitted, fits, hm⟩ := bind_eq_ok.mp hm
      obtain ⟨type, -, hm⟩ := bind_eq_ok.mp hm
      cases hm
      have length := Chain.length_fit fits
      refine intact_chain.mpr ⟨fun _ => ⟨by simp, ?_⟩, h⟩
      simp only [List.length_cons] at length ⊢
      omega

mutual

theorem intact_normalized {numeric : List String} {joining : Option Joining} : (e : Node) → {e' : Node} →
    e.Intact strict Q → e.normalized numeric joining = .ok e' → e'.Intact strict Q
  | .chain _ operands operators, e', old, h => by
      obtain ⟨operands', below, made⟩ := bind_eq_ok.mp h
      exact intact_ofNormal (intact_normalizedOperands operands (intact_chain.mp old).2 below) made
  | .call _ _ arguments, e', old, h => by
      obtain ⟨arguments', below, made⟩ := bind_eq_ok.mp h
      cases made
      exact intact_call.mpr (intact_normalizedArguments arguments (intact_call.mp old) below)
  | .literal .., e', old, h | .field .., e', old, h | .reference .., e', old, h => by
      cases h
      exact old
  | .absent, e', _, h | .several .., e', _, h | .comparison .., e', _, h | .group .., e', _, h
  | .ruleCheck .., e', _, h | .choice .., e', _, h => by cases h

theorem intact_normalizedOperands {numeric : List String} {joining : Option Joining} : (operands : List Node) →
    {operands' : List Node} → (∀ operand ∈ operands, operand.Intact strict Q) →
    normalizedOperands numeric joining operands = .ok operands' → ∀ operand ∈ operands', operand.Intact strict Q
  | [], operands', _, h => by
      cases h
      exact fun _ within => by cases within
  | e :: rest, operands', old, h => by
      obtain ⟨e', first, h⟩ := bind_eq_ok.mp h
      obtain ⟨rest', below, made⟩ := bind_eq_ok.mp h
      cases made
      obtain ⟨here, others⟩ := List.forall_mem_cons.mp old
      exact List.forall_mem_cons.mpr ⟨intact_normalized e here first, intact_normalizedOperands rest others below⟩

theorem intact_normalizedArguments {numeric : List String} {joining : Option Joining} :
    (arguments : List (Argument Node)) → {arguments' : List (Argument Node)} →
    (∀ a ∈ arguments, a.value.Intact strict Q) →
    normalizedArguments numeric joining arguments = .ok arguments' → ∀ a ∈ arguments', a.value.Intact strict Q
  | [], arguments', _, h => by
      cases h
      exact fun _ within => by cases within
  | ⟨name, value⟩ :: rest, arguments', old, h => by
      obtain ⟨value', first, h⟩ := bind_eq_ok.mp h
      obtain ⟨rest', below, made⟩ := bind_eq_ok.mp h
      cases made
      obtain ⟨here, others⟩ := List.forall_mem_cons.mp old
      exact List.forall_mem_cons.mpr ⟨intact_normalized value here first, intact_normalizedArguments rest others below⟩

end

/-! ### Comparisons -/

/-- The right side of another shape is made of old operands and new literals. -/
theorem intact_reshaped {c : Comparison} {oldArity newArity : Int} {right : Node} (h : c.right.Intact strict Q)
    (hm : c.reshaped oldArity newArity = .ok right) : right.Intact strict Q := by
  have fresh {operand : Node} (hm : c.freshOperand = .ok operand) : operand.Intact strict Q := by
    obtain ⟨t, v, rfl⟩ := Comparison.freshOperand_eq hm
    exact intact_literal
  have freshAll {count : Int} {operands : List Node} (hm : c.freshOperands count = .ok operands) :
      ∀ operand ∈ operands, operand.Intact strict Q := fun operand within => by
    obtain ⟨t, v, rfl⟩ := Comparison.freshOperands_eq hm operand within
    exact intact_literal
  unfold Comparison.reshaped at hm
  split at hm
  · cases hm
    exact intact_absent
  · split at hm
    · split at hm
      · exact fresh hm
      · rename_i same
        cases hm
        exact intact_several.mp (same ▸ h) _ List.mem_cons_self
      · exact fresh hm
      · cases hm
        exact h
    · split at hm
      · rename_i items same
        have all := intact_several.mp (same ▸ h)
        split at hm
        · cases hm
          exact intact_several.mpr fun item within => all item (List.mem_of_mem_take within)
        · obtain ⟨added, new, hm⟩ := bind_eq_ok.mp hm
          cases hm
          exact intact_several.mpr (List.forall_mem_append.mpr ⟨all, freshAll new⟩)
      · obtain ⟨added, new, hm⟩ := bind_eq_ok.mp hm
        cases hm
        exact intact_several.mpr (freshAll new)
      · split at hm
        · obtain ⟨added, new, hm⟩ := bind_eq_ok.mp hm
          cases hm
          exact intact_several.mpr (List.forall_mem_cons.mpr ⟨h, freshAll new⟩)
        · obtain ⟨added, new, hm⟩ := bind_eq_ok.mp hm
          cases hm
          exact intact_several.mpr (freshAll new)

theorem intact_followLeft {type : Value} {operand : Node} (lasting : Lasting Q) (h : operand.Intact strict Q)
    (hf : Comparison.followLeft type operand = .ok new) : new.Intact strict Q := by
  unfold Comparison.followLeft at hf
  split at hf
  · exact intact_retyped lasting _ h hf
  · obtain ⟨own, -, hf⟩ := bind_eq_ok.mp hf
    split at hf
    · cases hf
      exact h
    · exact intact_retyped lasting _ h hf

theorem intact_changeLeft {c c' : Comparison} {left : Node} (lasting : Lasting Q) (h : c.right.Intact strict Q)
    (hc : Comparison.changeLeft left c = .ok c') : c'.right.Intact strict Q := by
  obtain ⟨type, -, hc⟩ := bind_eq_ok.mp hc
  split at hc
  · cases hc
    exact h
  · rename_i items same
    obtain ⟨items', followed, hc⟩ := bind_eq_ok.mp hc
    cases hc
    refine intact_several.mpr fun item' within => ?_
    obtain ⟨item, there, followed⟩ := (mapM_eq_ok followed).2 item' within
    exact intact_followLeft lasting (intact_several.mp (same ▸ h) item there) followed
  · obtain ⟨right, followed, hc⟩ := bind_eq_ok.mp hc
    cases hc
    exact intact_followLeft lasting h followed

/-! ### Chains -/

theorem intact_wrap {numeric : List String} {operator : Value} {c : Chain} (h : old.Intact strict Q)
    (hw : Chain.wrap numeric operator old = .ok c) : c.node.Intact strict Q := by
  obtain ⟨own, t, v, type, -, -, rfl⟩ := Chain.wrap_eq hw
  exact intact_chain.mpr ⟨fun _ => ⟨Nat.le_refl 2, rfl⟩, by simpa using h⟩

theorem intact_insertOperand {numeric : List String} {operator : Value} {after : Int} {c c' : Chain}
    (h : c.node.Intact strict Q) (hi : Chain.insertOperand numeric operator after c = .ok c') :
    c'.node.Intact strict Q := by
  obtain ⟨proportions, all⟩ := intact_chain.mp h
  unfold Chain.insertOperand at hi
  split at hi
  · rename_i within
    obtain ⟨type, -, hi⟩ := bind_eq_ok.mp hi
    obtain ⟨added, made, hi⟩ := bind_eq_ok.mp hi
    obtain ⟨t, v, rfl⟩ := Fresh.literal_eq made
    obtain ⟨type, -, rfl⟩ := Chain.build_eq hi
    have place : after.toNat + 1 ≤ c.operands.length := by omega
    have gap : Index.gap c.operators.length after ≤ c.operators.length := Nat.min_le_right _ _
    refine intact_chain.mpr ⟨fun asked => ?_, fun operand there => ?_⟩
    · obtain ⟨enough, fits⟩ := proportions asked
      simp only [Index.insert, List.length_insertIdx, place, gap, if_true]
      omega
    · rcases (List.mem_insertIdx place).mp there with rfl | there
      · exact intact_literal
      · exact all operand there
  · cases hi

theorem intact_removeOperand {numeric : List String} {index : Int} {c : Chain} (h : c.node.Intact strict Q)
    (hr : Chain.removeOperand numeric index c = .ok new) : new.Intact strict Q := by
  obtain ⟨proportions, all⟩ := intact_chain.mp h
  have kept : ∀ operand ∈ c.operands.eraseIdx index.toNat, operand.Intact strict Q :=
    fun operand there => all operand (List.mem_of_mem_eraseIdx there)
  unfold Chain.removeOperand at hr
  split at hr
  · rename_i within
    obtain ⟨operators, without, hr⟩ := bind_eq_ok.mp hr
    split at hr
    · cases hr
    · rename_i operand alone
      exact intact_normalized operand (kept operand (alone ▸ List.mem_cons_self)) hr
    · rename_i operands none one
      obtain ⟨c', made, hr⟩ := bind_eq_ok.mp hr
      cases hr
      obtain ⟨type, -, rfl⟩ := Chain.build_eq made
      have several : 2 ≤ (c.operands.eraseIdx index.toNat).length := by
        rcases shape : c.operands.eraseIdx index.toNat with _ | ⟨operand, _ | ⟨next, rest⟩⟩
        · exact absurd shape none
        · exact absurd shape (one operand)
        · simp
      refine intact_chain.mpr ⟨fun asked => ?_, kept⟩
      obtain ⟨enough, fits⟩ := proportions asked
      exact ⟨several, Chain.fits_without (by omega) enough fits without⟩
  · cases hr

end Node

/-- The right sides stay intact of comparisons that are given another left operand. -/
def Scope.Leads (sc : Scope) (strict : Prop) (Q : Reference → Prop) : Prop :=
  ∀ ⦃c c' : Comparison⦄ ⦃left : Node⦄, sc.given left → Comparison.changeLeft left c = .ok c' →
    sc.dares (.lead c left) → c.node.Intact strict Q → c'.right.Intact strict Q

theorem Lasting.leads {sc : Scope} {strict : Prop} {Q : Reference → Prop} (lasting : Lasting Q) : sc.Leads strict Q :=
  fun _ _ _ _ changed _ h => Node.intact_changeLeft lasting (Node.intact_comparison.mp h).2 changed

namespace Node

variable {strict : Prop} {Q : Reference → Prop} {old new node node' : Node}

/-! ### Everything that is done to a definition -/

theorem intact_rewrite {sc : Scope} {catalogue : Catalogue} {numeric : List String} {path : String}
    {mark : Mark} (unselected : Unselected Q) (hl : sc.Leads strict Q)
    (hs : ∀ node, sc.given node → node.Intact strict Q)
    (h : old.Intact strict Q)
    (rewrite : Rewrite sc catalogue numeric path mark old new) : new.Intact strict Q := by
  cases rewrite with
  | kindChanged changed => exact intact_kindChange unselected h (changeKind_eq changed)
  | childAdded added =>
      obtain ⟨child, member, rfl⟩ := Group.addChild_eq added
      obtain ⟨-, all⟩ := intact_group.mp h
      exact intact_group.mpr ⟨by simp, List.forall_mem_append.mpr ⟨all, by simpa using intact_member member⟩⟩
  | groupAdded added =>
      obtain ⟨child, member, rfl⟩ := Group.addChildGroup_eq added
      obtain ⟨-, all⟩ := intact_group.mp h
      exact intact_group.mpr ⟨by simp, List.forall_mem_append.mpr ⟨all, by simpa using intact_member member⟩⟩
  | emptied made => exact intact_condition made
  | childRemoved removed =>
      obtain ⟨children, rfl, some, kept⟩ := Group.removeChild_eq removed
      exact intact_group.mpr ⟨fun _ => some, fun child within => (intact_group.mp h).2 child (kept child within)⟩
  | renamed renamed => exact intact_renamed h renamed
  | childRenamed found renamed updated =>
      obtain ⟨some, all⟩ := intact_group.mp h
      cases Group.updateChild_eq updated
      refine intact_group.mpr ⟨by simpa using some, ?_⟩
      exact Everywhere.set all (intact_renamed (all _ (List.mem_of_getElem? found)) renamed) _
  | conjunctionSet set =>
      obtain ⟨conjunction, -, set⟩ := bind_eq_ok.mp set
      split at set
      · cases set
        exact intact_group.mpr (intact_group.mp h)
      · cases set
  | negationToggled => exact intact_group.mpr (intact_group.mp h)
  | reordered moved =>
      obtain ⟨children, rfl, some, kept⟩ := Group.reorder_eq moved
      exact intact_group.mpr ⟨fun _ => some, fun child within => (intact_group.mp h).2 child (kept child within)⟩
  | operatorChanged changed =>
      obtain ⟨_, _, right, made, rfl⟩ := Comparison.changeOperator_eq changed
      obtain ⟨inLeft, inRight⟩ := intact_comparison.mp h
      exact intact_comparison.mpr ⟨inLeft, intact_reshaped inRight made⟩
  | @leftChanged c c' left given changed dares =>
      have right := hl given changed dares h
      rw [Comparison.changeLeft_eq changed]
      exact intact_comparison.mpr ⟨hs _ given, right⟩
  | rightAdded added =>
      rcases Comparison.addOperand_eq added with rfl | ⟨items, t, v, same, rfl⟩
      · exact h
      · obtain ⟨inLeft, inRight⟩ := intact_comparison.mp h
        rw [same, intact_several] at inRight
        exact intact_comparison.mpr ⟨inLeft, intact_several.mpr (List.forall_mem_append.mpr ⟨inRight, by simp⟩)⟩
  | rightRemoved removed =>
      rcases Comparison.removeOperand_eq removed with rfl | ⟨items, rest, same, kept, rfl⟩
      · exact h
      · obtain ⟨inLeft, inRight⟩ := intact_comparison.mp h
        rw [same, intact_several] at inRight
        exact intact_comparison.mpr ⟨inLeft, intact_several.mpr fun item within => inRight item (kept item within)⟩
  | replaced new => exact hs _ new
  | sourceChanged changed =>
      obtain ⟨type, -, changed⟩ := bind_eq_ok.mp changed
      split at changed
      · obtain ⟨t, v, rfl⟩ := Fresh.literal_eq changed
        exact intact_literal
      · cases changed
        exact intact_field
      · cases changed
        simp
      · cases changed
        exact intact_reference.mpr (unselected _ _ _)
      · cases changed
  | wrapped wrapped => exact intact_wrap h wrapped
  | operandInserted inserted => exact intact_insertOperand h inserted
  | operandRemoved removed => exact intact_removeOperand h removed
  | operatorUpdated updated =>
      obtain ⟨type, operators, same, -, -, rfl⟩ := Chain.updateOperator_eq updated
      obtain ⟨proportions, all⟩ := intact_chain.mp h
      exact intact_chain.mpr ⟨fun asked => same.symm ▸ proportions asked, all⟩
  | checkCleared cleared =>
      obtain ⟨label, -, cleared⟩ := bind_eq_ok.mp cleared
      cases cleared
      exact intact_ruleCheck.mpr (unselected _ _ _)
  | referenceCleared => exact intact_reference.mpr (unselected _ _ _)

theorem intact_recast {sc : Scope} {catalogue : Catalogue} {mark : Mark} {c c' : Choice}
    (unselected : Unselected Q) (h : c.node.Intact strict Q) (recast : Recast sc catalogue mark c c') :
    c'.node.Intact strict Q := by
  obtain ⟨last, all⟩ := intact_choice.mp h
  have edited {i : Nat} {b : Branch Node} (put : b.condition.Intact strict Q ∧ b.result.Intact strict Q) :
      (Choice.node { c with branches := c.branches.set i b }).Intact strict Q := by
    refine intact_choice.mpr ⟨last, fun b' within => ?_⟩
    rcases List.mem_or_eq_of_mem_set within with there | rfl
    · exact all b' there
    · exact put
  cases recast with
  | added added =>
      obtain ⟨name, condition, t, v, made, rfl⟩ := Choice.addBranch_eq added
      refine intact_choice.mpr ⟨last, List.forall_mem_append.mpr ⟨all, ?_⟩⟩
      simpa using intact_condition made
  | removed removed =>
      obtain ⟨i, rfl⟩ := Choice.removeBranch_eq removed
      exact intact_choice.mpr ⟨last, fun b within => all b (List.mem_of_mem_eraseIdx within)⟩
  | kindChanged _ changed =>
      obtain ⟨i, branch, condition, _, _, -, here, turned, rfl⟩ := Choice.changeConditionKind_eq changed
      obtain ⟨inCondition, inResult⟩ := all _ (List.mem_of_getElem? here)
      exact edited ⟨intact_kindChange unselected inCondition (changeKind_eq turned), inResult⟩
  | resultLabelled labelled =>
      obtain ⟨i, branch, label, here, rfl⟩ := Choice.setResultLabel_eq labelled
      exact edited (b := { branch with label }) (all branch (List.mem_of_getElem? here))
  | otherwiseLabelled => exact intact_choice.mpr ⟨last, all⟩

theorem intact_reinferUp {numeric : List String} {steps : List Step} {k : Nat} (h : node.Intact strict Q)
    (hi : node.reinferUp numeric steps k = .ok node') : node'.Intact strict Q := by
  induction k generalizing node with
  | zero =>
      cases hi
      exact h
  | succ k ih =>
      obtain ⟨once, here, hi⟩ := bind_eq_ok.mp hi
      refine ih ?_ hi
      obtain ⟨inside, found, here⟩ := bind_eq_ok.mp here
      split at here
      · obtain ⟨type, -, here⟩ := bind_eq_ok.mp here
        split at here
        · cases here
          exact h
        · exact intact_replace h (intact_chain.mpr (intact_chain.mp (intact_find h found))) here
      · cases here
        exact h

theorem intact_placed {numeric : List String} {steps : List Step} {tree tree' : Node} (h : tree.Intact strict Q)
    (hp : new.Intact strict Q) (placed : Placed numeric new steps tree tree') : tree'.Intact strict Q := by
  cases placed with
  | put replaced inferred => exact intact_reinferUp (intact_replace h hp replaced) inferred
  | result set =>
      obtain ⟨i, branch, label, -, here, rfl⟩ := Choice.setResult_eq set
      obtain ⟨last, all⟩ := intact_choice.mp h
      refine intact_choice.mpr ⟨last, fun b within => ?_⟩
      rcases List.mem_or_eq_of_mem_set within with there | rfl
      · exact all b there
      · exact ⟨(all _ (List.mem_of_getElem? here)).1, hp⟩
  | otherwise => exact intact_choice.mpr ⟨hp, (intact_choice.mp h).2⟩

theorem intact_chosen {path : String} {target : Reference} (h : Q target) (chosen : Chosen path target old new) :
    new.Intact strict Q := by
  cases chosen with
  | check selected =>
      obtain ⟨label, -, selected⟩ := bind_eq_ok.mp selected
      cases selected
      exact intact_ruleCheck.mpr h
  | reference => exact intact_reference.mpr h

/-- What a check writes is intact if findings may be written beside references to the rules they are about. -/
theorem intact_rechecked {found : Value → Value → Finding → Prop} {tree tree' : Node} (h : tree.Intact strict Q)
    (hr : ∀ live target f, Q live → live.sameTarget target = true → found target.uuid target.version f →
      Q (live.reviewed f))
    (rechecked : Rechecked found tree tree') : tree'.Intact strict Q := by
  induction rechecked with
  | refl => exact h
  | step finding wrote _ ih =>
      obtain ⟨steps, old, new, there, reviews, replaced⟩ := writeReview?_eq wrote
      have old := intact_find h there
      refine ih (intact_replace h ?_ replaced)
      cases reviews with
      | reference same => exact intact_reference.mpr (hr _ _ _ (intact_reference.mp old) same finding)
      | check same => exact intact_ruleCheck.mpr (hr _ _ _ (intact_ruleCheck.mp old) same finding)

end Node

end RuleEditor
