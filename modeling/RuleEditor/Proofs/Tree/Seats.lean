import RuleEditor.Proofs.Tree.Weaving

/-!
# Seats

What may stand somewhere in a definition depends on what the place is for, its seat: expressions, conditions, the
right side of a comparison. A tree is seated if each of its nodes has a property that depends on its seat. A node
that is woven into a seated tree leaves it seated, if the node is seated at the place that it comes to.
-/
namespace RuleEditor

/-- What a place in a definition is for. -/
inductive Seat where
  | expression
  | condition
  | choice
  /-- The whole right side of a comparison. -/
  | right
  /-- An operand on the right side, one of several or one of a chain. -/
  | operand
deriving DecidableEq

namespace Seat

/-- The seat of the definition of a rule. -/
def ofForm : Form → Seat
  | .condition => .condition
  | .choice => .choice
  | .expression => .expression

/-- The seat of the operands of a chain. -/
def operands : Seat → Seat
  | .right | .operand => .operand
  | _ => .expression

/-- The seat that a step leads to. -/
def after (seat : Seat) : Step → Seat
  | .child _ | .condition _ => .condition
  | .operand _ => seat.operands
  | .rightItem _ => .operand
  | .right => .right
  | .result _ | .otherwise | .left | .argument _ => .expression

/-- The seat that some steps lead to. -/
def along (seat : Seat) (steps : List Step) : Seat := steps.foldl after seat

@[simp] theorem operands_operands (seat : Seat) : seat.operands.operands = seat.operands := by
  cases seat <;> rfl

end Seat

namespace Node

/-- The nodes directly inside a node, with their seats. -/
def parts (seat : Seat) : Node → List (Seat × Node)
  | .several items => items.map fun item => (.operand, item)
  | .call _ _ arguments => arguments.map fun a => (.expression, a.value)
  | .chain _ operands _ => operands.map fun operand => (seat.operands, operand)
  | .comparison _ left _ right => [(.expression, left), (.right, right)]
  | .group _ children _ _ => children.map fun child => (.condition, child)
  | .choice branches otherwise _ =>
    (.expression, otherwise) :: branches.flatMap fun b => [(.condition, b.condition), (.expression, b.result)]
  | .absent | .literal .. | .field .. | .reference _ | .ruleCheck .. => []

/-- Every node of the tree has the property at its own seat. -/
inductive Seated (P : Seat → Node → Prop) : Seat → Node → Prop where
  | intro {seat : Seat} {node : Node} : P seat node → (∀ part ∈ node.parts seat, Seated P part.1 part.2) →
      Seated P seat node

section Constructors

variable {P : Seat → Node → Prop} {seat : Seat} {type name operator : Value} {items operands children : List Node}
  {arguments : List (Argument Node)} {operators : List Value} {left right otherwise : Node}
  {branches : List (Branch Node)} {conjunction : Conjunction} {negated : Bool} {label : ResultLabel}
  {target : Reference}

theorem seated_iff {node : Node} :
    node.Seated P seat ↔ P seat node ∧ ∀ part ∈ node.parts seat, part.2.Seated P part.1 := by
  constructor
  · rintro ⟨here, inside⟩
    exact ⟨here, inside⟩
  · rintro ⟨here, inside⟩
    exact .intro here inside

theorem Seated.here {node : Node} (h : node.Seated P seat) : P seat node := (seated_iff.mp h).1

theorem Seated.inside {node : Node} (h : node.Seated P seat) : ∀ part ∈ node.parts seat, part.2.Seated P part.1 :=
  (seated_iff.mp h).2

@[simp] theorem seated_absent : Node.absent.Seated P seat ↔ P seat .absent := by
  rw [seated_iff]
  simp [parts]

@[simp] theorem seated_literal {value : Value} :
    (Node.literal type value).Seated P seat ↔ P seat (.literal type value) := by
  rw [seated_iff]
  simp [parts]

@[simp] theorem seated_field {path : Value} : (Node.field type path).Seated P seat ↔ P seat (.field type path) := by
  rw [seated_iff]
  simp [parts]

@[simp] theorem seated_reference : (Node.reference target).Seated P seat ↔ P seat (.reference target) := by
  rw [seated_iff]
  simp [parts]

@[simp] theorem seated_ruleCheck : (Node.ruleCheck name target).Seated P seat ↔ P seat (.ruleCheck name target) := by
  rw [seated_iff]
  simp [parts]

theorem seated_several : (Node.several items).Seated P seat ↔
    P seat (.several items) ∧ ∀ item ∈ items, item.Seated P .operand := by
  rw [seated_iff]
  simp [parts]

theorem seated_call : (Node.call type name arguments).Seated P seat ↔
    P seat (.call type name arguments) ∧ ∀ a ∈ arguments, a.value.Seated P .expression := by
  rw [seated_iff]
  simp [parts]

theorem seated_chain : (Node.chain type operands operators).Seated P seat ↔
    P seat (.chain type operands operators) ∧ ∀ operand ∈ operands, operand.Seated P seat.operands := by
  rw [seated_iff]
  simp [parts]

theorem seated_comparison : (Node.comparison name left operator right).Seated P seat ↔
    P seat (.comparison name left operator right) ∧ left.Seated P .expression ∧ right.Seated P .right := by
  rw [seated_iff]
  simp [parts]

theorem seated_group : (Node.group name children conjunction negated).Seated P seat ↔
    P seat (.group name children conjunction negated) ∧ ∀ child ∈ children, child.Seated P .condition := by
  rw [seated_iff]
  simp [parts]

theorem seated_choice : (Node.choice branches otherwise label).Seated P seat ↔
    P seat (.choice branches otherwise label) ∧ otherwise.Seated P .expression ∧
      ∀ b ∈ branches, b.condition.Seated P .condition ∧ b.result.Seated P .expression := by
  rw [seated_iff]
  simp only [parts, List.mem_cons, forall_eq_or_imp, List.mem_flatMap, forall_exists_index, and_imp,
    List.not_mem_nil, or_false]
  refine and_congr_right fun _ => and_congr_right fun _ => ⟨fun all b within => ?_, fun all part b within one => ?_⟩
  · exact ⟨all _ b within (.inl rfl), all _ b within (.inr rfl)⟩
  · rcases one with rfl | rfl
    · exact (all b within).1
    · exact (all b within).2

end Constructors

variable {P : Seat → Node → Prop} {seat seat' : Seat} {numeric : List String} {old new node node' : Node} {step : Step}
  {steps : List Step}

/-- What is inside a node depends on its seat only if it is a chain, and then on the seat of the operands. -/
theorem parts_congr (h : seat.operands = seat'.operands) (node : Node) : node.parts seat = node.parts seat' := by
  cases node with
  | chain => simp only [parts, h]
  | _ => rfl

/-- A tree may move to another seat if the node itself may, and if the operands of a chain have the same seats. -/
theorem Seated.move (h : node.Seated P seat) (hs : seat.operands = seat'.operands) (hh : P seat' node) :
    node.Seated P seat' := by
  rw [seated_iff, parts_congr hs.symm]
  exact ⟨hh, h.inside⟩

theorem map_parts (seat : Seat) (node : Node) : (node.parts seat).map Prod.snd = node.inner := by
  cases node <;> simp [parts, inner, List.map_flatMap, Function.comp_def]

/-- What holds of all nodes, wherever they stand, makes every tree seated. -/
theorem Seated.of_everywhere {Q : Node → Prop} (hw : ∀ seat node, Q node → P seat node) (h : node.Everywhere Q)
    (seat : Seat) : node.Seated P seat := by
  induction h generalizing seat with
  | @intro node here _ ih =>
      refine .intro (hw seat node here) fun part within => ih part.2 ?_ part.1
      rw [← map_parts seat]
      exact List.mem_map_of_mem within

theorem Seated.everywhere {Q : Node → Prop} (hw : ∀ seat node, P seat node → Q node) (h : node.Seated P seat) :
    node.Everywhere Q := by
  induction h with
  | @intro seat node here _ ih =>
      refine .intro (hw seat node here) fun part within => ?_
      rw [← map_parts seat] at within
      obtain ⟨seated, there, rfl⟩ := List.mem_map.mp within
      exact ih seated there

theorem Seated.mono {Q : Seat → Node → Prop} (hw : ∀ seat node, P seat node → Q seat node)
    (h : node.Seated P seat) : node.Seated Q seat := by
  induction h with
  | intro here _ ih => exact .intro (hw _ _ here) ih

theorem Seated.and_everywhere {Q : Node → Prop} (h : node.Seated P seat) (ha : node.Everywhere Q) :
    node.Seated (fun seat node => P seat node ∧ Q node) seat := by
  induction h with
  | @intro seat node here _ ih =>
      refine .intro ⟨here, ha.here⟩ fun part within => ih part within (ha.inside part.2 ?_)
      rw [← map_parts seat]
      exact List.mem_map_of_mem within

/-! ### Slots -/

theorem Seated.slot_old (h : node.Seated P seat) (slot : Slot step old new node node') :
    old.Seated P (seat.after step) := by
  cases slot with
  | condition found => exact ((seated_choice.mp h).2.2 _ (List.mem_of_getElem? found)).1
  | result found => exact ((seated_choice.mp h).2.2 _ (List.mem_of_getElem? found)).2
  | otherwise => exact (seated_choice.mp h).2.1
  | child found => exact (seated_group.mp h).2 _ (List.mem_of_getElem? found)
  | left => exact (seated_comparison.mp h).2.1
  | right => exact (seated_comparison.mp h).2.2
  | rightItem found => exact (seated_several.mp (seated_comparison.mp h).2.2).2 _ (List.mem_of_getElem? found)
  | operand found => exact (seated_chain.mp h).2 _ (List.mem_of_getElem? found)
  | argument found => exact (seated_call.mp h).2 _ (List.mem_of_getElem? found)

theorem seated_set {items : List Node} (h : ∀ item ∈ items, item.Seated P seat) (hp : new.Seated P seat) (i : Nat) :
    ∀ item ∈ items.set i new, item.Seated P seat := by
  intro item within
  rcases List.mem_or_eq_of_mem_set within with there | rfl
  · exact h item there
  · exact hp

theorem Seated.slot_new (hh : P seat node') (hs : ∀ items, P .right (.several items)) (h : node.Seated P seat)
    (hp : new.Seated P (seat.after step)) (slot : Slot step old new node node') : node'.Seated P seat := by
  cases slot with
  | condition found =>
      obtain ⟨-, last, all⟩ := seated_choice.mp h
      refine seated_choice.mpr ⟨hh, last, fun b within => ?_⟩
      rcases List.mem_or_eq_of_mem_set within with there | rfl
      · exact all b there
      · exact ⟨hp, (all _ (List.mem_of_getElem? found)).2⟩
  | result found =>
      obtain ⟨-, last, all⟩ := seated_choice.mp h
      refine seated_choice.mpr ⟨hh, last, fun b within => ?_⟩
      rcases List.mem_or_eq_of_mem_set within with there | rfl
      · exact all b there
      · exact ⟨(all _ (List.mem_of_getElem? found)).1, hp⟩
  | otherwise => exact seated_choice.mpr ⟨hh, hp, (seated_choice.mp h).2.2⟩
  | child found => exact seated_group.mpr ⟨hh, seated_set (seated_group.mp h).2 hp _⟩
  | left => exact seated_comparison.mpr ⟨hh, hp, (seated_comparison.mp h).2.2⟩
  | right => exact seated_comparison.mpr ⟨hh, (seated_comparison.mp h).2.1, hp⟩
  | rightItem found =>
      obtain ⟨-, left, right⟩ := seated_comparison.mp h
      have filled := seated_set (seated_several.mp right).2 hp
      exact seated_comparison.mpr ⟨hh, left, seated_several.mpr ⟨hs _, filled _⟩⟩
  | operand found => exact seated_chain.mpr ⟨hh, seated_set (seated_chain.mp h).2 hp _⟩
  | argument found =>
      refine seated_call.mpr ⟨hh, fun a within => ?_⟩
      rcases List.mem_or_eq_of_mem_set within with there | rfl
      · exact (seated_call.mp h).2 a there
      · exact hp

/-! ### Along several steps -/

theorem Seated.find (h : node.Seated P seat) (hf : node.find steps = .ok old) :
    old.Seated P (seat.along steps) := by
  induction steps generalizing node seat with
  | nil =>
      cases hf
      exact h
  | cons step rest ih =>
      obtain ⟨child, stands, hf⟩ := bind_eq_ok.mp hf
      obtain ⟨_, slot⟩ := slot_of_child stands child
      exact ih (h.slot_old slot) hf

/-- A slot is filled, and the node settles if it is a chain. -/
theorem Seated.slot_settled {mid : Node} (hh : P seat node') (hs : ∀ items, P .right (.several items))
    (h : node.Seated P seat) (hp : new.Seated P (seat.after step)) (slot : Slot step old new node mid)
    (he : mid.reinferAt numeric [] = .ok node') : node'.Seated P seat := by
  rcases settled_eq he with rfl | ⟨_, _, _, _, rfl, rfl⟩
  · exact Seated.slot_new hh hs h hp slot
  · cases slot with
    | operand found => exact seated_chain.mpr ⟨hh, seated_set (seated_chain.mp h).2 hp _⟩

/-- A tree stays seated when a node is woven in, if every node on the way keeps the property as its slot is filled
and, if it is a chain, as it settles. -/
theorem Seated.woven
    (hk : ∀ {seat step old new node mid node'}, Slot step old new node mid → mid.reinferAt numeric [] = .ok node' →
      P seat node → P (seat.after step) new → P seat node')
    (hs : ∀ items, P .right (.several items)) (h : node.Seated P seat) (hp : new.Seated P (seat.along steps))
    (hw : weave numeric new steps node = .ok node') : node'.Seated P seat := by
  induction steps generalizing node node' seat with
  | nil =>
      cases hw
      exact hp
  | cons step rest ih =>
      obtain ⟨old, changed, mid, below, slot, settled⟩ := weave_cons.mp hw
      have changedSeated := ih (h.slot_old slot) hp below
      exact Seated.slot_settled (hk slot settled h.here changedSeated.here) hs h changedSeated slot settled

theorem Slot.type_eq (slot : Slot step old new node node') (hs : new.type = old.type) : node'.type = node.type := by
  cases slot with
  | otherwise => exact hs
  | _ => rfl

/-- A tree stays seated when a node is put in the place of another one of the same type, as no chain settles then. -/
theorem Seated.replaced
    (hk : ∀ {seat step old new node node'}, Slot step old new node node' → new.type = old.type → P seat node →
      P (seat.after step) new → P seat node')
    (hs : ∀ items, P .right (.several items)) (h : node.Seated P seat) (hf : node.find steps = .ok old)
    (ha : new.type = old.type) (hp : new.Seated P (seat.along steps))
    (hr : Node.replace new steps node = .ok node') : node'.Seated P seat := by
  suffices node'.type = node.type ∧ node'.Seated P seat from this.2
  induction steps generalizing node node' seat with
  | nil =>
      cases hr
      cases hf
      exact ⟨ha, hp⟩
  | cons step rest ih =>
      obtain ⟨child, changed, below, slot⟩ := replace_cons.mp hr
      have foundBelow : child.find rest = .ok old := by
        simpa only [Node.find, slot.child_eq, ok_bind] using hf
      -- the induction carries that the types stay: what is inferred for a chain above depends on them
      obtain ⟨sameBelow, seatedBelow⟩ := ih (h.slot_old slot) foundBelow hp below
      have here := hk slot sameBelow h.here seatedBelow.here
      exact ⟨slot.type_eq sameBelow, Seated.slot_new here hs h seatedBelow slot⟩

end Node

end RuleEditor
