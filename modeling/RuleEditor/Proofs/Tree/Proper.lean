import RuleEditor.Proofs.Tree.Grafting
import RuleEditor.Proofs.Tree.Sorts
import RuleEditor.Review

/-!
# Proper trees

In a proper tree, whatever stands for an expression declares a type, and operators can be looked up. That is all
that it takes to type the chains around a place anew: a proper node can be woven into every place of a proper tree,
and leaves it proper.
-/
namespace RuleEditor

namespace Node

/-- What a seat asks of a node. An expression or an operand declares a type, a right side does or is empty or a list,
and nowhere else stands a list. -/
def Suits (node : Node) : Seat → Prop
  | .expression | .operand => ∃ type, node.type = .ok type
  | .right => node = .absent ∨ (∃ items, node = .several items) ∨ ∃ type, node.type = .ok type
  | .condition | .choice => ∀ items, node ≠ .several items

structure Proper (seat : Seat) (node : Node) : Prop where
  suits : node.Suits seat
  keyed : node.Keyed

variable {numeric : List String} {seat : Seat} {step : Step} {steps : List Step} {old new node mid node' : Node}

/-- What declares a type suits every seat. -/
theorem suits_of_type (h : ∃ type, node.type = .ok type) (seat : Seat) : node.Suits seat := by
  cases seat with
  | expression | operand => exact h
  | right => exact .inr (.inr h)
  | condition | choice =>
      rintro items rfl
      obtain ⟨_, no⟩ := h
      cases no

theorem type_of_operands (h : node.Suits seat.operands) : ∃ type, node.type = .ok type := by
  cases seat <;> exact h

/-- A choice suits a seat by its last result alone. -/
theorem suits_choice {branches branches' : List (Branch Node)} {otherwise : Node} {label label' : ResultLabel}
    (h : (Node.choice branches otherwise label).Suits seat) : (Node.choice branches' otherwise label').Suits seat := by
  cases seat with
  | expression | operand => exact h
  | right =>
      rcases h with no | ⟨_, no⟩ | typed
      · cases no
      · cases no
      · exact .inr (.inr typed)
  | condition | choice => exact fun _ => nofun

theorem Proper.slot (slot : Slot step old new node node') (h : node.Proper seat) (hp : new.Proper (seat.after step)) :
    node'.Proper seat := by
  cases slot with
  | condition | result => exact ⟨suits_choice h.suits, h.keyed⟩
  | otherwise =>
      refine ⟨suits_of_type ?_ seat, h.keyed⟩
      exact hp.suits
  | child | left | right | rightItem | operand | argument => exact ⟨suits_of_type ⟨_, rfl⟩ seat, h.keyed⟩

theorem Proper.settled (hs : mid.reinferAt numeric [] = .ok node') (h : mid.Proper seat) : node'.Proper seat := by
  rcases settled_eq hs with rfl | ⟨_, _, _, _, rfl, rfl⟩
  · exact h
  · exact ⟨suits_of_type ⟨_, rfl⟩ seat, h.keyed⟩

theorem Seated.infer_eq_ok {type : Value} {operands : List Node} {operators : List Value}
    (h : (Node.chain type operands operators).Seated Proper seat) (numeric : List String) :
    ∃ inferred, Typing.infer numeric operands operators = .ok inferred := by
  obtain ⟨here, inside⟩ := seated_chain.mp h
  exact infer_of_types numeric (fun operand within => type_of_operands (inside operand within).here.suits) here.keyed

theorem Seated.settles (h : node.Seated Proper seat) (numeric : List String) :
    ∃ node', node.reinferAt numeric [] = .ok node' := by
  cases node with
  | chain type operands operators =>
      obtain ⟨inferred, known⟩ := h.infer_eq_ok numeric
      simp only [reinferAt, Node.find, ok_bind, known]
      split <;> exact ⟨_, rfl⟩
  | _ => exact ⟨_, rfl⟩

/-- Lists of operands stand on right sides. -/
theorem proper_several (items : List Node) : (Node.several items).Proper .right := ⟨.inr (.inl ⟨items, rfl⟩), nofun⟩

/-- A proper node can be woven into each place of a proper tree, and the tree stays proper. -/
theorem Seated.weaves (h : node.Seated Proper seat) (hf : node.find steps = .ok old)
    (hp : new.Seated Proper (seat.along steps)) (numeric : List String) :
    ∃ node', weave numeric new steps node = .ok node' ∧ node'.Seated Proper seat := by
  induction steps generalizing node seat with
  | nil => exact ⟨new, rfl, hp⟩
  | cons step rest ih =>
      obtain ⟨child, stands, hf⟩ := bind_eq_ok.mp hf
      obtain ⟨_, slot⟩ := slot_of_child stands child
      obtain ⟨changed, below, seated⟩ := ih (h.slot_old slot) hf hp
      obtain ⟨mid, slot⟩ := slot_of_child stands changed
      have filled := Seated.slot_new (Proper.slot slot h.here seated.here) proper_several h seated slot
      obtain ⟨node', settled⟩ := filled.settles numeric
      refine ⟨node', weave_cons.mpr ⟨child, changed, mid, below, slot, settled⟩, ?_⟩
      exact Seated.slot_settled (filled.here.settled settled) proper_several h seated slot settled

/-- Labels of results make no difference. -/
theorem Seated.relabelled (h : node.Seated Proper seat) (change : List Step → ResultLabel → ResultLabel) :
    (node.relabelled change).Seated Proper seat := by
  cases node with
  | choice branches otherwise label =>
      obtain ⟨here, last, all⟩ := seated_choice.mp h
      refine seated_choice.mpr ⟨⟨suits_choice here.suits, here.keyed⟩, last, fun b within => ?_⟩
      obtain ⟨i, inside, rfl⟩ := List.mem_mapIdx.mp within
      exact all branches[i] (List.getElem_mem inside)
  | _ => exact h

/-- A selected rule is proper wherever a reference may stand. -/
theorem proper_target (h : node.target?.isSome) (seat : Seat) : node.Seated Proper seat := by
  cases node with
  | reference r => exact seated_reference.mpr ⟨suits_of_type ⟨_, rfl⟩ seat, nofun⟩
  | ruleCheck name r => exact seated_ruleCheck.mpr ⟨suits_of_type ⟨_, rfl⟩ seat, nofun⟩
  | _ => cases h

/-- In a proper tree the left sides of comparisons declare a type. -/
theorem Seated.leftsTyped (h : node.Seated Proper seat) : node.LeftsDeclared :=
  fun _ _ _ _ _ found => (seated_comparison.mp (h.find found)).2.1.here.suits

theorem Seated.evaluates (h : node.Seated Proper seat) (hl : ∀ items, node ≠ .several items) (form : Option Form) :
    ∃ type, Typing.ofDefinition form node = .ok type := by
  have expression {e : Node} {seat : Seat} (h : e.Seated Proper seat) (typed : ∃ type, e.type = .ok type) :
      ∃ type, Typing.ofExpression e = .ok type := by
    unfold Typing.ofExpression
    split
    · exact h.infer_eq_ok _
    · exact typed
  unfold Typing.ofDefinition
  split
  · exact ⟨_, rfl⟩
  · exact ⟨_, rfl⟩
  · exact ⟨_, rfl⟩
  · exact ⟨_, rfl⟩
  · split
    · exact ⟨_, rfl⟩
    · exact expression (seated_choice.mp h).2.1 (seated_choice.mp h).2.1.here.suits
  · rename_i absent comparison group check choice
    split
    · exact ⟨_, rfl⟩
    · refine expression h ?_
      cases node with
      | absent => exact absurd rfl absent
      | several items => exact absurd rfl (hl items)
      | choice branches otherwise label => exact absurd rfl (choice _ _ _)
      | _ => exact ⟨_, rfl⟩

end Node

/-- A reference can be grafted in the place of any reference of a proper tree, and the tree stays proper. -/
theorem Graft.onto_proper {seat : Seat} {g : Graft} {tree old : Node} (h : tree.Seated Node.Proper seat)
    (hf : tree.find g.steps = .ok old) (ht : g.new.target?.isSome) (numeric : List String) :
    ∃ tree', g.onto numeric tree = .ok tree' ∧ tree'.Seated Node.Proper seat := by
  obtain ⟨woven, put, proper⟩ := h.weaves hf (Node.proper_target ht _) numeric
  exact ⟨_, Graft.onto_eq_ok.mpr ⟨old, woven, hf, put, rfl⟩, proper.relabelled _⟩

end RuleEditor
