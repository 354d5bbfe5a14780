import RuleEditor.Proofs.Tree.Typed
import RuleEditor.Session.Basic

/-!
# Weaving nodes into a tree

To put a node in its place and to infer the types of the chains around it anew is the same as to go down to the
place once and to settle each chain on the way back. In well-typed trees, nodes that are woven into places apart
from each other may come in any order.
-/
namespace RuleEditor

/-- The ways part before one of them ends. -/
inductive Apart : List Step → List Step → Prop where
  | fork {a b : Step} {p q : List Step} : ¬ a.Meets b → Apart (a :: p) (b :: q)
  | along {a : Step} {p q : List Step} : Apart p q → Apart (a :: p) (a :: q)

theorem Apart.symm {p q : List Step} (h : Apart p q) : Apart q p := by
  induction h with
  | fork parts => exact .fork fun meets => parts meets.symm
  | along _ ih => exact .along ih

theorem Step.meets_self (a : Step) : a.Meets a := by
  cases a <;> rfl

theorem Apart.ne {p q : List Step} (h : Apart p q) : p ≠ q := by
  induction h with
  | fork parts =>
      rintro ⟨⟩
      exact parts (Step.meets_self _)
  | along _ ih =>
      rintro ⟨⟩
      exact ih rfl

theorem Apart.ne_nil {p q : List Step} (h : Apart p q) : q ≠ [] := by
  cases h <;> nofun

namespace Node

variable {tree a b : Node} {p q : List Step}

theorem not_find_below_target {step : Step} (h : tree.target?.isSome) : tree.find (step :: p) ≠ .ok a := by
  intro found
  obtain ⟨child, stands, -⟩ := bind_eq_ok.mp found
  cases tree with
  | reference target | ruleCheck name target => cases stands
  | _ => cases h

/-- No reference is the right side of a comparison with several operands there. -/
theorem not_find_beside {i : Nat} (hf : tree.find (.right :: p) = .ok a) (hi : a.target?.isSome) :
    tree.find (.rightItem i :: q) ≠ .ok b := by
  intro found'
  obtain ⟨child', stands', -⟩ := bind_eq_ok.mp found'
  obtain ⟨child, stands, below⟩ := bind_eq_ok.mp hf
  cases tree with
  | comparison name left operator right =>
      cases stands
      simp only [Node.child] at stands'
      split at stands'
      · cases p with
        | nil =>
            cases below
            cases hi
        | cons step p =>
            obtain ⟨_, stands, -⟩ := bind_eq_ok.mp below
            cases stands
      · cases stands'
  | _ => cases stands

/-- Two references in a tree stand in places apart from each other. -/
theorem apart_of_targets (hd : p ≠ q) (hf : tree.find p = .ok a) (hf' : tree.find q = .ok b)
    (hh : a.target?.isSome) (ht : b.target?.isSome) : Apart p q := by
  induction p generalizing q tree with
  | nil =>
      cases hf
      cases q with
      | nil => exact absurd rfl hd
      | cons step rest => exact absurd hf' (not_find_below_target hh)
  | cons step p ih =>
      cases q with
      | nil =>
          cases hf'
          exact absurd hf (not_find_below_target ht)
      | cons other q =>
          by_cases same : step = other
          · subst same
            obtain ⟨child, stands, below⟩ := bind_eq_ok.mp hf
            obtain ⟨child', stands', below'⟩ := bind_eq_ok.mp hf'
            cases stands.symm.trans stands'
            exact .along (ih (fun same => hd (congrArg (step :: ·) same)) below below')
          · refine .fork fun meets => ?_
            cases step with
            | right =>
                cases other with
                | rightItem i => exact not_find_beside hf hh hf'
                | _ => exact same meets
            | rightItem i =>
                cases other with
                | right => exact not_find_beside hf' ht hf
                | _ => exact same meets
            | _ => cases other <;> exact same meets

end Node

namespace Node

variable {numeric : List String} {old new node node' child changed tree tree' a b a' : Node} {step other : Step}
  {steps p q : List Step}

/-! ### Settling a chain -/

/-- The node without the type of a chain. -/
def untyped : Node → Node
  | .chain _ operands operators => .chain .null operands operators
  | node => node

/-- A chain settles with the inferred type, whatever type it had. -/
theorem settled_chain (numeric : List String) {type : Value} {operands : List Node} {operators : List Value}
    (typeable : (Node.chain type operands operators).Typeable) :
    ∃ inferred, inferred.Textual ∧
      (Node.chain type operands operators).reinferAt numeric [] = .ok (.chain inferred operands operators) ∧
      Typing.infer numeric operands operators = .ok inferred := by
  obtain ⟨textual, typed, keys⟩ := typeable
  obtain ⟨inferred, known, text⟩ := infer_eq_ok numeric typed keys
  refine ⟨inferred, text, ?_, known⟩
  simp only [reinferAt, find, ok_bind, known]
  split
  · rename_i same
    rw [text.eq_of_same textual same]
    rfl
  · rfl

theorem settles (numeric : List String) (typeable : node.Typeable) :
    ∃ node', node.reinferAt numeric [] = .ok node' := by
  cases node with
  | chain type operands operators =>
      obtain ⟨inferred, -, settled, -⟩ := settled_chain numeric typeable
      exact ⟨_, settled⟩
  | _ => exact ⟨_, rfl⟩

theorem settled_untyped (h : node.reinferAt numeric [] = .ok node') : node'.untyped = node.untyped := by
  cases node with
  | chain type operands operators =>
      simp only [reinferAt, find, ok_bind] at h
      obtain ⟨inferred, -, h⟩ := bind_eq_ok.mp h
      split at h <;> cases h <;> rfl
  | _ =>
      cases h
      rfl

/-- Settling changes nothing but the type of a chain. -/
theorem settled_eq (h : node.reinferAt numeric [] = .ok node') :
    node' = node ∨ ∃ type type' operands operators,
      node = .chain type operands operators ∧ node' = .chain type' operands operators := by
  have same := settled_untyped h
  cases node with
  | chain =>
      cases node' with
      | chain =>
          cases same
          exact .inr ⟨_, _, _, _, rfl, rfl⟩
      | _ => cases same
  | _ =>
      cases h
      exact .inl rfl

theorem settled_unique (numeric : List String) (ha : a.Typeable) (hb : b.Typeable) (hs : a.untyped = b.untyped) :
    a.reinferAt numeric [] = b.reinferAt numeric [] := by
  cases a with
  | chain type operands operators =>
      cases b with
      | chain type' operands' operators' =>
          cases hs
          obtain ⟨inferred, -, settled, known⟩ := settled_chain numeric ha
          obtain ⟨inferred', -, settled', known'⟩ := settled_chain numeric hb
          cases known.symm.trans known'
          rw [settled, settled']
      | _ => cases hs
  | _ =>
      cases b with
      | chain type' operands' operators' => cases hs
      | _ => cases hs <;> rfl

theorem typeable_settled (typeable : node.Typeable) (hs : node.reinferAt numeric [] = .ok node') :
    node'.Typeable ∧ (node.Typed → node'.Typed) := by
  cases node with
  | chain type operands operators =>
      obtain ⟨inferred, text, same, -⟩ := settled_chain numeric typeable
      cases hs.symm.trans same
      exact ⟨⟨text, typeable.2⟩, fun _ => ⟨inferred, rfl, text⟩⟩
  | _ =>
      cases hs
      exact ⟨typeable, id⟩

theorem child_untyped (node : Node) (step : Step) : node.untyped.child step = node.child step := by
  cases node <;> rfl

theorem inner_untyped (node : Node) : node.untyped.inner = node.inner := by
  cases node <;> rfl

theorem child_settled (h : node.reinferAt numeric [] = .ok node') (step : Step) :
    node'.child step = node.child step := by
  rw [← child_untyped, settled_untyped h, child_untyped]

theorem inner_settled (h : node.reinferAt numeric [] = .ok node') : node'.inner = node.inner := by
  rw [← inner_untyped, settled_untyped h, inner_untyped]

/-! ### Slots -/

namespace Slot

/-- The type of a chain makes no difference to its slots. -/
theorem untyped (slot : Slot step old new node node') (hs : a.untyped = node.untyped) :
    ∃ a', Slot step old new a a' ∧ a'.untyped = node'.untyped := by
  cases slot with
  | @operand type operators _ _ operands i found =>
      cases a with
      | chain type' operands' operators' =>
          cases hs
          exact ⟨_, .operand found, rfl⟩
      | _ => cases hs
  | condition found => cases a <;> cases hs; exact ⟨_, .condition found, rfl⟩
  | result found => cases a <;> cases hs; exact ⟨_, .result found, rfl⟩
  | otherwise => cases a <;> cases hs; exact ⟨_, .otherwise, rfl⟩
  | child found => cases a <;> cases hs; exact ⟨_, .child found, rfl⟩
  | left => cases a <;> cases hs; exact ⟨_, .left, rfl⟩
  | right => cases a <;> cases hs; exact ⟨_, .right, rfl⟩
  | rightItem found => cases a <;> cases hs; exact ⟨_, .rightItem found, rfl⟩
  | argument found => cases a <;> cases hs; exact ⟨_, .argument found, rfl⟩

theorem typed (slot : Slot step old new node node') (hk : old.Typed → new.Typed) (h : node.Typed) : node'.Typed := by
  cases slot with
  | otherwise => exact hk h
  | _ => exact h

theorem typeable (slot : Slot step old new node node') (hk : old.Typed → new.Typed) (h : node.Typeable) :
    node'.Typeable := by
  cases slot with
  | left => exact hk h
  | operand found =>
      obtain ⟨textual, typed, keys⟩ := h
      refine ⟨textual, fun part within => ?_, keys⟩
      rcases List.mem_or_eq_of_mem_set within with there | rfl
      · exact typed part there
      · exact hk (typed _ (List.mem_of_getElem? found))
  | _ => exact h

end Slot

/-! ### Weaving -/

/-- The tree with a node in the place that some steps lead to, and each chain settled on the way back. -/
def weave (numeric : List String) (new : Node) : List Step → Node → Except Fault Node
  | [], _ => .ok new
  | step :: rest, node => do
    let child ← node.child step
    let changed ← weave numeric new rest child
    (← withChild step changed node).reinferAt numeric []

theorem weave_cons {rest : List Step} :
    weave numeric new (step :: rest) node = .ok node' ↔
      ∃ old changed mid, weave numeric new rest old = .ok changed ∧ Slot step old changed node mid ∧
        mid.reinferAt numeric [] = .ok node' := by
  simp only [weave, bind_eq_ok]
  constructor
  · rintro ⟨old, stands, changed, below, mid, put, settled⟩
    obtain ⟨old', slot⟩ := slot_of_withChild put
    cases stands.symm.trans slot.child_eq
    exact ⟨old, changed, mid, below, slot, settled⟩
  · rintro ⟨old, changed, mid, below, slot, settled⟩
    exact ⟨old, slot.child_eq, changed, below, mid, slot.withChild_eq, settled⟩

theorem reinferAt_cons {rest : List Step} (slot : Slot step old child node node') :
    node'.reinferAt numeric (step :: rest) = (child.reinferAt numeric rest >>= fun c => withChild step c node) := by
  simp only [reinferAt, find, replace, slot.child_new, ok_bind]
  cases child.find rest with
  | error fault => rfl
  | ok there =>
      cases there with
      | chain type operands operators =>
          simp only [ok_bind]
          cases Typing.infer numeric operands operators with
          | error fault => rfl
          | ok inferred =>
              simp only [ok_bind]
              split
              · exact slot.withChild_eq.symm
              · simp only [slot.overwrite]
      | _ => exact slot.withChild_eq.symm

/-- To settle the chains on the way is to settle those below the first step, and then the tree itself. -/
theorem reinferUp_cons {rest : List Step} {k : Nat} (slot : Slot step old child node node') :
    node'.reinferUp numeric (step :: rest) (k + 1) =
      (child.reinferUp numeric rest k >>= fun c => withChild step c node >>= fun n => n.reinferAt numeric []) := by
  induction k generalizing child node' with
  | zero =>
      simp only [reinferUp, List.take_zero, ok_bind, slot.withChild_eq]
      cases node'.reinferAt numeric [] <;> rfl
  | succ k ih =>
      -- the chain that is the furthest down comes first, and lies below the first step
      rw [reinferUp, List.take_succ_cons, reinferAt_cons slot, reinferUp]
      cases child.reinferAt numeric (rest.take k) with
      | error fault => rfl
      | ok settled =>
          obtain ⟨_, slot'⟩ := slot_of_child slot.child_eq settled
          simp only [ok_bind, slot'.withChild_eq]
          exact ih slot'

theorem weave_eq (numeric : List String) (new : Node) (steps : List Step) (tree : Node) :
    weave numeric new steps tree =
      (replace new steps tree >>= fun t => t.reinferUp numeric steps steps.length) := by
  induction steps generalizing tree with
  | nil => rfl
  | cons step rest ih =>
      rw [weave, replace]
      cases stands : tree.child step with
      | error fault => rfl
      | ok child =>
          simp only [ok_bind, ih]
          cases replace new rest child with
          | error fault => rfl
          | ok changed =>
              obtain ⟨_, slot⟩ := slot_of_child stands changed
              simp only [ok_bind, slot.withChild_eq, List.length_cons, reinferUp_cons slot]

/-! ### What weaving keeps -/

/-- Weaving leaves a tree typed and well typed, if it leaves what stands in the place typed. -/
theorem typed_woven {steps : List Step} (hw : tree.WellTyped) (hf : tree.find steps = .ok old)
    (hp : new.WellTyped) (hk : old.Typed → new.Typed) (ho : weave numeric new steps tree = .ok tree') :
    tree'.WellTyped ∧ (tree.Typed → tree'.Typed) := by
  induction steps generalizing tree tree' with
  | nil =>
      cases ho
      cases hf
      exact ⟨hp, hk⟩
  | cons step rest ih =>
      obtain ⟨child, changed, mid, below, slot, settled⟩ := weave_cons.mp ho
      have foundBelow : child.find rest = .ok old := by
        simpa only [find, slot.child_eq, ok_bind] using hf
      -- the induction carries that types stay declared: the node above needs it of the child that was changed
      obtain ⟨wellBelow, typedBelow⟩ := ih (hw.slot_old slot) foundBelow below
      have filled : mid.WellTyped :=
        hw.slot_new (slot.typeable typedBelow hw.here) (fun _ => trivial) wellBelow slot
      obtain ⟨typeable, typed⟩ := typeable_settled filled.here settled
      refine ⟨.intro typeable ?_, fun h => typed (slot.typed typedBelow h)⟩
      rw [inner_settled settled]
      exact filled.inside

theorem weave_eq_ok (numeric : List String) {steps : List Step} (hw : tree.WellTyped)
    (hf : tree.find steps = .ok old) (hp : new.WellTyped) (hk : old.Typed → new.Typed) :
    ∃ tree', weave numeric new steps tree = .ok tree' := by
  induction steps generalizing tree with
  | nil => exact ⟨new, rfl⟩
  | cons step rest ih =>
      obtain ⟨child, stands, foundBelow⟩ := bind_eq_ok.mp hf
      obtain ⟨_, slot⟩ := slot_of_child stands child
      have wellBelow := hw.slot_old slot
      obtain ⟨changed, below⟩ := ih wellBelow foundBelow
      obtain ⟨mid, slot⟩ := slot_of_child stands changed
      have typeable := slot.typeable (typed_woven wellBelow foundBelow hp hk below).2 hw.here
      obtain ⟨tree', settled⟩ := settles numeric typeable
      exact ⟨tree', weave_cons.mpr ⟨child, changed, mid, below, slot, settled⟩⟩

theorem child_woven {rest : List Step} (h : weave numeric new (step :: rest) tree = .ok tree') :
    ∃ child changed, tree.child step = .ok child ∧ weave numeric new rest child = .ok changed ∧
      tree'.child step = .ok changed ∧ ∀ other, ¬ step.Meets other → tree'.child other = tree.child other := by
  obtain ⟨child, changed, mid, below, slot, settled⟩ := weave_cons.mp h
  refine ⟨child, changed, slot.child_eq, below, ?_, fun other apart => ?_⟩
  · rw [child_settled settled, slot.child_new]
  · rw [child_settled settled, slot.child_other apart]

theorem find_woven {steps : List Step} (h : weave numeric new steps tree = .ok tree') :
    tree'.find steps = .ok new := by
  induction steps generalizing tree tree' with
  | nil =>
      cases h
      rfl
  | cons step rest ih =>
      obtain ⟨child, changed, -, below, stands, -⟩ := child_woven h
      simp only [find, stands, ok_bind, ih below]

/-- What stands in places apart stays. -/
theorem find_woven_apart (apart : Apart p q) (hw : weave numeric new p tree = .ok tree') :
    tree'.find q = tree.find q := by
  induction apart generalizing tree tree' with
  | fork parts =>
      obtain ⟨child, changed, -, -, -, stays⟩ := child_woven hw
      simp only [find, stays _ parts]
  | along _ ih =>
      obtain ⟨child, changed, stood, below, stands, -⟩ := child_woven hw
      simp only [find, stood, stands, ok_bind, ih below]

/-! ### The order of weaving -/

/-- A node may come to the place that some steps lead to. -/
def Fits (tree : Node) (steps : List Step) (new : Node) : Prop :=
  new.WellTyped ∧ ∃ old, tree.find steps = .ok old ∧ (old.Typed → new.Typed)

theorem Fits.woven (hw : tree.WellTyped) (fits : tree.Fits steps new)
    (ho : weave numeric new steps tree = .ok tree') : tree'.WellTyped := by
  obtain ⟨put, old, found, kept⟩ := fits
  exact (typed_woven hw found put kept ho).1

theorem Fits.apart {new' : Node} (fits : tree.Fits q new') (apart : Apart p q)
    (hw : weave numeric new p tree = .ok tree') : tree'.Fits q new' := by
  obtain ⟨put, old, found, kept⟩ := fits
  exact ⟨put, old, (find_woven_apart apart hw).trans found, kept⟩

theorem Fits.below {rest : List Step} (hw : tree.WellTyped) (fits : tree.Fits (step :: rest) new)
    (ho : weave numeric new (step :: rest) tree = .ok tree') :
    ∃ child changed mid, child.WellTyped ∧ child.Fits rest new ∧ weave numeric new rest child = .ok changed ∧
      Slot step child changed tree mid ∧ mid.Typeable ∧ mid.reinferAt numeric [] = .ok tree' := by
  obtain ⟨put, old, found, kept⟩ := fits
  obtain ⟨child, changed, mid, below, slot, settled⟩ := weave_cons.mp ho
  have foundBelow : child.find rest = .ok old := by
    simpa only [find, slot.child_eq, ok_bind] using found
  have wellBelow := hw.slot_old slot
  have typedBelow := (typed_woven wellBelow foundBelow put kept below).2
  exact ⟨child, changed, mid, wellBelow, ⟨put, old, foundBelow, kept⟩, below, slot,
    slot.typeable typedBelow hw.here, settled⟩

theorem Slot.unsettled {mid : Node} (slot : Slot step old new node' b)
    (hs : mid.reinferAt numeric [] = .ok node') :
    ∃ n, Slot step old new mid n ∧ n.untyped = b.untyped :=
  slot.untyped (settled_untyped hs).symm

/-- Nodes that are woven into places apart may come in any order. -/
theorem weave_comm {new' b' : Node} (apart : Apart p q) (hw : tree.WellTyped) (fits : tree.Fits p new)
    (fits' : tree.Fits q new') (hf : weave numeric new p tree = .ok a) (hs : weave numeric new' q a = .ok b)
    (hf' : weave numeric new' q tree = .ok a') (hs' : weave numeric new p a' = .ok b') : b = b' := by
  induction apart generalizing tree a b a' b' with
  | @fork s t p q parts =>
      have fitsA := fits'.apart (.fork parts) hf
      have fitsA' := fits.apart (Apart.fork parts).symm hf'
      obtain ⟨c, c₁, m, -, -, below, slot, -, settled⟩ := fits.below hw hf
      obtain ⟨d, d₁, m₂, -, -, below₂, slot₂, typeable, ends⟩ := fitsA.below (fits.woven hw hf) hs
      obtain ⟨d', d₁', m', -, -, below', slot', -, settled'⟩ := fits'.below hw hf'
      obtain ⟨c', c₁', m₂', -, -, below₂', slot₂', typeable', ends'⟩ := fitsA'.below (fits'.woven hw hf') hs'
      -- a chain that settles between the two changes nothing but its type, and settles again at the end
      obtain ⟨n, filled, same⟩ := slot₂.unsettled settled
      obtain ⟨n', filled', same'⟩ := slot₂'.unsettled settled'
      -- both slots of the tree may be filled in the other order
      obtain ⟨m'', other, back⟩ := slot.comm parts filled
      cases slot'.child_eq.symm.trans other.child_eq
      cases below'.symm.trans below₂
      cases slot'.unique other
      cases filled'.child_eq.symm.trans back.child_eq
      cases below₂'.symm.trans below
      cases filled'.unique back
      have alike := settled_unique numeric typeable typeable' (same.symm.trans same')
      exact Except.ok.inj (ends.symm.trans (alike.trans ends'))
  | @along s p q apart ih =>
      have fitsA := fits'.apart (.along apart) hf
      have fitsA' := fits.apart (Apart.along apart).symm hf'
      obtain ⟨c, c₁, m, wellC, fitsC, below, slot, -, settled⟩ := fits.below hw hf
      obtain ⟨d, d₁, m₂, -, -, below₂, slot₂, typeable, ends⟩ := fitsA.below (fits.woven hw hf) hs
      obtain ⟨c', c₁', m', -, fitsC', below', slot', -, settled'⟩ := fits'.below hw hf'
      obtain ⟨d', d₁', m₂', -, -, below₂', slot₂', typeable', ends'⟩ := fitsA'.below (fits'.woven hw hf') hs'
      obtain ⟨n, filled, same⟩ := slot₂.unsettled settled
      obtain ⟨n', filled', same'⟩ := slot₂'.unsettled settled'
      cases filled.child_eq.symm.trans slot.child_new
      cases filled'.child_eq.symm.trans slot'.child_new
      cases slot'.child_eq.symm.trans slot.child_eq
      cases ih wellC fitsC fitsC' below below₂ below' below₂'
      -- what was woven first into the common child is not seen any more
      have upon := slot.overwrite.symm.trans filled.withChild_eq
      have upon' := slot'.overwrite.symm.trans filled'.withChild_eq
      cases upon.symm.trans upon'
      have alike := settled_unique numeric typeable typeable' (same.symm.trans same')
      exact Except.ok.inj (ends.symm.trans (alike.trans ends'))

end Node

end RuleEditor
