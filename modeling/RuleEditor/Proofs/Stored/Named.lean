import RuleEditor.Proofs.Address.Canonical
import RuleEditor.Proofs.Stored.Vacancies
import RuleEditor.Proofs.Tree.Positions

/-!
# Names of stored conditions

A reader spells the path of each condition on its way down the stored data, and a condition that is stored without a
name may be labelled by that path. It is the path that the finished tree lists the condition under.
-/
namespace RuleEditor

namespace Stored

open Node

/-! ### Stored conditions -/

/-- The items of a stored list; what is no list has none. -/
def elements : Value → List Value
  | .list vs => vs
  | _ => []

/-- The stored condition that a step leads to: an item of a group, or the condition of a branch. -/
def inside? (data : Value) : Step → Option Value
  | .child i => (elements (part "conditions" (membersOf data)))[i]?
  | .condition i => (elements (part "whenClauses" (membersOf data)))[i]?.map fun v => part "when" (membersOf v)
  | _ => none

/-- The stored condition that some steps lead to. -/
def at? : List Step → Value → Option Value
  | [], data => some data
  | step :: rest, data => (inside? data step).bind (at? rest)

/-- The condition at a path keeps a name that is stored for it. Without one it takes the identifier of the rule that it
checks, and where it checks no rule that has an identifier, the positional label of the path. -/
structure TakesName (path : String) (stored : Value) (node : Node) : Prop where
  kept : stored.isPresent → node.name = .ok stored
  target : stored.isMissing → ∀ name r, node = .ruleCheck name r → r.id.isPresent → node.name = .ok r.id
  placed : stored.isMissing → (∀ name r, node = .ruleCheck name r → r.id.isMissing) →
    ∃ kind label, node.conditionKind = .ok kind ∧ Label.positional path kind = .ok label ∧
      node.name = .ok (.text label)

variable {joining : Option Joining} {root path : String} {way steps : List Step} {step : Step} {v data stored name : Value}
  {node child tree : Node} {kind : Kind} {i : Nat}

theorem nameOr_cases (h : nameOr path kind stored = .ok name) :
    (stored.isPresent → name = stored) ∧
      (stored.isMissing → ∃ label, Label.positional path kind = .ok label ∧ name = .text label) := by
  unfold nameOr Value.isPresent at *
  cases missing : stored.isMissing with
  | true =>
      rw [missing] at h
      obtain ⟨label, placed, rfl⟩ := map_eq_ok.mp h
      exact ⟨nofun, fun _ => ⟨label, placed, rfl⟩⟩
  | false =>
      rw [missing] at h
      cases h
      exact ⟨fun _ => rfl, nofun⟩

/-- A condition that checks no rule is named by its place at most. -/
theorem takesName_of_nameOr (hm : nameOr path kind stored = .ok name) (hi : node.conditionKind = .ok kind)
    (hn : node.name = .ok name) (ho : ∀ name r, node = .ruleCheck name r → r.id.isMissing) :
    TakesName path stored node := by
  obtain ⟨kept, placed⟩ := nameOr_cases hm
  constructor
  · intro present
    rw [hn, kept present]
  · intro _ name r check present
    have missing := ho name r check
    rw [Value.isPresent, missing] at present
    cases present
  · intro missing _
    obtain ⟨label, positional, rfl⟩ := placed missing
    exact ⟨kind, label, hi, positional, hn⟩

theorem missing_of_not_present (h : ¬ v.isPresent = true) : v.isMissing := by
  rw [Value.isPresent] at h
  cases missing : v.isMissing with
  | true => rfl
  | false => exact absurd (by rw [missing]; rfl) h

/-- The identifier of a rule that is checked stands in for a name. -/
theorem takesName_of_target {r : Reference} (h : r.id.isPresent) :
    TakesName path stored (.ruleCheck (stored.orElse r.id) r) := by
  constructor
  · intro there
    rw [Value.isPresent, Bool.not_eq_true'] at there
    rw [Value.orElse, there]
    rfl
  · intro missing name r' same _
    cases same
    rw [Value.orElse, missing]
    rfl
  · intro _ none
    rw [Value.isPresent, none _ r rfl] at h
    cases h

/-- What is read as a condition is a record, and has been named by it. -/
theorem readCondition_named (h : readCondition joining path v = .ok node) :
    ∃ ms, v = .record ms ∧ TakesName path (part "name" ms) node := by
  cases v with
  | record ms =>
      refine ⟨ms, rfl, ?_⟩
      unfold readCondition at h
      split at h
      · rename_i r checked
        split at h
        · rename_i present
          cases h
          exact takesName_of_target present
        · rename_i missing
          obtain ⟨name, made, h⟩ := bind_eq_ok.mp h
          cases h
          refine takesName_of_nameOr made rfl rfl fun name' r' same => ?_
          cases same
          exact missing_of_not_present missing
      · split at h
        · obtain ⟨name, made, h⟩ := bind_eq_ok.mp h
          obtain ⟨left, -, h⟩ := bind_eq_ok.mp h
          obtain ⟨side, -, h⟩ := bind_eq_ok.mp h
          cases h
          refine takesName_of_nameOr made rfl rfl fun _ _ same => ?_
          cases same
        · obtain ⟨children, -, h⟩ := bind_eq_ok.mp h
          obtain ⟨name, made, h⟩ := bind_eq_ok.mp h
          obtain ⟨conjunction, -, h⟩ := bind_eq_ok.mp h
          cases h
          refine takesName_of_nameOr made rfl rfl fun _ _ same => ?_
          cases same
        · cases h
  | _ => cases h

/-! ### Expressions hold no conditions -/

def Conditionless (node : Node) : Prop := ∀ kind, node.conditionKind ≠ .ok kind

mutual

theorem conditionless_of_normal : (node : Node) → node.NormalExpression → node.Everywhere Conditionless
  | .literal .., _ | .field .., _ | .reference _, _ => .intro nofun nofun
  | .call _ _ arguments, h => .intro nofun (conditionless_of_arguments arguments h.2)
  | .chain _ operands _, h => .intro nofun (conditionless_of_operands operands h.2.2.2)

theorem conditionless_of_operands : (nodes : List Node) → NormalExpressions nodes →
    ∀ node ∈ nodes, node.Everywhere Conditionless
  | [], _ => nofun
  | node :: nodes, h =>
    List.forall_mem_cons.mpr ⟨conditionless_of_normal node h.1, conditionless_of_operands nodes h.2⟩

theorem conditionless_of_arguments : (arguments : List (Argument Node)) → NormalArguments arguments →
    ∀ part ∈ arguments.map (·.value), part.Everywhere Conditionless
  | [], _ => nofun
  | ⟨_, value⟩ :: arguments, h =>
    List.forall_mem_cons.mpr ⟨conditionless_of_normal value h.1, conditionless_of_arguments arguments h.2⟩

end

theorem conditionless_of_right (h : node.NormalRight) : node.Everywhere Conditionless := by
  cases node with
  | absent =>
      refine .intro (fun _ is => ?_) (List.forall_mem_nil _)
      cases is
  | several items =>
      refine .intro (fun _ is => ?_) (conditionless_of_operands items h)
      cases is
  | _ => exact conditionless_of_normal _ h

/-! ### Conditions in what has been read -/

/-- Where a list is read item by item, each under its number, what stands at a place is read from the item there. -/
theorem numbered_get {α β : Type} (one : Nat → α → Except Fault β) (all : Nat → List α → Except Fault (List β))
    (hn : ∀ i, all i [] = .ok [])
    (hc : ∀ i x xs, all i (x :: xs) = do
      let y ← one i x
      let ys ← all (i + 1) xs
      return y :: ys)
    {xs : List α} {ys : List β} {y : β} {j : Nat} (hr : all i xs = .ok ys) (hf : ys[j]? = some y) :
    ∃ x, xs[j]? = some x ∧ one (i + j) x = .ok y := by
  induction xs generalizing i j ys with
  | nil =>
      rw [hn] at hr
      cases hr
      cases hf
  | cons x xs ih =>
      rw [hc] at hr
      obtain ⟨first, here, hr⟩ := bind_eq_ok.mp hr
      obtain ⟨rest, others, hr⟩ := bind_eq_ok.mp hr
      cases hr
      cases j with
      | zero =>
          cases hf
          exact ⟨x, rfl, here⟩
      | succ j =>
          have later := ih others hf
          rwa [Nat.add_right_comm] at later

theorem readConditionItems_get {vs : List Value} {nodes : List Node} {j : Nat}
    (hr : readConditionItems joining path i vs = .ok nodes) (hf : nodes[j]? = some child) :
    ∃ v, vs[j]? = some v ∧ readCondition joining s!"{path}-condition-{i + j}" v = .ok child :=
  numbered_get (fun i => readCondition joining s!"{path}-condition-{i}") (readConditionItems joining path)
    (fun _ => rfl) (fun _ _ _ => rfl) hr hf

theorem readConditionsIn_get {ms : Members Value} {nodes : List Node} {j : Nat}
    (hr : readConditionsIn joining path ms = .ok nodes) (hf : nodes[j]? = some child) :
    ∃ v, (elements (part "conditions" ms))[j]? = some v ∧
      readCondition joining s!"{path}-condition-{j}" v = .ok child := by
  induction ms with
  | nil =>
      cases hr
      cases hf
  | cons m ms ih =>
      obtain ⟨key, v⟩ := m
      unfold readConditionsIn at hr
      rw [part_cons]
      split at hr
      · rename_i here
        rw [if_pos here]
        cases v with
        | list vs =>
            have within := readConditionItems_get hr hf
            rwa [Nat.zero_add] at within
        | _ =>
            unfold readConditions at hr
            cases eq_nil_of_noItems hr
            cases hf
      · rename_i further
        rw [if_neg further]
        exact ih hr

/-- Inside a condition stand the conditions that are read from the stored ones, under their own paths, and expressions. -/
theorem readCondition_child (isRoot : Address.IsRoot root)
    (hr : readCondition joining (Address.render root way) v = .ok node) (hs : node.child step = .ok child) :
    (∃ v', inside? v step = some v' ∧ readCondition joining (Address.render root (way ++ [step])) v' = .ok child) ∨
      child.Everywhere Conditionless := by
  cases v with
  | record ms =>
      unfold readCondition at hr
      split at hr
      · obtain ⟨name, r, rfl⟩ : ∃ name r, node = .ruleCheck name r := by
          split at hr
          · cases hr
            exact ⟨_, _, rfl⟩
          · obtain ⟨name, -, hr⟩ := bind_eq_ok.mp hr
            cases hr
            exact ⟨_, _, rfl⟩
        cases hs
      · split at hr
        · obtain ⟨name, -, hr⟩ := bind_eq_ok.mp hr
          obtain ⟨left, readLeft, hr⟩ := bind_eq_ok.mp hr
          obtain ⟨side, readSide, hr⟩ := bind_eq_ok.mp hr
          cases hr
          have onLeft := conditionless_of_normal left (readExpression_normal readLeft).1
          have onRight := conditionless_of_right (readRight_normal readSide).1
          obtain ⟨_, slot⟩ := slot_of_child hs child
          refine .inr ?_
          cases slot with
          | left => exact onLeft
          | right => exact onRight
          | rightItem found => exact onRight.inside _ (List.mem_of_getElem? found)
        · obtain ⟨children, below, hr⟩ := bind_eq_ok.mp hr
          obtain ⟨name, -, hr⟩ := bind_eq_ok.mp hr
          obtain ⟨conjunction, -, hr⟩ := bind_eq_ok.mp hr
          cases hr
          obtain ⟨_, slot⟩ := slot_of_child hs child
          cases slot with
          | child found =>
              rename_i j
              obtain ⟨v', stored, readChild⟩ := readConditionsIn_get below found
              refine .inl ⟨v', stored, ?_⟩
              rw [← Address.render_child isRoot, ← String.append_assoc]
              exact readChild
        · cases hr
  | _ => cases hr

/-- The steps to a condition in what has been read lead to the stored one that it has been read from. -/
theorem named_of_find (isRoot : Address.IsRoot root) (way : List Step)
    (hr : readCondition joining (Address.render root way) data = .ok tree) (hf : tree.find steps = .ok node)
    (hi : node.conditionKind = .ok kind) :
    ∃ ms, at? steps data = some (.record ms) ∧ TakesName (Address.render root (way ++ steps)) (part "name" ms) node := by
  induction steps generalizing way data tree with
  | nil =>
      cases hf
      rw [List.append_nil]
      obtain ⟨ms, rfl, named⟩ := readCondition_named hr
      exact ⟨ms, rfl, named⟩
  | cons step rest ih =>
      obtain ⟨child, stands, hf⟩ := bind_eq_ok.mp hf
      rcases readCondition_child isRoot hr stands with ⟨v', stored, readChild⟩ | none
      · obtain ⟨ms, there, named⟩ := ih _ readChild hf
        rw [List.append_assoc] at named
        refine ⟨ms, ?_, named⟩
        rw [at?, stored]
        exact there
      · exact absurd hi ((none.find hf).here kind)

/-! ### Definitions -/

theorem readBranches_get {vs : List Value} {branches : List (Branch Node)} {j : Nat} {b : Branch Node}
    (hr : readBranches joining i vs = .ok branches) (hf : branches[j]? = some b) :
    ∃ v, vs[j]? = some v ∧ readCondition joining s!"case-when-{i + j}" (part "when" (membersOf v)) = .ok b.condition ∧
      b.result.NormalExpression := by
  obtain ⟨v, there, hr⟩ :=
    numbered_get (readBranch joining) (readBranches joining) (fun _ => rfl) (fun _ _ _ => rfl) hr hf
  cases v with
  | record ms =>
      obtain ⟨result, readResult, hr⟩ := bind_eq_ok.mp hr
      obtain ⟨label, -, hr⟩ := bind_eq_ok.mp hr
      obtain ⟨condition, readCondition, hr⟩ := bind_eq_ok.mp hr
      cases hr
      exact ⟨.record ms, there, readCondition, (readExpression_normal readResult).1⟩
  | _ => cases hr

/-- The branches have been read from stored ones. -/
def Reads (joining : Option Joining) (vs : List Value) (branches : List (Branch Node)) : Prop :=
  ∀ (j : Nat) (b : Branch Node), branches[j]? = some b → ∃ v, vs[j]? = some v ∧
    readCondition joining s!"case-when-{j}" (part "when" (membersOf v)) = .ok b.condition ∧ b.result.NormalExpression

theorem choice_child {last name : Value} {branches : List (Branch Node)}
    (hb : Reads joining (elements (part "whenClauses" (membersOf data))) branches)
    (hr : (do
      let otherwise ← readExpression joining last
      let l ← label Choice.otherwisePath name otherwise
      return Node.choice branches otherwise l : Except Fault Node) = .ok tree)
    (hs : tree.child step = .ok child) :
    (∃ v, inside? data step = some v ∧ readCondition joining (Address.render "case" [step]) v = .ok child) ∨
      child.Everywhere Conditionless := by
  obtain ⟨otherwise, readLast, hr⟩ := bind_eq_ok.mp hr
  obtain ⟨l, -, hr⟩ := bind_eq_ok.mp hr
  cases hr
  have final := conditionless_of_normal otherwise (readExpression_normal readLast).1
  obtain ⟨_, slot⟩ := slot_of_child hs child
  cases slot with
  | otherwise => exact .inr final
  | condition found =>
      obtain ⟨v, there, readCondition, -⟩ := hb _ _ found
      refine .inl ⟨_, ?_, by rw [render_condition]; exact readCondition⟩
      simp only [inside?, there, Option.map_some]
  | result found =>
      obtain ⟨v, -, -, normal⟩ := hb _ _ found
      exact .inr (conditionless_of_normal _ normal)

/-- Inside a choice stand the conditions that are read from those of the stored branches, and expressions. -/
theorem readChoice_child (hr : readChoice joining data = .ok tree) (hs : tree.child step = .ok child) :
    (∃ v, inside? data step = some v ∧ readCondition joining (Address.render "case" [step]) v = .ok child) ∨
      child.Everywhere Conditionless := by
  cases data with
  | record ms =>
      simp only [readChoice] at hr
      split at hr
      · split at hr
        · rename_i vs stored
          obtain ⟨branches, below, hr⟩ := bind_eq_ok.mp hr
          refine choice_child (fun j b found => ?_) hr hs
          have within := readBranches_get below found
          rw [Nat.zero_add] at within
          rw [membersOf, stored]
          exact within
        · obtain ⟨branches, nothing, hr⟩ := bind_eq_ok.mp hr
          cases eq_nil_of_noItems nothing
          exact choice_child (fun _ _ found => by cases found) hr hs
      · cases hr
  | _ => cases hr

theorem root_of_readCondition (h : readCondition joining path v = .ok tree) : tree.root = "root" := by
  have normal := (readCondition_normal v h).1
  cases tree with
  | choice => cases normal
  | _ => rfl

theorem root_of_readChoice (h : readChoice joining v = .ok tree) : tree.root = "case" := by
  obtain ⟨branches, otherwise, label, rfl, -⟩ := readChoice_normal h
  rfl

/-- The steps to a condition in a definition that has been read lead to a stored condition, and from that it has its
name. -/
theorem definition_named {form : Value} (hr : readDefinition joining form data = .ok tree)
    (hf : tree.find steps = .ok node) (hi : node.conditionKind = .ok kind) :
    ∃ ms, at? steps data = some (.record ms) ∧ TakesName (Address.render tree.root steps) (part "name" ms) node := by
  unfold readDefinition at hr
  split at hr
  · rw [root_of_readCondition hr]
    exact named_of_find (.inl rfl) [] hr hf hi
  · rw [root_of_readChoice hr]
    cases steps with
    | nil =>
        cases hf
        obtain ⟨branches, otherwise, label, rfl, -⟩ := readChoice_normal hr
        cases hi
    | cons step rest =>
        obtain ⟨child, stands, hf⟩ := bind_eq_ok.mp hf
        rcases readChoice_child hr stands with ⟨v, stored, readChild⟩ | none
        · obtain ⟨ms, there, named⟩ := named_of_find (.inr rfl) [step] readChild hf hi
          refine ⟨ms, ?_, named⟩
          rw [at?, stored]
          exact there
        · exact absurd hi ((none.find hf).here kind)
  · have none := conditionless_of_normal tree (readExpression_normal hr).1
    exact absurd hi ((none.find hf).here kind)
  · cases hr

/-- Each condition that a definition lists after it has been read was read from a stored one, to which the same steps
lead. It keeps the name that is stored there; without one it has the identifier of the rule that it checks, or else the
positional label of the path that it is listed under. -/
theorem listed_conditions_named {form : Value} (h : readDefinition joining form data = .ok tree) :
    ∀ e ∈ tree.entries, ∀ kind, e.2.conditionKind = .ok kind →
      ∃ steps ms, (steps, e.2) ∈ tree.positions ∧ e.1 = Address.render tree.root steps ∧
        at? steps data = some (.record ms) ∧ TakesName e.1 (part "name" ms) e.2 := by
  intro e within kind is
  obtain ⟨⟨steps, node⟩, listed, rfl⟩ := List.mem_map.mp within
  obtain ⟨ms, stored, named⟩ := definition_named h (find_of_mem_positions listed) is
  exact ⟨steps, ms, listed, rfl, stored, named⟩

/-- A stored choice. Of the conditions of its group, which has no name, two check rules, one of which is not selected
yet; the last has a name. -/
def unsigned : Value :=
  let fee : Value := .record [("type", .text "value"), ("value", .int 7)]
  let check : Value := .record [("type", .text "ruleRef"), ("ruleRef", .record [("id", .text "IS_ADULT")])]
  let blank : Value := .record [("type", .text "ruleRef"), ("ruleRef", .record [("id", .null)])]
  let late : Value := .record [("type", .text "condition"), ("name", .text "Late"), ("left", fee)]
  .record
    [("whenClauses", .list [.record
      [("when", .record [("type", .text "conditionGroup"), ("conditions", .list [check, blank, late])]),
       ("then", fee)]]), ("elseClause", fee)]

theorem unsigned_named :
    ∃ tree, readDefinition none (.text "case") unsigned = .ok tree ∧
      (tree.entries.filterMap fun e => e.2.name.toOption.map fun name => (e.1, name)) =
        [("case-when-0", .text "Group 1"), ("case-when-0-condition-0", .text "IS_ADULT"),
          ("case-when-0-condition-1", .text "Condition 2"), ("case-when-0-condition-2", .text "Late")] ∧
      ∀ e ∈ tree.entries, ∀ kind, e.2.conditionKind = .ok kind →
        ∃ steps ms, (steps, e.2) ∈ tree.positions ∧ e.1 = Address.render tree.root steps ∧
          at? steps unsigned = some (.record ms) ∧ TakesName e.1 (part "name" ms) e.2 := by
  have read : ∃ tree, readDefinition none (.text "case") unsigned = .ok tree := ⟨_, rfl⟩
  obtain ⟨tree, read⟩ := read
  refine ⟨tree, read, ?_, listed_conditions_named read⟩
  cases read
  rfl

end Stored

end RuleEditor
