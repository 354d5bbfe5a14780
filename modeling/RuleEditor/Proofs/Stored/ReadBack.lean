import RuleEditor.Proofs.Address.Numbered
import RuleEditor.Proofs.Edit.Intact
import RuleEditor.Proofs.Stored.RoundTrip
import RuleEditor.Proofs.Tree.Sorts
import RuleEditor.Rule.Document

/-!
# What is written is read back

A document with nodes of the right sorts in the right proportions is written, and what is written is read back as a
document of the same structure. Reading may fill in types, names and labels, and leaves findings out.
-/
namespace RuleEditor

/-- The reference without its type and without what a check of its rule found. -/
def Reference.bare (r : Reference) : Reference := { r.unreviewed with type := .null }

namespace Node

mutual

/-- The structure of a tree: the tree without types, names, labels and findings. -/
def bare : Node → Node
  | .absent => .absent
  | .several items => .several (bareItems items)
  | .literal _ value => .literal .null value
  | .field _ path => .field .null path
  | .call _ name arguments => .call .null name (bareArguments arguments)
  | .reference target => .reference target.bare
  | .chain _ operands operators => .chain .null (bareItems operands) operators
  | .comparison _ left operator right => .comparison .null left.bare operator right.bare
  | .group _ children conjunction negated => .group .null (bareItems children) conjunction negated
  | .ruleCheck _ target => .ruleCheck .null target.bare
  | .choice branches otherwise _ => .choice (bareBranches branches) otherwise.bare .positional

def bareItems : List Node → List Node
  | [] => []
  | node :: nodes => node.bare :: bareItems nodes

def bareArguments : List (Argument Node) → List (Argument Node)
  | [] => []
  | ⟨name, value⟩ :: arguments => ⟨name, value.bare⟩ :: bareArguments arguments

def bareBranches : List (Branch Node) → List (Branch Node)
  | [] => []
  | ⟨condition, result, _⟩ :: branches => ⟨condition.bare, result.bare, .positional⟩ :: bareBranches branches

end

theorem bareItems_eq_map (nodes : List Node) : bareItems nodes = nodes.map bare := by
  induction nodes with
  | nil => rfl
  | cons node nodes ih => rw [bareItems, ih, List.map_cons]

theorem isExpression_bare (node : Node) : node.bare.isExpression = node.isExpression := by
  cases node <;> rfl

theorem length_of_bareItems {nodes nodes' : List Node} (h : bareItems nodes' = bareItems nodes) :
    nodes'.length = nodes.length := by
  simpa only [bareItems_eq_map, List.length_map] using congrArg List.length h

/-- Trees of one structure are expressions or not. -/
theorem isExpression_of_bareItems {nodes nodes' : List Node} (hs : bareItems nodes' = bareItems nodes)
    (h : ∀ node ∈ nodes, node.isExpression = true) : ∀ node ∈ nodes', node.isExpression = true := by
  intro node within
  rw [bareItems_eq_map, bareItems_eq_map] at hs
  have there : node.bare ∈ nodes.map bare := hs ▸ List.mem_map_of_mem within
  obtain ⟨node', within', alike⟩ := List.mem_map.mp there
  rw [← isExpression_bare, ← alike, isExpression_bare]
  exact h node' within'

/-- How many conditions or branches a node numbers. -/
def numbered : Node → Nat
  | .group _ children _ _ => children.length
  | .choice branches _ _ => branches.length
  | _ => 0

/-- What can be stored at a seat: a node of the right sort in the right proportions, with no more conditions or
branches in it than can be numbered. -/
structure Storable (seat : Seat) (node : Node) : Prop extends node.Belongs seat where
  proportioned : node.Proportioned
  small : node.numbered ≤ 10 ^ Text.maxDigits

end Node

namespace Stored

open Node

variable {seat : Seat} {node : Node} {joining : Option Joining} {v : Value}

/-! ### Expressions -/

theorem bare_reference (target : Reference) (defaultType : String) (tag : Value) :
    (reference defaultType (("type", tag) :: ("returnType", target.type) :: targetMembers target)).bare =
      target.bare := by
  cases known : target.ruleType.isNull with
  | false => simp [reference, targetMembers, known, Reference.bare, Reference.unreviewed, Reference.unchecked]
  | true =>
      simp [reference, targetMembers, eq_null_of_isNull known, Value.isNull, Reference.bare, Reference.unreviewed,
        Reference.unchecked]

theorem bare_check (target : Reference) (defaultType : String) :
    (reference defaultType (targetMembers target ++ [("returnType", target.type)])).bare = target.bare := by
  cases known : target.ruleType.isNull with
  | false => simp [reference, targetMembers, known, Reference.bare, Reference.unreviewed, Reference.unchecked]
  | true =>
      simp [reference, targetMembers, eq_null_of_isNull known, Value.isNull, Reference.bare, Reference.unreviewed,
        Reference.unchecked]

/-- The value is read as an expression of the structure of the node, before and after normalizing. -/
def Recovers (joining : Option Joining) (v : Value) (node : Node) : Prop :=
  ∃ raw back, readRaw v = .ok raw ∧ raw.normalized Typing.arithmetic joining = .ok back ∧
    raw.bare = node.bare ∧ back.bare = node.bare

mutual

theorem readRaw_recovers : (node : Node) → {seat : Seat} → node.isExpression = true → node.Seated Storable seat →
    ∃ v, writeExpression node = .ok v ∧ ∀ joining, Recovers joining v node
  | .literal type value, _, _, _ => ⟨_, rfl, fun _ => ⟨_, _, rfl, rfl, rfl, rfl⟩⟩
  | .field type path, _, _, _ => ⟨_, rfl, fun _ => ⟨_, _, rfl, rfl, rfl, rfl⟩⟩
  | .reference target, _, _, _ => by
      refine ⟨_, rfl, fun _ => ⟨_, _, rfl, rfl, ?_, ?_⟩⟩ <;>
        simp only [bare, List.cons_append, List.nil_append, bare_reference]
  | .call type name arguments, _, _, h => by
      obtain ⟨-, inside⟩ := seated_call.mp h
      obtain ⟨vs, written, reads⟩ := readArgumentItems_recovers arguments inside
      simp only [writeExpression, written, ok_bind, pure_eq_ok, Except.ok.injEq, exists_eq_left']
      intro joining
      obtain ⟨raws, backs, read, normal, same, same'⟩ := reads joining
      let declared := type.orElse (.text "text")
      refine ⟨.call declared name raws, .call declared name backs, ?_, ?_, ?_, ?_⟩
      · simp [readRaw, readFunctionIn, readFunction, readArgumentsIn, readArguments, read, declared]
      · simp only [normalized, normal, ok_bind, pure_eq_ok]
      · simp only [bare, same]
      · simp only [bare, same']
  | .chain type operands operators, seat, _, h => by
      obtain ⟨here, inside⟩ := seated_chain.mp h
      obtain ⟨two, count⟩ := here.proportioned
      have expressions : ∀ operand ∈ operands, operand.isExpression = true :=
        fun operand within => isExpression_of_operands (inside operand within).here.admitted
      obtain ⟨vs, written, reads⟩ := readRawItems_recovers operands expressions inside
      simp only [writeExpression, written, ok_bind, pure_eq_ok, Except.ok.injEq, exists_eq_left']
      intro joining
      obtain ⟨raws, backs, read, normal, same, same'⟩ := reads joining
      have infers {nodes : List Node} (same : bareItems nodes = bareItems operands) :
          ∃ type, Typing.infer Typing.arithmetic nodes operators = .ok type :=
        infer_of_expressions (isExpression_of_bareItems same expressions) here.keyed
      obtain ⟨declared, known⟩ := infers same
      obtain ⟨inferred, known'⟩ := infers same'
      have length := length_of_bareItems same'
      have some : raws ≠ [] := by
        rw [← List.length_pos_iff, length_of_bareItems same]
        omega
      refine ⟨.chain (type.orElse declared) raws operators, .chain inferred backs operators, ?_, ?_, ?_, ?_⟩
      · simp [readRaw, readOperandsIn, readOperands, read, items_list, some, known]
      · simp only [normalized, normal, ok_bind]
        exact ofNormal_of_fits (by omega) (by omega) known'
      · simp only [bare, same]
      · simp only [bare, same']
  | .absent, _, no, _ | .several _, _, no, _ | .comparison .., _, no, _ | .group .., _, no, _
  | .ruleCheck .., _, no, _ | .choice .., _, no, _ => by cases no

theorem readRawItems_recovers : (nodes : List Node) → {seat : Seat} → (∀ node ∈ nodes, node.isExpression = true) →
    (∀ node ∈ nodes, node.Seated Storable seat) →
    ∃ vs, writeExpressions nodes = .ok vs ∧ ∀ joining, ∃ raws backs, readRawItems vs = .ok raws ∧
      normalizedOperands Typing.arithmetic joining raws = .ok backs ∧ bareItems raws = bareItems nodes ∧
      bareItems backs = bareItems nodes
  | [], _, _, _ => ⟨[], rfl, fun _ => ⟨[], [], rfl, rfl, rfl, rfl⟩⟩
  | node :: nodes, seat, all, h => by
      obtain ⟨expression, expressions⟩ := List.forall_mem_cons.mp all
      obtain ⟨here, others⟩ := List.forall_mem_cons.mp h
      obtain ⟨v, written, reads⟩ := readRaw_recovers node expression here
      obtain ⟨vs, writtenRest, readsRest⟩ := readRawItems_recovers nodes expressions others
      refine ⟨v :: vs, by simp [writeExpressions, written, writtenRest], fun joining => ?_⟩
      obtain ⟨raw, back, read, normal, same, same'⟩ := reads joining
      obtain ⟨raws, backs, readRest, normalRest, sameRest, sameRest'⟩ := readsRest joining
      refine ⟨raw :: raws, back :: backs, ?_, ?_, ?_, ?_⟩
      · simp [readRawItems, read, readRest]
      · simp [normalizedOperands, normal, normalRest]
      · simp only [bareItems, same, sameRest]
      · simp only [bareItems, same', sameRest']

theorem readArgumentItems_recovers : (arguments : List (Argument Node)) →
    (∀ a ∈ arguments, a.value.Seated Storable .expression) →
    ∃ vs, writeArguments arguments = .ok vs ∧ ∀ joining, ∃ raws backs, readArgumentItems vs = .ok raws ∧
      normalizedArguments Typing.arithmetic joining raws = .ok backs ∧ bareArguments raws = bareArguments arguments ∧
      bareArguments backs = bareArguments arguments
  | [], _ => ⟨[], rfl, fun _ => ⟨[], [], rfl, rfl, rfl, rfl⟩⟩
  | ⟨name, value⟩ :: arguments, h => by
      obtain ⟨here, others⟩ := List.forall_mem_cons.mp h
      obtain ⟨v, written, reads⟩ := readRaw_recovers value (isExpression_of_expression here.here.admitted) here
      obtain ⟨vs, writtenRest, readsRest⟩ := readArgumentItems_recovers arguments others
      refine ⟨.record [("name", name), ("value", v)] :: vs, by simp [writeArguments, written, writtenRest],
        fun joining => ?_⟩
      obtain ⟨raw, back, read, normal, same, same'⟩ := reads joining
      obtain ⟨raws, backs, readRest, normalRest, sameRest, sameRest'⟩ := readsRest joining
      refine ⟨⟨name, raw⟩ :: raws, ⟨name, back⟩ :: backs, ?_, ?_, ?_, ?_⟩
      · simp [readArgumentItems, readArgument, readRawIn, read, readRest]
      · simp [normalizedArguments, normal, normalRest]
      · simp only [bareArguments, same, sameRest]
      · simp only [bareArguments, same', sameRest']

end

theorem readExpression_recovers (he : node.isExpression = true) (h : node.Seated Storable seat) :
    ∃ v, writeExpression node = .ok v ∧
      ∀ joining, ∃ back, readExpression joining v = .ok back ∧ back.bare = node.bare := by
  obtain ⟨v, written, reads⟩ := readRaw_recovers node he h
  refine ⟨v, written, fun joining => ?_⟩
  obtain ⟨raw, back, read, normal, -, same⟩ := reads joining
  exact ⟨back, by simp only [readExpression, read, ok_bind, normal], same⟩

theorem readItems_recovers : (nodes : List Node) → (∀ node ∈ nodes, node.Seated Storable .operand) →
    ∃ vs, writeExpressions nodes = .ok vs ∧
      ∀ joining, ∃ backs, vs.mapM (readExpression joining) = .ok backs ∧ bareItems backs = bareItems nodes
  | [], _ => ⟨[], rfl, fun _ => ⟨[], rfl, rfl⟩⟩
  | node :: nodes, h => by
      obtain ⟨here, others⟩ := List.forall_mem_cons.mp h
      obtain ⟨v, written, reads⟩ := readExpression_recovers (isExpression_of_operand here.here.admitted) here
      obtain ⟨vs, writtenRest, readsRest⟩ := readItems_recovers nodes others
      refine ⟨v :: vs, by simp [writeExpressions, written, writtenRest], fun joining => ?_⟩
      obtain ⟨back, read, same⟩ := reads joining
      obtain ⟨backs, readRest, sameRest⟩ := readsRest joining
      exact ⟨back :: backs, by simp [List.mapM_cons, read, readRest], by simp only [bareItems, same, sameRest]⟩

theorem readRight_recovers (h : node.Seated Storable .right) :
    ∃ v, writeRight node = .ok v ∧ ∀ joining, ∃ back, readRight joining v = .ok back ∧ back.bare = node.bare := by
  have single (expression : node.isExpression = true) : ∃ v, writeExpression node = .ok v ∧
      ∀ joining, ∃ back, readRight joining v = .ok back ∧ back.bare = node.bare := by
    obtain ⟨v, written, reads⟩ := readExpression_recovers expression h
    obtain ⟨ms, rfl⟩ := record_of_written written
    exact ⟨_, written, reads⟩
  cases node with
  | absent => exact ⟨_, rfl, fun _ => ⟨_, rfl, rfl⟩⟩
  | several items =>
      obtain ⟨vs, written, reads⟩ := readItems_recovers items (seated_several.mp h).2
      refine ⟨.list vs, by simp [writeRight, written], fun joining => ?_⟩
      obtain ⟨backs, read, same⟩ := reads joining
      exact ⟨.several backs, by simp [readRight, read], by simp only [bare, same]⟩
  | _ => exact single h.here.admitted

/-! ### Conditions -/

/-- Whatever its name is, a condition has a name once it is read. -/
theorem nameOr_eq_ok {path : String} (h : ∀ kind, ∃ label, Label.positional path kind = .ok label) (kind : Kind)
    (name : Value) : ∃ name', nameOr path kind name = .ok name' := by
  unfold nameOr
  split
  · exact ⟨_, rfl⟩
  · obtain ⟨label, known⟩ := h kind
    exact ⟨.text label, by rw [known]; rfl⟩

mutual

theorem readCondition_recovers : (node : Node) → node.Seated Storable .condition →
    ∃ v, writeCondition node = .ok v ∧ ∀ joining path, (∀ kind, ∃ label, Label.positional path kind = .ok label) →
      ∃ back, readCondition joining path v = .ok back ∧ back.bare = node.bare
  | .comparison name left operator right, h => by
      obtain ⟨-, onLeft, onRight⟩ := seated_comparison.mp h
      have expression := isExpression_of_expression onLeft.here.admitted
      obtain ⟨l, writtenLeft, readsLeft⟩ := readExpression_recovers expression onLeft
      obtain ⟨r, writtenRight, readsRight⟩ := readRight_recovers onRight
      simp only [writeCondition, writtenLeft, writtenRight, ok_bind, pure_eq_ok, Except.ok.injEq, exists_eq_left']
      intro joining path labelled
      obtain ⟨name', named⟩ := nameOr_eq_ok labelled .comparison name
      obtain ⟨left', readLeft, same⟩ := readsLeft joining
      obtain ⟨right', readRight, same'⟩ := readsRight joining
      refine ⟨.comparison name' left' operator right', ?_, ?_⟩
      · simp [readCondition, checked?, named, readLeft, readRight]
      · simp only [bare, same, same']
  | .group name children conjunction negated, h => by
      obtain ⟨here, inside⟩ := seated_group.mp h
      obtain ⟨vs, written, reads⟩ := readConditionItems_recovers children inside
      simp only [writeCondition, written, ok_bind, pure_eq_ok, Except.ok.injEq, exists_eq_left']
      intro joining path labelled
      obtain ⟨name', named⟩ := nameOr_eq_ok labelled .group name
      obtain ⟨backs, read, same⟩ := reads joining path 0 (by rw [Nat.zero_add]; exact here.small)
      refine ⟨.group name' backs conjunction negated, ?_, ?_⟩
      · simp [readCondition, checked?, readConditionsIn, readConditions, read, named, conjunction_written,
          Value.isPresent, Value.isMissing]
      · simp only [bare, same]
  | .ruleCheck name target, h => by
      refine ⟨_, rfl, fun joining path labelled => ?_⟩
      obtain ⟨name', named⟩ := nameOr_eq_ok labelled .reference name
      have same := bare_check target "boolean"
      simp only [readCondition, checked?, part_cons, part_nil, if_true, if_false, String.reduceEq]
      split
      · exact ⟨_, rfl, congrArg (Node.ruleCheck .null) same⟩
      · simp only [named, ok_bind]
        exact ⟨_, rfl, congrArg (Node.ruleCheck .null) same⟩
  | .absent, h | .several _, h | .literal .., h | .field .., h | .call .., h | .reference _, h | .chain .., h
  | .choice .., h => by cases h.here.admitted

theorem readConditionItems_recovers : (nodes : List Node) → (∀ node ∈ nodes, node.Seated Storable .condition) →
    ∃ vs, writeConditions nodes = .ok vs ∧ ∀ joining path i, i + nodes.length ≤ 10 ^ Text.maxDigits →
      ∃ backs, readConditionItems joining path i vs = .ok backs ∧ bareItems backs = bareItems nodes
  | [], _ => ⟨[], rfl, fun _ _ _ _ => ⟨[], rfl, rfl⟩⟩
  | node :: nodes, h => by
      obtain ⟨here, others⟩ := List.forall_mem_cons.mp h
      obtain ⟨v, written, reads⟩ := readCondition_recovers node here
      obtain ⟨vs, writtenRest, readsRest⟩ := readConditionItems_recovers nodes others
      refine ⟨v :: vs, by simp [writeConditions, written, writtenRest], fun joining path i small => ?_⟩
      rw [List.length_cons] at small
      have labelled := Label.positional_child path (show i < 10 ^ Text.maxDigits by omega)
      obtain ⟨back, read, same⟩ := reads joining _ labelled
      obtain ⟨backs, readRest, sameRest⟩ := readsRest joining path (i + 1) (by omega)
      refine ⟨back :: backs, ?_, by simp only [bareItems, same, sameRest]⟩
      simp only [readConditionItems, read, readRest, ok_bind, pure_eq_ok]

end

/-! ### Choices -/

theorem shown_eq_ok {path : String} {l : ResultLabel}
    (h : ∀ kind, ∃ label, Label.positional path kind = .ok label) : ∃ name, l.shown path node = .ok name := by
  unfold ResultLabel.shown
  split
  · exact ⟨_, rfl⟩
  · split
    · exact ⟨_, rfl⟩
    · obtain ⟨label, known⟩ := h .expression
      exact ⟨.text label, by rw [known]; rfl⟩

theorem label_eq_ok {path : String} (h : ∀ kind, ∃ label, Label.positional path kind = .ok label)
    (name : Value) (result : Node) : ∃ l, label path name result = .ok l := by
  obtain ⟨default, known⟩ := h .expression
  simp only [label, known, ok_bind]
  split
  · exact ⟨_, rfl⟩
  · split
    · split <;> exact ⟨_, rfl⟩
    · exact ⟨_, rfl⟩

/-- The result at a path comes back with its structure, and with the label that is read for the name that was shown. -/
def Returns (path : String) (result result' : Node) (l l' : ResultLabel) : Prop :=
  result'.bare = result.bare ∧ ∃ name, l.shown path result = .ok name ∧ label path name result' = .ok l'

theorem readBranches_recovers : (branches : List (Branch Node)) → {i : Nat} →
    (∀ b ∈ branches, b.condition.Seated Storable .condition ∧ b.result.Seated Storable .expression) →
    i + branches.length ≤ 10 ^ Text.maxDigits →
    ∃ vs, writeBranches i branches = .ok vs ∧
      ∀ joining, ∃ backs, readBranches joining i vs = .ok backs ∧ bareBranches backs = bareBranches branches ∧
        ∀ (k : Nat) (b b' : Branch Node), branches[k]? = some b → backs[k]? = some b' →
          Returns (Choice.resultPath ((i + k : Nat) : Int)) b.result b'.result b.label b'.label
  | [], _, _, _ => ⟨[], rfl, fun _ => ⟨[], rfl, rfl, fun _ _ _ none => by cases none⟩⟩
  | ⟨condition, result, l⟩ :: branches, i, h, small => by
      obtain ⟨⟨inCondition, inResult⟩, others⟩ := List.forall_mem_cons.mp h
      rw [List.length_cons] at small
      have here : i < 10 ^ Text.maxDigits := by omega
      obtain ⟨c, writtenCondition, readsCondition⟩ := readCondition_recovers condition inCondition
      obtain ⟨r, writtenResult, readsResult⟩ :=
        readExpression_recovers (isExpression_of_expression inResult.here.admitted) inResult
      obtain ⟨name, shown⟩ : ∃ name, l.shown (Choice.resultPath i) result = .ok name :=
        shown_eq_ok fun kind => ⟨_, Label.positional_result here kind⟩
      obtain ⟨vs, writtenRest, readsRest⟩ := readBranches_recovers branches others (show i + 1 + _ ≤ _ by omega)
      simp only [writeBranches, writeBranch, writtenCondition, writtenResult, shown, writtenRest, ok_bind, pure_eq_ok,
        Except.ok.injEq, exists_eq_left']
      intro joining
      obtain ⟨result', readResult, same⟩ := readsResult joining
      obtain ⟨condition', readCondition, same'⟩ := readsCondition joining _ (Label.positional_condition here)
      obtain ⟨l', labelled⟩ := label_eq_ok (fun kind => ⟨_, Label.positional_result here kind⟩) name result'
      obtain ⟨backs, readRest, sameRest, returns⟩ := readsRest joining
      refine ⟨⟨condition', result', l'⟩ :: backs, ?_, by simp only [bareBranches, same, same', sameRest], ?_⟩
      · simp only [readBranches, readBranch, part_cons, part_nil, if_true, if_false, String.reduceEq, readResult,
          labelled, readCondition, readRest, ok_bind, pure_eq_ok]
      · intro k b b' there back
        cases k with
        | zero =>
            cases there
            cases back
            exact ⟨same, name, shown, labelled⟩
        | succ k =>
            have next : i + (k + 1) = i + 1 + k := by omega
            rw [next]
            exact returns k b b' there back

theorem positional_otherwise (kind : Kind) : ∃ label, Label.positional Choice.otherwisePath kind = .ok label :=
  ⟨_, rfl⟩

theorem readChoice_recovers {branches : List (Branch Node)} {otherwise : Node} {l : ResultLabel}
    (h : (Node.choice branches otherwise l).Seated Storable seat) :
    ∃ v, writeChoice ⟨branches, otherwise, l⟩ = .ok v ∧ ∀ joining, ∃ backs otherwise' l',
      readChoice joining v = .ok (.choice backs otherwise' l') ∧ bareBranches backs = bareBranches branches ∧
      (∀ (k : Nat) (b b' : Branch Node), branches[k]? = some b → backs[k]? = some b' →
        Returns (Choice.resultPath k) b.result b'.result b.label b'.label) ∧
      Returns Choice.otherwisePath otherwise otherwise' l l' := by
  obtain ⟨here, last, inside⟩ := seated_choice.mp h
  obtain ⟨vs, written, reads⟩ := readBranches_recovers branches inside (by rw [Nat.zero_add]; exact here.small)
  obtain ⟨o, writtenLast, readsLast⟩ := readExpression_recovers (isExpression_of_expression last.here.admitted) last
  obtain ⟨name, shown⟩ : ∃ name, l.shown Choice.otherwisePath otherwise = .ok name := shown_eq_ok positional_otherwise
  simp only [writeChoice, written, writtenLast, Choice.otherwiseLabel, shown, ok_bind, pure_eq_ok, Except.ok.injEq,
    exists_eq_left']
  intro joining
  obtain ⟨backs, read, same, returns⟩ := reads joining
  obtain ⟨otherwise', readLast, same'⟩ := readsLast joining
  obtain ⟨l', labelled⟩ := label_eq_ok positional_otherwise name otherwise'
  refine ⟨backs, otherwise', l', ?_, same, ?_, same', name, shown, labelled⟩
  · simp [readChoice, Members.contains, Members.get?, read, readLast, labelled]
  · simpa only [Nat.zero_add] using returns

/-! ### Documents -/

/-- A definition of the right sort and proportions is written and read back. -/
theorem readDefinition_recovers {form : Form} (h : node.Seated Storable (.ofForm form)) :
    ∃ v, writeDefinition node = .ok v ∧
      ∀ joining, ∃ back, readDefinition joining (.text form.text) v = .ok back ∧ back.bare = node.bare := by
  simp only [readDefinition, ofValue?_form]
  cases form with
  | condition =>
      have writes : writeDefinition node = writeCondition node := by
        cases node <;> first | rfl | cases h.here.admitted
      obtain ⟨v, written, reads⟩ := readCondition_recovers node h
      exact ⟨v, writes ▸ written, fun joining => reads joining "root" fun _ => ⟨_, rfl⟩⟩
  | choice =>
      cases node with
      | choice branches otherwise l =>
          obtain ⟨v, written, reads⟩ := readChoice_recovers h
          refine ⟨v, written, fun joining => ?_⟩
          obtain ⟨backs, otherwise', l', read, same, -, last, -⟩ := reads joining
          exact ⟨_, read, by simp only [bare, same, last]⟩
      | _ => cases h.here.admitted
  | expression =>
      have expression := isExpression_of_expression h.here.admitted
      have writes : writeDefinition node = writeExpression node := by
        cases node <;> first | rfl | cases expression
      obtain ⟨v, written, reads⟩ := readExpression_recovers expression h
      exact ⟨v, writes ▸ written, reads⟩

end Stored

namespace Document

open Stored

/-- A document can be written, and what is written is read back, if its definition is of the right sort in the right
proportions. -/
theorem read_write {d : Document} (ht : d.type.isMissing = false)
    (h : d.definition.Seated Node.Storable (.ofForm d.form)) :
    ∃ o, d.write = .ok o ∧ ∀ catalogue, ∃ d', Document.read catalogue o = .ok d' ∧ d'.form = d.form ∧
      d'.type = d.type ∧ d'.definition.bare = d.definition.bare := by
  obtain ⟨v, written, reads⟩ := readDefinition_recovers h
  simp only [write, written, ok_bind, pure_eq_ok, Except.ok.injEq, exists_eq_left']
  intro catalogue
  obtain ⟨back, reads, same⟩ := reads (catalogue.map Catalogue.defaultJoining)
  simp only [read, part_cons, part_nil, if_true, if_false, String.reduceEq, reads, ok_bind, metadata, make,
    ofValue?_form, ht, Bool.false_eq_true]
  exact ⟨_, rfl, rfl, rfl, same⟩

end Document

end RuleEditor
