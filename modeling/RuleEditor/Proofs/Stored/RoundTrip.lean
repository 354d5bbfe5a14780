import RuleEditor.Proofs.Stored.NormalForm
import RuleEditor.Proofs.Tree.Everywhere

/-! Writing and reading back. What is written for a definition in normal form reads back as that
definition without its findings, whatever operator a reader would fill in. -/
namespace RuleEditor.Stored
open Node

@[simp] theorem part_nil (key : String) : part key [] = .null := rfl

@[simp] theorem part_cons (key k : String) (v : Value) (ms : Members Value) :
    part key ((k, v) :: ms) = if k = key then v else part key ms := by
  simp only [part, Members.get?]
  split <;> rfl

theorem isMissing_of_present {v : Value} (h : v.isPresent) : v.isMissing = false := by
  simpa only [Value.isPresent, Bool.not_eq_true'] using h

theorem orElse_of_present {v : Value} (h : v.isPresent) (other : Value) : v.orElse other = v := by
  simp only [Value.orElse, isMissing_of_present h, Bool.false_eq_true, if_false]

theorem eq_null_of_isNull {v : Value} (h : v.isNull) : v = .null := by
  cases v with
  | null => rfl
  | _ => cases h

/-- A missing rule type is not written, and reads back as null. -/
theorem reference_written {target : Reference} (h : target.type.isPresent) (defaultType : String)
    (tag : Value) :
    reference defaultType (("type", tag) :: ("returnType", target.type) :: targetMembers target) =
      target.unreviewed := by
  cases hn : target.ruleType.isNull with
  | false => simp [reference, targetMembers, hn, orElse_of_present h, Reference.unreviewed, Reference.unchecked]
  | true =>
      simp [reference, targetMembers, eq_null_of_isNull hn, Value.isNull, orElse_of_present h,
        Reference.unreviewed, Reference.unchecked]

theorem check_written {target : Reference} (h : target.type.isPresent) (defaultType : String) :
    reference defaultType (targetMembers target ++ [("returnType", target.type)]) = target.unreviewed := by
  cases hn : target.ruleType.isNull with
  | false => simp [reference, targetMembers, hn, orElse_of_present h, Reference.unreviewed, Reference.unchecked]
  | true =>
      simp [reference, targetMembers, eq_null_of_isNull hn, Value.isNull, orElse_of_present h,
        Reference.unreviewed, Reference.unchecked]

/-- The operators of a normal chain are read back as they are, also when there are none. -/
theorem items_list (operators : List Value) : items (.list operators) = .ok operators := by
  cases operators <;> rfl

/-- The node itself, without what is further inside, is read as it is written, before chains are normalized. The
stored type of a chain counts, but its operands and operators have to allow some inferred one. -/
def Restorable : Node → Prop
  | .literal type _ | .field type _ | .call type _ _ => type.isPresent
  | .reference target => target.type.isPresent
  | .chain type operands operators =>
    type.isPresent ∧ operands ≠ [] ∧ ∃ inferred, Typing.infer Typing.arithmetic operands operators = .ok inferred
  | _ => False

theorem readRawItems_written {nodes : List Node}
    (h : ∀ node ∈ nodes, ∃ v, writeExpression node = .ok v ∧ readRaw v = .ok node.unreviewed) :
    ∃ vs, writeExpressions nodes = .ok vs ∧ readRawItems vs = .ok (unreviewedItems nodes) := by
  induction nodes with
  | nil => exact ⟨[], rfl, rfl⟩
  | cons node nodes ih =>
      obtain ⟨⟨v, written, read⟩, others⟩ := List.forall_mem_cons.mp h
      obtain ⟨vs, writtenRest, readRest⟩ := ih others
      refine ⟨v :: vs, by simp [writeExpressions, written, writtenRest], ?_⟩
      simp [readRawItems, read, readRest, unreviewedItems]

theorem readArgumentItems_written {arguments : List (Argument Node)}
    (h : ∀ a ∈ arguments, ∃ v, writeExpression a.value = .ok v ∧ readRaw v = .ok a.value.unreviewed) :
    ∃ vs, writeArguments arguments = .ok vs ∧ readArgumentItems vs = .ok (unreviewedArguments arguments) := by
  induction arguments with
  | nil => exact ⟨[], rfl, rfl⟩
  | cons argument arguments ih =>
      obtain ⟨⟨v, written, read⟩, others⟩ := List.forall_mem_cons.mp h
      obtain ⟨vs, writtenRest, readRest⟩ := ih others
      simp only [writeArguments, written, writtenRest, ok_bind, pure_eq_ok, Except.ok.injEq, exists_eq_left']
      simp [readArgumentItems, readArgument, readRawIn, read, readRest, unreviewedArguments]

theorem readRaw_written {node : Node} (h : Everywhere Restorable node) :
    ∃ v, writeExpression node = .ok v ∧ readRaw v = .ok node.unreviewed := by
  induction h with
  | @intro node here inside ih =>
      cases node with
      | literal type value =>
          refine ⟨_, rfl, ?_⟩
          simp [readRaw, unreviewed, orElse_of_present here]
      | field type path =>
          refine ⟨_, rfl, ?_⟩
          simp [readRaw, unreviewed, orElse_of_present here]
      | call type name arguments =>
          obtain ⟨vs, written, read⟩ := readArgumentItems_written fun a there => ih _ (List.mem_map_of_mem there)
          simp only [writeExpression, written, ok_bind, pure_eq_ok, Except.ok.injEq, exists_eq_left']
          simp [readRaw, readFunctionIn, readFunction, readArgumentsIn, readArguments, read, unreviewed,
            orElse_of_present here]
      | reference target =>
          refine ⟨_, rfl, ?_⟩
          simp only [List.cons_append, List.nil_append, readRaw, part_cons, if_true, reference_written here,
            unreviewed]
      | chain type operands operators =>
          obtain ⟨present, some, inferred, infers⟩ := here
          have items : ∃ vs, writeExpressions operands = .ok vs ∧ readRawItems vs = .ok (unreviewedItems operands) :=
            readRawItems_written ih
          obtain ⟨vs, written, read⟩ := items
          have some : unreviewedItems operands ≠ [] := by
            intro none
            have length := unreviewedItems_length operands
            rw [none, List.length_nil] at length
            exact some (List.length_eq_zero_iff.mp length.symm)
          simp only [writeExpression, written, ok_bind, pure_eq_ok, Except.ok.injEq, exists_eq_left']
          simp [readRaw, readOperandsIn, readOperands, read, items_list, some, infer_unreviewed, infers,
            unreviewed, orElse_of_present present]
      | _ => exact here.elim

mutual

theorem restorable_of_normal : ∀ node : Node, node.NormalExpression → Everywhere Restorable node
  | .literal .., h | .field .., h | .reference _, h => .intro h nofun
  | .call _ _ arguments, h => .intro h.1 (restorable_of_normalArguments arguments h.2)
  | .chain _ operands _, h => by
      obtain ⟨two, _, inferred, normal⟩ := h
      refine .intro ⟨infer_present inferred, ?_, _, inferred⟩ (restorable_of_normalItems operands normal)
      rintro rfl
      cases two

theorem restorable_of_normalItems : ∀ nodes : List Node, NormalExpressions nodes →
    ∀ node ∈ nodes, Everywhere Restorable node
  | [], _ => nofun
  | node :: nodes, h =>
      List.forall_mem_cons.mpr ⟨restorable_of_normal node h.1, restorable_of_normalItems nodes h.2⟩

theorem restorable_of_normalArguments : ∀ arguments : List (Argument Node), NormalArguments arguments →
    ∀ node ∈ arguments.map (·.value), Everywhere Restorable node
  | [], _ => nofun
  | ⟨_, value⟩ :: arguments, h =>
      List.forall_mem_cons.mpr ⟨restorable_of_normal value h.1, restorable_of_normalArguments arguments h.2⟩

end

/-- Of normal operands and operators that fit them a chain is made as they are. -/
theorem ofNormal_of_fits {numeric : List String} {joining : Option Joining} {operands : List Node}
    {operators : List Value} {type : Value} (ht : 2 ≤ operands.length)
    (hc : operators.length + 1 = operands.length)
    (hi : Typing.infer numeric operands operators = .ok type) :
    Chain.ofNormal numeric joining operands operators = .ok (.chain type operands operators) := by
  have kept : operators.take (operands.length - 1) = operators := List.take_of_length_le (by omega)
  have fitted : Chain.fit joining operands operators = .ok operators := by
    simp only [Chain.fit, kept]
    rw [if_pos (by omega)]
    rfl
  match operands, ht with
  | first :: second :: rest, _ => simp [Chain.ofNormal, fitted, hi]

mutual

/-- Normalizing leaves a normal expression as it is. -/
theorem normalized_normal (joining : Option Joining) : ∀ node : Node, node.NormalExpression →
    node.normalized Typing.arithmetic joining = .ok node
  | .literal .., _ | .field .., _ | .reference _, _ => rfl
  | .call type name arguments, h => by
      simp [normalized, normalizedArguments_normal joining arguments h.2]
  | .chain type operands operators, h => by
      obtain ⟨two, count, inferred, normal⟩ := h
      simp only [normalized, normalizedOperands_normal joining operands normal, ok_bind]
      exact ofNormal_of_fits two count inferred

theorem normalizedOperands_normal (joining : Option Joining) : ∀ nodes : List Node,
    NormalExpressions nodes → normalizedOperands Typing.arithmetic joining nodes = .ok nodes
  | [], _ => rfl
  | node :: nodes, h => by
      simp [normalizedOperands, normalized_normal joining node h.1,
        normalizedOperands_normal joining nodes h.2]

theorem normalizedArguments_normal (joining : Option Joining) : ∀ arguments : List (Argument Node),
    NormalArguments arguments →
      normalizedArguments Typing.arithmetic joining arguments = .ok arguments
  | [], _ => rfl
  | ⟨name, value⟩ :: arguments, h => by
      simp [normalizedArguments, normalized_normal joining value h.1,
        normalizedArguments_normal joining arguments h.2]

end

theorem readExpression_written {node : Node} (h : node.NormalExpression) :
    ∃ v, writeExpression node = .ok v ∧
      ∀ joining, readExpression joining v = .ok node.unreviewed := by
  obtain ⟨v, written, read⟩ := readRaw_written (restorable_of_normal node h)
  refine ⟨v, written, fun joining => ?_⟩
  simp only [readExpression, read, ok_bind]
  exact normalized_normal joining _ (normalExpression_unreviewed node h)

/-- Several right operands are read one by one. -/
theorem readItems_written : ∀ nodes : List Node, NormalExpressions nodes →
    ∃ vs, writeExpressions nodes = .ok vs ∧
      ∀ joining, vs.mapM (readExpression joining) = .ok (unreviewedItems nodes)
  | [], _ => ⟨[], rfl, fun _ => rfl⟩
  | node :: nodes, h => by
      obtain ⟨v, written, read⟩ := readExpression_written h.1
      obtain ⟨vs, writtenRest, readRest⟩ := readItems_written nodes h.2
      refine ⟨v :: vs, by simp [writeExpressions, written, writtenRest], fun joining => ?_⟩
      simp [List.mapM_cons, read joining, readRest joining, unreviewedItems]

/-- An expression is written as a record, so it is told apart from nothing and from several. -/
theorem record_of_written {node : Node} {v : Value} (h : writeExpression node = .ok v) :
    ∃ ms, v = .record ms := by
  cases node with
  | call type name arguments =>
      obtain ⟨_, _, h⟩ := bind_eq_ok.mp h
      cases h
      exact ⟨_, rfl⟩
  | chain type operands operators =>
      obtain ⟨_, _, h⟩ := bind_eq_ok.mp h
      cases h
      exact ⟨_, rfl⟩
  | literal | field | reference =>
      cases h
      exact ⟨_, rfl⟩
  | _ => cases h

theorem readRight_written {right : Node} (h : right.NormalRight) :
    ∃ v, writeRight right = .ok v ∧ ∀ joining, readRight joining v = .ok right.unreviewed := by
  have single (normal : right.NormalExpression) : ∃ v, writeExpression right = .ok v ∧
      ∀ joining, readRight joining v = .ok right.unreviewed := by
    obtain ⟨v, written, read⟩ := readExpression_written normal
    obtain ⟨ms, rfl⟩ := record_of_written written
    exact ⟨_, written, read⟩
  cases right with
  | absent => exact ⟨_, rfl, fun _ => rfl⟩
  | several items =>
      obtain ⟨vs, written, read⟩ := readItems_written items h
      refine ⟨.list vs, by simp [writeRight, written], fun joining => ?_⟩
      simp [readRight, read joining, unreviewed]
  | _ => exact single h

theorem nameOr_of_present {name : Value} (h : name.isPresent) (path : String) (kind : Kind) :
    nameOr path kind name = .ok name := by
  simp only [nameOr, h, if_true]

theorem conjunction_written (c : Conjunction) :
    Conjunction.ofValue ((Value.text c.text).orElse (.text "AND")) = .ok c := by
  cases c <;> rfl

mutual

/-- A condition that has been written is read back at any place: no label is filled in. -/
theorem readCondition_written : ∀ node : Node, node.NormalCondition →
    ∃ v, writeCondition node = .ok v ∧
      ∀ joining path, readCondition joining path v = .ok node.unreviewed
  | .comparison name left operator right, h => by
      obtain ⟨named, leftNormal, rightNormal⟩ := h
      obtain ⟨l, writtenLeft, readLeft⟩ := readExpression_written leftNormal
      obtain ⟨r, writtenRight, readRight⟩ := readRight_written rightNormal
      simp only [writeCondition, writtenLeft, writtenRight, ok_bind, pure_eq_ok, Except.ok.injEq,
        exists_eq_left']
      intro joining path
      simp [readCondition, checked?, nameOr_of_present named, readLeft joining, readRight joining,
        unreviewed]
  | .group name children conjunction negated, h => by
      obtain ⟨named, normal⟩ := h
      obtain ⟨vs, written, read⟩ := readConditionItems_written children normal
      simp only [writeCondition, written, ok_bind, pure_eq_ok, Except.ok.injEq, exists_eq_left']
      intro joining path
      simp [readCondition, checked?, readConditionsIn, readConditions, read joining path 0,
        nameOr_of_present named, conjunction_written, Value.isPresent, Value.isMissing, unreviewed]
  | .ruleCheck name target, h => by
      obtain ⟨named, typed⟩ := h
      refine ⟨_, rfl, fun joining path => ?_⟩
      simp [readCondition, checked?, check_written typed, nameOr_of_present named,
        orElse_of_present named, unreviewed]

theorem readConditionItems_written : ∀ nodes : List Node, NormalConditions nodes →
    ∃ vs, writeConditions nodes = .ok vs ∧
      ∀ joining path i, readConditionItems joining path i vs = .ok (unreviewedItems nodes)
  | [], _ => ⟨[], rfl, fun _ _ _ => rfl⟩
  | node :: nodes, h => by
      obtain ⟨v, written, read⟩ := readCondition_written node h.1
      obtain ⟨vs, writtenRest, readRest⟩ := readConditionItems_written nodes h.2
      refine ⟨v :: vs, by simp [writeConditions, written, writtenRest], fun joining path i => ?_⟩
      simp [readConditionItems, read, readRest, unreviewedItems]

end

/-! ### Labels of results -/

/-- A label as it comes back: its stored name is the text that is shown for the slot. -/
def Restored (path : String) (result : Node) (l l' : ResultLabel) : Prop :=
  ∃ name, l.shown path result = .ok name ∧ label path name result.unreviewed = .ok l'

/-- The branches as they come back, from the `i`-th one on. -/
def RestoredBranches (i : Nat) : List (Branch Node) → List (Branch Node) → Prop
  | [], [] => True
  | ⟨condition, result, l⟩ :: branches, ⟨condition', result', l'⟩ :: branches' =>
    condition' = condition.unreviewed ∧ result' = result.unreviewed ∧
      Restored (Choice.resultPath i) result l l' ∧ RestoredBranches (i + 1) branches branches'
  | _, _ => False

theorem resolved_of_selected {result : Node} {target : Reference} (h : result.selected? = some target) :
    target.isResolved := by
  cases result with
  | reference r =>
      simp only [selected?] at h
      split at h
      · cases h
        assumption
      · cases h
  | _ => cases h

theorem same_text (s t : String) : (Value.text s).same (.text t) = (s == t) := by
  simp only [Value.same]

theorem restored_of_recoverable {path : String} {result : Node} {l : ResultLabel}
    (h : l.Recoverable path result) : Restored path result l l := by
  obtain ⟨default, positional, ⟨rfl, none⟩ | ⟨target, id, some, same, other, rfl⟩ |
    ⟨text, rfl, present, notDefault, notTarget⟩⟩ := h
  · refine ⟨.text default, ?_, ?_⟩
    · simp [ResultLabel.shown, ResultLabel.positional, none, positional, Except.map]
    · simp [label, positional, same_text]
  · have resolved := resolved_of_selected some
    simp only [Reference.isResolved, Bool.and_eq_true, same] at resolved
    refine ⟨.text id, ?_, ?_⟩
    · simp [ResultLabel.shown, some, same]
    · simp [label, positional, isMissing_of_present resolved.1, same_text, other, selected?_unreviewed,
        some, Reference.unreviewed, same]
  · refine ⟨text, ?_, ?_⟩
    · simp [ResultLabel.shown, present]
    · cases some : result.selected? with
      | none =>
          simp [label, positional, isMissing_of_present present, notDefault, selected?_unreviewed, some]
      | some target =>
          simp [label, positional, isMissing_of_present present, notDefault, selected?_unreviewed, some,
            Reference.unreviewed, notTarget target some]

theorem restoredBranches_of_recoverable : ∀ (i : Nat) (branches : List (Branch Node)),
    RecoverableLabels i branches → RestoredBranches i branches (unreviewedBranches branches)
  | _, [], _ => trivial
  | i, ⟨_, _, _⟩ :: branches, h =>
      ⟨rfl, rfl, restored_of_recoverable h.1, restoredBranches_of_recoverable (i + 1) branches h.2⟩

theorem readBranches_written : ∀ (i : Nat) (branches branches' : List (Branch Node)),
    NormalBranches branches → RestoredBranches i branches branches' →
    ∃ vs, writeBranches i branches = .ok vs ∧ ∀ joining, readBranches joining i vs = .ok branches'
  | _, [], [], _, _ => ⟨[], rfl, fun _ => rfl⟩
  | i, ⟨condition, result, l⟩ :: branches, ⟨_, _, l'⟩ :: branches', normal, restored => by
      obtain ⟨conditionNormal, resultNormal, normalRest⟩ := normal
      obtain ⟨rfl, rfl, ⟨name, shown, labelled⟩, restoredRest⟩ := restored
      obtain ⟨c, writtenCondition, readsCondition⟩ := readCondition_written condition conditionNormal
      obtain ⟨r, writtenResult, readsResult⟩ := readExpression_written resultNormal
      obtain ⟨vs, writtenRest, readRest⟩ :=
        readBranches_written (i + 1) branches branches' normalRest restoredRest
      simp only [writeBranches, writeBranch, writtenCondition, writtenResult, shown, writtenRest, ok_bind,
        pure_eq_ok, Except.ok.injEq, exists_eq_left']
      intro joining
      simp [readBranches, readBranch, readsResult, readsCondition, labelled, readRest]

theorem readChoice_written {branches branches' : List (Branch Node)} {otherwise : Node}
    {l l' : ResultLabel} (hn : NormalBranches branches) (hl : otherwise.NormalExpression)
    (hr : RestoredBranches 0 branches branches')
    (he : Restored Choice.otherwisePath otherwise l l') :
    ∃ v, writeChoice ⟨branches, otherwise, l⟩ = .ok v ∧
      ∀ joining, readChoice joining v = .ok (.choice branches' otherwise.unreviewed l') := by
  obtain ⟨vs, written, read⟩ := readBranches_written 0 branches branches' hn hr
  obtain ⟨o, writtenLast, readLast⟩ := readExpression_written hl
  obtain ⟨name, shown, labelled⟩ := he
  simp only [writeChoice, written, writtenLast, Choice.otherwiseLabel, shown, ok_bind, pure_eq_ok,
    Except.ok.injEq, exists_eq_left']
  intro joining
  simp [readChoice, Members.contains, Members.get?, read, readLast, labelled]

/-! ### Findings are not written -/

mutual

theorem writeExpression_unreviewed : ∀ node : Node,
    writeExpression node.unreviewed = writeExpression node
  | .absent | .literal .. | .field .. | .reference _ | .several _ | .comparison .. | .group ..
  | .ruleCheck .. | .choice .. => rfl
  | .call _ _ arguments => by
      simp only [unreviewed, writeExpression, writeArguments_unreviewed arguments]
  | .chain _ operands _ => by
      simp only [unreviewed, writeExpression, writeExpressions_unreviewed operands]

theorem writeExpressions_unreviewed : ∀ nodes : List Node,
    writeExpressions (unreviewedItems nodes) = writeExpressions nodes
  | [] => rfl
  | node :: nodes => by
      simp only [unreviewedItems, writeExpressions, writeExpression_unreviewed node,
        writeExpressions_unreviewed nodes]

theorem writeArguments_unreviewed : ∀ arguments : List (Argument Node),
    writeArguments (unreviewedArguments arguments) = writeArguments arguments
  | [] => rfl
  | ⟨_, value⟩ :: arguments => by
      simp only [unreviewedArguments, writeArguments, writeExpression_unreviewed value,
        writeArguments_unreviewed arguments]

end

theorem writeRight_unreviewed (right : Node) : writeRight right.unreviewed = writeRight right := by
  cases right with
  | several items => simp only [unreviewed, writeRight, writeExpressions_unreviewed]
  | absent => rfl
  | _ => exact writeExpression_unreviewed _

mutual

theorem writeCondition_unreviewed : ∀ node : Node,
    writeCondition node.unreviewed = writeCondition node
  | .absent | .literal .. | .field .. | .call .. | .reference _ | .chain .. | .several _
  | .ruleCheck .. | .choice .. => rfl
  | .comparison .. => by
      simp only [unreviewed, writeCondition, writeRight_unreviewed, writeExpression_unreviewed]
  | .group _ children _ _ => by
      simp only [unreviewed, writeCondition, writeConditions_unreviewed children]

theorem writeConditions_unreviewed : ∀ nodes : List Node,
    writeConditions (unreviewedItems nodes) = writeConditions nodes
  | [] => rfl
  | node :: nodes => by
      simp only [unreviewedItems, writeConditions, writeCondition_unreviewed node,
        writeConditions_unreviewed nodes]

end

theorem shown_unreviewed (path : String) (result : Node) (l : ResultLabel) :
    l.shown path result.unreviewed = l.shown path result := by
  simp only [ResultLabel.shown, selected?_unreviewed]
  cases result.selected? <;> rfl

theorem writeBranches_unreviewed : ∀ (i : Nat) (branches : List (Branch Node)),
    writeBranches i (unreviewedBranches branches) = writeBranches i branches
  | _, [] => rfl
  | i, ⟨condition, result, label⟩ :: branches => by
      simp only [unreviewedBranches, writeBranches, writeBranch, writeCondition_unreviewed,
        writeExpression_unreviewed, shown_unreviewed, writeBranches_unreviewed (i + 1) branches]

theorem writeDefinition_unreviewed (node : Node) :
    writeDefinition node.unreviewed = writeDefinition node := by
  cases node with
  | choice branches otherwise label =>
      simp only [unreviewed, writeDefinition, writeChoice, writeBranches_unreviewed,
        writeExpression_unreviewed, Choice.otherwiseLabel, shown_unreviewed]
  | comparison | group | ruleCheck => exact writeCondition_unreviewed _
  | _ => exact writeExpression_unreviewed _

theorem ofValue?_form (form : Form) : Form.ofValue? (.text form.text) = some form :=
  Form.ofText?_text form

/-- What is written for a definition in normal form reads back as the definition without its findings,
whatever operator would be filled in; and the findings of a tree do not show in what is written. -/
theorem readDefinition_writeDefinition (d : Node) (h : d.NormalDefinition) :
    (∃ v, writeDefinition d = .ok v ∧
      ∀ joining, readDefinition joining (.text d.form.text) v = .ok d.unreviewed) ∧
    ∀ a b : Node, a.unreviewed = b.unreviewed → writeDefinition a = writeDefinition b := by
  refine ⟨?_, fun a b same => ?_⟩
  · simp only [readDefinition, ofValue?_form]
    cases d with
    | choice branches otherwise label =>
        obtain ⟨bodies, labels, last, lastLabel⟩ := h
        exact readChoice_written bodies last (restoredBranches_of_recoverable 0 branches labels)
          (restored_of_recoverable lastLabel)
    | comparison | group | ruleCheck =>
        obtain ⟨v, written, read⟩ := readCondition_written _ h
        exact ⟨v, written, fun joining => read joining "root"⟩
    | absent | several => cases h
    | literal | field | call | reference | chain => exact readExpression_written h
  · rw [← writeDefinition_unreviewed a, same, writeDefinition_unreviewed b]

/-- A choice that shows every label state: a rule's identifier, a typed text and the position. -/
def tariff : Node :=
  .choice
    [⟨.group (.text "Group 1")
        [.ruleCheck (.text "ADULT") (.unchecked (.text "boolean") (.text "ADULT") (.text "u-1") (.int 2) .null)]
        .any true,
      .reference { Reference.unchecked (.text "number") (.text "BASE") (.text "u-2") (.int 1)
        (.text "Pricing") with mismatch := some false },
      ⟨.text "BASE", .target, false⟩⟩,
     ⟨.comparison (.text "Condition 1") (.field (.text "number") (.text "T.AGE")) (.text "in")
        (.several [.literal (.text "number") (.int 1), .literal (.text "number") (.int 2)]),
      .chain (.text "number")
        [.field (.text "number") (.text "T.FEE"), .call (.text "number") (.text "F") []] [.text "+"],
      ⟨.text "Reduced", .typed, true⟩⟩]
    (.literal (.text "number") (.int 0)) .positional

theorem tariff_normal : tariff.NormalDefinition := by
  refine ⟨?_, ⟨⟨"Result 1", rfl, ?_⟩, ⟨"Result 2", rfl, ?_⟩, trivial⟩, rfl, "Default", rfl, ?_⟩
  · simp [NormalBranches, NormalCondition, NormalConditions, NormalExpression, NormalExpressions,
      NormalArguments, NormalRight, Reference.unchecked, Value.isPresent, Value.isMissing]
    rfl
  · exact .inr (.inl ⟨_, "BASE", rfl, rfl, by decide, rfl⟩)
  · exact .inr (.inr ⟨_, rfl, rfl, rfl, fun _ none => by cases none⟩)
  · exact .inl ⟨rfl, rfl⟩

theorem read_write_tariff : tariff.NormalDefinition ∧
    ∃ v, writeDefinition tariff = .ok v ∧
      readDefinition none (.text "case") v = .ok tariff.unreviewed :=
  ⟨tariff_normal, by
    obtain ⟨⟨v, written, read⟩, _⟩ := readDefinition_writeDefinition tariff tariff_normal
    exact ⟨v, written, read none⟩⟩

end RuleEditor.Stored
