import RuleEditor.Proofs.Edit.Shapes
import RuleEditor.Proofs.Stored.RoundTrip

/-! What has been read once. Reading fills in every type and name and brings chains into normal form, so
the written form of a definition that has been read is canonical: it reads back and is written the same
again. Only the labels of results may become others, though not the texts that are shown for them. -/
namespace RuleEditor
namespace Node

mutual

/-- An expression as it is read before its chains are normalized. -/
def RawExpression : Node → Prop
  | .literal type _ | .field type _ => type.isPresent
  | .call type _ arguments => type.isPresent ∧ RawArguments arguments
  | .reference target => target.type.isPresent ∧ target.unreviewed = target
  | .chain _ operands _ => RawExpressions operands
  | _ => False

def RawExpressions : List Node → Prop
  | [] => True
  | node :: nodes => node.RawExpression ∧ RawExpressions nodes

def RawArguments : List (Argument Node) → Prop
  | [] => True
  | ⟨_, value⟩ :: arguments => value.RawExpression ∧ RawArguments arguments

end

end Node

namespace Stored
open Node

theorem present_orElse {v other : Value} (h : other.isPresent) : (v.orElse other).isPresent := by
  simp only [Value.orElse]
  split
  · exact h
  · simpa [Value.isPresent] using ‹¬ v.isMissing = true›

theorem literalType_present (v : Value) : (literalType v).isPresent := by
  cases v <;> rfl

theorem reference_present {defaultType : String} (h : defaultType ≠ "") (ms : Members Value) :
    (reference defaultType ms).type.isPresent ∧
      (reference defaultType ms).unreviewed = reference defaultType ms := by
  refine ⟨present_orElse ?_, rfl⟩
  simpa [Value.isPresent, Value.isMissing] using h

/-- What stands in for a list never yields an item. -/
theorem eq_nil_of_noItems {α : Type} {fault : Fault} {v : Value} {xs : List α}
    (h : noItems fault v = .ok xs) : xs = [] := by
  simp only [noItems] at h
  split at h
  · cases h
    rfl
  · split at h <;> cases h

mutual

theorem readRaw_raw : ∀ (v : Value) {node : Node}, readRaw v = .ok node → node.RawExpression
  | .record ms, node, h => by
      simp only [readRaw] at h
      split at h
      · cases h
        exact present_orElse (literalType_present _)
      · cases h
        exact present_orElse rfl
      · obtain ⟨⟨name, arguments⟩, read, h⟩ := bind_eq_ok.mp h
        cases h
        exact ⟨present_orElse rfl, readFunctionIn_raw ms read⟩
      · cases h
        exact reference_present (by decide) ms
      · obtain ⟨operands, read, h⟩ := bind_eq_ok.mp h
        obtain ⟨operators, _, h⟩ := bind_eq_ok.mp h
        have raw : RawExpressions operands := readOperandsIn_raw ms read
        split at h
        · cases h
          exact raw
        · obtain ⟨inferred, _, h⟩ := bind_eq_ok.mp h
          cases h
          exact raw
      · cases h
  | .null, _, h | .bool _, _, h | .int _, _, h | .float _, _, h | .text _, _, h | .list _, _, h => by
      cases h

theorem readOperandsIn_raw : ∀ (ms : List (String × Value)) {nodes : List Node},
    readOperandsIn ms = .ok nodes → RawExpressions nodes
  | [], _, h => by
      cases h
      trivial
  | (key, v) :: ms, nodes, h => by
      simp only [readOperandsIn] at h
      split at h
      · exact readOperands_raw v h
      · exact readOperandsIn_raw ms h

theorem readOperands_raw : ∀ (v : Value) {nodes : List Node},
    readOperands v = .ok nodes → RawExpressions nodes
  | .list vs, _, h => readRawItems_raw vs h
  | .null, _, h | .bool _, _, h | .int _, _, h | .float _, _, h | .text _, _, h | .record _, _, h => by
      simp only [readOperands] at h
      cases eq_nil_of_noItems h
      trivial

theorem readRawItems_raw : ∀ (vs : List Value) {nodes : List Node},
    readRawItems vs = .ok nodes → RawExpressions nodes
  | [], _, h => by
      cases h
      trivial
  | v :: vs, _, h => by
      obtain ⟨node, first, h⟩ := bind_eq_ok.mp h
      obtain ⟨nodes, rest, h⟩ := bind_eq_ok.mp h
      cases h
      exact ⟨readRaw_raw v first, readRawItems_raw vs rest⟩

theorem readFunctionIn_raw : ∀ (ms : List (String × Value)) {f : Value × List (Argument Node)},
    readFunctionIn ms = .ok f → RawArguments f.2
  | [], _, h => by
      cases h
      trivial
  | (key, v) :: ms, _, h => by
      simp only [readFunctionIn] at h
      split at h
      · exact readFunction_raw v h
      · exact readFunctionIn_raw ms h

theorem readFunction_raw : ∀ (v : Value) {f : Value × List (Argument Node)},
    readFunction v = .ok f → RawArguments f.2
  | .record ms, _, h => by
      obtain ⟨arguments, read, h⟩ := bind_eq_ok.mp h
      cases h
      exact readArgumentsIn_raw ms read
  | .null, _, h | .bool _, _, h | .int _, _, h | .float _, _, h | .text _, _, h | .list _, _, h => by
      simp only [readFunction] at h
      split at h
      · cases h
        trivial
      · cases h

theorem readArgumentsIn_raw : ∀ (ms : List (String × Value)) {arguments : List (Argument Node)},
    readArgumentsIn ms = .ok arguments → RawArguments arguments
  | [], _, h => by
      cases h
      trivial
  | (key, v) :: ms, _, h => by
      simp only [readArgumentsIn] at h
      split at h
      · exact readArguments_raw v h
      · exact readArgumentsIn_raw ms h

theorem readArguments_raw : ∀ (v : Value) {arguments : List (Argument Node)},
    readArguments v = .ok arguments → RawArguments arguments
  | .list vs, _, h => readArgumentItems_raw vs h
  | .null, _, h | .bool _, _, h | .int _, _, h | .float _, _, h | .text _, _, h | .record _, _, h => by
      simp only [readArguments] at h
      cases eq_nil_of_noItems h
      trivial

theorem readArgumentItems_raw : ∀ (vs : List Value) {arguments : List (Argument Node)},
    readArgumentItems vs = .ok arguments → RawArguments arguments
  | [], _, h => by
      cases h
      trivial
  | v :: vs, _, h => by
      obtain ⟨argument, first, h⟩ := bind_eq_ok.mp h
      obtain ⟨arguments, rest, h⟩ := bind_eq_ok.mp h
      cases h
      exact ⟨readArgument_raw v first, readArgumentItems_raw vs rest⟩

theorem readArgument_raw : ∀ (v : Value) {argument : Argument Node},
    readArgument v = .ok argument → argument.value.RawExpression
  | .record ms, _, h => by
      obtain ⟨value, read, h⟩ := bind_eq_ok.mp h
      cases h
      exact readRawIn_raw "value" ms read
  | .null, _, h | .bool _, _, h | .int _, _, h | .float _, _, h | .text _, _, h | .list _, _, h => by
      cases h

theorem readRawIn_raw (key : String) : ∀ (ms : List (String × Value)) {node : Node},
    readRawIn key ms = .ok node → node.RawExpression
  | [], _, h => by cases h
  | (k, v) :: ms, _, h => by
      simp only [readRawIn] at h
      split at h
      · exact readRaw_raw v h
      · exact readRawIn_raw key ms h

end

/-! ### Normalizing -/

/-- A chain of normal operands comes out normal, or as its only operand. -/
theorem ofNormal_normal {joining : Option Joining} {operands : List Node} {operators : List Value}
    {node : Node} (hn : NormalExpressions operands) (hc : unreviewedItems operands = operands)
    (h : Chain.ofNormal Typing.arithmetic joining operands operators = .ok node) :
    node.NormalExpression ∧ node.unreviewed = node := by
  match operands, h with
  | [operand], h =>
      cases h
      exact ⟨hn.1, (List.cons.inj hc).1⟩
  | first :: second :: rest, h =>
      obtain ⟨fitted, fits, h⟩ := bind_eq_ok.mp h
      obtain ⟨type, inferred, h⟩ := bind_eq_ok.mp h
      cases h
      have length := Chain.length_fit fits
      refine ⟨⟨by simp, ?_, inferred, hn⟩, by rw [unreviewed, hc]⟩
      simp only [List.length_cons] at length ⊢
      omega

mutual

theorem normalized_raw (joining : Option Joining) : ∀ (node : Node) {node' : Node}, node.RawExpression →
    node.normalized Typing.arithmetic joining = .ok node' →
      node'.NormalExpression ∧ node'.unreviewed = node'
  | .literal .., _, raw, h | .field .., _, raw, h => by
      cases h
      exact ⟨raw, rfl⟩
  | .reference target, _, raw, h => by
      cases h
      exact ⟨raw.1, by rw [unreviewed, raw.2]⟩
  | .call type name arguments, _, raw, h => by
      obtain ⟨arguments', normalized, h⟩ := bind_eq_ok.mp h
      cases h
      obtain ⟨normal, clean⟩ := normalizedArguments_raw joining arguments raw.2 normalized
      exact ⟨⟨raw.1, normal⟩, by rw [unreviewed, clean]⟩
  | .chain _ operands operators, _, raw, h => by
      obtain ⟨operands', normalized, h⟩ := bind_eq_ok.mp h
      obtain ⟨normal, clean⟩ := normalizedOperands_raw joining operands raw normalized
      exact ofNormal_normal normal clean h

theorem normalizedOperands_raw (joining : Option Joining) : ∀ (nodes : List Node) {nodes' : List Node},
    RawExpressions nodes → normalizedOperands Typing.arithmetic joining nodes = .ok nodes' →
      NormalExpressions nodes' ∧ unreviewedItems nodes' = nodes'
  | [], _, _, h => by
      cases h
      exact ⟨trivial, rfl⟩
  | node :: nodes, _, raw, h => by
      obtain ⟨node', first, h⟩ := bind_eq_ok.mp h
      obtain ⟨nodes', rest, h⟩ := bind_eq_ok.mp h
      cases h
      obtain ⟨normal, clean⟩ := normalized_raw joining node raw.1 first
      obtain ⟨normalRest, cleanRest⟩ := normalizedOperands_raw joining nodes raw.2 rest
      exact ⟨⟨normal, normalRest⟩, by rw [unreviewedItems, clean, cleanRest]⟩

theorem normalizedArguments_raw (joining : Option Joining) :
    ∀ (arguments : List (Argument Node)) {arguments' : List (Argument Node)}, RawArguments arguments →
      normalizedArguments Typing.arithmetic joining arguments = .ok arguments' →
        NormalArguments arguments' ∧ unreviewedArguments arguments' = arguments'
  | [], _, _, h => by
      cases h
      exact ⟨trivial, rfl⟩
  | ⟨name, value⟩ :: arguments, _, raw, h => by
      obtain ⟨value', first, h⟩ := bind_eq_ok.mp h
      obtain ⟨arguments', rest, h⟩ := bind_eq_ok.mp h
      cases h
      obtain ⟨normal, clean⟩ := normalized_raw joining value raw.1 first
      obtain ⟨normalRest, cleanRest⟩ := normalizedArguments_raw joining arguments raw.2 rest
      exact ⟨⟨normal, normalRest⟩, by rw [unreviewedArguments, clean, cleanRest]⟩

end

theorem readExpression_normal {joining : Option Joining} {v : Value} {node : Node}
    (h : readExpression joining v = .ok node) : node.NormalExpression ∧ node.unreviewed = node := by
  obtain ⟨raw, read, h⟩ := bind_eq_ok.mp h
  exact normalized_raw joining raw (readRaw_raw v read) h

theorem readItems_normal {joining : Option Joining} : ∀ {vs : List Value} {nodes : List Node},
    vs.mapM (readExpression joining) = .ok nodes →
      NormalExpressions nodes ∧ unreviewedItems nodes = nodes
  | [], _, h => by
      cases h
      exact ⟨trivial, rfl⟩
  | v :: vs, _, h => by
      rw [List.mapM_cons] at h
      obtain ⟨node, first, h⟩ := bind_eq_ok.mp h
      obtain ⟨nodes, rest, h⟩ := bind_eq_ok.mp h
      cases h
      obtain ⟨normal, clean⟩ := readExpression_normal first
      obtain ⟨normalRest, cleanRest⟩ := readItems_normal rest
      exact ⟨⟨normal, normalRest⟩, by rw [unreviewedItems, clean, cleanRest]⟩

theorem normalRight_of_normal {node : Node} (h : node.NormalExpression) : node.NormalRight := by
  cases node with
  | absent | several => cases h
  | _ => exact h

theorem readRight_normal {joining : Option Joining} {v : Value} {node : Node}
    (h : readRight joining v = .ok node) : node.NormalRight ∧ node.unreviewed = node := by
  have single (h : readExpression joining v = .ok node) : node.NormalRight ∧ node.unreviewed = node :=
    (readExpression_normal h).imp_left normalRight_of_normal
  cases v with
  | null =>
      cases h
      exact ⟨trivial, rfl⟩
  | list vs =>
      obtain ⟨items, read, h⟩ := bind_eq_ok.mp h
      cases h
      obtain ⟨normal, clean⟩ := readItems_normal read
      exact ⟨normal, by rw [unreviewed, clean]⟩
  | _ => exact single h

/-! ### Conditions -/

theorem positional_present {path : String} {kind : Kind} {name : Value}
    (h : (Label.positional path kind).map .text = .ok name) : name.isPresent := by
  obtain ⟨label, positional, rfl⟩ := map_eq_ok.mp h
  simp only [Label.positional] at positional
  split at positional
  · cases positional
    rfl
  all_goals
    obtain ⟨n, _, rfl⟩ := map_eq_ok.mp positional
    simp [Value.isPresent, Value.isMissing, Kind.word]

theorem nameOr_present {path : String} {kind : Kind} {stored name : Value}
    (h : nameOr path kind stored = .ok name) : name.isPresent := by
  simp only [nameOr] at h
  split at h
  · cases h
    assumption
  · exact positional_present h

mutual

theorem readCondition_normal {joining : Option Joining} : ∀ {path : String} (v : Value) {node : Node},
    readCondition joining path v = .ok node → node.NormalCondition ∧ node.unreviewed = node
  | path, .record ms, node, h => by
      simp only [readCondition] at h
      split at h
      · rename_i target checked
        have typed : target.type.isPresent ∧ target.unreviewed = target := by
          simp only [checked?] at checked
          split at checked <;> cases checked <;> exact reference_present (by decide) _
        split at h
        · cases h
          exact ⟨⟨present_orElse ‹_›, typed.1⟩, by rw [unreviewed, typed.2]⟩
        · obtain ⟨name, named, h⟩ := bind_eq_ok.mp h
          cases h
          exact ⟨⟨nameOr_present named, typed.1⟩, by rw [unreviewed, typed.2]⟩
      · split at h
        · obtain ⟨name, named, h⟩ := bind_eq_ok.mp h
          obtain ⟨left, readLeft, h⟩ := bind_eq_ok.mp h
          obtain ⟨right, readRight, h⟩ := bind_eq_ok.mp h
          cases h
          obtain ⟨leftNormal, leftClean⟩ := readExpression_normal readLeft
          obtain ⟨rightNormal, rightClean⟩ := readRight_normal readRight
          exact ⟨⟨nameOr_present named, leftNormal, rightNormal⟩, by rw [unreviewed, leftClean, rightClean]⟩
        · obtain ⟨children, read, h⟩ := bind_eq_ok.mp h
          obtain ⟨name, named, h⟩ := bind_eq_ok.mp h
          obtain ⟨conjunction, _, h⟩ := bind_eq_ok.mp h
          cases h
          obtain ⟨normal, clean⟩ := readConditionsIn_normal ms read
          exact ⟨⟨nameOr_present named, normal⟩, by rw [unreviewed, clean]⟩
        · cases h
  | _, .null, _, h | _, .bool _, _, h | _, .int _, _, h | _, .float _, _, h | _, .text _, _, h
  | _, .list _, _, h => by cases h

theorem readConditionsIn_normal {joining : Option Joining} : ∀ {path : String}
    (ms : List (String × Value)) {nodes : List Node}, readConditionsIn joining path ms = .ok nodes →
      NormalConditions nodes ∧ unreviewedItems nodes = nodes
  | _, [], _, h => by
      cases h
      exact ⟨trivial, rfl⟩
  | path, (key, v) :: ms, _, h => by
      simp only [readConditionsIn] at h
      split at h
      · exact readConditions_normal v h
      · exact readConditionsIn_normal ms h

theorem readConditions_normal {joining : Option Joining} : ∀ {path : String} (v : Value)
    {nodes : List Node}, readConditions joining path v = .ok nodes →
      NormalConditions nodes ∧ unreviewedItems nodes = nodes
  | _, .list vs, _, h => readConditionItems_normal vs h
  | _, .null, _, h | _, .bool _, _, h | _, .int _, _, h | _, .float _, _, h | _, .text _, _, h
  | _, .record _, _, h => by
      simp only [readConditions] at h
      cases eq_nil_of_noItems h
      exact ⟨trivial, rfl⟩

theorem readConditionItems_normal {joining : Option Joining} : ∀ {path : String} {i : Nat}
    (vs : List Value) {nodes : List Node}, readConditionItems joining path i vs = .ok nodes →
      NormalConditions nodes ∧ unreviewedItems nodes = nodes
  | _, _, [], _, h => by
      cases h
      exact ⟨trivial, rfl⟩
  | _, _, v :: vs, _, h => by
      obtain ⟨node, first, h⟩ := bind_eq_ok.mp h
      obtain ⟨nodes, rest, h⟩ := bind_eq_ok.mp h
      cases h
      obtain ⟨normal, clean⟩ := readCondition_normal v first
      obtain ⟨normalRest, cleanRest⟩ := readConditionItems_normal vs rest
      exact ⟨⟨normal, normalRest⟩, by rw [unreviewedItems, clean, cleanRest]⟩

end

/-! ### Choices -/

/-- A typed label differs from the texts that the slot would show without it. -/
def Settled (path : String) (result : Node) (l : ResultLabel) : Prop :=
  ∃ default, Label.positional path .expression = .ok default ∧
    (l.source = .typed → l.text.isPresent ∧ l.text.same (.text default) = false ∧
      ∀ target, result.selected? = some target → l.text.same target.id = false)

def SettledLabels (i : Nat) : List (Branch Node) → Prop
  | [] => True
  | ⟨_, result, l⟩ :: branches =>
    Settled (Choice.resultPath i) result l ∧ SettledLabels (i + 1) branches

theorem label_settled {path : String} {name : Value} {result : Node} {l : ResultLabel}
    (h : label path name result = .ok l) : Settled path result l := by
  obtain ⟨default, positional, h⟩ := bind_eq_ok.mp h
  refine ⟨default, positional, fun typed => ?_⟩
  split at h
  · cases h
    cases typed
  · rename_i own
    simp only [not_or, Bool.not_eq_true] at own
    split at h
    · rename_i target some
      split at h
      · cases h
        cases typed
      · rename_i differs
        cases h
        refine ⟨by simp [Value.isPresent, own.1], own.2, fun other also => ?_⟩
        rw [some] at also
        cases also
        simpa using differs
    · rename_i none
      cases h
      refine ⟨by simp [Value.isPresent, own.1], own.2, fun other also => ?_⟩
      rw [none] at also
      cases also

theorem shown_of_selected {path : String} {result : Node} {l : ResultLabel} {target : Reference}
    (hu : l.source ≠ .typed) (hs : result.selected? = some target) :
    l.shown path result = .ok target.id := by
  simp [ResultLabel.shown, hu, hs]

theorem shown_of_unselected {path default : String} {result : Node} {l : ResultLabel}
    (hu : l.source ≠ .typed) (hn : result.selected? = none)
    (hp : Label.positional path .expression = .ok default) :
    l.shown path result = .ok (.text default) := by
  simp [ResultLabel.shown, hu, hn, hp, Except.map]

theorem shown_of_typed {path : String} {result : Node} {l : ResultLabel} (ht : l.source = .typed)
    (hp : l.text.isPresent) : l.shown path result = .ok l.text := by
  simp [ResultLabel.shown, ht, hp]

/-- A settled label may come back as another one, but it shows the same text. -/
theorem restored_of_settled {path : String} {result : Node} {l : ResultLabel}
    (h : Settled path result l) :
    ∃ l', Restored path result l l' ∧ l'.shown path result = l.shown path result := by
  obtain ⟨default, positional, own⟩ := h
  by_cases typed : l.source = .typed
  · obtain ⟨present, notDefault, notTarget⟩ := own typed
    have shown : l.shown path result = .ok l.text := shown_of_typed typed present
    refine ⟨⟨l.text, .typed, true⟩, ⟨l.text, shown, ?_⟩, ?_⟩
    · cases some : result.selected? with
      | none =>
          simp [label, positional, isMissing_of_present present, notDefault, selected?_unreviewed, some]
      | some target =>
          simp [label, positional, isMissing_of_present present, notDefault, selected?_unreviewed, some,
            Reference.unreviewed, notTarget target some]
    · rw [shown]
      exact shown_of_typed (l := ⟨l.text, .typed, true⟩) rfl present
  · cases some : result.selected? with
    | none =>
        have shown := shown_of_unselected typed some positional
        refine ⟨.positional, ⟨.text default, shown, ?_⟩, ?_⟩
        · simp [label, positional, same_text]
        · rw [shown, shown_of_unselected (by decide) some positional]
    | some target =>
        have shown : l.shown path result = .ok target.id := shown_of_selected typed some
        have resolved := resolved_of_selected some
        simp only [Reference.isResolved, Bool.and_eq_true] at resolved
        by_cases isDefault : target.id.same (.text default)
        · refine ⟨.positional, ⟨target.id, shown, ?_⟩, ?_⟩
          · simp [label, positional, isDefault]
          · rw [shown, shown_of_selected (by decide) some]
        · by_cases isTarget : target.id.same target.id
          · refine ⟨⟨target.id, .target, false⟩, ⟨target.id, shown, ?_⟩, ?_⟩
            · simp [label, positional, isDefault, isMissing_of_present resolved.1, selected?_unreviewed, some,
                Reference.unreviewed, isTarget]
            · rw [shown, shown_of_selected (by simp) some]
          · -- an identifier that is not even equal to itself comes back as a typed text
            refine ⟨⟨target.id, .typed, true⟩, ⟨target.id, shown, ?_⟩, ?_⟩
            · simp [label, positional, isDefault, isMissing_of_present resolved.1, selected?_unreviewed, some,
                Reference.unreviewed, isTarget]
            · rw [shown, shown_of_typed rfl resolved.1]

theorem restoredBranches_of_settled : ∀ (i : Nat) (branches : List (Branch Node)),
    SettledLabels i branches → ∃ branches', RestoredBranches i branches branches' ∧
      writeBranches i branches' = writeBranches i branches
  | _, [], _ => ⟨[], trivial, rfl⟩
  | i, ⟨condition, result, _⟩ :: branches, ⟨settled, settledRest⟩ => by
      obtain ⟨l', restored, shown⟩ := restored_of_settled settled
      obtain ⟨branches', restoredRest, written⟩ := restoredBranches_of_settled (i + 1) branches settledRest
      refine ⟨⟨condition.unreviewed, result.unreviewed, l'⟩ :: branches',
        ⟨rfl, rfl, restored, restoredRest⟩, ?_⟩
      simp only [writeBranches, writeBranch, writeCondition_unreviewed, writeExpression_unreviewed,
        shown_unreviewed, shown, written]

theorem readBranches_normal {joining : Option Joining} : ∀ (i : Nat) (vs : List Value)
    {branches : List (Branch Node)}, readBranches joining i vs = .ok branches →
      NormalBranches branches ∧ SettledLabels i branches
  | _, [], _, h => by
      cases h
      exact ⟨trivial, trivial⟩
  | i, v :: vs, _, h => by
      obtain ⟨branch, first, h⟩ := bind_eq_ok.mp h
      obtain ⟨branches, rest, h⟩ := bind_eq_ok.mp h
      cases h
      obtain ⟨normalRest, settledRest⟩ := readBranches_normal (i + 1) vs rest
      cases v with
      | record ms =>
          obtain ⟨result, readResult, first⟩ := bind_eq_ok.mp first
          obtain ⟨l, labelled, first⟩ := bind_eq_ok.mp first
          obtain ⟨condition, readCondition, first⟩ := bind_eq_ok.mp first
          cases first
          exact ⟨⟨(readCondition_normal _ readCondition).1, (readExpression_normal readResult).1, normalRest⟩,
            label_settled labelled, settledRest⟩
      | _ => cases first

/-- A choice of given branches, as it is put together from the other members. -/
theorem choice_normal {joining : Option Joining} {last name : Value} {branches : List (Branch Node)}
    {d : Node} (hb : NormalBranches branches ∧ SettledLabels 0 branches)
    (h : (do
      let otherwise ← readExpression joining last
      let l ← label Choice.otherwisePath name otherwise
      return Node.choice branches otherwise l : Except Fault Node) = .ok d) :
    ∃ otherwise l, d = .choice branches otherwise l ∧ NormalBranches branches ∧
      SettledLabels 0 branches ∧ otherwise.NormalExpression ∧ Settled Choice.otherwisePath otherwise l := by
  obtain ⟨otherwise, readLast, h⟩ := bind_eq_ok.mp h
  obtain ⟨l, labelled, h⟩ := bind_eq_ok.mp h
  cases h
  exact ⟨otherwise, l, rfl, hb.1, hb.2, (readExpression_normal readLast).1, label_settled labelled⟩

theorem readChoice_normal {joining : Option Joining} {v : Value} {d : Node}
    (h : readChoice joining v = .ok d) : ∃ branches otherwise l, d = .choice branches otherwise l ∧
      NormalBranches branches ∧ SettledLabels 0 branches ∧ otherwise.NormalExpression ∧
      Settled Choice.otherwisePath otherwise l := by
  cases v with
  | record ms =>
      simp only [readChoice] at h
      split at h
      · split at h
        · obtain ⟨branches, read, h⟩ := bind_eq_ok.mp h
          exact ⟨branches, choice_normal (readBranches_normal 0 _ read) h⟩
        · obtain ⟨branches, none, h⟩ := bind_eq_ok.mp h
          cases eq_nil_of_noItems none
          exact ⟨[], choice_normal ⟨trivial, trivial⟩ h⟩
      · cases h
  | _ => cases h

/-! ### Definitions -/

theorem readExpression_form {node : Node} (h : node.NormalExpression) :
    node.form = .expression ∧ writeDefinition node = writeExpression node := by
  cases node with
  | literal | field | call | reference | chain => exact ⟨rfl, rfl⟩
  | _ => cases h

theorem readCondition_form {node : Node} (h : node.NormalCondition) :
    node.form = .condition ∧ writeDefinition node = writeCondition node := by
  cases node with
  | comparison | group | ruleCheck => exact ⟨rfl, rfl⟩
  | _ => cases h

/-- A definition that has been read can be written, and its written form is canonical: it reads back,
with any operator that would be filled in, and is written the same again. A condition or an expression
even reads back as the same tree. -/
theorem written_form_canonical (joining : Option Joining) (form : Form) (data : Value) (d : Node)
    (h : readDefinition joining (.text form.text) data = .ok d) :
    ∃ v, writeDefinition d = .ok v ∧ d.form = form ∧
      ∀ other, ∃ d', readDefinition other (.text form.text) v = .ok d' ∧
        writeDefinition d' = .ok v ∧ (form ≠ .choice → d' = d) := by
  simp only [readDefinition, ofValue?_form] at h ⊢
  cases form with
  | condition =>
      obtain ⟨normal, clean⟩ := readCondition_normal data h
      obtain ⟨isCondition, writes⟩ := readCondition_form normal
      obtain ⟨v, written, readAgain⟩ := readCondition_written d normal
      rw [clean] at readAgain
      rw [writes]
      exact ⟨v, written, isCondition, fun other => ⟨d, readAgain other "root", by rw [writes, written], fun _ => rfl⟩⟩
  | expression =>
      obtain ⟨normal, clean⟩ := readExpression_normal h
      obtain ⟨isExpression, writes⟩ := readExpression_form normal
      obtain ⟨v, written, readAgain⟩ := readExpression_written normal
      rw [clean] at readAgain
      rw [writes]
      exact ⟨v, written, isExpression, fun other => ⟨d, readAgain other, by rw [writes, written], fun _ => rfl⟩⟩
  | choice =>
      obtain ⟨branches, otherwise, l, rfl, normal, settled, last, settledLast⟩ := readChoice_normal h
      obtain ⟨branches', restored, sameBranches⟩ := restoredBranches_of_settled 0 branches settled
      obtain ⟨l', restoredLast, shown⟩ := restored_of_settled settledLast
      obtain ⟨v, written, readAgain⟩ := readChoice_written normal last restored restoredLast
      refine ⟨v, written, rfl, fun other => ⟨_, readAgain other, ?_, fun no => absurd rfl no⟩⟩
      rw [← written]
      simp only [writeDefinition, writeChoice, sameBranches, writeExpression_unreviewed,
        Choice.otherwiseLabel, shown_unreviewed, shown]

/-- A stored choice that lacks types, names, an operator and the names of its results. -/
def sparse : Value :=
  let fee : Value := .record [("type", .text "value"), ("value", .int 7)]
  .record
    [("whenClauses", .list [.record
      [("when", .record [("type", .text "condition"), ("left", fee), ("operator", .text "equal")]),
       ("then", .record [("type", .text "ruleRef"), ("id", .text "BASE"), ("uuid", .text "u-2")])]]),
     ("elseClause", .record
      [("type", .text "expressionGroup"), ("expressions", .list [fee, fee, fee]),
       ("operators", .list [.text "-"])])]

/-- The choice read from it. The label of the result is not yet known to be the rule's identifier. -/
def filled : Node :=
  let fee : Node := .literal (.text "number") (.int 7)
  .choice
    [⟨.comparison (.text "Condition 1") fee (.text "equal") .absent,
      .reference (.unchecked (.text "text") (.text "BASE") (.text "u-2") .null .null), .positional⟩]
    (.chain (.text "number") [fee, fee, fee] [.text "-", .text "-"]) .positional

theorem sparse_canonical : readDefinition none (.text Form.choice.text) sparse = .ok filled ∧
    ∃ v, writeDefinition filled = .ok v ∧ filled.form = .choice ∧
      ∀ other, ∃ d', readDefinition other (.text Form.choice.text) v = .ok d' ∧
        writeDefinition d' = .ok v ∧ (Form.choice ≠ .choice → d' = filled) :=
  ⟨rfl, written_form_canonical none .choice sparse filled rfl⟩

end Stored

end RuleEditor
