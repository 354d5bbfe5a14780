import RuleEditor.Proofs.Stored.Canonical
import RuleEditor.Proofs.Tree.Violations
import RuleEditor.Stored.Loader
import Mathlib.Data.List.Forall2

/-!
# What a stored definition leaves vacant

Reading puts a definition into normal form, so all that can be wrong with what has been read is that a group has no
conditions or a choice no branches. These are the vacancies of the stored data, and each is reported once.
-/
namespace RuleEditor

open Node Stored

/-! ### Vacancies of stored data -/

/-- A place in stored data where conditions or branches are due and there are none. -/
inductive Vacancy where
  /-- A stored group, by the path of its place and its members. -/
  | group (path : String) (stored : Members Value)
  | choice

namespace Vacancy

/-- A violation reports a vacancy: the group under the name that it gets, the choice under its root. -/
def Reports : Vacancy → Violation → Prop
  | .group path stored, .emptyGroup at? name => at? = path ∧ nameOr path .group (part "name" stored) = .ok name
  | .choice, .noBranches at? => at? = "case"
  | _, _ => False

/-- A vacancy where there is one. -/
def due (missing : Bool) (v : Vacancy) : List Vacancy := if missing then [v] else []

mutual

/-- The vacancies of a stored condition: the groups that are stored without conditions. -/
def ofCondition (path : String) : Value → List Vacancy
  | .record ms =>
    match part "type" ms with
    | .text "conditionGroup" =>
      due (part "conditions" ms).isMissing (.group path ms) ++ inMembers path ms
    | _ => []
  | _ => []

def inMembers (path : String) : List (String × Value) → List Vacancy
  | [] => []
  | (key, v) :: ms => if key = "conditions" then ofConditions path v else inMembers path ms

def ofConditions (path : String) : Value → List Vacancy
  | .list vs => ofItems path 0 vs
  | _ => []

def ofItems (path : String) (i : Nat) : List Value → List Vacancy
  | [] => []
  | v :: vs => ofCondition s!"{path}-condition-{i}" v ++ ofItems path (i + 1) vs

end

/-- The vacancies of stored branches. Only their conditions can have any. -/
def ofBranches (i : Nat) : List Value → List Vacancy
  | [] => []
  | v :: vs => ofCondition s!"case-when-{i}" (part "when" (membersOf v)) ++ ofBranches (i + 1) vs

def inBranches : Value → List Vacancy
  | .list vs => ofBranches 0 vs
  | _ => []

/-- The vacancies of a stored choice: its branches, if there are none, and those of the branches. -/
def ofChoice (data : Value) : List Vacancy :=
  let branches := part "whenClauses" (membersOf data)
  due branches.isMissing .choice ++ inBranches branches

theorem ofCondition_group {path : String} {ms : Members Value} (h : part "type" ms = .text "conditionGroup") :
    ofCondition path (.record ms) = due (part "conditions" ms).isMissing (.group path ms) ++ inMembers path ms := by
  simp only [ofCondition, h]

theorem ofCondition_other {path : String} {ms : Members Value} (h : part "type" ms ≠ .text "conditionGroup") :
    ofCondition path (.record ms) = [] := by
  unfold ofCondition
  split
  · contradiction
  · rfl

/-- The vacancies of a stored definition of a form. Expressions have none. -/
def ofDefinition (form data : Value) : List Vacancy :=
  match Form.ofValue? form with
  | some .condition => ofCondition "root" data
  | some .choice => ofChoice data
  | _ => []

end Vacancy

/-! ### Expressions in normal form -/

namespace Violation

variable {c : Option Catalogue} {path : String} {right : Bool} {i : Nat}

mutual

theorem ofNode_normal : (node : Node) → {path : String} → {right : Bool} → node.NormalExpression →
    ofNode c path right node = .ok []
  | .literal .., _, _, _ | .field .., _, _, _ | .reference _, _, _, _ => rfl
  | .call _ _ arguments, path, right, h => ofArguments_normal arguments h.2
  | .chain _ operands operators, path, right, h => by
      obtain ⟨enough, fits, -, normal⟩ := h
      have large : decide (operands.length < 2) = false := decide_eq_false (by omega)
      have fit : decide ((operators.length : Int) ≠ operands.length - 1) = false := decide_eq_false (by omega)
      rw [ofNode, ofOperands_normal operands normal, ok_bind, when_eq_nil.mpr large, when_eq_nil.mpr fit]
      rfl

theorem ofOperands_normal : (operands : List Node) → {path : String} → {i : Nat} → NormalExpressions operands →
    ofOperands c path i operands = .ok []
  | [], _, _, _ => rfl
  | node :: rest, path, i, h => by
      rw [ofOperands, ofNode_normal node h.1, ok_bind, ofOperands_normal rest h.2]
      rfl

theorem ofArguments_normal : (arguments : List (Argument Node)) → {path : String} → {i : Nat} →
    NormalArguments arguments → ofArguments c path i arguments = .ok []
  | [], _, _, _ => rfl
  | ⟨_, value⟩ :: rest, path, i, h => by
      rw [ofArguments, ofNode_normal value h.1, ok_bind, ofArguments_normal rest h.2]
      rfl

end

theorem ofItems_normal {items : List Node} (h : NormalExpressions items) : ofItems c path i items = .ok [] := by
  induction items generalizing i with
  | nil => rfl
  | cons node rest ih =>
      rw [ofItems, ofNode_normal node h.1, ok_bind, ih h.2]
      rfl

theorem ofNode_normalRight {node : Node} (h : node.NormalRight) : ofNode c path true node = .ok [] := by
  cases node with
  | absent => rfl
  | several items => exact ofItems_normal h
  | _ => exact ofNode_normal _ h

end Violation

/-! ### What is told of what has been read -/

/-- The violations that are found report the vacancies one by one. -/
def Tells (found : Except Fault (List Violation)) (vacant : List Vacancy) : Prop :=
  ∃ vs, found = .ok vs ∧ List.Forall₂ Vacancy.Reports vacant vs

namespace Tells

variable {found rest : Except Fault (List Violation)} {vacant vacant' : List Vacancy}

theorem none : Tells (.ok []) [] := ⟨[], rfl, .nil⟩

theorem append (hf : Tells found vacant) (ht' : Tells rest vacant') :
    Tells (do let a ← found; let b ← rest; return a ++ b) (vacant ++ vacant') := by
  obtain ⟨a, rfl, reports⟩ := hf
  obtain ⟨b, rfl, reports'⟩ := ht'
  exact ⟨a ++ b, rfl, List.rel_append reports reports'⟩

/-- A violation of its own precedes those below a node. -/
theorem before {p : Bool} {v : Violation} {own : Vacancy} (hr : p = true → own.Reports v)
    (hb : Tells found vacant) :
    Tells (do let inner ← found; return Violation.when p v ++ inner) (Vacancy.due p own ++ vacant) := by
  obtain ⟨vs, rfl, all⟩ := hb
  cases p with
  | true => exact ⟨v :: vs, rfl, .cons (hr rfl) all⟩
  | false => exact ⟨vs, rfl, all⟩

end Tells

/-! ### Conditions -/

/-- The path of a child is spelled alike where it is read and where it is checked. -/
theorem render_child {path : String} (h : path ≠ "") (i : Nat) :
    Address.render path [.child i] = s!"{path}-condition-{i}" := by
  have joined : Address.render path [.child i] = path ++ "-" ++ ("condition-" ++ i.repr) := by
    simp [Address.render, Address.join, Step.segments, Step.index?, Step.word, h]
  have dash : path ++ "-" ++ "condition-" = path ++ "-condition-" := String.append_assoc
  rw [joined, ← String.append_assoc, dash]
  rfl

theorem render_condition (i : Nat) : Address.render "case" [.condition i] = s!"case-when-{i}" := by
  have joined : Address.render "case" [.condition i] = "case-" ++ ("when-" ++ i.repr) := by
    simp [Address.render, Address.join, Step.segments, Step.index?, Step.word]
  rw [joined, ← String.append_assoc]
  rfl

theorem child_named (path : String) (i : Nat) : s!"{path}-condition-{i}" ≠ "" := by
  simp

namespace Stored

variable {joining : Option Joining} {path : String} {i : Nat}

/-- Nothing is read of what is no list if nothing is stored. -/
theorem isEmpty_of_noItems {α : Type} {fault : Fault} {v : Value} {xs : List α} (h : noItems fault v = .ok xs) :
    xs.isEmpty = v.isMissing := by
  rw [eq_nil_of_noItems h]
  unfold noItems at h
  cases missing : v.isMissing with
  | true => rfl
  | false =>
      rw [missing, if_neg Bool.false_ne_true] at h
      split at h <;> cases h

theorem isEmpty_of_readConditions {v : Value} {nodes : List Node} (h : readConditions joining path v = .ok nodes) :
    nodes.isEmpty = v.isMissing := by
  cases v with
  | list vs =>
      cases vs with
      | nil =>
          cases h
          rfl
      | cons v vs =>
          obtain ⟨node, -, h⟩ := bind_eq_ok.mp h
          obtain ⟨rest, -, h⟩ := bind_eq_ok.mp h
          cases h
          rfl
  | _ =>
      unfold readConditions at h
      exact isEmpty_of_noItems h

theorem isEmpty_of_readConditionsIn {ms : Members Value} {nodes : List Node}
    (h : readConditionsIn joining path ms = .ok nodes) : nodes.isEmpty = (part "conditions" ms).isMissing := by
  induction ms with
  | nil =>
      cases h
      rfl
  | cons m ms ih =>
      obtain ⟨key, v⟩ := m
      unfold readConditionsIn at h
      rw [part_cons]
      split at h
      · rename_i here
        rw [if_pos here]
        exact isEmpty_of_readConditions h
      · rename_i further
        rw [if_neg further]
        exact ih h

mutual

theorem readCondition_tells : (v : Value) → {path : String} → path ≠ "" → {node : Node} →
    readCondition joining path v = .ok node → Tells (Violation.ofNode none path false node) (Vacancy.ofCondition path v)
  | .record ms, path, named, node, read => by
      unfold readCondition at read
      split at read
      · rename_i target checked
        obtain ⟨name, rfl⟩ : ∃ name, node = .ruleCheck name target := by
          split at read
          · cases read
            exact ⟨_, rfl⟩
          · obtain ⟨name, -, read⟩ := bind_eq_ok.mp read
            cases read
            exact ⟨name, rfl⟩
        rw [Vacancy.ofCondition_other fun group => by simp [checked?, group] at checked]
        exact .none
      · split at read
        · rename_i tag
          obtain ⟨name, -, read⟩ := bind_eq_ok.mp read
          obtain ⟨left, readLeft, read⟩ := bind_eq_ok.mp read
          obtain ⟨side, readSide, read⟩ := bind_eq_ok.mp read
          cases read
          rw [Vacancy.ofCondition_other fun group => by simp [tag] at group]
          refine ⟨[], ?_, .nil⟩
          rw [Violation.ofNode, Violation.ofNode_normal left (readExpression_normal readLeft).1, ok_bind,
            Violation.ofNode_normalRight (readRight_normal readSide).1, ok_bind]
          rfl
        · rename_i tag
          obtain ⟨children, readBelow, read⟩ := bind_eq_ok.mp read
          obtain ⟨name, labelled, read⟩ := bind_eq_ok.mp read
          obtain ⟨conjunction, -, read⟩ := bind_eq_ok.mp read
          cases read
          rw [Vacancy.ofCondition_group tag, ← isEmpty_of_readConditionsIn readBelow]
          exact .before (fun _ => ⟨rfl, labelled⟩) (readConditionsIn_tells ms named readBelow)
        · cases read
  | .null, _, _, _, read | .bool _, _, _, _, read | .int _, _, _, _, read | .float _, _, _, _, read
  | .text _, _, _, _, read | .list _, _, _, _, read => by cases read

theorem readConditionsIn_tells : (ms : List (String × Value)) → {path : String} → path ≠ "" → {nodes : List Node} →
    readConditionsIn joining path ms = .ok nodes →
    Tells (Violation.ofChildren none path 0 nodes) (Vacancy.inMembers path ms)
  | [], _, _, _, read => by
      cases read
      exact .none
  | (key, v) :: ms, path, named, nodes, read => by
      unfold readConditionsIn at read
      unfold Vacancy.inMembers
      split at read
      · rename_i here
        rw [if_pos here]
        exact readConditions_tells v named read
      · rename_i further
        rw [if_neg further]
        exact readConditionsIn_tells ms named read

theorem readConditions_tells : (v : Value) → {path : String} → path ≠ "" → {nodes : List Node} →
    readConditions joining path v = .ok nodes →
    Tells (Violation.ofChildren none path 0 nodes) (Vacancy.ofConditions path v)
  | .list vs, _, named, _, read => readConditionItems_tells vs named read
  | .null, _, _, _, read | .bool _, _, _, _, read | .int _, _, _, _, read | .float _, _, _, _, read
  | .text _, _, _, _, read | .record _, _, _, _, read => by
      unfold readConditions at read
      cases eq_nil_of_noItems read
      exact .none

theorem readConditionItems_tells : (vs : List Value) → {path : String} → path ≠ "" → {i : Nat} → {nodes : List Node} →
    readConditionItems joining path i vs = .ok nodes →
    Tells (Violation.ofChildren none path i nodes) (Vacancy.ofItems path i vs)
  | [], _, _, _, _, read => by
      cases read
      exact .none
  | v :: vs, path, named, i, nodes, read => by
      obtain ⟨node, first, read⟩ := bind_eq_ok.mp read
      obtain ⟨rest, others, read⟩ := bind_eq_ok.mp read
      cases read
      have told : Tells (Violation.ofNode none (Address.render path [.child i]) false node)
          (Vacancy.ofCondition s!"{path}-condition-{i}" v) := by
        rw [render_child named]
        exact readCondition_tells v (child_named path i) first
      exact told.append (readConditionItems_tells vs named others)

end

/-! ### Definitions -/

theorem readExpression_tells {v : Value} {right : Bool} {node : Node} (h : readExpression joining v = .ok node) :
    Tells (Violation.ofNode none path right node) [] :=
  ⟨[], Violation.ofNode_normal node (readExpression_normal h).1, .nil⟩

theorem readBranches_tells {vs : List Value} {branches : List (Branch Node)}
    (h : readBranches joining i vs = .ok branches) :
    Tells (Violation.ofBranches none "case" i branches) (Vacancy.ofBranches i vs) := by
  induction vs generalizing i branches with
  | nil =>
      cases h
      exact .none
  | cons v vs ih =>
      obtain ⟨branch, first, h⟩ := bind_eq_ok.mp h
      obtain ⟨rest, others, h⟩ := bind_eq_ok.mp h
      cases h
      cases v with
      | record ms =>
          obtain ⟨result, readResult, first⟩ := bind_eq_ok.mp first
          obtain ⟨label, -, first⟩ := bind_eq_ok.mp first
          obtain ⟨condition, readCondition, first⟩ := bind_eq_ok.mp first
          cases first
          have told : Tells (Violation.ofNode none (Address.render "case" [.condition i]) false condition)
              (Vacancy.ofCondition s!"case-when-{i}" (part "when" ms)) := by
            rw [render_condition]
            exact readCondition_tells _ (by simp) readCondition
          obtain ⟨inCondition, checked, reports⟩ := told
          obtain ⟨further, below, reports'⟩ := ih others
          refine ⟨inCondition ++ further, ?_, List.rel_append reports reports'⟩
          rw [Violation.ofBranches, checked, ok_bind,
            Violation.ofNode_normal result (readExpression_normal readResult).1, ok_bind, below, ok_bind,
            List.append_nil]
          rfl
      | _ => cases first

/-- A choice with a final result in normal form has the violations of its branches, and one if it has none. -/
theorem choice_tells {branches : List (Branch Node)} {otherwise : Node} {label : ResultLabel} {missing : Bool}
    {vacant : List Vacancy} (ht : Tells (Violation.ofBranches none "case" 0 branches) vacant)
    (he : branches.isEmpty = missing) (hn : otherwise.NormalExpression) :
    Tells (Violation.ofNode none "case" false (.choice branches otherwise label))
      (Vacancy.due missing .choice ++ vacant) := by
  have there : otherwise.isAbsent = false := by
    cases otherwise with
    | absent => cases hn
    | _ => rfl
  have made : Violation.ofNode none "case" false (.choice branches otherwise label) =
      (do
        let inner ← Violation.ofBranches none "case" 0 branches
        return Violation.when branches.isEmpty (.noBranches "case") ++ inner) := by
    rw [Violation.ofNode]
    cases Violation.ofBranches none "case" 0 branches with
    | error fault => rfl
    | ok inner =>
        cases otherwise with
        | absent => cases hn
        | _ =>
            rw [ok_bind, ok_bind, Violation.ofNode_normal _ hn]
            simp [Violation.when, there]
  rw [made, ← he]
  exact .before (fun _ => rfl) ht

theorem isEmpty_of_readBranches {vs : List Value} {branches : List (Branch Node)}
    (h : readBranches joining i vs = .ok branches) : branches.isEmpty = vs.isEmpty := by
  cases vs with
  | nil =>
      cases h
      rfl
  | cons v vs =>
      obtain ⟨branch, -, h⟩ := bind_eq_ok.mp h
      obtain ⟨rest, -, h⟩ := bind_eq_ok.mp h
      cases h
      rfl

theorem readChoice_tells {data : Value} {node : Node} (h : readChoice joining data = .ok node) :
    Tells (Violation.ofNode none "case" false node) (Vacancy.ofChoice data) := by
  cases data with
  | record ms =>
      simp only [readChoice] at h
      simp only [Vacancy.ofChoice, membersOf]
      split at h
      · split at h
        · rename_i vs stored
          obtain ⟨branches, readBelow, h⟩ := bind_eq_ok.mp h
          obtain ⟨otherwise, label, rfl, -, -, normal, -⟩ := choice_normal (readBranches_normal 0 vs readBelow) h
          rw [stored]
          exact choice_tells (readBranches_tells readBelow) (isEmpty_of_readBranches readBelow) normal
        · rename_i other
          obtain ⟨branches, nothing, h⟩ := bind_eq_ok.mp h
          have empty := isEmpty_of_noItems nothing
          cases eq_nil_of_noItems nothing
          have bodies : NormalBranches [] ∧ SettledLabels 0 [] := ⟨trivial, trivial⟩
          obtain ⟨otherwise, label, rfl, -, -, normal, -⟩ := choice_normal bodies h
          have further : Vacancy.inBranches (part "whenClauses" ms) = [] := by
            unfold Vacancy.inBranches
            split
            · rename_i vs stored
              exact absurd stored (other vs)
            · rfl
          rw [further]
          exact choice_tells .none empty normal
      · cases h
  | _ => cases h

/-- What has been read has the violations that its stored form is vacant for. -/
theorem readDefinition_tells {form data : Value} {d : Node} (h : readDefinition joining form data = .ok d) :
    Tells (Violation.all none d) (Vacancy.ofDefinition form data) := by
  unfold readDefinition at h
  unfold Vacancy.ofDefinition
  cases known : Form.ofValue? form with
  | none =>
      rw [known] at h
      cases h
  | some form =>
      rw [known] at h
      cases form with
      | condition =>
          have told := readCondition_tells data (by decide) h
          have normal := (readCondition_normal data h).1
          cases d with
          | comparison | group | ruleCheck => exact told
          | _ => cases normal
      | choice =>
          obtain ⟨branches, otherwise, label, rfl, -⟩ := readChoice_normal h
          exact readChoice_tells h
      | expression =>
          have told : Tells (Violation.ofNode none "root" false d) [] := readExpression_tells h
          have normal := (readExpression_normal h).1
          cases d with
          | literal | field | call | reference | chain => exact told
          | _ => cases normal

theorem loadDefinition_eq_ok {catalogue : Option Catalogue} {form data : Value} {d : Node} :
    loadDefinition catalogue form data = .ok d ↔
      readDefinition (catalogue.map (·.defaultJoining)) form data = .ok d ∧ d.ensureWellFormed none = .ok () := by
  unfold loadDefinition
  constructor
  · intro h
    obtain ⟨tree, read, h⟩ := bind_eq_ok.mp h
    obtain ⟨_, formed, made⟩ := bind_eq_ok.mp h
    cases made
    exact ⟨read, formed⟩
  · rintro ⟨read, formed⟩
    rw [read, ok_bind, formed]
    rfl

/-- All that can be wrong with what has been read are the vacancies of the stored data, one violation for each. So a
definition is loaded exactly if it can be read and has no vacancies. -/
theorem violations_are_vacancies (joining : Option Joining) (catalogue : Option Catalogue) (form data : Value) :
    (∀ d, readDefinition joining form data = .ok d → ∃ vs, Violation.all none d = .ok vs ∧
        List.Forall₂ Vacancy.Reports (Vacancy.ofDefinition form data) vs) ∧
      ∀ d, loadDefinition catalogue form data = .ok d ↔
        readDefinition (catalogue.map (·.defaultJoining)) form data = .ok d ∧ Vacancy.ofDefinition form data = [] := by
  refine ⟨fun d read => readDefinition_tells read, fun d => loadDefinition_eq_ok.trans (and_congr_right fun read => ?_)⟩
  obtain ⟨vs, found, reports⟩ := readDefinition_tells read
  rw [Violation.ensureWellFormed_eq_ok, found]
  constructor
  · intro none
    cases none
    exact List.forall₂_nil_right_iff.mp reports
  · intro none
    rw [none] at reports
    rw [List.forall₂_nil_left_iff.mp reports]

/-- A stored choice. In its first branch a group holds a check and a group without conditions; the chain in the
argument of a function has one operand only, which is no vacancy. -/
def hollow : Value :=
  let fee : Value := .record [("type", .text "value"), ("value", .int 7)]
  let chain : Value := .record [("type", .text "expressionGroup"), ("expressions", .list [fee])]
  let call : Value := .record [("type", .text "function"), ("function", .record
    [("name", .text "ROUND"), ("args", .list [.record [("name", .text "of"), ("value", chain)]])])]
  let check : Value := .record [("type", .text "ruleRef"), ("ruleRef", .record [("id", .text "IS_ADULT")])]
  .record
    [("whenClauses", .list
      [.record [("when", .record [("type", .text "conditionGroup"), ("conditions", .list
        [check, .record [("type", .text "conditionGroup"), ("conditions", .list [])]])]), ("then", call)],
       .record [("when", .record [("type", .text "condition"), ("left", call), ("operator", .text "in"),
        ("right", .list [fee, chain])]), ("then", fee)]]),
     ("elseClause", fee)]

/-- The group without conditions is reported under its positional label, and nothing else is. It is the vacancy that
keeps the choice from being loaded. -/
theorem hollow_reported :
    ∃ d, readDefinition none (.text "case") hollow = .ok d ∧
      Violation.all none d = .ok [.emptyGroup "case-when-0-condition-1" (.text "Group 2")] ∧
      List.Forall₂ Vacancy.Reports (Vacancy.ofDefinition (.text "case") hollow)
        [.emptyGroup "case-when-0-condition-1" (.text "Group 2")] ∧
      loadDefinition none (.text "case") hollow ≠ .ok d := by
  obtain ⟨reported, loads⟩ := violations_are_vacancies none none (.text "case") hollow
  refine ⟨_, rfl, rfl, ?_, fun loaded => ?_⟩
  · obtain ⟨vs, found, reports⟩ := reported _ rfl
    cases found
    exact reports
  · cases ((loads _).mp loaded).2

end Stored

end RuleEditor
