import RuleEditor.Proofs.Outcome
import RuleEditor.Rule.Document
import RuleEditor.Service.Rules

/-!
# How reading fails

A decoder meets data of any shape. Whatever is wrong with the data, the fault is one about data: a setting that the
catalogue lacks, a chain that cannot stand, a node of an unknown sort, a value or a sort of data that does not fit,
or a missing part. Reading never goes to a place in a tree or to an item of a list, so no fault is about those.
-/
namespace RuleEditor

namespace Fault

/-- Reading a document may fail in this way. -/
def isOfReading : Fault → Bool
  | .configuration .. | .shape .. | .unknownNode _ | .badValue _ | .wrongSort _ | .missingPart => true
  | _ => false

/-- The client expects every fault of reading. -/
theorem isOfData_of_isOfReading {fault : Fault} (h : fault.isOfReading) : fault.isOfData := by
  cases fault <;> first | rfl | cases h

end Fault

variable {α β : Type}

/-- Whatever fault a computation ends in is one of reading. -/
def FailsInReading (x : Except Fault α) : Prop := ∀ fault, x = .error fault → fault.isOfReading

theorem failsInReading_ok (a : α) : FailsInReading (.ok a : Except Fault α) := nofun

theorem failsInReading_error {fault : Fault} (h : fault.isOfReading) :
    FailsInReading (.error fault : Except Fault α) := by
  intro other same
  cases same
  exact h

theorem failsInReading_bind {x : Except Fault α} {f : α → Except Fault β} (hf : FailsInReading x)
    (hr : ∀ a, x = .ok a → FailsInReading (f a)) : FailsInReading (x >>= f) := by
  cases x with
  | ok a => exact hr a rfl
  | error fault => exact failsInReading_error (hf fault rfl)

theorem failsInReading_map {x : Except Fault α} (f : α → β) (h : FailsInReading x) : FailsInReading (x.map f) := by
  cases x with
  | ok a => exact failsInReading_ok _
  | error fault => exact failsInReading_error (h fault rfl)

theorem failsInReading_mapM {f : α → Except Fault β} {xs : List α} (h : ∀ x ∈ xs, FailsInReading (f x)) :
    FailsInReading (xs.mapM f) := by
  induction xs with
  | nil => exact failsInReading_ok _
  | cons x rest ih =>
      obtain ⟨first, others⟩ := List.forall_mem_cons.mp h
      rw [List.mapM_cons]
      refine failsInReading_bind first fun y _ => failsInReading_bind (ih others) fun ys _ => ?_
      exact failsInReading_ok _

/-! ### Labels and types -/

theorem failsInReading_position (path : String) : FailsInReading (Address.position path) := by
  unfold Address.position
  split
  · exact failsInReading_ok _
  · split
    · refine failsInReading_map _ ?_
      unfold Address.number
      dsimp only
      split
      · exact failsInReading_error rfl
      · split
        · exact failsInReading_ok _
        · exact failsInReading_error rfl
    · exact failsInReading_ok _

theorem failsInReading_positional (path : String) (kind : Kind) : FailsInReading (Label.positional path kind) := by
  unfold Label.positional
  split
  · exact failsInReading_ok _
  · exact failsInReading_map _ (failsInReading_position path)
  · exact failsInReading_map _ (failsInReading_position path)

theorem failsInReading_type : (node : Node) → FailsInReading node.type
  | .absent | .several _ => failsInReading_error rfl
  | .literal .. | .field .. | .call .. | .chain .. | .reference _ | .comparison .. | .group .. | .ruleCheck .. =>
      failsInReading_ok _
  | .choice _ otherwise _ => failsInReading_type otherwise

theorem failsInReading_anyNumeric (numeric : List String) (operators : List Value) :
    FailsInReading (Typing.anyNumeric numeric operators) := by
  fun_induction Typing.anyNumeric numeric operators with
  | case1 | case2 => exact failsInReading_ok _
  | case4 | case5 => exact failsInReading_error rfl
  | case3 _ _ _ ih | case6 _ _ _ _ _ ih => exact ih

theorem failsInReading_infer (numeric : List String) (operands : List Node) (operators : List Value) :
    FailsInReading (Typing.infer numeric operands operators) := by
  refine failsInReading_bind (failsInReading_anyNumeric numeric operators) fun isNumber _ => ?_
  cases isNumber with
  | true => exact failsInReading_ok _
  | false =>
      cases operands with
      | nil => exact failsInReading_ok _
      | cons first rest =>
          exact failsInReading_bind (failsInReading_type first) fun type _ => failsInReading_ok _

/-! ### Normal chains -/

/-- A look-up of operators that only a value of the wrong sort or a missing setting can upset. -/
def LooksUp (joining : Option Joining) : Prop := ∀ look ∈ joining, ∀ type, FailsInReading (look type)

theorem looksUp_defaultJoining (catalogue : Option Catalogue) :
    LooksUp (catalogue.map Catalogue.defaultJoining) := by
  intro look known type
  obtain ⟨c, rfl, rfl⟩ : ∃ c, catalogue = some c ∧ c.defaultJoining = look := by simpa using known
  have entry : FailsInReading (Catalogue.entry? c.types type) := by
    cases type <;> first | exact failsInReading_ok _ | exact failsInReading_error rfl
  refine failsInReading_bind entry fun found _ => ?_
  split
  · split <;> exact failsInReading_ok _
  · exact failsInReading_error rfl

variable {numeric : List String} {joining : Option Joining}

theorem failsInReading_fit (h : LooksUp joining) (operands : List Node) (operators : List Value) :
    FailsInReading (Chain.fit joining operands operators) := by
  unfold Chain.fit
  dsimp only
  split
  · exact failsInReading_ok _
  · refine failsInReading_bind ?_ fun filler _ => failsInReading_ok _
    unfold Chain.filler
    split
    · rename_i look first _ _
      refine failsInReading_bind (failsInReading_type first) fun type _ => ?_
      exact failsInReading_bind (h look rfl type) fun operator _ => failsInReading_ok _
    · exact failsInReading_ok _
    · exact failsInReading_error rfl

theorem failsInReading_ofNormal (h : LooksUp joining) (operands : List Node) (operators : List Value) :
    FailsInReading (Chain.ofNormal numeric joining operands operators) := by
  unfold Chain.ofNormal
  split
  · exact failsInReading_error rfl
  · exact failsInReading_ok _
  · refine failsInReading_bind (failsInReading_fit h _ _) fun fitted _ => ?_
    exact failsInReading_bind (failsInReading_infer numeric _ fitted) fun type _ => failsInReading_ok _

mutual

theorem failsInReading_normalized (h : LooksUp joining) :
    (node : Node) → FailsInReading (node.normalized numeric joining)
  | .chain _ operands operators =>
      failsInReading_bind (failsInReading_normalizedOperands h operands) fun normal _ =>
        failsInReading_ofNormal h normal operators
  | .call _ _ arguments =>
      failsInReading_bind (failsInReading_normalizedArguments h arguments) fun _ _ => failsInReading_ok _
  | .literal .. | .field .. | .reference _ => failsInReading_ok _
  | .absent | .several _ | .comparison .. | .group .. | .ruleCheck .. | .choice .. => failsInReading_error rfl

theorem failsInReading_normalizedOperands (h : LooksUp joining) :
    (nodes : List Node) → FailsInReading (Node.normalizedOperands numeric joining nodes)
  | [] => failsInReading_ok _
  | node :: nodes =>
      failsInReading_bind (failsInReading_normalized h node) fun _ _ =>
        failsInReading_bind (failsInReading_normalizedOperands h nodes) fun _ _ => failsInReading_ok _

theorem failsInReading_normalizedArguments (h : LooksUp joining) :
    (arguments : List (Argument Node)) → FailsInReading (Node.normalizedArguments numeric joining arguments)
  | [] => failsInReading_ok _
  | ⟨_, value⟩ :: arguments =>
      failsInReading_bind (failsInReading_normalized h value) fun _ _ =>
        failsInReading_bind (failsInReading_normalizedArguments h arguments) fun _ _ => failsInReading_ok _

end

/-! ### Decoders -/

namespace Stored

theorem failsInReading_items (v : Value) : FailsInReading (items v) := by
  unfold items
  split
  · exact failsInReading_ok _
  · split <;> first | exact failsInReading_ok _ | exact failsInReading_error rfl

theorem failsInReading_noItems (item : Fault) (h : item.isOfReading) (v : Value) :
    FailsInReading (noItems item v : Except Fault (List α)) := by
  unfold noItems
  split
  · exact failsInReading_ok _
  · split
    · exact failsInReading_error h
    · exact failsInReading_error h
    · exact failsInReading_error rfl

mutual

theorem failsInReading_readRaw : (v : Value) → FailsInReading (readRaw v)
  | .record ms => by
      simp only [readRaw]
      split
      · exact failsInReading_ok _
      · exact failsInReading_ok _
      · exact failsInReading_bind (failsInReading_readFunctionIn ms) fun _ _ => failsInReading_ok _
      · exact failsInReading_ok _
      · refine failsInReading_bind (failsInReading_readOperandsIn ms) fun operands _ => ?_
        refine failsInReading_bind (failsInReading_items _) fun operators _ => ?_
        split
        · exact failsInReading_ok _
        · exact failsInReading_bind (failsInReading_infer _ operands operators) fun inferred _ => failsInReading_ok _
      · exact failsInReading_error rfl
  | .null | .bool _ | .int _ | .float _ | .text _ | .list _ => failsInReading_error rfl

theorem failsInReading_readOperandsIn : (ms : List (String × Value)) → FailsInReading (readOperandsIn ms)
  | [] => failsInReading_ok _
  | (key, v) :: ms => by
      unfold readOperandsIn
      split
      · exact failsInReading_readOperands v
      · exact failsInReading_readOperandsIn ms

theorem failsInReading_readOperands : (v : Value) → FailsInReading (readOperands v)
  | .list vs => failsInReading_readRawItems vs
  | .null | .bool _ | .int _ | .float _ | .text _ | .record _ => failsInReading_noItems (.expectedExpression "str") rfl _

theorem failsInReading_readRawItems : (vs : List Value) → FailsInReading (readRawItems vs)
  | [] => failsInReading_ok _
  | v :: vs =>
      failsInReading_bind (failsInReading_readRaw v) fun _ _ =>
        failsInReading_bind (failsInReading_readRawItems vs) fun _ _ => failsInReading_ok _

theorem failsInReading_readFunctionIn : (ms : List (String × Value)) → FailsInReading (readFunctionIn ms)
  | [] => failsInReading_ok _
  | (key, v) :: ms => by
      unfold readFunctionIn
      split
      · exact failsInReading_readFunction v
      · exact failsInReading_readFunctionIn ms

theorem failsInReading_readFunction : (v : Value) → FailsInReading (readFunction v)
  | .record ms => failsInReading_bind (failsInReading_readArgumentsIn ms) fun _ _ => failsInReading_ok _
  | .null | .bool _ | .int _ | .float _ | .text _ | .list _ => by
      unfold readFunction
      split
      · exact failsInReading_ok _
      · exact failsInReading_error rfl

theorem failsInReading_readArgumentsIn : (ms : List (String × Value)) → FailsInReading (readArgumentsIn ms)
  | [] => failsInReading_ok _
  | (key, v) :: ms => by
      unfold readArgumentsIn
      split
      · exact failsInReading_readArguments v
      · exact failsInReading_readArgumentsIn ms

theorem failsInReading_readArguments : (v : Value) → FailsInReading (readArguments v)
  | .list vs => failsInReading_readArgumentItems vs
  | .null | .bool _ | .int _ | .float _ | .text _ | .record _ => failsInReading_noItems .missingPart rfl _

theorem failsInReading_readArgumentItems : (vs : List Value) → FailsInReading (readArgumentItems vs)
  | [] => failsInReading_ok _
  | v :: vs =>
      failsInReading_bind (failsInReading_readArgument v) fun _ _ =>
        failsInReading_bind (failsInReading_readArgumentItems vs) fun _ _ => failsInReading_ok _

theorem failsInReading_readArgument : (v : Value) → FailsInReading (readArgument v)
  | .record ms => failsInReading_bind (failsInReading_readRawIn "value" ms) fun _ _ => failsInReading_ok _
  | .null | .bool _ | .int _ | .float _ | .text _ | .list _ => failsInReading_error rfl

theorem failsInReading_readRawIn (key : String) :
    (ms : List (String × Value)) → FailsInReading (readRawIn key ms)
  | [] => failsInReading_error rfl
  | (k, v) :: ms => by
      unfold readRawIn
      split
      · exact failsInReading_readRaw v
      · exact failsInReading_readRawIn key ms

end

theorem failsInReading_readExpression (h : LooksUp joining) (v : Value) :
    FailsInReading (readExpression joining v) :=
  failsInReading_bind (failsInReading_readRaw v) fun node _ => failsInReading_normalized h node

theorem failsInReading_readRight (h : LooksUp joining) (v : Value) : FailsInReading (readRight joining v) := by
  unfold readRight
  split
  · exact failsInReading_ok _
  · refine failsInReading_bind (failsInReading_mapM fun v _ => failsInReading_readExpression h v) ?_
    exact fun _ _ => failsInReading_ok _
  · exact failsInReading_readExpression h _

theorem failsInReading_nameOr (path : String) (kind : Kind) (name : Value) :
    FailsInReading (nameOr path kind name) := by
  unfold nameOr
  split
  · exact failsInReading_ok _
  · exact failsInReading_map _ (failsInReading_positional path kind)

theorem failsInReading_conjunction (v : Value) : FailsInReading (Conjunction.ofValue v) := by
  unfold Conjunction.ofValue
  split
  · exact failsInReading_ok _
  · exact failsInReading_ok _
  · exact failsInReading_error rfl

mutual

theorem failsInReading_readCondition (h : LooksUp joining) (path : String) :
    (v : Value) → FailsInReading (readCondition joining path v)
  | .record ms => by
      simp only [readCondition]
      split
      · split
        · exact failsInReading_ok _
        · exact failsInReading_bind (failsInReading_nameOr path .reference _) fun name _ => failsInReading_ok _
      · split
        · refine failsInReading_bind (failsInReading_nameOr path .comparison _) fun name _ => ?_
          refine failsInReading_bind (failsInReading_readExpression h _) fun left _ => ?_
          exact failsInReading_bind (failsInReading_readRight h _) fun right _ => failsInReading_ok _
        · refine failsInReading_bind (failsInReading_readConditionsIn h path ms) fun children _ => ?_
          refine failsInReading_bind (failsInReading_nameOr path .group _) fun name _ => ?_
          exact failsInReading_bind (failsInReading_conjunction _) fun conjunction _ => failsInReading_ok _
        · exact failsInReading_error rfl
  | .null | .bool _ | .int _ | .float _ | .text _ | .list _ => failsInReading_error rfl

theorem failsInReading_readConditionsIn (h : LooksUp joining) (path : String) :
    (ms : List (String × Value)) → FailsInReading (readConditionsIn joining path ms)
  | [] => failsInReading_ok _
  | (key, v) :: ms => by
      unfold readConditionsIn
      split
      · exact failsInReading_readConditions h path v
      · exact failsInReading_readConditionsIn h path ms

theorem failsInReading_readConditions (h : LooksUp joining) (path : String) :
    (v : Value) → FailsInReading (readConditions joining path v)
  | .list vs => failsInReading_readConditionItems h path 0 vs
  | .null | .bool _ | .int _ | .float _ | .text _ | .record _ => failsInReading_noItems (.expectedCondition "str") rfl _

theorem failsInReading_readConditionItems (h : LooksUp joining) (path : String) (i : Nat) :
    (vs : List Value) → FailsInReading (readConditionItems joining path i vs)
  | [] => failsInReading_ok _
  | v :: vs =>
      failsInReading_bind (failsInReading_readCondition h _ v) fun _ _ =>
        failsInReading_bind (failsInReading_readConditionItems h path (i + 1) vs) fun _ _ =>
          failsInReading_ok _

end

theorem failsInReading_label (path : String) (name : Value) (result : Node) :
    FailsInReading (label path name result) := by
  refine failsInReading_bind (failsInReading_positional path .expression) fun default _ => ?_
  split
  · exact failsInReading_ok _
  · split
    · split <;> exact failsInReading_ok _
    · exact failsInReading_ok _

theorem failsInReading_readBranches (h : LooksUp joining) (i : Nat) (vs : List Value) :
    FailsInReading (readBranches joining i vs) := by
  induction vs generalizing i with
  | nil => exact failsInReading_ok _
  | cons v vs ih =>
      refine failsInReading_bind ?_ fun branch _ => failsInReading_bind (ih (i + 1)) fun _ _ => failsInReading_ok _
      cases v with
      | record ms =>
          refine failsInReading_bind (failsInReading_readExpression h _) fun result _ => ?_
          refine failsInReading_bind (failsInReading_label _ _ result) fun label _ => ?_
          exact failsInReading_bind (failsInReading_readCondition h _ _) fun _ _ => failsInReading_ok _
      | _ => exact failsInReading_error rfl

theorem failsInReading_readChoice (h : LooksUp joining) (v : Value) :
    FailsInReading (readChoice joining v) := by
  cases v with
  | record ms =>
      simp only [readChoice]
      split
      · have rest (branches : List (Branch Node)) : FailsInReading do
            let otherwise ← readExpression joining (part "elseClause" ms)
            let label ← label Choice.otherwisePath (part "elseResultName" ms) otherwise
            return Node.choice branches otherwise label := by
          refine failsInReading_bind (failsInReading_readExpression h _) fun otherwise _ => ?_
          exact failsInReading_bind (failsInReading_label _ _ otherwise) fun label _ => failsInReading_ok _
        split
        · exact failsInReading_bind (failsInReading_readBranches h 0 _) fun branches _ => rest branches
        · exact failsInReading_bind (failsInReading_noItems _ rfl _) fun branches _ => rest branches
      · exact failsInReading_error rfl
  | _ => exact failsInReading_error rfl

theorem failsInReading_readDefinition (h : LooksUp joining) (form data : Value) :
    FailsInReading (readDefinition joining form data) := by
  unfold readDefinition
  split
  · exact failsInReading_readCondition h "root" data
  · exact failsInReading_readChoice h data
  · exact failsInReading_readExpression h data
  · exact failsInReading_error rfl

end Stored

namespace Document

/-- Reading a document, with a catalogue or without, fails by a fault of reading if it fails. -/
theorem failsInReading_read (catalogue : Option Catalogue) (v : Value) : FailsInReading (read catalogue v) := by
  cases v with
  | record ms =>
      have known := looksUp_defaultJoining catalogue
      refine failsInReading_bind (Stored.failsInReading_readDefinition known _ _) fun definition _ => ?_
      refine failsInReading_bind ?_ fun about _ => ?_
      · unfold metadata
        split
        · exact failsInReading_ok _
        · split
          · exact failsInReading_ok _
          · exact failsInReading_error rfl
      · unfold make
        split
        · exact failsInReading_error rfl
        · split
          · exact failsInReading_error rfl
          · exact failsInReading_ok _
  | _ => exact failsInReading_error rfl

end Document

end RuleEditor
