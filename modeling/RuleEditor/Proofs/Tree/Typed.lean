import RuleEditor.Proofs.Tree.Everywhere
import RuleEditor.Proofs.Tree.Positions
import RuleEditor.Rule.Warnings

/-!
# Well-typed trees

In a well-typed tree the operands of chains and the left sides of comparisons are there and declare a type, types
are texts, and operators are nothing that cannot be looked up. The types of its chains can be inferred, and its
warnings can be told.
-/
namespace RuleEditor

namespace Value

/-- The value is a text or is missing, as the names of types are. -/
def Textual : Value → Prop
  | .null | .text _ => True
  | _ => False

theorem Textual.eq_of_same {a b : Value} (ha : a.Textual) (hb : b.Textual) (h : a.same b = true) : a = b := by
  cases a with
  | null =>
      cases b with
      | null => rfl
      | _ => cases h
  | text s =>
      cases b with
      | text t =>
          rw [Value.same, beq_iff_eq] at h
          rw [h]
      | _ => cases h
  | _ => exact ha.elim

theorem Textual.orElse {a b : Value} (ha : a.Textual) (hb : b.Textual) : (a.orElse b).Textual := by
  unfold Value.orElse
  split
  · exact hb
  · exact ha

end Value

namespace Node

/-- The node declares a type. -/
def Typed (node : Node) : Prop := ∃ type, node.type = .ok type ∧ type.Textual

/-- The node itself, without what is further inside, is typed as it has to be. -/
def Typeable : Node → Prop
  | .chain type operands operators =>
    type.Textual ∧ (∀ operand ∈ operands, operand.Typed) ∧ ∀ operator ∈ operators, operator.isKey = true
  | .comparison _ left _ _ => left.Typed
  | _ => True

def WellTyped (tree : Node) : Prop := Everywhere Typeable tree

/-- The left side of each comparison declares a type. -/
def LeftsDeclared (tree : Node) : Prop :=
  ∀ ⦃steps name left operator right⦄, tree.find steps = .ok (.comparison name left operator right) →
    ∃ type, left.type = .ok type

variable {operands : List Node} {operators : List Value} {tree node : Node}

theorem anyNumeric_eq_ok (numeric : List String) (h : ∀ operator ∈ operators, operator.isKey = true) :
    ∃ b, Typing.anyNumeric numeric operators = .ok b := by
  induction operators with
  | nil => exact ⟨false, rfl⟩
  | cons operator rest ih =>
      obtain ⟨key, others⟩ := List.forall_mem_cons.mp h
      obtain ⟨b, below⟩ := ih others
      cases operator with
      | text s =>
          unfold Typing.anyNumeric
          split
          · exact ⟨true, rfl⟩
          · exact ⟨b, below⟩
      | list _ => cases key
      | record _ => cases key
      | _ => exact ⟨b, below⟩

theorem type_of_isExpression (h : node.isExpression = true) : ∃ type, node.type = .ok type := by
  cases node <;> first | exact ⟨_, rfl⟩ | cases h

/-- The type of a chain can be inferred if its operands declare types and its operators can be looked up. -/
theorem infer_of_types (numeric : List String) (ht : ∀ operand ∈ operands, ∃ type, operand.type = .ok type)
    (hk : ∀ operator ∈ operators, operator.isKey = true) :
    ∃ type, Typing.infer numeric operands operators = .ok type := by
  obtain ⟨counted, known⟩ := anyNumeric_eq_ok numeric hk
  unfold Typing.infer
  rw [known, ok_bind]
  cases counted with
  | true => exact ⟨_, rfl⟩
  | false =>
      cases operands with
      | nil => exact ⟨_, rfl⟩
      | cons first rest =>
          obtain ⟨type, declared⟩ := ht first List.mem_cons_self
          simp only [Bool.false_eq_true, if_false, declared, ok_bind, pure_eq_ok]
          exact ⟨_, rfl⟩

theorem infer_eq_ok (numeric : List String) (ht : ∀ operand ∈ operands, operand.Typed)
    (hk : ∀ operator ∈ operators, operator.isKey = true) :
    ∃ type, Typing.infer numeric operands operators = .ok type ∧ type.Textual := by
  obtain ⟨arithmetic, known⟩ := anyNumeric_eq_ok numeric hk
  unfold Typing.infer
  rw [known, ok_bind]
  cases arithmetic with
  | true => exact ⟨_, rfl, trivial⟩
  | false =>
      cases operands with
      | nil => exact ⟨_, rfl, trivial⟩
      | cons first rest =>
          obtain ⟨type, declared, textual⟩ := ht first List.mem_cons_self
          simp only [Bool.false_eq_true, if_false, declared, ok_bind, pure_eq_ok]
          exact ⟨_, rfl, textual.orElse trivial⟩

theorem ofDefinition_eq_ok (form : Option Form) (typed : node.Typed) (hw : node.WellTyped) :
    ∃ type, Typing.ofDefinition form node = .ok type := by
  -- the declared type of a chain is not asked for, as its type is inferred anew
  have expression {e : Node} (typed : e.Typed) (hw : e.WellTyped) : ∃ type, Typing.ofExpression e = .ok type := by
    unfold Typing.ofExpression
    split
    · obtain ⟨-, operands, operators⟩ := hw.here
      obtain ⟨type, inferred, -⟩ := infer_eq_ok _ operands operators
      exact ⟨type, inferred⟩
    · obtain ⟨type, declared, -⟩ := typed
      exact ⟨type, declared⟩
  unfold Typing.ofDefinition
  split
  · exact ⟨_, rfl⟩
  · exact ⟨_, rfl⟩
  · exact ⟨_, rfl⟩
  · exact ⟨_, rfl⟩
  · split
    · exact ⟨_, rfl⟩
    · exact expression typed (Everywhere.choice_inside.mp hw.inside).1
  · split
    · exact ⟨_, rfl⟩
    · exact expression typed hw

theorem WellTyped.leftsDeclared (h : tree.WellTyped) : tree.LeftsDeclared := by
  intro steps name left operator right found
  obtain ⟨type, declared, -⟩ := (h.find found).here
  exact ⟨type, declared⟩

end Node

/-- The rule declares a type, and so does its definition, which is well typed. -/
structure Document.WellTyped (d : Document) : Prop where
  textual : d.type.Textual
  typed : d.definition.Typed
  inside : d.definition.WellTyped

namespace Finding

theorem ofDocument_eq_ok {d : Document} (h : d.WellTyped) : ∃ f, ofDocument d = .ok f := by
  obtain ⟨type, evaluated⟩ := Node.ofDefinition_eq_ok (some d.form) h.typed h.inside
  refine ⟨ofTypes d.type type, ?_⟩
  unfold ofDocument ofRule
  rw [evaluated]
  rfl

end Finding

/-! ### Warnings -/

namespace Document

variable {d : Document} {steps : List Step} {node : Node}

/-- Where a node stands on the right side, its comparison and the type of the left side are known. -/
theorem left_type_eq_ok (hl : d.definition.LeftsDeclared) (hf : d.definition.find steps = .ok node)
    {last : Step} (he : steps.getLast? = some last) (hr : last = .right ∨ ∃ i, last = .rightItem i) :
    ∃ type, (do let comparison ← (← d.definition.find steps.dropLast).asComparison; comparison.left.type) =
      Except.ok type := by
  obtain ⟨front, rfl⟩ := List.getLast?_eq_some_iff.mp he
  rw [Node.find_append] at hf
  obtain ⟨up, above, below⟩ := bind_eq_ok.mp hf
  obtain ⟨child, stands, -⟩ := bind_eq_ok.mp below
  obtain ⟨name, left, operator, side, rfl⟩ : ∃ name left operator side, up = .comparison name left operator side := by
    rcases hr with rfl | ⟨i, rfl⟩
    · cases up <;> first | exact ⟨_, _, _, _, rfl⟩ | cases stands
    · cases up <;> first | exact ⟨_, _, _, _, rfl⟩ | cases stands
  obtain ⟨type, declared⟩ := hl above
  rw [List.dropLast_concat, above]
  exact ⟨type, declared⟩

theorem warningsAt_eq_ok (hl : d.definition.LeftsDeclared) (hf : d.definition.find steps = .ok node) :
    ∃ warnings, d.warningsAt steps node = .ok warnings := by
  have required : ∃ type, d.requiredType steps node = .ok type := by
    unfold requiredType
    split
    · exact ⟨_, rfl⟩
    · exact ⟨_, rfl⟩
    · exact ⟨_, rfl⟩
    · exact ⟨_, rfl⟩
    · rename_i ends
      exact left_type_eq_ok hl hf ends (.inl rfl)
    · rename_i ends
      exact left_type_eq_ok hl hf ends (.inr ⟨_, rfl⟩)
    · exact ⟨_, rfl⟩
  obtain ⟨type, required⟩ := required
  unfold warningsAt
  split
  · exact ⟨_, rfl⟩
  · split
    · exact ⟨_, rfl⟩
    · rw [required]
      exact ⟨_, rfl⟩

theorem warnings_eq_ok (h : d.definition.LeftsDeclared) : ∃ warnings, d.warnings = .ok warnings := by
  have among (positions : List (List Step × Node)) (found : ∀ p ∈ positions, d.definition.find p.1 = .ok p.2) :
      ∃ warnings, d.warningsAmong positions = .ok warnings := by
    induction positions with
    | nil => exact ⟨[], rfl⟩
    | cons p rest ih =>
        obtain ⟨first, others⟩ := List.forall_mem_cons.mp found
        obtain ⟨here, told⟩ := warningsAt_eq_ok h first
        obtain ⟨below, rest⟩ := ih others
        unfold warningsAmong
        rw [told, ok_bind, rest, ok_bind]
        exact ⟨_, rfl⟩
  exact among _ fun p within => Node.find_of_mem_positions within

end Document

end RuleEditor
