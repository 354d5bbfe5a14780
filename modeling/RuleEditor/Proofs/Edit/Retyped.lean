import RuleEditor.Edit.Comparison
import RuleEditor.Proofs.Edit.Counts
import RuleEditor.Proofs.Stored.Labels

/-!
# Types that follow the left operand

A comparison that is given another left operand gives its type to the right ones, and to the operands of the chains
among them at every depth. Nothing else of them changes: no value is converted, and an argument of a call keeps the type
that it has. So it does not matter which left operand a comparison had before.
-/
namespace RuleEditor

theorem Value.Matches.eq_of_textual {a b : Value} (textual : b.Textual) (h : a.Matches b) : a = b := by
  rcases h with rfl | same
  · rfl
  · cases b with
    | null =>
        cases a with
        | null => rfl
        | _ => cases same
    | text s => exact Stored.same_text_iff.mp same
    | _ => exact textual.elim

namespace Node

/-- An expression, and so are the operands of the chains in it. -/
inductive Operand : Node → Prop
  | literal (type value : Value) : Operand (.literal type value)
  | field (type path : Value) : Operand (.field type path)
  | call (type name : Value) (arguments : List (Argument Node)) : Operand (.call type name arguments)
  | reference (target : Reference) : Operand (.reference target)
  | chain (type : Value) {operands : List Node} (operators : List Value) :
      (∀ operand ∈ operands, Operand operand) → Operand (.chain type operands operators)

mutual

/-- An operand under a type, which the operands of the chains in it take on as well, or several of them. Arguments of
calls keep the types that they have. -/
def withType (type : Value) : Node → Node
  | .several items => .several (withTypes type items)
  | .literal _ value => .literal type value
  | .field _ path => .field type path
  | .call _ name arguments => .call type name arguments
  | .reference target => .reference { target with type }
  | .chain _ operands operators => .chain type (withTypes type operands) operators
  | .absent => .absent
  | .comparison name left operator right => .comparison name left operator right
  | .group name children conjunction negated => .group name children conjunction negated
  | .ruleCheck name target => .ruleCheck name target
  | .choice branches otherwise label => .choice branches otherwise label

def withTypes (type : Value) : List Node → List Node
  | [] => []
  | node :: nodes => withType type node :: withTypes type nodes

end

/-- All of a right side but the types of its operands: values, paths, names, arguments, targets, operators and order. -/
def shape (node : Node) : Node := node.withType .null

mutual

/-- The types of a right side: of its operands and of the operands of the chains among them, at every depth. -/
def declared : Node → List Value
  | .several items => declaredAmong items
  | .literal type _ | .field type _ | .call type _ _ => [type]
  | .reference target => [target.type]
  | .chain type operands _ => type :: declaredAmong operands
  | .absent | .comparison .. | .group .. | .ruleCheck .. | .choice .. => []

def declaredAmong : List Node → List Value
  | [] => []
  | node :: nodes => declared node ++ declaredAmong nodes

end

variable {type : Value} {node new new' : Node} {nodes : List Node}

/-! ### One type in the place of another -/

mutual

/-- Of two types that are given one after the other, the last one stays. -/
theorem withType_withType (first last : Value) :
    ∀ node : Node, (node.withType first).withType last = node.withType last
  | .several items => congrArg Node.several (withTypes_withTypes first last items)
  | .chain _ operands operators =>
    congrArg (Node.chain last · operators) (withTypes_withTypes first last operands)
  | .literal .. | .field .. | .call .. | .reference _ | .absent | .comparison .. | .group .. | .ruleCheck ..
  | .choice .. => rfl

theorem withTypes_withTypes (first last : Value) :
    ∀ nodes : List Node, withTypes last (withTypes first nodes) = withTypes last nodes
  | [] => rfl
  | node :: nodes => by
    simp only [withTypes, withType_withType first last node, withTypes_withTypes first last nodes]

end

mutual

/-- A right side is what it is when each of its types is replaced by itself. -/
theorem withType_of_declared : ∀ node : Node, (∀ u ∈ node.declared, u = type) → node.withType type = node
  | .several items, all => congrArg Node.several (withTypes_of_declared items all)
  | .chain _ operands operators, all => by
    obtain ⟨own, inside⟩ := List.forall_mem_cons.mp all
    rw [withType, withTypes_of_declared operands inside, own]
  | .literal .., all | .field .., all | .call .., all => by rw [withType, all _ List.mem_cons_self]
  | .reference _, all => by
    rw [withType]
    cases all _ List.mem_cons_self
    rfl
  | .absent, _ | .comparison .., _ | .group .., _ | .ruleCheck .., _ | .choice .., _ => rfl

theorem withTypes_of_declared :
    ∀ nodes : List Node, (∀ u ∈ declaredAmong nodes, u = type) → withTypes type nodes = nodes
  | [], _ => rfl
  | node :: nodes, all => by
    obtain ⟨first, others⟩ := List.forall_mem_append.mp all
    rw [withTypes, withType_of_declared node first, withTypes_of_declared nodes others]

end

mutual

theorem declared_withType : ∀ node : Node, ∀ u ∈ (node.withType type).declared, u = type
  | .several items => declaredAmong_withTypes items
  | .chain _ operands _ => List.forall_mem_cons.mpr ⟨rfl, declaredAmong_withTypes operands⟩
  | .literal .. | .field .. | .call .. | .reference _ => List.forall_mem_singleton.mpr rfl
  | .absent | .comparison .. | .group .. | .ruleCheck .. | .choice .. => List.forall_mem_nil _

theorem declaredAmong_withTypes : ∀ nodes : List Node, ∀ u ∈ declaredAmong (withTypes type nodes), u = type
  | [] => List.forall_mem_nil _
  | node :: nodes => List.forall_mem_append.mpr ⟨declared_withType node, declaredAmong_withTypes nodes⟩

end

theorem shape_withType (type : Value) (node : Node) : (node.withType type).shape = node.shape :=
  withType_withType type .null node

/-- A right side is known from its shape and its one type. -/
theorem eq_of_shape (hs : new.shape = new'.shape) (ha : ∀ u ∈ new.declared, u = type)
    (ha' : ∀ u ∈ new'.declared, u = type) : new = new' :=
  calc
    new = new.withType type := (withType_of_declared new ha).symm
    _ = new.shape.withType type := (withType_withType .null type new).symm
    _ = new'.shape.withType type := by rw [hs]
    _ = new'.withType type := withType_withType .null type new'
    _ = new' := withType_of_declared new' ha'

theorem Operand.isExpression (h : node.Operand) : node.isExpression = true := by
  cases h <;> rfl

theorem forall_mem_withTypes {p : Node → Prop} :
    (∀ node ∈ withTypes type nodes, p node) ↔ ∀ node ∈ nodes, p (node.withType type) := by
  induction nodes with
  | nil => simp only [withTypes, List.not_mem_nil, false_imp_iff, implies_true]
  | cons node rest ih => rw [withTypes, List.forall_mem_cons, List.forall_mem_cons, ih]

theorem Operand.withType (type : Value) (h : node.Operand) : (node.withType type).Operand := by
  induction h with
  | literal _ value => exact .literal type value
  | field _ path => exact .field type path
  | call _ name arguments => exact .call type name arguments
  | reference target => exact .reference _
  | chain _ operators _ ih => exact .chain type operators (forall_mem_withTypes.mpr ih)

theorem retypedOperands_eq (h : ∀ node ∈ nodes, node.retyped type = .ok (node.withType type)) :
    retypedOperands type nodes = .ok (withTypes type nodes) := by
  induction nodes with
  | nil => rfl
  | cons node rest ih =>
      obtain ⟨first, others⟩ := List.forall_mem_cons.mp h
      rw [retypedOperands, first, ok_bind, ih others]
      rfl

theorem Operand.retyped_eq (type : Value) (h : node.Operand) : node.retyped type = .ok (node.withType type) := by
  induction h with
  | chain _ operators _ ih =>
      rw [retyped, retypedOperands_eq ih]
      rfl
  | _ => rfl

end Node

/-! ### Right sides that follow a type -/

namespace Comparison

open Node

variable {c : Comparison} {type : Value} {left node old new new' : Node} {items : List Node}

/-- The right side `new` is `old` under a type. A type that is the same data already may have stayed. -/
structure Follows (type : Value) (old new : Node) : Prop where
  operands : ∀ operand ∈ new.sides, operand.Operand
  shape : new.shape = old.shape
  declared : ∀ u ∈ new.declared, u.Matches type

theorem Follows.unique (textual : type.Textual) (h : Follows type old new) (h' : Follows type old new') : new = new' :=
  eq_of_shape (h.shape.trans h'.shape.symm) (fun u within => (h.declared u within).eq_of_textual textual)
    fun u within => (h'.declared u within).eq_of_textual textual

theorem Follows.trans {type' : Value} (h : Follows type old new) (h' : Follows type' new new') :
    Follows type' old new' := ⟨h'.operands, h'.shape.trans h.shape, h'.declared⟩

theorem follows_withType (type : Value) (operand : node.Operand) : Follows type node (node.withType type) where
  operands := by
    have same := operand.withType type
    rw [sides_of_isExpression same.isExpression]
    exact List.forall_mem_singleton.mpr same
  shape := shape_withType type node
  declared u within := .inl (declared_withType node u within)

/-- An operand other than a chain that has the type already is left as it is. -/
theorem followLeft_eq (type : Value) (operand : node.Operand) :
    followLeft type node = .ok (node.withType type) ∨
      followLeft type node = .ok node ∧ ∀ u ∈ node.declared, u.same type = true := by
  have given := operand.retyped_eq type
  cases operand with
  | chain => exact .inl given
  | literal own | field own | call own =>
      by_cases same : own.same type = true
      · exact .inr ⟨if_pos same, List.forall_mem_singleton.mpr same⟩
      · exact .inl (if_neg same)
  | reference target =>
      by_cases same : target.type.same type = true
      · exact .inr ⟨if_pos same, List.forall_mem_singleton.mpr same⟩
      · exact .inl (if_neg same)

theorem followLeft_follows (type : Value) (operand : node.Operand) :
    ∃ new, followLeft type node = .ok new ∧ new.Operand ∧ Follows type node new := by
  rcases followLeft_eq type operand with given | ⟨kept, same⟩
  · exact ⟨_, given, operand.withType type, follows_withType type operand⟩
  · refine ⟨node, kept, operand, ?_, rfl, fun u within => .inr (same u within)⟩
    rw [sides_of_isExpression operand.isExpression]
    exact List.forall_mem_singleton.mpr operand

theorem mapM_followLeft_follows (type : Value) (h : ∀ item ∈ items, item.Operand) :
    ∃ news, items.mapM (followLeft type) = .ok news ∧ Follows type (.several items) (.several news) := by
  induction items with
  | nil => exact ⟨[], rfl, List.forall_mem_nil _, rfl, List.forall_mem_nil _⟩
  | cons item rest ih =>
      obtain ⟨first, others⟩ := List.forall_mem_cons.mp h
      obtain ⟨new, given, operand, follows⟩ := followLeft_follows type first
      obtain ⟨news, all, below⟩ := ih others
      refine ⟨new :: news, ?_, List.forall_mem_cons.mpr ⟨operand, below.operands⟩, ?_,
        List.forall_mem_append.mpr ⟨follows.declared, below.declared⟩⟩
      · rw [List.mapM_cons, given, ok_bind, all]
        rfl
      · have tail := Node.several.inj below.shape
        exact congrArg Node.several (congrArg₂ List.cons follows.shape tail)

/-- A comparison with expressions on its right side takes any left operand that declares a type. -/
theorem changeLeft_follows (hd : left.type = .ok type)
    (ho : ∀ operand ∈ c.right.sides, operand.Operand) :
    ∃ right, c.changeLeft left = .ok { c with left, right } ∧ Follows type c.right right := by
  rw [changeLeft, hd, ok_bind]
  split
  · rename_i absent
    rw [absent]
    refine ⟨.absent, ?_, List.forall_mem_nil _, rfl, List.forall_mem_nil _⟩
    rw [← absent]
    rfl
  · rename_i items is
    rw [is] at ho ⊢
    have listed : ∀ item ∈ items, item.Operand := ho
    obtain ⟨news, all, follows⟩ := mapM_followLeft_follows type listed
    refine ⟨.several news, ?_, follows⟩
    rw [all]
    rfl
  · rename_i present single
    have expressions : ∀ operand ∈ c.right.sides, operand.isExpression = true :=
      fun operand within => (ho operand within).isExpression
    have expression := isExpression_of_sides expressions single present
    rw [sides_of_isExpression expression] at ho
    obtain ⟨new, given, -, follows⟩ := followLeft_follows type (ho _ List.mem_cons_self)
    refine ⟨new, ?_, follows⟩
    rw [given]
    rfl

/-- A comparison keeps its name, its operator and the shape of its right side when it is given another left operand, of
which the right ones take the type. It then takes a third one just as it would have taken it at once. -/
theorem changeLeft_retypes (he : left.isExpression = true)
    (ho : ∀ operand ∈ c.right.sides, operand.Operand) :
    ∃ type right, left.type = .ok type ∧ c.changeLeft left = .ok { c with left, right } ∧
      right.shape = c.right.shape ∧ (∀ u ∈ right.declared, u.Matches type ∧ (type.Textual → u = type)) ∧
      ∀ left' : Node, left'.isExpression = true → ∃ type' right', left'.type = .ok type' ∧
        changeLeft left' { c with left, right } = .ok { c with left := left', right := right' } ∧
        right'.shape = c.right.shape ∧
        (∀ u ∈ right'.declared, u.Matches type' ∧ (type'.Textual → u = type')) ∧
        (type'.Textual → c.changeLeft left' = .ok { c with left := left', right := right' }) := by
  have exactly {type : Value} {new : Node} (follows : Follows type c.right new) :
      ∀ u ∈ new.declared, u.Matches type ∧ (type.Textual → u = type) :=
    fun u within => ⟨follows.declared u within, (follows.declared u within).eq_of_textual⟩
  obtain ⟨type, declares⟩ := type_of_isExpression he
  obtain ⟨right, changed, follows⟩ := changeLeft_follows declares ho
  refine ⟨type, right, declares, changed, follows.shape, exactly follows, ?_⟩
  intro left' expression'
  obtain ⟨type', declares'⟩ := type_of_isExpression expression'
  obtain ⟨right', again, after⟩ := changeLeft_follows (c := { c with left, right }) declares' follows.operands
  have direct := follows.trans after
  refine ⟨type', right', declares', again, direct.shape, exactly direct, ?_⟩
  intro textual
  obtain ⟨right'', once, only⟩ := changeLeft_follows declares' ho
  rw [once, only.unique textual direct]

/-- An age between a number and a sum, one operand of which is a call. -/
def summed : Comparison where
  name := .text "Condition 1"
  left := .field (.text "number") (.text "AGE")
  operator := .text "between"
  right := .several [.literal (.text "number") (.int 18),
    .chain (.text "text") [.field (.text "number") (.text "BASE"),
      .call (.text "number") (.text "max") [⟨.text "a", .literal (.text "number") (.int 1)⟩]] [.text "+"]]

/-- A text in the place of the age. -/
def nameField : Node := .field (.text "text") (.text "NAME")

/-- A date in the place of the age. -/
def birthField : Node := .field (.text "date") (.text "BORN")

/-- The sum is retyped inside although it has the type of the name already, and the argument of the call is not. -/
theorem summed_retyped :
    nameField.isExpression = true ∧ (∀ operand ∈ summed.right.sides, operand.Operand) ∧
      birthField.isExpression = true ∧
      ∃ right, summed.changeLeft nameField = .ok { summed with left := nameField, right } ∧
        right = .several [.literal (.text "text") (.int 18),
          .chain (.text "text") [.field (.text "text") (.text "BASE"),
            .call (.text "text") (.text "max") [⟨.text "a", .literal (.text "number") (.int 1)⟩]] [.text "+"]] ∧
        ∃ right', changeLeft birthField { summed with left := nameField, right } =
            .ok { summed with left := birthField, right := right' } ∧
          summed.changeLeft birthField = .ok { summed with left := birthField, right := right' } := by
  have text : nameField.isExpression = true := rfl
  have date : birthField.isExpression = true := rfl
  have operands : ∀ operand ∈ summed.right.sides, operand.Operand :=
    List.forall_mem_cons.mpr ⟨.literal _ _, List.forall_mem_singleton.mpr (.chain _ _
      (List.forall_mem_cons.mpr ⟨.field _ _, List.forall_mem_singleton.mpr (.call _ _ _)⟩))⟩
  refine ⟨text, operands, date, ?_⟩
  obtain ⟨type, right, declares, changed, shape, declared, again⟩ := changeLeft_retypes text operands
  cases declares
  obtain ⟨type', right', declares', after, -, -, direct⟩ := again birthField date
  cases declares'
  refine ⟨right, changed, ?_, right', after, direct trivial⟩
  exact eq_of_shape shape (fun u within => (declared u within).2 trivial) (by simp [Node.declared, declaredAmong])

end Comparison
end RuleEditor
