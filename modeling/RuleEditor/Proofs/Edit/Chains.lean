import RuleEditor.Edit.Chain
import RuleEditor.Proofs.Tree.Normalizing
import Mathlib.Data.List.InsertIdx

/-!
# Operands put into chains and taken out again

An operand comes into a chain together with an operator, and the same two go when it is taken out. So an operand
that was put in can be taken out as if it had never been there. Of two operands the one that is left stands for
itself.
-/
namespace RuleEditor

open Node

/-- Every chain of an expression has two operands or more, one operator fewer, and the inferred type. -/
structure Node.Regular (numeric : List String) (e : Node) : Prop where
  expression : e.Everywhere (Belongs .expression)
  typed : e.Everywhere Typed
  settled : ∀ c ∈ e.chains, c.Settled numeric

variable {numeric : List String} {e : Node} {operator : Value}

namespace Node

variable {type name : Value} {operands : List Node} {operators : List Value} {arguments : List (Argument Node)}

theorem regular_chain : (Node.chain type operands operators).Regular numeric ↔
    Chain.Settled numeric ⟨type, operands, operators⟩ ∧ type.Textual ∧ (∀ o ∈ operators, o.isKey = true) ∧
      ∀ operand ∈ operands, operand.Regular numeric := by
  constructor
  · intro h
    have settled := h.settled
    rw [chains_chain, List.forall_mem_cons, List.forall_mem_flatMap] at settled
    obtain ⟨own, declared, textual⟩ := h.typed.here
    cases declared
    refine ⟨settled.1, textual, h.expression.here.keyed, ?_⟩
    intro operand within
    exact ⟨h.expression.inside operand within, h.typed.inside operand within, settled.2 operand within⟩
  · intro ⟨here, textual, keys, regular⟩
    constructor
    case expression => exact .intro ⟨rfl, keys⟩ fun operand within => (regular operand within).expression
    case typed => exact .intro ⟨type, rfl, textual⟩ fun operand within => (regular operand within).typed
    case settled =>
      rw [chains_chain, List.forall_mem_cons, List.forall_mem_flatMap]
      exact ⟨here, fun operand within => (regular operand within).settled⟩

theorem regular_call : (Node.call type name arguments).Regular numeric ↔
    type.Textual ∧ ∀ a ∈ arguments, a.value.Regular numeric := by
  constructor
  · intro h
    have settled := h.settled
    rw [chains_call, List.forall_mem_flatMap] at settled
    obtain ⟨own, declared, textual⟩ := h.typed.here
    cases declared
    refine ⟨textual, ?_⟩
    intro a within
    have there : a.value ∈ (Node.call type name arguments).inner := List.mem_map_of_mem within
    exact ⟨h.expression.inside _ there, h.typed.inside _ there, settled a within⟩
  · intro ⟨textual, regular⟩
    constructor
    case expression =>
      exact .intro ⟨rfl, nofun⟩ (List.forall_mem_map.mpr fun a within => (regular a within).expression)
    case typed =>
      exact .intro ⟨type, rfl, textual⟩ (List.forall_mem_map.mpr fun a within => (regular a within).typed)
    case settled =>
      rw [chains_call, List.forall_mem_flatMap]
      exact fun a within => (regular a within).settled

theorem Leaf.regular (leaf : e.Leaf) (typed : e.Typed) : e.Regular numeric := by
  refine ⟨.intro leaf.belongs (leaf.inner_eq ▸ List.forall_mem_nil _),
    .intro typed (leaf.inner_eq ▸ List.forall_mem_nil _), ?_⟩
  intro c within
  cases leaf <;> cases within

/-- There is nothing to normalize where every chain is settled, by induction on the expression. -/
theorem Regular.normalized_eq (h : e.Regular numeric) (joining : Option Joining) :
    e.normalized numeric joining = .ok e := by
  have expression := h.expression
  induction expression with
  | @intro e here inside ih =>
      cases e with
      | literal | field | reference => rfl
      | call type name arguments =>
          apply normalized_call_eq_ok.mpr
          refine ⟨arguments, normalizedArguments_eq_ok.mpr (List.forall₂_same.mpr ?_), rfl⟩
          intro a within
          exact ⟨rfl, ih a.value (List.mem_map_of_mem within) ((regular_call.mp h).2 a within)⟩
      | chain type operands operators =>
          obtain ⟨settled, -, -, regular⟩ := regular_chain.mp h
          apply normalized_chain_eq_ok.mpr
          refine ⟨operands, List.forall₂_same.mpr ?_, ?_⟩
          · intro operand within
            exact ih operand within (regular operand within)
          · exact Stored.ofNormal_of_fits settled.two settled.count settled.inferred
      | _ => cases here.admitted

end Node

namespace Chain

variable {c : Chain} {i j : Nat} {type : Value} {operands : List Node} {operators : List Value}

theorem node_regular : c.node.Regular numeric ↔ c.Settled numeric ∧ c.type.Textual ∧
    (∀ o ∈ c.operators, o.isKey = true) ∧ ∀ operand ∈ c.operands, operand.Regular numeric := regular_chain

/-- Regular operands are a regular chain once their type is inferred. -/
theorem build_regular (ht : 2 ≤ operands.length) (hc : operators.length + 1 = operands.length)
    (hk : ∀ o ∈ operators, o.isKey = true) (hr : ∀ operand ∈ operands, operand.Regular numeric) :
    ∃ type, Typing.infer numeric operands operators = .ok type ∧
      build numeric operands operators = .ok ⟨type, operands, operators⟩ ∧
      (Node.chain type operands operators).Regular numeric := by
  have typed : ∀ operand ∈ operands, operand.Typed := fun operand within => (hr operand within).typed.here
  obtain ⟨type, inferred, textual⟩ := infer_eq_ok numeric typed hk
  refine ⟨type, inferred, ?_, regular_chain.mpr ⟨⟨ht, hc, inferred⟩, textual, hk, hr⟩⟩
  rw [build, inferred]
  rfl

/-! ### Taking an operand out -/

theorem operatorsWithout_eq (hc : operators.length + 1 = operands.length) (ht : 2 ≤ operands.length)
    (hw : i < operands.length) : operatorsWithout i operators = .ok (operators.eraseIdx (i - 1)) := by
  have some : operators.isEmpty = false := by
    rw [List.isEmpty_eq_false_iff, ← List.length_pos_iff]
    omega
  have there : i - 1 < operators.length := by omega
  rw [operatorsWithout, some, if_neg Bool.false_ne_true, if_pos there]

/-- What is made of the operands and operators that are left. -/
def ofLeft (numeric : List String) (operators : List Value) : List Node → Except Fault Node
  | [] => .error .noOperandsLeft
  | [operand] => operand.normalized numeric none
  | first :: second :: rest => (build numeric (first :: second :: rest) operators).map Chain.node

theorem removeOperand_eq_left (hc : c.operators.length + 1 = c.operands.length) (ht : 2 ≤ c.operands.length)
    (hw : i < c.operands.length) :
    c.removeOperand numeric i = ofLeft numeric (c.operators.eraseIdx (i - 1)) (c.operands.eraseIdx i) := by
  have inside : 0 ≤ (i : Int) ∧ (i : Int) < c.operands.length := by omega
  rw [removeOperand, if_pos inside, Int.toNat_natCast, operatorsWithout_eq hc ht hw, ok_bind]
  match c.operands.eraseIdx i with
  | [] => rfl
  | [operand] => rfl
  | first :: second :: rest =>
      simp only [ofLeft]
      cases build numeric (first :: second :: rest) (c.operators.eraseIdx (i - 1)) <;> rfl

theorem removeOperand_alone (hc : c.operators.length + 1 = c.operands.length) (ht : 2 ≤ c.operands.length)
    (hw : i < c.operands.length) (hl : c.operands.eraseIdx i = [e]) (regular : e.Regular numeric) :
    c.removeOperand numeric i = .ok e := by
  rw [removeOperand_eq_left hc ht hw, hl]
  exact regular.normalized_eq none

theorem removeOperand_others (hc : c.operators.length + 1 = c.operands.length)
    (hw : i < c.operands.length) (hl : 2 ≤ (c.operands.eraseIdx i).length)
    (hi : Typing.infer numeric (c.operands.eraseIdx i) (c.operators.eraseIdx (i - 1)) = .ok type) :
    c.removeOperand numeric i = .ok (.chain type (c.operands.eraseIdx i) (c.operators.eraseIdx (i - 1))) := by
  have two : 2 ≤ c.operands.length := le_trans hl (List.length_eraseIdx_le _ _)
  rw [removeOperand_eq_left hc two hw]
  generalize c.operands.eraseIdx i = operands at hl hi
  match operands, hl with
  | first :: second :: rest, _ =>
      rw [ofLeft, build, hi]
      rfl

/-- With an operand goes the operator in front of it, or the one behind it if it is the first. What is left is a chain
of the others, or the other one alone. -/
theorem removeOperand_left (regular : c.node.Regular numeric) (hw : j < c.operands.length) :
    ∃ r, c.removeOperand numeric j = .ok r ∧ r.Regular numeric ∧
      (c.operands.length = 2 → c.operands.eraseIdx j = [r]) ∧
      (2 < c.operands.length → ∃ type, r = .chain type (c.operands.eraseIdx j) (c.operators.eraseIdx (j - 1))) := by
  obtain ⟨settled, -, keys, operands⟩ := node_regular.mp regular
  have fewer := settled.count
  have length : (c.operands.eraseIdx j).length = c.operands.length - 1 := List.length_eraseIdx_of_lt hw
  have parts : ∀ operand ∈ c.operands.eraseIdx j, operand.Regular numeric :=
    fun operand there => operands operand (List.mem_of_mem_eraseIdx there)
  by_cases two : c.operands.length = 2
  · obtain ⟨r, left⟩ := List.length_eq_one_iff.mp (show (c.operands.eraseIdx j).length = 1 by omega)
    have rest : r.Regular numeric := parts r (left ▸ List.mem_singleton_self r)
    refine ⟨r, removeOperand_alone fewer settled.two hw left rest, rest, fun _ => left, ?_⟩
    intro more
    omega
  · have more : 2 ≤ (c.operands.eraseIdx j).length := by
      have two := settled.two
      omega
    have count : (c.operators.eraseIdx (j - 1)).length + 1 = (c.operands.eraseIdx j).length := by
      rw [List.length_eraseIdx_of_lt (by omega)]
      omega
    have keys : ∀ o ∈ c.operators.eraseIdx (j - 1), o.isKey = true :=
      fun o there => keys o (List.mem_of_mem_eraseIdx there)
    obtain ⟨type, inferred, -, rest⟩ := build_regular more count keys parts
    refine ⟨_, removeOperand_others fewer hw more inferred, rest, ?_, fun _ => ⟨type, rfl⟩⟩
    intro same
    exact absurd same two

/-! ### Putting an operand in -/

theorem literal_of_textual (numeric : List String) (textual : type.Textual) : ∃ added, Fresh.literal type = .ok added ∧
    added.Regular numeric := by
  have declared : (type.orElse (.text "text")).Textual := textual.orElse trivial
  obtain ⟨value, known⟩ : ∃ value, Fresh.value type = .ok value := by
    unfold Fresh.value
    split
    case h_4 same => rw [same] at declared; exact declared.elim
    case h_5 same => rw [same] at declared; exact declared.elim
    all_goals exact ⟨_, rfl⟩
  refine ⟨.literal (type.orElse (.text "text")) value, ?_, Leaf.literal.regular ⟨_, rfl, declared⟩⟩
  rw [Fresh.literal, known]
  rfl

/-- A new operand and its operator are put next to each other. -/
theorem insertOperand_eq_ok (regular : c.node.Regular numeric) (hk : operator.isKey = true)
    (hw : i < c.operands.length) : ∃ added type, added.Regular numeric ∧ c.insertOperand numeric operator i =
      .ok ⟨type, c.operands.insertIdx (i + 1) added, c.operators.insertIdx i operator⟩ := by
  obtain ⟨settled, -, keys, operands⟩ := node_regular.mp regular
  obtain ⟨first, rest, shape⟩ := List.exists_cons_of_length_pos (Nat.lt_of_lt_of_le Nat.two_pos settled.two)
  have head : first ∈ c.operands := shape ▸ List.mem_cons_self
  obtain ⟨own, declared, textual⟩ := (operands first head).typed.here
  obtain ⟨added, made, leaf⟩ := literal_of_textual numeric textual
  have type : c.operandType = .ok own := by
    rw [operandType, shape]
    exact declared
  have gap : Index.gap c.operators.length i = i := by
    have count := settled.count
    have plain : ¬ (i : Int) < 0 := by omega
    rw [Index.gap, if_neg plain, Int.toNat_natCast]
    omega
  have inside : 0 ≤ (i : Int) ∧ (i : Int) < c.operands.length := by omega
  have count : (c.operators.insertIdx i operator).length + 1 = (c.operands.insertIdx (i + 1) added).length := by
    have fewer := settled.count
    rw [List.length_insertIdx_of_le_length (by omega), List.length_insertIdx_of_le_length (by omega), fewer]
  have two : 2 ≤ (c.operands.insertIdx (i + 1) added).length := by
    rw [List.length_insertIdx_of_le_length (by omega)]
    have two := settled.two
    omega
  have keys : ∀ o ∈ c.operators.insertIdx i operator, o.isKey = true := by
    intro o there
    rcases List.eq_or_mem_of_mem_insertIdx there with rfl | there
    · exact hk
    · exact keys o there
  have parts : ∀ operand ∈ c.operands.insertIdx (i + 1) added, operand.Regular numeric := by
    intro operand there
    rcases List.eq_or_mem_of_mem_insertIdx there with rfl | there
    · exact leaf
    · exact operands operand there
  obtain ⟨inferred, -, built, -⟩ := build_regular two count keys parts
  refine ⟨added, inferred, leaf, ?_⟩
  rw [insertOperand, if_pos inside, type, ok_bind, made, ok_bind, Int.toNat_natCast, Index.insert, gap, built]

/-- The operand that was put in after another one goes, and the operator that came with it. -/
theorem removeOperand_insertOperand (regular : c.node.Regular numeric) (hk : operator.isKey = true)
    (hw : i < c.operands.length) : ∃ c', c.insertOperand numeric operator i = .ok c' ∧
      c'.removeOperand numeric (i + 1) = .ok c.node := by
  obtain ⟨added, type, -, inserted⟩ := insertOperand_eq_ok regular hk hw
  obtain ⟨settled, -⟩ := node_regular.mp regular
  have fewer := settled.count
  refine ⟨_, inserted, ?_⟩
  have operands : (c.operands.insertIdx (i + 1) added).eraseIdx (i + 1) = c.operands := List.eraseIdx_insertIdx_self _
  have operators : (c.operators.insertIdx i operator).eraseIdx (i + 1 - 1) = c.operators :=
    List.eraseIdx_insertIdx_self _
  have again : Chain.removeOperand numeric (i + 1)
      ⟨type, c.operands.insertIdx (i + 1) added, c.operators.insertIdx i operator⟩ =
        .ok (.chain c.type ((c.operands.insertIdx (i + 1) added).eraseIdx (i + 1))
          ((c.operators.insertIdx i operator).eraseIdx (i + 1 - 1))) := by
    apply removeOperand_others
    · rw [List.length_insertIdx_of_le_length (by omega), List.length_insertIdx_of_le_length (by omega), fewer]
    · show i + 1 < (c.operands.insertIdx (i + 1) added).length
      rw [List.length_insertIdx_of_le_length (by omega)]
      omega
    · rw [operands]
      exact settled.two
    · rw [operands, operators]
      exact settled.inferred
  rw [operands, operators] at again
  exact again

/-- An expression that was wrapped comes back as it was. -/
theorem removeOperand_wrap (regular : e.Regular numeric) (hk : operator.isKey = true) :
    ∃ c, wrap numeric operator e = .ok c ∧ c.removeOperand numeric 1 = .ok e := by
  obtain ⟨own, declared, textual⟩ := regular.typed.here
  obtain ⟨added, made, leaf⟩ := literal_of_textual numeric textual
  have parts : ∀ operand ∈ [e, added], operand.Regular numeric :=
    List.forall_mem_cons.mpr ⟨regular, List.forall_mem_singleton.mpr leaf⟩
  obtain ⟨type, -, built, -⟩ := build_regular le_rfl rfl (List.forall_mem_singleton.mpr hk) parts
  refine ⟨⟨type, [e, added], [operator]⟩, ?_, ?_⟩
  · rw [wrap, declared, ok_bind, made, ok_bind, built]
  · exact removeOperand_alone (i := 1) rfl le_rfl Nat.one_lt_two rfl regular

/-- An operand that is put in after another one, or at the end, can be taken out as if it had not been put in, and a
wrapped expression comes back as it was. Taking out an operand keeps the others in order and all operators but the one
in front of it, or the first one for the first operand; of two operands the other one is left alone. -/
theorem insertions_undone (numeric : List String) {operator : Value} (h : operator.isKey = true) :
    (∀ e : Node, e.Regular numeric →
      ∃ c, wrap numeric operator e = .ok c ∧ c.removeOperand numeric 1 = .ok e) ∧
    ∀ c : Chain, c.node.Regular numeric →
      (∀ i : Nat, i < c.operands.length → ∃ c', c.insertOperand numeric operator i = .ok c' ∧
        c'.removeOperand numeric (i + 1) = .ok c.node) ∧
      (∃ c', c.appendOperand numeric operator = .ok c' ∧
        c'.removeOperand numeric c.operands.length = .ok c.node) ∧
      ∀ j : Nat, j < c.operands.length → ∃ r, c.removeOperand numeric j = .ok r ∧ r.Regular numeric ∧
        (c.operands.length = 2 → c.operands.eraseIdx j = [r]) ∧
        (2 < c.operands.length →
          ∃ type, r = .chain type (c.operands.eraseIdx j) (c.operators.eraseIdx (j - 1))) := by
  refine ⟨fun e regular => removeOperand_wrap regular h, fun c regular => ⟨?_, ?_, ?_⟩⟩
  · intro i within
    exact removeOperand_insertOperand regular h within
  · have two := (node_regular.mp regular).1.two
    obtain ⟨last, length⟩ : ∃ last, c.operands.length = last + 1 := ⟨c.operands.length - 1, by omega⟩
    have within : last < c.operands.length := by omega
    obtain ⟨c', inserted, removed⟩ := removeOperand_insertOperand regular h within
    have after : ((last + 1 : Nat) : Int) - 1 = last := by omega
    refine ⟨c', ?_, ?_⟩
    · rw [appendOperand, length, after, inserted]
    · rw [length]
      exact removed
  · intro j within
    exact removeOperand_left regular within

/-- The age times a rounded sum. -/
def scaledAge : Chain where
  type := .text "number"
  operands := [.field (.text "number") (.text "AGE"),
    .call (.text "number") (.text "ROUND") [⟨.text "value", .chain (.text "number")
      [.literal (.text "number") (.int 1), .field (.text "number") (.text "BASE")] [.text "+"]⟩]]
  operators := [.text "*"]

theorem scaledAge_regular : scaledAge.node.Regular Typing.arithmetic := by
  have field (path : Value) : (Node.field (.text "number") path).Regular Typing.arithmetic :=
    Leaf.field.regular ⟨_, rfl, trivial⟩
  have one : (Node.literal (.text "number") (.int 1)).Regular Typing.arithmetic :=
    Leaf.literal.regular ⟨_, rfl, trivial⟩
  have joined {operands : List Node} (two : operands.length = 2) {symbol : String}
      (arithmetic : symbol ∈ Typing.arithmetic)
      (regular : ∀ operand ∈ operands, operand.Regular Typing.arithmetic) :
      (Node.chain (.text "number") operands [.text symbol]).Regular Typing.arithmetic := by
    have inferred : Typing.infer Typing.arithmetic operands [.text symbol] = .ok (.text "number") := by
      unfold Typing.infer Typing.anyNumeric
      rw [if_pos arithmetic]
      rfl
    exact regular_chain.mpr ⟨⟨two.ge, two.symm, inferred⟩, trivial, List.forall_mem_singleton.mpr rfl, regular⟩
  refine joined rfl (by decide) (List.forall_mem_cons.mpr ⟨field _, List.forall_mem_singleton.mpr ?_⟩)
  refine regular_call.mpr ⟨trivial, List.forall_mem_singleton.mpr ?_⟩
  exact joined rfl (by decide) (List.forall_mem_cons.mpr ⟨one, List.forall_mem_singleton.mpr (field _)⟩)

/-- An operand that is put in between turns the product of two operands into one of three, and goes again. -/
theorem scaledAge_insertion_undone :
    (Value.text "||").isKey = true ∧ scaledAge.node.Regular Typing.arithmetic ∧ 0 < scaledAge.operands.length ∧
      ∃ c', scaledAge.insertOperand Typing.arithmetic (.text "||") 0 = .ok c' ∧ c'.operands.length = 3 ∧
        c'.operators = [.text "||", .text "*"] ∧ c'.removeOperand Typing.arithmetic 1 = .ok scaledAge.node := by
  have key : (Value.text "||").isKey = true := rfl
  have some : 0 < scaledAge.operands.length := by decide
  have undone := (insertions_undone Typing.arithmetic key).2 scaledAge scaledAge_regular
  obtain ⟨c', inserted, removed⟩ := undone.1 0 some
  cases inserted
  exact ⟨key, scaledAge_regular, some, _, rfl, rfl, rfl, removed⟩

end Chain

end RuleEditor
