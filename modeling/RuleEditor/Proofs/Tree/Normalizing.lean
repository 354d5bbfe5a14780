import RuleEditor.Proofs.Stored.RoundTrip
import RuleEditor.Proofs.Tree.Listing
import RuleEditor.Proofs.Tree.Sorts
import Mathlib.Data.List.Forall2

/-!
# Normalizing expressions

Normalizing keeps the leaves of an expression in order. Of its chains it keeps those of two operands or more, with
operators that fit, and it changes nothing about an expression that is normal already. It succeeds exactly if every
chain has an operand, and an operator to fill in where there are too few.
-/
namespace RuleEditor

namespace Node

/-- All nodes of a tree, a parent before its children and the children in order. -/
def nodes (tree : Node) : List Node := tree.positions.map (·.2)

/-- What a node is as a leaf of an expression. A call is one without the values of its arguments. -/
def leaf? : Node → Option Node
  | .literal type value => some (.literal type value)
  | .field type path => some (.field type path)
  | .reference target => some (.reference target)
  | .call type name arguments => some (.call type name (arguments.map fun a => { a with value := .absent }))
  | _ => none

/-- The leaves of an expression from left to right, a call before the leaves of its arguments. -/
def leaves (e : Node) : List Node := e.nodes.filterMap leaf?

/-- The chains of an expression, each before the chains inside it. -/
def chains (e : Node) : List Chain := e.nodes.filterMap fun node => node.asChain.toOption

end Node

namespace Chain

/-- The operator that stands in for missing ones: the one that is looked up for the type of the first operand, or the
last one there is if none can be looked up. -/
def Pads (joining : Option Joining) (operands : List Node) (operators : List Value) (padding : Value) : Prop :=
  match joining with
  | some join => ∃ first rest type operator, operands = first :: rest ∧ first.type = .ok type ∧
      join type = .ok operator ∧ padding = .text operator
  | none => operators.getLast? = some padding

/-- The chain has an operand, and if it has too few operators there is one to fill in: one can be looked up for the
type of its first operand in normal form, or it has one itself. -/
def Completable (numeric : List String) (joining : Option Joining) (c : Chain) : Prop :=
  c.operands ≠ [] ∧ (c.operators.length + 1 < c.operands.length →
    match joining with
    | some join => ∃ first rest normal type operator, c.operands = first :: rest ∧
        first.normalized numeric (some join) = .ok normal ∧ normal.type = .ok type ∧ join type = .ok operator
    | none => c.operators ≠ [])

/-- The operands of the second chain are those of the first one in normal form. Its operators are the first ones of
the first chain, as many as it takes, and then nothing but padding. -/
structure Completes (numeric : List String) (joining : Option Joining) (c c' : Chain) : Prop where
  operands : List.Forall₂ (fun e e' => e.normalized numeric joining = .ok e') c.operands c'.operands
  operators : ∃ padding, c'.operators = c.operators.take (c.operands.length - 1) ++
    List.replicate (c.operands.length - 1 - c.operators.length) padding ∧
      (c.operators.length + 1 < c.operands.length → Pads joining c'.operands c.operators padding)

/-- The chain has two operands or more, one operator fewer, and the inferred type. -/
structure Settled (numeric : List String) (c : Chain) : Prop where
  two : 2 ≤ c.operands.length
  count : c.operators.length + 1 = c.operands.length
  inferred : Typing.infer numeric c.operands c.operators = .ok c.type

end Chain

/-- The second expression is the normal form of the first one. -/
structure Node.Projects (numeric : List String) (joining : Option Joining) (e r : Node) : Prop where
  leaves : r.leaves = e.leaves
  chains : List.Forall₂ (Chain.Completes numeric joining) (e.chains.filter fun c => 2 ≤ c.operands.length) r.chains
  settled : ∀ c ∈ r.chains, c.Settled numeric
  stable : ∀ other, r.normalized numeric other = .ok r

variable {numeric : List String} {joining : Option Joining}

/-! ### Lists side by side -/

section SideBySide

variable {α β γ : Type} {R S : α → β → Prop} {as : List α} {bs : List β}

theorem forall₂_of_exists (h : ∀ a ∈ as, ∃ b, R a b) : ∃ bs, List.Forall₂ R as bs := by
  induction as with
  | nil => exact ⟨[], .nil⟩
  | cons a rest ih =>
      obtain ⟨⟨b, first⟩, others⟩ := List.forall_mem_cons.mp h
      obtain ⟨bs, below⟩ := ih others
      exact ⟨b :: bs, .cons first below⟩

theorem exists_of_forall₂ (h : List.Forall₂ R as bs) : ∀ a ∈ as, ∃ b ∈ bs, R a b := by
  intro a within
  obtain ⟨i, there, rfl⟩ := List.mem_iff_getElem.mp within
  exact ⟨_, List.getElem_mem (h.length_eq ▸ there), h.get there (h.length_eq ▸ there)⟩

theorem forall₂_imp_of_mem (h : List.Forall₂ R as bs) (hs : ∀ a ∈ as, ∀ b, R a b → S a b) :
    List.Forall₂ S as bs :=
  ((List.forall₂_and_left as bs).mpr ⟨hs, h⟩).imp fun _ b both => both.1 b both.2

theorem flatMap_of_forall₂ {f : α → List γ} {g : β → List γ} (h : List.Forall₂ (fun a b => g b = f a) as bs) :
    bs.flatMap g = as.flatMap f := by
  induction h with
  | nil => rfl
  | cons here _ ih => rw [List.flatMap_cons, List.flatMap_cons, here, ih]

end SideBySide

/-! ### Leaves and chains -/

namespace Node

variable {type name : Value} {operands : List Node} {operators : List Value} {arguments : List (Argument Node)}

theorem nodes_eq (node : Node) : node.nodes = node :: node.slots.flatMap fun slot => slot.2.nodes := by
  unfold nodes
  rw [positions_eq, List.map_cons, List.map_flatMap]
  simp [under, Function.comp_def]

theorem flatMap_numberedSlots {α : Type} (step : Nat → Step) (items : List Node) (f : Node → List α) :
    ((numberedSlots step items).flatMap fun slot => f slot.2) = items.flatMap f := by
  rw [numberedSlots, List.flatMap_map, ← List.flatMap_map Prod.fst f, List.zipIdx_map_fst]

theorem nodes_chain : (Node.chain type operands operators).nodes =
    .chain type operands operators :: operands.flatMap nodes := by
  rw [nodes_eq, slots, flatMap_numberedSlots]

theorem nodes_call : (Node.call type name arguments).nodes =
    .call type name arguments :: arguments.flatMap fun a => a.value.nodes := by
  rw [nodes_eq, slots, flatMap_numberedSlots, List.flatMap_map]

@[simp] theorem leaves_chain : (Node.chain type operands operators).leaves = operands.flatMap leaves := by
  simp only [leaves, nodes_chain, List.filterMap_cons, leaf?, List.filterMap_flatMap]
  rfl

@[simp] theorem leaves_call : (Node.call type name arguments).leaves =
    .call type name (arguments.map fun a => { a with value := .absent }) ::
      arguments.flatMap fun a => a.value.leaves := by
  simp only [leaves, nodes_call, List.filterMap_cons, leaf?, List.filterMap_flatMap]

@[simp] theorem chains_chain : (Node.chain type operands operators).chains =
    ⟨type, operands, operators⟩ :: operands.flatMap chains := by
  simp only [chains, nodes_chain, List.filterMap_cons, asChain, Except.toOption, List.filterMap_flatMap]
  rfl

@[simp] theorem chains_call : (Node.call type name arguments).chains = arguments.flatMap fun a => a.value.chains := by
  simp only [chains, nodes_call, List.filterMap_cons, asChain, Except.toOption, List.filterMap_flatMap]

end Node

/-! ### Operators that fit -/

namespace Chain

variable {operands : List Node} {operators fitted : List Value} {padding : Value}

theorem filler_eq_ok (h : operands ≠ []) :
    filler joining operands operators = .ok padding ↔ Pads joining operands operators padding := by
  cases operands with
  | nil => exact absurd rfl h
  | cons first rest =>
      cases joining with
      | none =>
          unfold filler Pads
          cases operators.getLast? <;> simp
      | some join =>
          simp only [filler, Pads, bind_eq_ok, pure_eq_ok, Except.ok.injEq, List.cons.injEq]
          constructor
          · rintro ⟨type, declared, operator, found, rfl⟩
            exact ⟨first, rest, type, operator, ⟨rfl, rfl⟩, declared, found, rfl⟩
          · rintro ⟨_, _, type, operator, ⟨rfl, rfl⟩, declared, found, rfl⟩
            exact ⟨type, declared, operator, found, rfl⟩

/-- Operators fit once surplus ones are cut off and missing ones are filled in. -/
theorem fit_eq_ok (h : operands ≠ []) : fit joining operands operators = .ok fitted ↔
    ∃ padding, fitted = operators.take (operands.length - 1) ++
      List.replicate (operands.length - 1 - operators.length) padding ∧
        (operators.length + 1 < operands.length → Pads joining operands operators padding) := by
  have kept : operands.length - 1 - (operators.take (operands.length - 1)).length =
      operands.length - 1 - operators.length := by
    rw [List.length_take]
    omega
  unfold fit
  simp only [kept]
  by_cases enough : operands.length - 1 - operators.length = 0
  · rw [if_pos enough, enough]
    constructor
    · intro same
      cases same
      refine ⟨.null, by simp, fun few => ?_⟩
      omega
    · rintro ⟨padding, rfl, -⟩
      simp
  · rw [if_neg enough]
    have few : operators.length + 1 < operands.length := by omega
    have all : operators.take (operands.length - 1) = operators := List.take_of_length_le (by omega)
    simp only [all, bind_eq_ok, filler_eq_ok h, pure_eq_ok, Except.ok.injEq]
    constructor
    · rintro ⟨padding, pads, rfl⟩
      exact ⟨padding, rfl, fun _ => pads⟩
    · rintro ⟨padding, rfl, pads⟩
      exact ⟨padding, pads few, rfl⟩

end Chain

/-! ### Items one by one -/

namespace Node

variable {es rs : List Node} {arguments arguments' : List (Argument Node)}

theorem normalizedOperands_eq_ok : normalizedOperands numeric joining es = .ok rs ↔
    List.Forall₂ (fun e r => e.normalized numeric joining = .ok r) es rs := by
  induction es generalizing rs with
  | nil => simp [normalizedOperands, eq_comm]
  | cons e es ih =>
      simp only [normalizedOperands, bind_eq_ok, pure_eq_ok, Except.ok.injEq, ih, List.forall₂_cons_left_iff]
      constructor
      · rintro ⟨r, first, rs, rest, rfl⟩
        exact ⟨r, rs, first, rest, rfl⟩
      · rintro ⟨r, rs, first, rest, rfl⟩
        exact ⟨r, first, rs, rest, rfl⟩

theorem normalizedArguments_eq_ok : normalizedArguments numeric joining arguments = .ok arguments' ↔
    List.Forall₂ (fun a b : Argument Node => b.name = a.name ∧ a.value.normalized numeric joining = .ok b.value)
      arguments arguments' := by
  induction arguments generalizing arguments' with
  | nil => simp [normalizedArguments, eq_comm]
  | cons a rest ih =>
      simp only [normalizedArguments, bind_eq_ok, pure_eq_ok, Except.ok.injEq, ih, List.forall₂_cons_left_iff]
      constructor
      · rintro ⟨value, first, others, below, rfl⟩
        exact ⟨⟨a.name, value⟩, others, ⟨rfl, first⟩, below, rfl⟩
      · rintro ⟨⟨_, value⟩, others, ⟨rfl, first⟩, below, rfl⟩
        exact ⟨value, first, others, below, rfl⟩

theorem normalized_call_eq_ok {type name : Value} {r : Node} :
    (Node.call type name arguments).normalized numeric joining = .ok r ↔
      ∃ arguments', normalizedArguments numeric joining arguments = .ok arguments' ∧
        .call type name arguments' = r := by
  simp only [normalized, bind_eq_ok, pure_eq_ok, Except.ok.injEq]

theorem normalized_chain_eq_ok {type : Value} {operators : List Value} {r : Node} :
    (Node.chain type es operators).normalized numeric joining = .ok r ↔
      ∃ rs, List.Forall₂ (fun e r => e.normalized numeric joining = .ok r) es rs ∧
        Chain.ofNormal numeric joining rs operators = .ok r := by
  simp only [normalized, bind_eq_ok, normalizedOperands_eq_ok]

end Node

/-! ### When there is a normal form -/

namespace Chain

variable {operands : List Node} {operators : List Value} {r : Node}

/-- One operand stands for itself, of several there is a chain with operators that fit. -/
theorem ofNormal_eq_ok : ofNormal numeric joining operands operators = .ok r ↔
    operands = [r] ∨ (2 ≤ operands.length ∧ ∃ fitted type, fit joining operands operators = .ok fitted ∧
      Typing.infer numeric operands fitted = .ok type ∧ .chain type operands fitted = r) := by
  match operands with
  | [] => simp [ofNormal]
  | [one] => simp [ofNormal]
  | first :: second :: rest => simp [ofNormal, bind_eq_ok]

/-- What is filled in can be looked up if all that is there already can. -/
theorem Pads.isKey {padding : Value} (pads : Pads joining operands operators padding)
    (hk : ∀ operator ∈ operators, operator.isKey = true) : padding.isKey = true := by
  cases joining with
  | none => exact hk padding (List.mem_of_getLast? pads)
  | some join =>
      obtain ⟨_, _, _, operator, _, _, _, rfl⟩ := pads
      rfl

theorem fit_isKey {fitted : List Value} (hs : operands ≠ []) (hk : ∀ operator ∈ operators, operator.isKey = true)
    (hf : fit joining operands operators = .ok fitted) : ∀ operator ∈ fitted, operator.isKey = true := by
  obtain ⟨padding, rfl, pads⟩ := (fit_eq_ok hs).mp hf
  intro operator within
  rcases List.mem_append.mp within with kept | filled
  · exact hk operator (List.mem_of_mem_take kept)
  · obtain ⟨missing, rfl⟩ := List.mem_replicate.mp filled
    exact (pads (by omega)).isKey hk

/-- A chain can be made of normal operands unless there is none, or an operator is missing and none can be filled
in. -/
theorem exists_ofNormal_iff (he : ∀ operand ∈ operands, operand.isExpression = true)
    (hk : ∀ operator ∈ operators, operator.isKey = true) :
    (∃ r, ofNormal numeric joining operands operators = .ok r) ↔
      operands ≠ [] ∧
        (operators.length + 1 < operands.length → ∃ padding, Pads joining operands operators padding) := by
  constructor
  · rintro ⟨r, made⟩
    rcases ofNormal_eq_ok.mp made with rfl | ⟨two, fitted, type, fits, -, rfl⟩
    · exact ⟨nofun, fun few => by simp at few⟩
    · have some : operands ≠ [] := List.ne_nil_of_length_pos (by omega)
      obtain ⟨padding, -, pads⟩ := (fit_eq_ok some).mp fits
      exact ⟨some, fun few => ⟨padding, pads few⟩⟩
  · rintro ⟨some, fillable⟩
    have fits : ∃ fitted, fit joining operands operators = .ok fitted := by
      by_cases few : operators.length + 1 < operands.length
      · obtain ⟨padding, pads⟩ := fillable few
        exact ⟨_, (fit_eq_ok some).mpr ⟨padding, rfl, fun _ => pads⟩⟩
      · exact ⟨_, (fit_eq_ok some).mpr ⟨.null, rfl, fun less => absurd less few⟩⟩
    obtain ⟨fitted, fits⟩ := fits
    obtain ⟨type, inferred⟩ : ∃ type, Typing.infer numeric operands fitted = .ok type :=
      Node.infer_of_expressions he (fit_isKey some hk fits)
    match operands, some with
    | [one], _ => exact ⟨one, rfl⟩
    | first :: second :: rest, _ =>
        exact ⟨_, ofNormal_eq_ok.mpr (.inr ⟨by simp, fitted, type, fits, inferred, rfl⟩)⟩

/-- Whether a chain can be completed shows in its operands once they are in normal form. -/
theorem completable_iff {c : Chain}
    (h : List.Forall₂ (fun e e' => e.normalized numeric joining = .ok e') c.operands operands) :
    c.Completable numeric joining ↔ operands ≠ [] ∧
      (c.operators.length + 1 < operands.length → ∃ padding, Pads joining operands c.operators padding) := by
  obtain ⟨type, es, operators⟩ := c
  unfold Completable
  cases h with
  | nil => simp
  | @cons first first' rest rest' here below =>
      simp only [ne_eq, reduceCtorEq, not_false_eq_true, true_and, List.length_cons, below.length_eq]
      refine imp_congr_right fun few => ?_
      cases joining with
      | none => simp [Pads, ← Option.isSome_iff_exists]
      | some join =>
          simp only [Pads, List.cons.injEq]
          constructor
          · rintro ⟨_, _, h, type, operator, ⟨rfl, rfl⟩, same, declared, found⟩
            cases here.symm.trans same
            exact ⟨_, _, _, type, operator, ⟨rfl, rfl⟩, declared, found, rfl⟩
          · rintro ⟨_, _, _, type, operator, ⟨rfl, rfl⟩, declared, found, -⟩
            exact ⟨_, _, _, type, operator, ⟨rfl, rfl⟩, here, declared, found⟩

end Chain

namespace Node

variable {e r : Node}

/-- The normal form of an expression is an expression. -/
theorem isExpression_normalized (he : e.Everywhere (Belongs .expression))
    (hn : e.normalized numeric joining = .ok r) : r.isExpression = true := by
  induction he generalizing r with
  | @intro e here inside ih =>
      cases e with
      | literal | field | reference =>
          cases hn
          rfl
      | call type name arguments =>
          obtain ⟨_, -, rfl⟩ := normalized_call_eq_ok.mp hn
          rfl
      | chain type operands operators =>
          obtain ⟨rs, each, made⟩ := normalized_chain_eq_ok.mp hn
          rcases Chain.ofNormal_eq_ok.mp made with rfl | ⟨-, _, _, -, -, rfl⟩
          · obtain ⟨e, within, same⟩ := exists_of_forall₂ each.flip r List.mem_cons_self
            exact ih e within same
          · rfl
      | _ => cases here.admitted

/-- Once the operands of a chain are in normal form, it can be completed exactly if a chain can be made of them. -/
theorem exists_ofNormal_iff_completable {c : Chain} {rs : List Node}
    (hk : ∀ operator ∈ c.operators, operator.isKey = true)
    (he : ∀ e ∈ c.operands, e.Everywhere (Belongs .expression))
    (ha : List.Forall₂ (fun e r => e.normalized numeric joining = .ok r) c.operands rs) :
    (∃ r, Chain.ofNormal numeric joining rs c.operators = .ok r) ↔ c.Completable numeric joining := by
  have expressions' : ∀ r ∈ rs, r.isExpression = true := by
    intro r within
    obtain ⟨e, there, same⟩ := exists_of_forall₂ ha.flip r within
    exact isExpression_normalized (he e there) same
  exact (Chain.exists_ofNormal_iff expressions' hk).trans (Chain.completable_iff ha).symm

/-- There is a normal form exactly if each chain can be completed, by induction on the expression. -/
theorem exists_normalized_iff (h : e.Everywhere (Belongs .expression)) :
    (∃ r, e.normalized numeric joining = .ok r) ↔ ∀ c ∈ e.chains, c.Completable numeric joining := by
  induction h with
  | @intro e here inside ih =>
      cases e with
      | literal | field | reference => exact ⟨fun _ => nofun, fun _ => ⟨_, rfl⟩⟩
      | call type name arguments =>
          simp only [chains_call, List.forall_mem_flatMap]
          constructor
          · rintro ⟨r, normal⟩ a within
            obtain ⟨_, each, -⟩ := normalized_call_eq_ok.mp normal
            obtain ⟨b, -, -, same⟩ := exists_of_forall₂ (normalizedArguments_eq_ok.mp each) a within
            exact (ih _ (List.mem_map_of_mem within)).mp ⟨_, same⟩
          · intro completable
            have each : ∀ a ∈ arguments, ∃ b : Argument Node,
                b.name = a.name ∧ a.value.normalized numeric joining = .ok b.value := by
              intro a within
              obtain ⟨value, same⟩ := (ih _ (List.mem_map_of_mem within)).mpr (completable a within)
              exact ⟨⟨a.name, value⟩, rfl, same⟩
            obtain ⟨arguments', each⟩ := forall₂_of_exists each
            exact ⟨_, normalized_call_eq_ok.mpr ⟨arguments', normalizedArguments_eq_ok.mpr each, rfl⟩⟩
      | chain type operands operators =>
          have made {rs : List Node}
              (each : List.Forall₂ (fun e r => e.normalized numeric joining = .ok r) operands rs) :=
            exists_ofNormal_iff_completable (c := ⟨type, operands, operators⟩) here.keyed inside each
          simp only [chains_chain, List.forall_mem_cons, List.forall_mem_flatMap]
          constructor
          · rintro ⟨r, normal⟩
            obtain ⟨rs, each, known⟩ := normalized_chain_eq_ok.mp normal
            refine ⟨(made each).mp ⟨r, known⟩, fun e within => ?_⟩
            obtain ⟨r, -, same⟩ := exists_of_forall₂ each e within
            exact (ih e within).mp ⟨r, same⟩
          · rintro ⟨first, below⟩
            obtain ⟨rs, each⟩ := forall₂_of_exists fun e within => (ih e within).mpr (below e within)
            obtain ⟨r, known⟩ := (made each).mpr first
            exact ⟨r, normalized_chain_eq_ok.mpr ⟨rs, each, known⟩⟩
      | _ => cases here.admitted

/-! ### The normal form -/

namespace Projects

theorem leaf (hn : e.chains = []) (hs : ∀ other, e.normalized numeric other = .ok e) :
    e.Projects numeric joining e where
  leaves := rfl
  chains := by
    rw [hn]
    exact .nil
  settled := by
    rw [hn]
    exact List.forall_mem_nil _
  stable := hs

/-- The chains of several expressions are kept as those of each. -/
theorem chains_flatMap (he : List.Forall₂ (Projects numeric joining) es rs) :
    List.Forall₂ (Chain.Completes numeric joining)
      ((es.flatMap Node.chains).filter fun c => 2 ≤ c.operands.length) (rs.flatMap Node.chains) := by
  rw [List.filter_flatMap]
  exact List.rel_flatMap he fun _ _ h => h.chains

theorem settled_flatMap (h : List.Forall₂ (Projects numeric joining) es rs) :
    ∀ c ∈ rs.flatMap Node.chains, c.Settled numeric := by
  refine List.forall_mem_flatMap.mpr fun r within => ?_
  obtain ⟨e, -, projects⟩ := exists_of_forall₂ h.flip r within
  exact projects.settled

theorem stable_items (h : List.Forall₂ (Projects numeric joining) es rs) (other : Option Joining) :
    ∀ r ∈ rs, r.normalized numeric other = .ok r := by
  intro r within
  obtain ⟨e, -, projects⟩ := exists_of_forall₂ h.flip r within
  exact projects.stable other

theorem call {type name : Value}
    (he : List.Forall₂ (fun a b : Argument Node => b.name = a.name ∧ a.value.Projects numeric joining b.value)
      arguments arguments') :
    (Node.call type name arguments).Projects numeric joining (.call type name arguments') := by
  have values : List.Forall₂ (Projects numeric joining) (arguments.map (·.value)) (arguments'.map (·.value)) :=
    List.forall₂_map_left_iff.mpr (List.forall₂_map_right_iff.mpr (he.imp fun _ _ h => h.2))
  constructor
  case leaves =>
    have named : arguments'.map (fun a => { a with value := Node.absent }) =
        arguments.map fun a => { a with value := Node.absent } := by
      rw [← List.forall₂_eq_eq_eq, List.forall₂_map_left_iff, List.forall₂_map_right_iff]
      exact he.flip.imp fun b a h => by rw [h.1]
    rw [leaves_call, leaves_call, named, flatMap_of_forall₂ (he.imp fun _ _ h => h.2.leaves)]
  case chains =>
    rw [chains_call, chains_call]
    simpa only [List.flatMap_map] using chains_flatMap values
  case settled =>
    rw [chains_call]
    simpa only [List.flatMap_map] using settled_flatMap values
  case stable =>
    intro other
    have again : normalizedArguments numeric other arguments' = .ok arguments' :=
      normalizedArguments_eq_ok.mpr (List.forall₂_same.mpr fun a within =>
        ⟨rfl, stable_items values other a.value (List.mem_map_of_mem within)⟩)
    exact normalized_call_eq_ok.mpr ⟨arguments', again, rfl⟩

/-- One operand stands for itself. -/
theorem alone {type : Value} {operators : List Value} (h : e.Projects numeric joining r) :
    (Node.chain type [e] operators).Projects numeric joining r where
  leaves := by simpa using h.leaves
  chains := by simpa using h.chains
  settled := h.settled
  stable := h.stable

/-- Several operands are joined again, with operators that fit. -/
theorem joined {type type' : Value} {operators fitted : List Value}
    (he : List.Forall₂ (Projects numeric joining) es rs)
    (hn : List.Forall₂ (fun e r => e.normalized numeric joining = .ok r) es rs) (ht : 2 ≤ rs.length)
    (hf : Chain.fit joining rs operators = .ok fitted) (hi : Typing.infer numeric rs fitted = .ok type') :
    (Node.chain type es operators).Projects numeric joining (.chain type' rs fitted) := by
  obtain ⟨padding, made, pads⟩ := (Chain.fit_eq_ok (List.ne_nil_of_length_pos (by omega))).mp hf
  have length : rs.length = es.length := hn.length_eq.symm
  have count : fitted.length + 1 = rs.length := by
    rw [made, List.length_append, List.length_take, List.length_replicate]
    omega
  have completes : Chain.Completes numeric joining ⟨type, es, operators⟩ ⟨type', rs, fitted⟩ := by
    rw [length] at made pads
    exact ⟨hn, padding, made, pads⟩
  constructor
  case leaves =>
    rw [leaves_chain, leaves_chain]
    exact flatMap_of_forall₂ (he.imp fun _ _ h => h.leaves)
  case chains =>
    rw [chains_chain, chains_chain, List.filter_cons_of_pos (by simpa [← length] using ht)]
    exact .cons completes (chains_flatMap he)
  case settled =>
    rw [chains_chain]
    exact List.forall_mem_cons.mpr ⟨⟨ht, count, hi⟩, settled_flatMap he⟩
  case stable =>
    intro other
    exact normalized_chain_eq_ok.mpr
      ⟨rs, List.forall₂_same.mpr (stable_items he other), Stored.ofNormal_of_fits ht count hi⟩

end Projects

/-- What is normalized keeps what it has to, by induction on the expression: one case for each sort of expression, and
two for chains. -/
theorem projects_of_normalized (he : e.Everywhere (Belongs .expression))
    (hn : e.normalized numeric joining = .ok r) : e.Projects numeric joining r := by
  induction he generalizing r with
  | @intro e here inside ih =>
      cases e with
      | literal | field | reference =>
          cases hn
          exact .leaf rfl fun _ => rfl
      | call type name arguments =>
          obtain ⟨arguments', each, rfl⟩ := normalized_call_eq_ok.mp hn
          exact .call (forall₂_imp_of_mem (normalizedArguments_eq_ok.mp each) fun a within b h =>
            ⟨h.1, ih _ (List.mem_map_of_mem within) h.2⟩)
      | chain type operands operators =>
          obtain ⟨rs, each, made⟩ := normalized_chain_eq_ok.mp hn
          have projects : List.Forall₂ (Projects numeric joining) operands rs :=
            forall₂_imp_of_mem each fun e within r => ih e within
          rcases Chain.ofNormal_eq_ok.mp made with rfl | ⟨two, fitted, type', fits, inferred, rfl⟩
          · obtain ⟨e, _, one, none, rfl⟩ := List.forall₂_cons_right_iff.mp projects
            cases none
            exact .alone one
          · exact .joined projects each two fits inferred
      | _ => cases here.admitted

/-- An expression has a normal form exactly if each of its chains has operands and the operators that they lack can be
filled in. The normal form has the same leaves in the same order and the chains of two operands or more, with the first
of their operators, padding after them, and the type that is inferred; it is its own normal form under any operators to
fill in. -/
theorem normalized_projection (numeric : List String) (joining : Option Joining) {e : Node}
    (h : e.Everywhere (Belongs .expression)) :
    ((∃ r, e.normalized numeric joining = .ok r) ↔ ∀ c ∈ e.chains, c.Completable numeric joining) ∧
      ∀ r, e.normalized numeric joining = .ok r → e.Projects numeric joining r :=
  ⟨exists_normalized_iff h, fun _ normal => projects_of_normalized h normal⟩

/-- A field in two chains of its own, times a call over a chain that lacks an operator. One operator is too many. -/
def ragged : Node :=
  .chain .null
    [.chain .null [.chain .null [.field (.text "number") (.text "T.A")] []] [.text "/"],
      .call (.text "number") (.text "ROUND")
        [⟨.text "value", .chain .null [.literal (.text "text") (.text "a"), .literal (.text "text") (.text "b"),
          .literal (.text "text") (.text "c")] [.text "&"]⟩]]
    [.text "*", .text "-"]

def tidied : Node :=
  .chain (.text "number")
    [.field (.text "number") (.text "T.A"),
      .call (.text "number") (.text "ROUND")
        [⟨.text "value", .chain (.text "text") [.literal (.text "text") (.text "a"),
          .literal (.text "text") (.text "b"), .literal (.text "text") (.text "c")] [.text "&", .text "&"]⟩]]
    [.text "*"]

theorem ragged_tidied :
    ragged.Everywhere (Belongs .expression) ∧ ragged.normalized Typing.arithmetic none = .ok tidied ∧
      (∀ c ∈ ragged.chains, c.Completable Typing.arithmetic none) ∧
      ragged.Projects Typing.arithmetic none tidied := by
  have leaf {node : Node} (leaf : node.Leaf) : node.Everywhere (Belongs .expression) :=
    .intro leaf.belongs (leaf.inner_eq ▸ List.forall_mem_nil _)
  have joins {type : Value} {operands : List Node} (symbols : List String)
      (inside : ∀ part ∈ operands, part.Everywhere (Belongs .expression)) :
      (Node.chain type operands (symbols.map .text)).Everywhere (Belongs .expression) := by
    refine .intro ⟨rfl, fun operator within => ?_⟩ inside
    obtain ⟨symbol, -, rfl⟩ := List.mem_map.mp within
    rfl
  have expression : ragged.Everywhere (Belongs .expression) := by
    refine joins ["*", "-"] (List.forall_mem_cons.mpr ⟨joins ["/"] ?_, List.forall_mem_singleton.mpr ?_⟩)
    · exact List.forall_mem_singleton.mpr (joins [] (List.forall_mem_singleton.mpr (leaf .field)))
    · refine .intro ⟨rfl, nofun⟩ (List.forall_mem_singleton.mpr (joins ["&"] ?_))
      simp only [List.forall_mem_cons]
      exact ⟨leaf .literal, leaf .literal, leaf .literal, List.forall_mem_nil _⟩
  have projection := normalized_projection Typing.arithmetic none expression
  exact ⟨expression, rfl, projection.1.mp ⟨tidied, rfl⟩, projection.2 tidied rfl⟩

end Node

end RuleEditor
