import RuleEditor.Proofs.Address.Canonical
import RuleEditor.Proofs.Edit.Counts
import RuleEditor.Proofs.Tree.Accepted

/-!
# Where violations are

The violations of a definition are found on a descent of their own, which spells its own paths. It meets the nodes that
the definition lists, under the paths that they are listed under. So a definition has no violations exactly if each node
that it lists is valid by itself, and a node that is not is reported under its own path.
-/
namespace RuleEditor

open Node

/-! ### Paths below paths -/

namespace Address

variable {root : String}

theorem toList_join_cons {x : String} {xs : List String} (hf : x ≠ "") (h : ∀ s ∈ xs, Segment s) :
    (join (x :: xs)).toList = x.toList ++ xs.flatMap fun s => '-' :: s.toList := by
  cases xs with
  | nil => simp [join, hf]
  | cons y ys =>
      have rest := join_cons h
      have first := (h y List.mem_cons_self).1
      simp only [join, hf, first, List.filter_cons, decide_true, ne_eq, not_false_eq_true, if_true,
        String.intercalate_cons_cons, String.toList_append] at rest ⊢
      rw [rest]
      simp

theorem render_ne_empty (h : IsRoot root) (way : List Step) : render root way ≠ "" := by
  intro empty
  have text : (render root way).toList = _ := toList_render h
  rw [empty] at text
  rcases h with rfl | rfl <;> cases text

/-- A path below a path is spelled as all the steps to it. -/
theorem render_render (h : IsRoot root) (way steps : List Step) :
    render (render root way) steps = render root (way ++ steps) := by
  have below : ∀ s ∈ steps.flatMap Step.segments, Segment s := by
    intro s within
    obtain ⟨step, -, there⟩ := List.mem_flatMap.mp within
    exact segments_of_step there
  apply String.toList_inj.mp
  rw [render, toList_join_cons (render_ne_empty h way) below, toList_render h, toList_render h, List.flatMap_append,
    List.flatMap_append, List.append_assoc]

/-- The path of one of several right operands is that of the whole right side with a number after it. -/
theorem join_right (h : IsRoot root) (way : List Step) (i : Nat) :
    join [render root (way ++ [.right]), toString i] = render root (way ++ [.rightItem i]) := by
  apply String.toList_inj.mp
  rw [toList_join_cons (render_ne_empty h _) (List.forall_mem_singleton.mpr (segment_toString i)), toList_render h,
    toList_render h]
  simp [Step.segments, Step.index?, Step.word]

end Address

namespace Violation

/-! ### Violations of a node by itself -/

/-- What is wrong with a node itself, whatever is inside. -/
def own (c : Option Catalogue) (path : String) : Node → Except Fault (List Violation)
  | .chain _ operands operators =>
    .ok (when (operands.length < 2) (fewOperands path operands.length) ++
      when ((operators.length : Int) ≠ operands.length - 1) (operatorCount path operators.length operands.length))
  | .comparison name _ operator right => ofCount c path name operator right
  | .group name children _ _ => .ok (when children.isEmpty (emptyGroup path name))
  | .choice branches _ _ => .ok (when branches.isEmpty (noBranches path))
  | _ => .ok []

/-- The path of the node that a violation is about. -/
def path? : Violation → Option String
  | noDefinition => none
  | unknownNode path _ | fewOperands path _ | operatorCount path .. | emptyGroup path _ | operandCount path ..
  | noBranches path | noOtherwise path => some path

/-- What is wrong at each of some positions below a root. -/
def ownAmong (c : Option Catalogue) (root : String) (positions : List (List Step × Node)) :
    List (Except Fault (List Violation)) :=
  positions.map fun p => own c (Address.render root p.1) p.2

/-- The whole succeeds if all parts do, and finds what one of the parts finds. -/
structure Gathers (whole : Except Fault (List Violation)) (parts : List (Except Fault (List Violation))) : Prop where
  succeeds : (∃ vs, whole = .ok vs) ↔ ∀ part ∈ parts, ∃ vs, part = .ok vs
  found : ∀ vs, whole = .ok vs → ∀ v, v ∈ vs ↔ ∃ ws, .ok ws ∈ parts ∧ v ∈ ws

variable {c : Option Catalogue} {root path : String} {x y : Except Fault (List Violation)}
  {parts parts' : List (Except Fault (List Violation))} {node tree : Node} {form : Form} {vs : List Violation}
  {v : Violation}

theorem gathers_nil : Gathers (.ok []) [] := by
  refine ⟨iff_of_true ⟨[], rfl⟩ (List.forall_mem_nil _), fun vs known v => ?_⟩
  cases known
  simp

theorem gathers_single (x : Except Fault (List Violation)) : Gathers x [x] := by
  constructor
  · rw [List.forall_mem_singleton]
  · intro vs known v
    subst known
    simp

theorem gathers_append (hf : Gathers x parts) (hs : Gathers y parts') :
    Gathers (do let a ← x; let b ← y; return a ++ b) (parts ++ parts') := by
  constructor
  · rw [List.forall_mem_append, ← hf.succeeds, ← hs.succeeds]
    constructor
    · rintro ⟨vs, known⟩
      obtain ⟨a, b, here, there, -⟩ := append_eq_ok known
      exact ⟨⟨a, here⟩, b, there⟩
    · rintro ⟨⟨a, here⟩, b, there⟩
      rw [here, there]
      exact ⟨a ++ b, rfl⟩
  · intro vs known v
    obtain ⟨a, b, here, there, rfl⟩ := append_eq_ok known
    simp only [List.mem_append, hf.found a here, hs.found b there, or_and_right, exists_or]

theorem Gathers.congr (h : Gathers x parts) (hs : ∀ part, part ∈ parts ↔ part ∈ parts') : Gathers x parts' := by
  constructor
  · rw [h.succeeds]
    exact forall_congr' fun part => imp_congr_left (hs part)
  · intro vs known v
    rw [h.found vs known]
    exact exists_congr fun ws => and_congr_left' (hs _)

/-- What is found in the node itself and what is gathered inside. -/
theorem gathers_behind (vs : List Violation) (h : Gathers y parts) :
    Gathers (do let b ← y; return vs ++ b) (.ok vs :: parts) :=
  gathers_append (gathers_single (.ok vs)) h

/-! ### Nodes under their paths -/

/-- Wherever the node stands, the descent into it gathers what is wrong with the nodes that are listed there. -/
def Located (c : Option Catalogue) (root : String) (seat : Seat) (node : Node) : Prop :=
  ∀ way step, (seat = .right ↔ step = .right) →
    Gathers (ofNode c (Address.render root (way ++ [step])) (decide (seat = .right)) node)
      (ownAmong c root (under way (positionsFrom [step] node)))

variable {seat : Seat} {way : List Step} {nodes : List Node}

theorem Located.plain (h : Located c root seat node) (hp : seat ≠ .right) (way : List Step) (step : Step)
    (ho : step ≠ .right) :
    Gathers (ofNode c (Address.render root (way ++ [step])) false node)
      (ownAmong c root (under way (positionsFrom [step] node))) := by
  have here := h way step (iff_of_false hp ho)
  rwa [decide_eq_false hp] at here

theorem ownAmong_under_append (positions positions' : List (List Step × Node)) :
    ownAmong c root (under way (positions ++ positions')) =
      ownAmong c root (under way positions) ++ ownAmong c root (under way positions') := by
  simp [ownAmong, under]

/-- The nodes of a list are met one after the other, each under its own number. -/
theorem gathers_list {descend : Nat → List Node → Except Fault (List Violation)} {step : Nat → Step}
    (ho : ∀ i, step i ≠ .right) (hp : seat ≠ .right) (hn : ∀ i, descend i [] = .ok [])
    (hc : ∀ i node rest, descend i (node :: rest) = do
      let first ← ofNode c (Address.render root (way ++ [step i])) false node
      let rest ← descend (i + 1) rest
      return first ++ rest)
    (ha : ∀ node ∈ nodes, Located c root seat node) (i : Nat) :
    Gathers (descend i nodes) (ownAmong c root (under way (listPositions step i nodes))) := by
  induction nodes generalizing i with
  | nil =>
      rw [hn]
      exact gathers_nil
  | cons node rest ih =>
      obtain ⟨here, others⟩ := List.forall_mem_cons.mp ha
      rw [hc, listPositions, ownAmong_under_append]
      exact gathers_append (here.plain hp way (step i) (ho i)) (ih others (i + 1))

theorem gathers_arguments (isRoot : Address.IsRoot root) (way : List Step) {arguments : List (Argument Node)}
    (ha : ∀ a ∈ arguments, Located c root .expression a.value) (i : Nat) :
    Gathers (ofArguments c (Address.render root way) i arguments)
      (ownAmong c root (under way (argumentPositions i arguments))) := by
  induction arguments generalizing i with
  | nil => exact gathers_nil
  | cons argument rest ih =>
      obtain ⟨here, others⟩ := List.forall_mem_cons.mp ha
      rw [ofArguments, argumentPositions, ownAmong_under_append, Address.render_render isRoot]
      exact gathers_append (here.plain (by decide) way (.argument i) (by simp)) (ih others (i + 1))

theorem gathers_branches (isRoot : Address.IsRoot root) (way : List Step) {branches : List (Branch Node)}
    (ha : ∀ b ∈ branches, Located c root .condition b.condition ∧ Located c root .expression b.result) (i : Nat) :
    Gathers (ofBranches c (Address.render root way) i branches)
      (ownAmong c root (under way (branchPositions i branches))) := by
  induction branches generalizing i with
  | nil => exact gathers_nil
  | cons branch rest ih =>
      obtain ⟨⟨condition, result⟩, others⟩ := List.forall_mem_cons.mp ha
      rw [ofBranches, branchPositions, ownAmong_under_append, ownAmong_under_append, Address.render_render isRoot,
        Address.render_render isRoot]
      have both := gathers_append (condition.plain (by decide) way (.condition i) (by simp))
        (result.plain (by decide) way (.result i) (by simp))
      have whole := gathers_append both (ih others (i + 1))
      simpa only [bind_assoc, pure_bind] using whole

theorem ofNode_choice_eq {branches : List (Branch Node)} {otherwise : Node} {label : ResultLabel} {right : Bool}
    (h : otherwise ≠ .absent) :
    ofNode c path right (.choice branches otherwise label) = do
      let inner ← ofBranches c path 0 branches
      let last ← ofNode c (Address.render path [.otherwise]) false otherwise
      return when branches.isEmpty (noBranches path) ++ (inner ++ last) := by
  cases otherwise with
  | absent => exact absurd rfl h
  | _ => simp only [ofNode, isAbsent, when_eq_nil.mpr, List.append_nil, List.append_assoc]

/-- A node that is listed itself stands before what is inside it. -/
theorem gathers_single_node (isRoot : Address.IsRoot root) (hs : node.Seated Admitted seat)
    (hp : node ≠ .absent) (ho : ∀ items, node ≠ .several items)
    (hi : ∀ part ∈ node.parts seat, Located c root part.1 part.2) (way : List Step) (right : Bool) :
    Gathers (ofNode c (Address.render root way) right node) (ownAmong c root (positionsFrom way node)) := by
  have parts {s : Seat} {part : Node} (within : (s, part) ∈ node.parts seat) : Located c root s part := hi _ within
  cases node with
  | absent => exact absurd rfl hp
  | several items => exact absurd rfl (ho items)
  | literal | field | reference | ruleCheck => exact gathers_single (.ok [])
  | call type name arguments =>
      have below := gathers_arguments isRoot way (fun a within => parts (List.mem_map.mpr ⟨a, within, rfl⟩)) 0
      have whole := gathers_behind [] below
      simp only [List.nil_append, bind_pure] at whole
      exact whole
  | chain type operands operators =>
      refine gathers_behind _ (gathers_list (by simp) (operands_ne_right seat)
        (fun i => rfl) (fun i node rest => ?_) (fun operand within => parts (List.mem_map_of_mem within)) 0)
      rw [ofOperands, Address.render_render isRoot]
  | group name children conjunction negated =>
      refine gathers_behind _ (gathers_list (by simp) (show Seat.condition ≠ .right by decide)
        (fun i => rfl) (fun i node rest => ?_) (fun child within => parts (List.mem_map_of_mem within)) 0)
      rw [ofChildren, Address.render_render isRoot]
  | comparison name left operator side =>
      have onLeft : Located c root .expression left := parts List.mem_cons_self
      have first := onLeft.plain (by decide) way .left (by decide)
      have second : Gathers (ofNode c (Address.render root (way ++ [.right])) true side) _ :=
        (parts (List.mem_cons_of_mem _ List.mem_cons_self)) way .right (iff_of_true rfl rfl)
      have whole := gathers_append (gathers_append first second)
        (gathers_single (ofCount c (Address.render root way) name operator side))
      simp only [bind_assoc, pure_bind, ← Address.render_render isRoot, ← ownAmong_under_append] at whole
      -- the count is checked last, and listed with the comparison first
      refine whole.congr fun part => ?_
      rw [List.mem_append, List.mem_singleton, or_comm, positionsFrom]
      exact List.mem_cons.symm
  | choice branches otherwise label =>
      obtain ⟨-, last, -⟩ := seated_choice.mp hs
      have there : otherwise ≠ .absent := by
        rintro rfl
        cases last.here
      have conditions (b : Branch Node) (within : b ∈ branches) :
          Located c root .condition b.condition ∧ Located c root .expression b.result :=
        ⟨parts (List.mem_cons_of_mem _ (List.mem_flatMap.mpr ⟨b, within, by simp⟩)),
          parts (List.mem_cons_of_mem _ (List.mem_flatMap.mpr ⟨b, within, by simp⟩))⟩
      have final : Located c root .expression otherwise := parts List.mem_cons_self
      have ends := final.plain (by decide) way .otherwise (by decide)
      have whole := gathers_behind (when branches.isEmpty (noBranches (Address.render root way)))
        (gathers_append (gathers_branches isRoot way conditions 0) ends)
      simp only [bind_assoc, pure_bind, ← Address.render_render isRoot, ← ownAmong_under_append] at whole
      rw [ofNode_choice_eq there]
      exact whole

theorem under_positionsFrom (hp : node ≠ .absent) (ho : ∀ items, node ≠ .several items) (way : List Step)
    (step : Step) : under way (positionsFrom [step] node) = positionsFrom (way ++ [step]) node := by
  cases node with
  | absent => exact absurd rfl hp
  | several items => exact absurd rfl (ho items)
  | _ => simp [positionsFrom, under, Function.comp_def]

theorem located_of_parts (isRoot : Address.IsRoot root) (hs : node.Seated Admitted seat)
    (hi : ∀ part ∈ node.parts seat, Located c root part.1 part.2) : Located c root seat node := by
  intro way step same
  by_cases absent : node = .absent
  · subst absent
    cases seat with
    | right =>
        rw [same.mp rfl]
        exact gathers_nil
    | _ => cases hs.here
  · by_cases several : ∃ items, node = .several items
    · obtain ⟨items, rfl⟩ := several
      cases seat with
      | right =>
          rw [same.mp rfl]
          refine gathers_list (by simp) (show Seat.operand ≠ .right by decide) (fun i => rfl) (fun i node rest => ?_)
            (fun item within => hi _ (List.mem_map_of_mem within)) 0
          rw [ofItems, Address.join_right isRoot]
      | _ => cases hs.here
    · have one (items : List Node) (is : node = .several items) : False := several ⟨items, is⟩
      rw [under_positionsFrom absent one]
      exact gathers_single_node isRoot hs absent one hi _ _

theorem located_of_seated (isRoot : Address.IsRoot root) (hs : node.Seated Admitted seat) :
    Located c root seat node := by
  induction hs with
  | intro here inside ih => exact located_of_parts isRoot (.intro here inside) ih

/-- The violations of a definition are those of the nodes that it lists. -/
theorem all_gathers (h : tree.Seated Admitted (Seat.ofForm form)) (c : Option Catalogue) :
    Gathers (all c tree) (tree.entries.map fun e => own c e.1 e.2) := by
  have isRoot := isRoot_root tree
  have present : tree ≠ .absent := by
    rintro rfl
    cases form <;> cases h.here
  have one (items : List Node) : tree ≠ .several items := by
    rintro rfl
    cases form <;> cases h.here
  have whole := gathers_single_node (c := c) isRoot h present one
    (fun part within => located_of_seated isRoot (h.inside part within)) [] false
  have listed : (tree.entries.map fun e => own c e.1 e.2) = ownAmong c tree.root tree.positions := by
    simp [ownAmong, entries, entriesFrom]
  rw [listed]
  cases tree with
  | absent => exact absurd rfl present
  | _ => exact whole

end Violation

/-! ### Valid nodes -/

namespace Node

/-- The node has as many operands, operators, children or branches as a node of its sort needs. With a catalogue, the
operator of a comparison permits its right operands as well. -/
def LocallyValid (c : Option Catalogue) : Node → Prop
  | .chain _ operands operators => 2 ≤ operands.length ∧ operators.length + 1 = operands.length
  | .comparison _ _ operator right =>
    ∀ catalogue, c = some catalogue →
      ∃ count, catalogue.operandCount operator = .ok count ∧ count.allows (Violation.rightCount right) = true
  | .group _ children _ _ => children ≠ []
  | .choice branches _ _ => branches ≠ []
  | _ => True

/-- With a catalogue, the operator of a comparison can be looked up. -/
def Checkable (c : Option Catalogue) : Node → Prop
  | .comparison _ _ operator _ => c = none ∨ operator.isKey = true
  | _ => True

end Node

theorem Catalogue.operandCount_iff {catalogue : Catalogue} {operator : Value} :
    (∃ count, catalogue.operandCount operator = .ok count) ↔ operator.isKey = true := by
  unfold operandCount
  cases operator with
  | text s =>
      refine iff_of_true ?_ rfl
      simp only [ok_bind, entry?]
      split <;> exact ⟨_, rfl⟩
  | list | record => exact iff_of_false nofun nofun
  | _ => exact iff_of_true ⟨_, rfl⟩ rfl

namespace Violation

variable {c : Option Catalogue} {path : String} {node tree : Node} {form : Form} {vs : List Violation} {v : Violation}

theorem own_eq_nil_iff : own c path node = .ok [] ↔ node.LocallyValid c := by
  cases node with
  | chain type operands operators =>
      simp only [own, LocallyValid, Except.ok.injEq, List.append_eq_nil_iff, when_eq_nil, decide_eq_false_iff_not]
      omega
  | comparison name left operator right =>
      cases c with
      | none =>
          refine iff_of_true rfl fun _ same => ?_
          cases same
      | some catalogue =>
          simp only [own, ofCount, LocallyValid, Option.some.injEq, forall_eq', bind_eq_ok]
          refine exists_congr fun count => and_congr_right fun _ => ?_
          split
          · exact iff_of_true rfl ‹_›
          · refine iff_of_false (fun made => ?_) ‹_›
            cases made
  | group name children => simp [own, LocallyValid, when_eq_nil]
  | choice branches => simp [own, LocallyValid, when_eq_nil]
  | _ => exact iff_of_true rfl trivial

theorem own_succeeds_iff : (∃ vs, own c path node = .ok vs) ↔ node.Checkable c := by
  cases node with
  | comparison name left operator right =>
      cases c with
      | none => exact iff_of_true ⟨[], rfl⟩ (.inl rfl)
      | some catalogue =>
          have looked : (Node.comparison name left operator right).Checkable (some catalogue) ↔
              ∃ count, catalogue.operandCount operator = .ok count :=
            (or_iff_right nofun).trans Catalogue.operandCount_iff.symm
          rw [looked]
          constructor
          · rintro ⟨vs, known⟩
            obtain ⟨count, looked, -⟩ := bind_eq_ok.mp known
            exact ⟨count, looked⟩
          · rintro ⟨count, looked⟩
            rw [own, ofCount, looked, ok_bind]
            split <;> exact ⟨_, rfl⟩
  | _ => exact iff_of_true ⟨_, rfl⟩ trivial

theorem path?_of_mem_own (hk : own c path node = .ok vs) (hw : v ∈ vs) : v.path? = some path := by
  cases node with
  | chain type operands operators =>
      cases hk
      rcases List.mem_append.mp hw with hw | hw <;> rw [(eq_of_mem_when hw).2] <;> rfl
  | comparison name left operator right =>
      cases c with
      | none =>
          cases hk
          cases hw
      | some catalogue =>
          obtain ⟨count, -, made⟩ := bind_eq_ok.mp hk
          split at made
          · cases made
            cases hw
          · cases made
            rw [List.mem_singleton.mp hw]
            rfl
  | group | choice =>
      cases hk
      rw [(eq_of_mem_when hw).2]
      rfl
  | _ =>
      cases hk
      cases hw

/-- The violation is about the node at the path, and its text tells the path. -/
structure Names (v : Violation) (path : String) : Prop where
  about : v.path? = some path
  told : ∃ front rest, v.text = front ++ " at " ++ path ++ " " ++ rest ∨ v.text = front ++ " at " ++ path ++ ": " ++ rest

theorem names_of_path? (h : v.path? = some path) : v.Names path := by
  refine ⟨h, ?_⟩
  cases v
  case noDefinition => cases h
  case' unknownNode sort => refine ⟨"Unknown node type", sort, .inr ?_⟩
  case' fewOperands operands =>
    refine ⟨"Expression group", s!"has {operands} operand(s); at least 2 required", .inl ?_⟩
  case' operatorCount operators operands =>
    refine ⟨"Expression group", s!"has {operators} operator(s) for {operands} operands", .inl ?_⟩
  case' emptyGroup name => refine ⟨s!"Condition group '{name}'", "has no conditions", .inl ?_⟩
  case' operandCount name operator operands =>
    refine ⟨s!"Condition '{name}'", s!"operator '{operator}' does not accept {operands} operand(s)", .inr ?_⟩
  case' noBranches => refine ⟨"Case", "has no when clauses", .inl ?_⟩
  case' noOtherwise => refine ⟨"Case", "has no else clause", .inl ?_⟩
  all_goals
    cases h
    apply String.toList_inj.mp
    unfold text
    simp only [String.toList_append, List.append_assoc]
    rfl

/-! ### Violations of listed nodes -/

theorem all_succeeds_iff (h : tree.Seated Admitted (Seat.ofForm form)) :
    (∃ vs, all c tree = .ok vs) ↔ ∀ e ∈ tree.entries, e.2.Checkable c := by
  rw [(all_gathers h c).succeeds, List.forall_mem_map]
  exact forall₂_congr fun e within => own_succeeds_iff

/-- What is reported is wrong with a listed node itself. -/
theorem mem_all_iff (hs : tree.Seated Admitted (Seat.ofForm form)) (hk : all c tree = .ok vs) :
    v ∈ vs ↔ ∃ e ∈ tree.entries, ∃ ws, own c e.1 e.2 = .ok ws ∧ v ∈ ws := by
  rw [(all_gathers hs c).found vs hk]
  constructor
  · rintro ⟨ws, listed, there⟩
    obtain ⟨e, within, same⟩ := List.mem_map.mp listed
    exact ⟨e, within, ws, same, there⟩
  · rintro ⟨e, within, ws, same, there⟩
    exact ⟨ws, List.mem_map.mpr ⟨e, within, same⟩, there⟩

theorem named_of_mem_all (hs : tree.Seated Admitted (Seat.ofForm form)) (hk : all c tree = .ok vs)
    (ht : v ∈ vs) : ∃ e ∈ tree.entries, ¬ e.2.LocallyValid c ∧ v.Names e.1 := by
  obtain ⟨e, within, ws, made, inside⟩ := (mem_all_iff hs hk).mp ht
  refine ⟨e, within, fun valid => ?_, names_of_path? (path?_of_mem_own made inside)⟩
  cases made.symm.trans (own_eq_nil_iff.mpr valid)
  exact List.not_mem_nil inside

theorem named_of_invalid (hs : tree.Seated Admitted (Seat.ofForm form)) (hk : all c tree = .ok vs)
    {e : String × Node} (hw : e ∈ tree.entries) (hi : ¬ e.2.LocallyValid c) : ∃ v ∈ vs, v.Names e.1 := by
  obtain ⟨ws, made⟩ := own_succeeds_iff.mpr ((all_succeeds_iff hs).mp ⟨vs, hk⟩ e hw)
  cases ws with
  | nil => exact absurd (own_eq_nil_iff.mp made) hi
  | cons v rest =>
      exact ⟨v, (mem_all_iff hs hk).mpr ⟨e, hw, _, made, List.mem_cons_self⟩,
        names_of_path? (path?_of_mem_own made List.mem_cons_self)⟩

theorem checkable_of_locallyValid (h : node.LocallyValid c) : node.Checkable c := by
  have none : own c "root" node = .ok [] := own_eq_nil_iff.mpr h
  exact own_succeeds_iff.mp ⟨[], none⟩

/-- Let a definition hold nodes of the right sorts, and let there be a catalogue or none. There are no violations exactly
if each listed node is valid by itself, and there is an answer exactly if each listed operator can be looked up. Then
each listed node that is not valid is named under its path, and nothing else is reported. -/
theorem violations_located (h : tree.Seated Admitted (Seat.ofForm form)) (c : Option Catalogue) :
    (all c tree = .ok [] ↔ ∀ e ∈ tree.entries, e.2.LocallyValid c) ∧
      ((∃ vs, all c tree = .ok vs) ↔ ∀ e ∈ tree.entries, e.2.Checkable c) ∧
      ∀ vs, all c tree = .ok vs →
        (∀ e ∈ tree.entries, ¬ e.2.LocallyValid c → ∃ v ∈ vs, v.Names e.1) ∧
        ∀ v ∈ vs, ∃ e ∈ tree.entries, ¬ e.2.LocallyValid c ∧ v.Names e.1 := by
  refine ⟨?_, all_succeeds_iff h, fun vs known => ?_⟩
  · constructor
    · intro clean e within
      apply Classical.byContradiction
      intro invalid
      obtain ⟨v, there, -⟩ := named_of_invalid h clean within invalid
      cases there
    · intro valid
      obtain ⟨vs, known⟩ := (all_succeeds_iff h).mpr fun e within => checkable_of_locallyValid (valid e within)
      have none : vs = [] := by
        refine List.eq_nil_iff_forall_not_mem.mpr fun v there => ?_
        obtain ⟨e, within, invalid, -⟩ := named_of_mem_all h known there
        exact invalid (valid e within)
      rw [known, none]
  · exact ⟨fun e within invalid => named_of_invalid h known within invalid,
      fun v there => named_of_mem_all h known there⟩

/-- A chain of a single number. -/
def single : Node := .chain (.text "number") [.literal (.text "number") (.int 60)] []

/-- A choice with an empty group in its condition, and with the chain where a comparison has two bounds. -/
def faulty : Node :=
  .choice [⟨.group (.text "Group 1") [.group (.text "Group 2") [] .all false,
      .comparison (.text "Condition 1") (.field (.text "number") (.text "AGE")) (.text "between") single] .any false,
    .literal (.text "number") (.int 1), .positional⟩] (.literal (.text "number") (.int 2)) .positional

/-- The three nodes that are not valid are named, under the paths that they are listed under. -/
theorem faulty_located :
    faulty.Seated Admitted (Seat.ofForm .choice) ∧
      ∃ vs, all (some Comparison.ranges) faulty = .ok vs ∧
        vs.map path? = [some "case-when-0-condition-0", some "case-when-0-condition-1-right",
          some "case-when-0-condition-1"] ∧
        (∃ v ∈ vs, v.Names "case-when-0-condition-0") ∧ (∃ v ∈ vs, v.Names "case-when-0-condition-1") ∧
        ∃ v ∈ vs, v.Names "case-when-0-condition-1-right" := by
  have sorted : faulty.Seated Admitted (Seat.ofForm .choice) := by
    simp [faulty, single, seated_choice, seated_group, seated_comparison, seated_chain, Admitted, Seat.admits,
      Seat.ofForm, Seat.operands, isExpression]
  obtain ⟨-, -, answered⟩ := violations_located sorted (some Comparison.ranges)
  obtain ⟨named, -⟩ := answered _ rfl
  have group : faulty.entries[2]? = some ("case-when-0-condition-0", .group (.text "Group 2") [] .all false) := rfl
  have comparison : faulty.entries[3]? = some ("case-when-0-condition-1",
    .comparison (.text "Condition 1") (.field (.text "number") (.text "AGE")) (.text "between") single) := rfl
  have chain : faulty.entries[5]? = some ("case-when-0-condition-1-right", single) := rfl
  refine ⟨sorted, _, rfl, rfl, named _ (List.mem_of_getElem? group) fun valid => valid rfl,
    named _ (List.mem_of_getElem? comparison) fun valid => ?_,
    named _ (List.mem_of_getElem? chain) fun valid => absurd valid.1 (by decide)⟩
  obtain ⟨count, known, allowed⟩ := valid _ rfl
  cases known
  cases allowed

end Violation

end RuleEditor
