import RuleEditor.Proofs.Session.Inferred
import RuleEditor.Proofs.Session.Resolving
import RuleEditor.Proofs.Tree.Access
import RuleEditor.Proofs.Tree.Proper

/-!
# Climbing from an edit to the root

When a node is put at a path, the chains around it take on their inferred types one after the other on the way up. One
climb is enough, since each chain is settled after all that it holds, and nothing beside the way changes.
-/
namespace RuleEditor

namespace Address

/-- Neither path leads to a node inside the one that the other leads to, as paths are written. -/
def Beside (p q : List Step) : Prop :=
  ¬ p.flatMap Step.segments <+: q.flatMap Step.segments ∧ ¬ q.flatMap Step.segments <+: p.flatMap Step.segments

end Address

/-- Climbing from a path: the chain one step up, if there is one there, takes on its inferred type, and so on up to the
root. -/
inductive Climbs (numeric : List String) : (rounds : Nat) → (path : String) → (tree final : Node) → Prop where
  | root {path : String} {tree : Node} : Address.parent? path = .ok none → Climbs numeric 0 path tree tree
  | up {path above : String} {way : List Step} {rounds : Nat} {tree tree' final : Node} :
      Address.parent? path = .ok (some above) → Address.steps above = .ok way →
      tree.reinferAt numeric way = .ok tree' → Climbs numeric rounds above tree' final →
      Climbs numeric (rounds + 1) path tree final

/-- What putting a node at the end of some steps makes of a tree. The node is there and all nodes beside it stay. A node
above it has another child on the way and, if it is a chain, the type that is inferred for it, and is else the same. -/
structure Settles (numeric : List String) (steps : List Step) (new before after : Node) : Prop where
  there : after.find steps = .ok new
  beside : ∀ q node, Address.Beside steps q → (after.find q = .ok node ↔ before.find q = .ok node)
  above : ∀ way step below, steps = way ++ step :: below → ∃ was is child mid,
    before.find way = .ok was ∧ after.find way = .ok is ∧ after.find (way ++ [step]) = .ok child ∧
      Node.withChild step child was = .ok mid ∧ is.untyped = mid.untyped ∧ is.Inferred numeric

namespace Node

variable {numeric : List String} {new old a b node tree tree' : Node} {steps p q : List Step} {path : String}

/-! ### Places beside each other -/

theorem prefix_segments (h : p <+: q) : p.flatMap Step.segments <+: q.flatMap Step.segments := by
  obtain ⟨rest, rfl⟩ := h
  rw [List.flatMap_append]
  exact List.prefix_append _ _

/-- On a right side there is something inside it as a whole, or there are several operands. -/
theorem not_inside_and_item {way below beyond : List Step} {inside : Step} {i : Nat}
    (h : tree.find (way ++ .right :: inside :: below) = .ok a) :
    tree.find (way ++ .rightItem i :: beyond) ≠ .ok b := by
  intro found'
  rw [find_append] at h found'
  obtain ⟨above, here, h⟩ := bind_eq_ok.mp h
  obtain ⟨_, here', found'⟩ := bind_eq_ok.mp found'
  cases here.symm.trans here'
  obtain ⟨side, stands, h⟩ := bind_eq_ok.mp h
  obtain ⟨item, stands', -⟩ := bind_eq_ok.mp found'
  obtain ⟨part, there, -⟩ := bind_eq_ok.mp h
  cases above with
  | comparison name left operator right =>
      cases stands
      cases side with
      | several items => cases there
      | _ => cases stands'
  | _ => cases stands

/-- Where one path goes through the right side of a comparison as a whole, another one that is not below it goes through
none of several operands there. -/
theorem not_whole_and_item {way : List Step} {i : Nat} (ha : ¬ p.flatMap Step.segments <+: q.flatMap Step.segments)
    (hf : tree.find p = .ok a) (hf' : tree.find q = .ok b) (hw : way ++ [.right] <+: p) :
    ¬ way ++ [.rightItem i] <+: q := by
  rintro ⟨beyond, rfl⟩
  obtain ⟨below, rfl⟩ := hw
  rw [List.append_assoc] at hf hf' ha
  cases below with
  | nil =>
      -- the path to an operand is written as that to the right side and a number
      apply ha
      simp only [List.append_assoc, List.flatMap_append]
      exact (List.prefix_append_right_inj _).mpr ⟨toString i :: beyond.flatMap Step.segments, rfl⟩
  | cons inside below => exact not_inside_and_item hf hf'

/-- Two nodes of a tree stand apart if neither path leads into the other node. -/
theorem apart_of_beside (beside : Address.Beside p q) (hf : tree.find p = .ok a) (hf' : tree.find q = .ok b) :
    Apart p q := by
  refine separate_iff.mp ⟨?_, ?_, ?_, ?_⟩
  · exact fun below => beside.1 (prefix_segments below)
  · exact fun above => beside.2 (prefix_segments above)
  · exact fun way i whole => not_whole_and_item beside.1 hf hf' whole
  · exact fun way i item whole => not_whole_and_item beside.2 hf' hf whole item

/-! ### Climbing -/

/-- To settle the chains on the way one by one is to climb, in as many rounds as there are steps. -/
theorem climbs_of_reinferUp {k : Nat} (hw : k ≤ steps.length) (hr : Address.steps path = .ok (steps.take k))
    (hs : tree.reinferUp numeric steps k = .ok tree') : Climbs numeric k path tree tree' := by
  induction k generalizing path tree with
  | zero =>
      cases hs
      refine .root ?_
      simp only [Address.parent?, hr, ok_bind, List.take_zero, List.getLast?_nil, pure_eq_ok]
  | succ k ih =>
      obtain ⟨between, first, hs⟩ := bind_eq_ok.mp hs
      obtain ⟨above, up, readAbove⟩ := Address.parent?_of_steps (List.take_succ_eq_append_getElem hw ▸ hr)
      exact .up up readAbove first (ih (by omega) readAbove hs)

/-- What settles has the inferred type afterwards. -/
theorem inferred_settled (h : a.reinferAt numeric [] = .ok b) : b.Inferred numeric := by
  rintro ⟨type, operands, operators⟩ rfl
  cases a with
  | chain type' operands' operators' =>
      simp only [reinferAt, find, ok_bind] at h
      obtain ⟨inferred, known, h⟩ := bind_eq_ok.mp h
      split at h
      · rename_i declared
        cases h
        exact ⟨inferred, known, .inr declared⟩
      · cases h
        exact ⟨_, known, .inl rfl⟩
  | _ => cases h

theorem settles_of_weave (hf : tree.find steps = .ok old) (hw : weave numeric new steps tree = .ok tree') :
    Settles numeric steps new tree tree' := by
  refine ⟨find_woven hw, fun q node beside => ?_, fun way step below split => ?_⟩
  · constructor
    · intro there
      rw [← find_woven_apart (apart_of_beside beside (find_woven hw) there) hw, there]
    · intro there
      rw [find_woven_apart (apart_of_beside beside hf there) hw, there]
  · subst split
    clear hf
    induction way generalizing tree tree' with
    | nil =>
        obtain ⟨child, changed, mid, -, slot, settled⟩ := weave_cons.mp hw
        refine ⟨tree, tree', changed, mid, rfl, rfl, ?_, slot.withChild_eq, settled_untyped settled,
          inferred_settled settled⟩
        simp only [List.nil_append, find, child_settled settled, slot.child_new, ok_bind]
    | cons first way ih =>
        obtain ⟨child, changed, stood, hw, stands, -⟩ := child_woven hw
        simp only [List.cons_append, find, stood, stands, ok_bind]
        exact ih hw

end Node

namespace Session

variable {s : Session} {d : Document} {path : String} {steps : List Step} {seat : Seat} {old new : Node}

/-- A node that is put at a path of a well-formed rule gets there, with the chains above it settled in one climb to the
root, and nothing else changes in the session but the warnings. -/
theorem put_settles (ho : s.document = some d) (hp : d.definition.Seated Node.Proper seat)
    (hr : Address.steps path = .ok steps) (hf : d.definition.find steps = .ok old)
    (hs : new.Seated Node.Proper (seat.along steps)) :
    ∃ tree filled warnings, (Session.put path new).run s =
        (.ok (), { s with document := some { d with definition := tree }, warnings }) ∧
      d.definition.putAtPath path new = .ok filled ∧ Climbs s.numeric steps.length path filled tree ∧
      Settles s.numeric steps new d.definition tree := by
  obtain ⟨tree, woven, proper'⟩ := hp.weaves hf hs s.numeric
  obtain ⟨warnings, told⟩ := Document.warnings_eq_ok (d := { d with definition := tree }) proper'.leftsTyped
  obtain ⟨filled, placed, settled⟩ := bind_eq_ok.mp (Node.weave_eq s.numeric new steps d.definition ▸ woven)
  obtain ⟨⟨⟩, ran, same⟩ := (gives_put ho hr woven told).run
  refine ⟨tree, filled, warnings, Prod.ext ran same, ?_, ?_, Node.settles_of_weave hf woven⟩
  · rw [Node.putAtPath, hr, ok_bind, placed]
  · exact Node.climbs_of_reinferUp le_rfl (by rwa [List.take_length]) settled

/-- A condition on the larger of two numbers, one of which is the smaller of two itself. -/
def bounded (type : Value) (first : Node) : Node :=
  .comparison (.text "Condition 1")
    (.call (.text "number") (.text "ROUND") [⟨.text "value", .chain type
      [.chain type [first, Node.years 65] [.text "MIN"], Node.years 18] [.text "MAX"]⟩])
    (.text "equal") (Node.years 18)

def named : Node := .field (.text "text") (.text "NAME")

def bounding : Session :=
  { Conversation.served with
    document := some { Conversation.adult with
      definition := bounded (.text "number") (.field (.text "number") (.text "AGE")) } }

/-- Both chains around the field turn into texts in one climb. -/
theorem bounding_settles :
    ∃ filled warnings, (Session.put "root-left-arg-0-operand-0-operand-0" named).run bounding =
        (.ok (), { bounding with
          document := some { Conversation.adult with definition := bounded (.text "text") named }, warnings }) ∧
      Climbs bounding.numeric 4 "root-left-arg-0-operand-0-operand-0" filled (bounded (.text "text") named) ∧
      Settles bounding.numeric [.left, .argument 0, .operand 0, .operand 0] named
        (bounded (.text "number") (.field (.text "number") (.text "AGE"))) (bounded (.text "text") named) := by
  have declared {type value : Value} {seat : Seat} : (Node.literal type value).Seated Node.Proper seat :=
    Node.seated_literal.mpr ⟨Node.suits_of_type ⟨_, rfl⟩ seat, nofun⟩
  have field {type path : Value} {seat : Seat} : (Node.field type path).Seated Node.Proper seat :=
    Node.seated_field.mpr ⟨Node.suits_of_type ⟨_, rfl⟩ seat, nofun⟩
  have joined {type : Value} {a b : Node} {symbol : String} (first : a.Seated Node.Proper .expression)
      (second : b.Seated Node.Proper .expression) :
      (Node.chain type [a, b] [.text symbol]).Seated Node.Proper .expression := by
    refine Node.seated_chain.mpr ⟨⟨⟨_, rfl⟩, List.forall_mem_singleton.mpr rfl⟩, ?_⟩
    exact List.forall_mem_cons.mpr ⟨first, List.forall_mem_singleton.mpr second⟩
  have proper : (bounded (.text "number") (.field (.text "number") (.text "AGE"))).Seated Node.Proper .condition := by
    refine Node.seated_comparison.mpr ⟨⟨nofun, nofun⟩, ?_, declared⟩
    refine Node.seated_call.mpr ⟨⟨⟨_, rfl⟩, nofun⟩, List.forall_mem_singleton.mpr ?_⟩
    exact joined (joined field declared) declared
  have read : Address.steps "root-left-arg-0-operand-0-operand-0" = .ok [.left, .argument 0, .operand 0, .operand 0] :=
    rfl
  have put : named.Seated Node.Proper (Seat.condition.along [.left, .argument 0, .operand 0, .operand 0]) := field
  have opened : bounding.document = some _ := rfl
  obtain ⟨tree, filled, warnings, ran, -, climbs, settles⟩ := put_settles opened proper read rfl put
  have same : bounded (.text "text") named = tree :=
    congrArg (fun r => (r.2.document.map (·.definition)).getD .absent) ran
  subst same
  exact ⟨filled, warnings, ran, climbs, settles⟩

end Session

end RuleEditor
