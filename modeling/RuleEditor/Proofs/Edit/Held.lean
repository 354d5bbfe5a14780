import RuleEditor.Proofs.Address.Canonical
import RuleEditor.Proofs.Edit.Shapes
import RuleEditor.Proofs.Session.Rewrite
import RuleEditor.Proofs.Tree.Held

/-!
# References that edits leave

What an edit adds holds no reference, and the references that were there before stay in their places, apart
from those that the edit reaches. For every place that an edit reaches, it makes the requests stale.
-/
namespace RuleEditor

namespace Mark

/-- A mark for the node at a path reaches a place below the node. -/
inductive Reaches (path : String) : Mark → List Step → Prop where
  | whole {rest} : Reaches path (.below path) rest
  | left {rest} : Reaches path (.below (path ++ "-left")) (.left :: rest)
  | right {rest} : Reaches path (.below (path ++ "-right")) (.right :: rest)
  | rightItem {i rest} : Reaches path (.below (path ++ "-right")) (.rightItem i :: rest)
  | itself : Reaches path (.only path) []

/-- The requests for a place that is reached are made stale. -/
theorem Reaches.renews {root : String} {steps rest : List Step} {mark : Mark} (h : Address.IsRoot root)
    (reaches : Reaches (Address.render root steps) mark rest) :
    mark.renews (Address.render root (steps ++ rest)) = true := by
  have spelled {step : Step} (plain : step.index? = Option.none) :
      Address.render root steps ++ ("-" ++ step.word) = Address.render root (steps ++ [step]) :=
    Address.render_append h plain
  cases reaches with
  | whole => exact Address.covers_render h steps rest
  | @left rest =>
      have covered := Address.covers_render h (steps ++ [.left]) rest
      rw [← spelled rfl, List.append_assoc] at covered
      exact covered
  | @right rest =>
      have covered := Address.covers_render h (steps ++ [.right]) rest
      rw [← spelled rfl, List.append_assoc] at covered
      exact covered
  | @rightItem i rest =>
      have covered := Address.covers_render_right h steps i rest
      rw [← spelled rfl] at covered
      exact covered
  | itself =>
      rw [List.append_nil]
      exact beq_self_eq_true _

end Mark

namespace Node

variable {catalogue : Catalogue} {node old new : Node} {xs ys : List Node}

/-! ### New nodes -/

theorem bare_condition {name : Value} (h : Fresh.condition catalogue name = .ok node) : Bare node := by
  obtain ⟨t, path, operator, t', v, rfl⟩ := Fresh.condition_eq h
  refine .of_children rfl fun step rest => ?_
  cases step with
  | left => exact bare_field _ _ rest
  | right => exact bare_literal _ _ rest
  | _ => rfl

theorem bare_group {name : Value} {conjunction : Conjunction} {negated : Bool}
    (h : ∀ child ∈ xs, Bare child) : Bare (.group name xs conjunction negated) := by
  refine .of_children rfl fun step rest => ?_
  cases step with
  | child i =>
      show heldBelow rest (item xs i) = none
      unfold item
      split
      · rename_i child found
        exact h child (List.mem_of_getElem? found) rest
      · rfl
  | _ => rfl

theorem bare_member (member : Fresh.Member catalogue node) : Bare node := by
  cases member with
  | comparison made => exact bare_condition made
  | group _ all =>
      refine bare_group fun child within => ?_
      obtain ⟨name, made⟩ := all child within
      exact bare_condition made

/-! ### Names and types -/

/-- A new name leaves all references. -/
theorem alike_renamed {name : Value} (h : old.renamed name = .ok new) :
    Alike old new ∧ (Single old ∧ Single new) ∧ new.root = old.root := by
  cases old <;> cases h
  all_goals
    refine ⟨.of_children rfl fun step rest => ?_, ⟨fun _ => nofun, fun _ => nofun⟩, rfl⟩
    cases step <;> rfl

mutual

/-- A new type leaves all references. -/
theorem alike_retyped {type : Value} : (e : Node) → {e' : Node} → e.retyped type = .ok e' →
    Alike e e' ∧ Single e ∧ Single e'
  | .chain t operands operators, e', retyped => by
      obtain ⟨operands', below, made⟩ := bind_eq_ok.mp retyped
      cases made
      exact ⟨alike_chain (alike_retypedOperands operands below), fun _ => nofun, fun _ => nofun⟩
  | .literal .., e', retyped => by
      cases retyped
      exact ⟨(bare_literal _ _).alike (bare_literal _ _), fun _ => nofun, fun _ => nofun⟩
  | .field .., e', retyped => by
      cases retyped
      exact ⟨(bare_field _ _).alike (bare_field _ _), fun _ => nofun, fun _ => nofun⟩
  | .call .., e', retyped | .reference .., e', retyped => by
      cases retyped
      refine ⟨.of_children rfl fun step rest => ?_, fun _ => nofun, fun _ => nofun⟩
      cases step <;> rfl
  | .absent, e', retyped | .several .., e', retyped | .comparison .., e', retyped | .group .., e', retyped
  | .ruleCheck .., e', retyped | .choice .., e', retyped => by
      cases retyped

theorem alike_retypedOperands {type : Value} : (operands : List Node) → {operands' : List Node} →
    retypedOperands type operands = .ok operands' → AlikeItems operands operands'
  | [], operands', retyped => by
      cases retyped
      exact .refl []
  | e :: rest, operands', retyped => by
      obtain ⟨e', first, retyped⟩ := bind_eq_ok.mp retyped
      obtain ⟨rest', below, made⟩ := bind_eq_ok.mp retyped
      cases made
      exact .cons (alike_retyped e first).1 (alike_retypedOperands rest below)

end

theorem AlikeItems.mapM {f : Node → Except Fault Node} (h : ∀ x y, f x = .ok y → Alike x y)
    (hm : xs.mapM f = .ok ys) : AlikeItems xs ys := by
  induction xs generalizing ys with
  | nil =>
      cases hm
      exact .refl []
  | cons x rest ih =>
      rw [List.mapM_cons] at hm
      obtain ⟨y, first, hm⟩ := bind_eq_ok.mp hm
      obtain ⟨others, below, hm⟩ := bind_eq_ok.mp hm
      cases hm
      exact .cons (h x y first) (ih below)

theorem alike_followLeft {type : Value} {operand : Node} (h : Comparison.followLeft type operand = .ok new) :
    Alike operand new ∧ (Single operand → Single new) := by
  unfold Comparison.followLeft at h
  split at h
  · obtain ⟨alike, -, single⟩ := alike_retyped _ h
    exact ⟨alike, fun _ => single⟩
  · obtain ⟨own, -, h⟩ := bind_eq_ok.mp h
    split at h
    · cases h
      exact ⟨.refl _, id⟩
    · obtain ⟨alike, -, single⟩ := alike_retyped _ h
      exact ⟨alike, fun _ => single⟩

/-! ### Right sides -/

/-- The right sides hold the same references, as a whole and as several operands. -/
def AlikeSides (right right' : Node) : Prop := Alike right right' ∧ AlikeItems right.items right'.items

theorem AlikeSides.refl (right : Node) : AlikeSides right right := ⟨.refl _, .refl _⟩

theorem AlikeSides.single {right right' : Node} (h : Alike right right') (single : Single right)
    (single' : Single right') : AlikeSides right right' :=
  ⟨h, by
    rw [single.items_eq, single'.items_eq]
    exact .refl []⟩

theorem AlikeSides.several (h : AlikeItems xs ys) : AlikeSides (.several xs) (.several ys) :=
  ⟨(bare_several xs).alike (bare_several ys), h⟩

/-- Comparisons with the same right operands hold the same, apart from what they hold on the left. -/
theorem heldAt_comparison {name name' operator operator' : Value} {left left' right right' : Node}
    (hs : AlikeSides right right') {rest : List Step} (ha : rest.head? ≠ some .left ∨ left = left') :
    (Node.comparison name left operator right).heldAt rest =
      (Node.comparison name' left' operator' right').heldAt rest := by
  cases rest with
  | nil => rfl
  | cons step rest =>
      cases step with
      | left =>
          rcases ha with ha | rfl
          · exact absurd rfl ha
          · rfl
      | right => exact hs.1 rest
      | rightItem i =>
          rw [heldAt_cons, heldAt_cons, heldBelow_rightItem, heldBelow_rightItem]
          exact hs.2 i rest
      | _ => rfl

theorem changeLeft_eq {c c' : Comparison} {left : Node} (h : Comparison.changeLeft left c = .ok c') :
    ∃ right, AlikeSides c.right right ∧ c' = { c with left, right } := by
  obtain ⟨type, -, h⟩ := bind_eq_ok.mp h
  split at h
  · cases h
    exact ⟨c.right, .refl _, rfl⟩
  · rename_i items same
    obtain ⟨items', followed, h⟩ := bind_eq_ok.mp h
    cases h
    refine ⟨.several items', ?_, rfl⟩
    rw [same]
    exact .several (.mapM (fun _ _ followed => (alike_followLeft followed).1) followed)
  · rename_i several
    obtain ⟨right, followed, h⟩ := bind_eq_ok.mp h
    cases h
    obtain ⟨alike, single⟩ := alike_followLeft followed
    exact ⟨right, .single alike several (single several), rfl⟩

end Node

/-! ### Rewrites -/

open Node

variable {sc : Scope} {catalogue : Catalogue} {numeric : List String} {path : String} {mark : Mark}
  {old new : Node}

/-- Apart from the places that the mark reaches, the new node holds the same references as the old one. -/
structure Leaves (path : String) (mark : Mark) (old new : Node) : Prop where
  root : new.root = old.root
  single : Single old ∧ Single new
  held : ∀ rest, ¬ mark.Reaches path rest → old.heldAt rest = new.heldAt rest

theorem Leaves.of_alike (hr : new.root = old.root) (hs : Single old ∧ Single new) (h : Alike old new) :
    Leaves path mark old new := ⟨hr, hs, fun rest _ => h rest⟩

theorem leaves_group {g g' : Group} (h : AlikeItems g.children g'.children) : Leaves path mark g.node g'.node :=
  .of_alike rfl ⟨fun _ => nofun, fun _ => nofun⟩ (alike_group h)

theorem leaves_comparison {c c' : Comparison}
    (h : ∀ rest, ¬ mark.Reaches path rest → c.node.heldAt rest = c'.node.heldAt rest) :
    Leaves path mark c.node c'.node := ⟨rfl, ⟨fun _ => nofun, fun _ => nofun⟩, h⟩

theorem leaves_check {name name' : Value} {target target' : Reference} :
    Leaves path (.only path) (.ruleCheck name target) (.ruleCheck name' target') where
  root := rfl
  single := ⟨fun _ => nofun, fun _ => nofun⟩
  held rest missed := by
    cases rest with
    | nil => exact absurd .itself missed
    | cons step rest => cases step <;> rfl

theorem leaves_reference {target target' : Reference} :
    Leaves path (.only path) (.reference target) (.reference target') where
  root := rfl
  single := ⟨fun _ => nofun, fun _ => nofun⟩
  held rest missed := by
    cases rest with
    | nil => exact absurd .itself missed
    | cons step rest => cases step <;> rfl

/-- A rewrite either makes all requests at the node and below it stale, or leaves what it does not reach. -/
theorem Rewrite.leaves (rewrite : Rewrite sc catalogue numeric path mark old new) :
    mark = .below path ∨ Leaves path mark old new := by
  cases rewrite with
  | kindChanged | emptied | childRemoved | reordered | replaced | sourceChanged | wrapped | operandInserted
  | operandRemoved | referenceCleared => exact .inl rfl
  | childAdded made =>
      obtain ⟨child, member, rfl⟩ := Group.addChild_eq made
      exact .inr (leaves_group (.append_bare (bare_member member) _))
  | groupAdded made =>
      obtain ⟨child, member, rfl⟩ := Group.addChildGroup_eq made
      exact .inr (leaves_group (.append_bare (bare_member member) _))
  | renamed made =>
      obtain ⟨alike, single, root⟩ := alike_renamed made
      exact .inr (.of_alike root single alike)
  | childRenamed found renamed updated =>
      cases Group.updateChild_eq updated
      exact .inr (leaves_group (.set found (alike_renamed renamed).1))
  | conjunctionSet set =>
      obtain ⟨conjunction, -, set⟩ := bind_eq_ok.mp set
      split at set
      · cases set
        exact .inr (.of_alike rfl ⟨fun _ => nofun, fun _ => nofun⟩ (alike_group (.refl _)))
      · cases set
  | negationToggled => exact .inr (leaves_group (.refl _))
  | operatorChanged changed =>
      obtain ⟨_, _, right, -, rfl⟩ := Comparison.changeOperator_eq changed
      refine .inr (leaves_comparison fun rest missed => ?_)
      cases rest with
      | nil => rfl
      | cons step rest =>
          cases step with
          | right => exact absurd .right missed
          | rightItem => exact absurd .rightItem missed
          | _ => rfl
  | leftChanged _ changed =>
      obtain ⟨right, sides, rfl⟩ := changeLeft_eq changed
      refine .inr (leaves_comparison fun rest missed => heldAt_comparison sides (.inl fun left => missed ?_))
      cases rest with
      | nil => cases left
      | cons step rest =>
          cases left
          exact .left
  | rightAdded added =>
      refine .inr (leaves_comparison fun rest _ => ?_)
      rcases Comparison.addOperand_eq added with rfl | ⟨items, t, v, same, rfl⟩
      · rfl
      · refine heldAt_comparison ?_ (.inr rfl)
        rw [same]
        exact .several (.append_bare (bare_literal t v) items)
  | rightRemoved removed =>
      rcases Comparison.removeOperand_eq removed with rfl | ⟨items, kept, -, -, rfl⟩
      · exact .inr (leaves_comparison fun rest _ => rfl)
      · refine .inr (leaves_comparison fun rest missed => ?_)
        cases rest with
        | nil => rfl
        | cons step rest =>
            cases step with
            | right => exact absurd .right missed
            | rightItem => exact absurd .rightItem missed
            | _ => rfl
  | operatorUpdated updated =>
      obtain ⟨type, operators, -, -, -, rfl⟩ := Chain.updateOperator_eq updated
      exact .inr (.of_alike rfl ⟨fun _ => nofun, fun _ => nofun⟩ (alike_chain (.refl _)))
  | checkCleared cleared =>
      obtain ⟨label, -, made⟩ := bind_eq_ok.mp cleared
      cases made
      exact .inr leaves_check

theorem Chosen.leaves {target : Reference} (chosen : Chosen path target old new) :
    Leaves path (.only path) old new := by
  cases chosen with
  | check selected =>
      obtain ⟨label, -, made⟩ := bind_eq_ok.mp selected
      cases made
      exact leaves_check
  | reference => exact leaves_reference

/-! ### Whole definitions -/

theorem Leaves.heldAt_eq {root : String} {p q : List Step} {tree tree' : Node} (h : Address.IsRoot root)
    (leaves : Leaves (Address.render root p) mark old new) (hr : Node.replace new p tree = .ok tree')
    (hf : tree.find p = .ok old) (hm : mark.renews (Address.render root q) = false) :
    tree'.heldAt q = tree.heldAt q := by
  refine heldAt_replaced hr hf (fun rest below => leaves.held rest fun reaches => ?_) (.inl leaves.single)
  subst below
  exact Bool.false_ne_true (hm.symm.trans (reaches.renews h))

/-- A rewrite in a tree leaves the root, and what the places hold for which it does not make requests stale. -/
theorem Rewrite.keeps {root : String} {p q : List Step} {tree tree' : Node} (h : Address.IsRoot root)
    (rewrite : Rewrite sc catalogue numeric (Address.render root p) mark old new)
    (hr : Node.replace new p tree = .ok tree') (hf : tree.find p = .ok old)
    (hm : mark.renews (Address.render root q) = false) :
    tree'.root = tree.root ∧ tree'.heldAt q = tree.heldAt q := by
  rcases rewrite.leaves with rfl | leaves
  · have apart (rest : List Step) : q ≠ p ++ rest := by
      rintro rfl
      exact Bool.false_ne_true (hm.symm.trans (Address.covers_render h p rest))
    refine ⟨root_replaced (fun whole => apart q (by rw [whole, List.nil_append])) hr, ?_⟩
    refine heldAt_replaced hr hf (fun rest below => absurd below (apart rest)) (.inr ?_)
    rintro ⟨front, i, back, rfl, rfl⟩
    exact Bool.false_ne_true (hm.symm.trans (Address.covers_render_right h front i back))
  · exact ⟨root_put hr hf leaves.root, leaves.heldAt_eq h hr hf hm⟩

/-- A node that is placed is put in its place, up to the types of chains and the labels of results. -/
theorem Placed.replaced {steps : List Step} {tree tree' : Node} (placed : Placed numeric new steps tree tree') :
    ∃ replaced, Node.replace new steps tree = .ok replaced ∧ Alike tree' replaced ∧ tree'.root = replaced.root := by
  cases placed with
  | @put _ _ replaced _ there inferred =>
      obtain ⟨alike, root⟩ := alike_reinferUp inferred
      exact ⟨replaced, there, alike, root⟩
  | @result c c' i set =>
      obtain ⟨j, branch, label, place, found, rfl⟩ := Choice.setResult_eq set
      rw [Index.place?_ofNat] at place
      split at place
      · cases place
        refine ⟨_, replace_cons.mpr ⟨_, new, rfl, .result found⟩, alike_choice ?_ ?_ (.refl _), rfl⟩
        · simp only [List.map_set]
          exact .refl _
        · simp only [List.map_set]
          exact .refl _
      · cases place
  | otherwise =>
      exact ⟨_, replace_cons.mpr ⟨_, new, rfl, .otherwise⟩, alike_choice (.refl _) (.refl _) (.refl _), rfl⟩

/-- The kind of a condition at the path or above it is changed, and the branch is counted from the end. -/
def Choice.Slips (c : Choice) (index : Int) (kind : Kind) (path : String) : Prop :=
  index < 0 ∧ ∃ i branch own, Index.place? c.branches.length index = some i ∧ c.branches[i]? = some branch ∧
    branch.condition.conditionKind = .ok own ∧ own ≠ kind ∧ Address.covers (Choice.conditionPath i) path = true

/-- An edit of a choice leaves what a place holds, if it does not make the requests for the place stale and if
it does not count a branch from the end. -/
theorem Recast.heldAt_eq {c c' : Choice} {steps : List Step}
    (recast : Recast sc catalogue mark c c')
    (hs : ∀ index kind, sc.turned c index kind → ¬ c.Slips index kind (Address.render "case" steps))
    (hm : mark.renews (Address.render "case" steps) = false) : c'.node.heldAt steps = c.node.heldAt steps := by
  have root : Address.IsRoot "case" := .inr rfl
  cases recast with
  | added made =>
      obtain ⟨name, condition, t, v, first, rfl⟩ := Choice.addBranch_eq made
      refine (alike_choice ?_ ?_ (.refl _) steps).symm
      · rw [List.map_append]
        exact .append_bare (bare_condition first) _
      · rw [List.map_append]
        exact .append_bare (bare_literal t v) _
  | removed =>
      have covered : Address.covers Choice.rootPath (Address.render "case" steps) = true :=
        Address.covers_render root [] steps
      exact absurd (hm.symm.trans covered) Bool.false_ne_true
  | @kindChanged _ _ index kind _ _ named made =>
      obtain ⟨i, branch, condition, n₁, n₂, place, found, changed, rfl⟩ := Choice.changeConditionKind_eq made
      obtain ⟨own, n₃, known, -⟩ := Labelling.run_bind changed
      have replaced : Node.replace condition [.condition i] c.node =
          .ok (Choice.node { c with branches := c.branches.set i { branch with condition } }) :=
        replace_cons.mpr ⟨_, condition, rfl, .condition found⟩
      have here : c.node.find [.condition i] = .ok branch.condition := by
        simp [Choice.node, Node.find, Node.child, item_eq_ok.mpr found, Except.map]
      refine heldAt_replaced replaced here (fun rest below => ?_) (.inr ?_)
      · subst below
        have covered :
            Address.covers (Choice.conditionPath i) (Address.render "case" ([.condition i] ++ rest)) = true :=
          Address.covers_render root [.condition i] rest
        by_cases same : own = kind
        · subst same
          rw [changeKind_same (Labelling.run_lift known) changed]
        · by_cases negative : index < 0
          · exact absurd ⟨negative, i, branch, own, place, found, Labelling.run_lift known, same, covered⟩
              (hs index kind named)
          · -- the index is the place itself
            simp only [Index.place?, negative, if_false] at place
            split at place
            · cases place
              rename_i inside
              rw [Int.toNat_of_nonneg inside.1] at covered
              exact absurd (hm.symm.trans covered) Bool.false_ne_true
            · cases place
      · rintro ⟨front, j, back, same, -⟩
        cases front with
        | nil => cases same
        | cons _ front => cases front <;> cases same
  | resultLabelled labelled =>
      obtain ⟨i, branch, label, found, rfl⟩ := Choice.setResultLabel_eq labelled
      refine (alike_choice ?_ ?_ (.refl _) steps).symm
      · rw [List.map_set]
        exact .set (by rw [List.getElem?_map, found, Option.map_some]) (.refl _)
      · rw [List.map_set]
        exact .set (by rw [List.getElem?_map, found, Option.map_some]) (.refl _)
  | otherwiseLabelled => exact alike_choice (.refl _) (.refl _) (.refl _) steps

/-- Findings are written beside the references that they are about. -/
theorem Rechecked.alike {found : Value → Value → Finding → Prop} {tree tree' : Node}
    (rechecked : Rechecked found tree tree') : Alike tree' tree ∧ tree'.root = tree.root := by
  induction rechecked with
  | refl => exact ⟨.refl _, rfl⟩
  | @step tree once _ path target finding _ written _ ih =>
      suffices Alike once tree ∧ once.root = tree.root from ⟨ih.1.trans this.1, ih.2.trans this.2⟩
      obtain ⟨steps, old, new, here, reviews, replaced⟩ := writeReview?_eq written
      have same : Alike old new ∧ (Single old ∧ Single new) ∧ new.root = old.root := by
        cases reviews with
        | reference | check =>
            refine ⟨.of_children rfl fun step rest => ?_, ⟨fun _ => nofun, fun _ => nofun⟩, rfl⟩
            cases step <;> rfl
      obtain ⟨alike, single, root⟩ := same
      exact ⟨alike_replaced replaced here alike single, root_put replaced here root⟩

end RuleEditor
