import RuleEditor.Proofs.Outcome
import RuleEditor.Proofs.Session.Scope

/-!
# Changes of a definition

All that the operations of a session do to a definition, said once. A `Rewrite` gives the node that an edit
puts in the place of another one, and the requests that the edit makes stale. `Placed` says how a node comes
to its place, `Recast` how an edit of the choice as a whole changes it, `Chosen` what a selected rule does to a
reference, and `Rechecked` what a check of all references writes.
-/
namespace RuleEditor

/-- Which requests an edit makes stale. -/
inductive Mark where
  | none
  /-- Those at a path and below it. -/
  | below (path : String)
  /-- Those at a path alone. -/
  | only (path : String)

namespace Mark

def renews : Mark → String → Bool
  | none, _ => false
  | below path, key => Address.covers path key
  | only path, key => key == path

end Mark

/-- An edit of the node at `path` makes another one of it. -/
inductive Rewrite (sc : Scope) (catalogue : Catalogue) (numeric : List String) (path : String) :
    Mark → Node → Node → Prop where
  | kindChanged {old new kind n n'} : (old.changeKind catalogue path kind).run n = (.ok new, n') →
      Rewrite sc catalogue numeric path (.below path) old new
  | childAdded {g g' n n'} : (Group.addChild catalogue path g).run n = (.ok g', n') →
      Rewrite sc catalogue numeric path .none g.node g'.node
  | groupAdded {g g' n n'} : (Group.addChildGroup catalogue path g).run n = (.ok g', n') →
      Rewrite sc catalogue numeric path .none g.node g'.node
  | emptied {old new name} : Fresh.condition catalogue name = .ok new → sc.dares (.clear old) →
      Rewrite sc catalogue numeric path (.below path) old new
  | childRemoved {g g' i} : Group.removeChild i g = .ok (some g') →
      Rewrite sc catalogue numeric path (.below path) g.node g'.node
  | renamed {old new name} : old.renamed name = .ok new →
      Rewrite sc catalogue numeric path .none old new
  | childRenamed {g g' child child' name} {i : Nat} : g.children[i]? = some child → child.renamed name = .ok child' →
      Group.updateChild i child' g = .ok g' → Rewrite sc catalogue numeric path .none g.node g'.node
  | conjunctionSet {old new conjunction} : old.withConjunction conjunction = .ok new →
      Rewrite sc catalogue numeric path .none old new
  | negationToggled {g : Group} : Rewrite sc catalogue numeric path .none g.node g.toggleNegation.node
  | reordered {g g' source destination} : Group.reorder source destination g = .ok g' →
      Rewrite sc catalogue numeric path (.below path) g.node g'.node
  | operatorChanged {c c' operator} : Comparison.changeOperator catalogue operator c = .ok c' →
      Rewrite sc catalogue numeric path (.below (path ++ "-right")) c.node c'.node
  | leftChanged {c c' left} : sc.given left → Comparison.changeLeft left c = .ok c' → sc.dares (.lead c left) →
      Rewrite sc catalogue numeric path (.below (path ++ "-left")) c.node c'.node
  | rightAdded {c c'} : Comparison.addOperand catalogue c = .ok c' →
      Rewrite sc catalogue numeric path .none c.node c'.node
  | rightRemoved {c c' index} : Comparison.removeOperand catalogue index c = .ok c' →
      Rewrite sc catalogue numeric path (.below (path ++ "-right")) c.node c'.node
  | replaced {old new} : sc.given new → sc.dares (.supply new) → sc.dares (.fill old) →
      Rewrite sc catalogue numeric path (.below path) old new
  | sourceChanged {old new source field} : old.fromSource source field = .ok new → sc.dares (.fill old) →
      Rewrite sc catalogue numeric path (.below path) old new
  | wrapped {old c operator} : Chain.wrap numeric operator old = .ok c → sc.dares (.fill old) →
      sc.dares (.join operator) →
      Rewrite sc catalogue numeric path (.below path) old c.node
  | operandInserted {c c' operator after} : Chain.insertOperand numeric operator after c = .ok c' →
      sc.dares (.join operator) →
      Rewrite sc catalogue numeric path (.below path) c.node c'.node
  | operandRemoved {c new index} : Chain.removeOperand numeric index c = .ok new →
      Rewrite sc catalogue numeric path (.below path) c.node new
  | operatorUpdated {c c' index operator} : Chain.updateOperator numeric index operator c = .ok c' →
      sc.dares (.join operator) →
      Rewrite sc catalogue numeric path .none c.node c'.node
  | checkCleared {name target new} : Node.clearRule path target = .ok new →
      Rewrite sc catalogue numeric path (.only path) (.ruleCheck name target) new
  | referenceCleared {target : Reference} :
      Rewrite sc catalogue numeric path (.below path) (.reference target)
        (.reference { Fresh.reference target.type with ruleType := target.ruleType })

/-- An edit of the choice as a whole. A branch whose condition changes its kind is `turned`. -/
inductive Recast (sc : Scope) (catalogue : Catalogue) : Mark → Choice → Choice → Prop where
  | added {c c' n n'} : (Choice.addBranch catalogue c).run n = (.ok c', n') → Recast sc catalogue .none c c'
  | removed {c c' index} : Choice.removeBranch index c = .ok c' → sc.dares (.drop c') →
      Recast sc catalogue (.below Choice.rootPath) c c'
  | kindChanged {c c' index kind n n'} : sc.turned c index kind →
      (Choice.changeConditionKind catalogue index kind c).run n = (.ok c', n') →
      Recast sc catalogue (.below (Choice.conditionPath index)) c c'
  | resultLabelled {c c' index text} : Choice.setResultLabel index text c = .ok c' →
      Recast sc catalogue .none c c'
  | otherwiseLabelled {c text} : Recast sc catalogue .none c (Choice.setOtherwiseLabel text c)

/-- A node has come to the place that some steps lead to. The chains around it are typed anew, and the label
of a result slot follows its result. -/
inductive Placed (numeric : List String) (new : Node) : List Step → Node → Node → Prop where
  | put {steps tree replaced tree'} : Node.replace new steps tree = .ok replaced →
      replaced.reinferUp numeric steps steps.length = .ok tree' → Placed numeric new steps tree tree'
  | result {c c'} {i : Nat} : Choice.setResult i new c = .ok c' → Placed numeric new [.result i] c.node c'.node
  | otherwise {c : Choice} : Placed numeric new [.otherwise] c.node (Choice.setOtherwise new c).node

/-- What a rule that was selected for the reference at `path` makes of it. -/
inductive Chosen (path : String) (target : Reference) : Node → Node → Prop where
  | check {name old new} : Node.selectRule path target = .ok new → Chosen path target (.ruleCheck name old) new
  | reference {old} : Chosen path target (.reference old) (.reference target)

/-- A finding about the rule that `target` refers to is written beside a reference to the same rule. -/
inductive Reviews (target : Reference) (f : Finding) : Node → Node → Prop where
  | reference {live} : live.sameTarget target = true → Reviews target f (.reference live) (.reference (live.reviewed f))
  | check {name live} : live.sameTarget target = true →
      Reviews target f (.ruleCheck name live) (.ruleCheck name (live.reviewed f))

/-- A finding has been written at each of some paths that still lead to the reference it is about. It has been
`found` about the version that the reference is to. -/
inductive Rechecked (found : Value → Value → Finding → Prop) : Node → Node → Prop where
  | refl {tree} : Rechecked found tree tree
  | step {tree tree' tree'' path target finding} : found target.uuid target.version finding →
      tree.writeReview? path target finding = .ok (some tree') → Rechecked found tree' tree'' →
      Rechecked found tree tree''

namespace Node

variable {path : String} {tree tree' node : Node}

theorem atPath?_eq_some (h : tree.atPath? path = .ok (some node)) :
    ∃ steps, Address.steps path = .ok steps ∧ tree.find steps = .ok node := by
  unfold atPath? at h
  split at h
  · rename_i found
    cases h
    exact bind_eq_ok.mp found
  all_goals cases h

/-- What is written is put in the place of the reference that is at the path. -/
theorem writeReview?_eq {target : Reference} {f : Finding} (h : tree.writeReview? path target f = .ok (some tree')) :
    ∃ steps old new, tree.find steps = .ok old ∧ Reviews target f old new ∧
      Node.replace new steps tree = .ok tree' := by
  obtain ⟨live?, at?, h⟩ := bind_eq_ok.mp h
  have put {old new : Node} (at? : tree.atPath? path = .ok (some old)) (reviews : Reviews target f old new)
      (h : (do return some (← tree.putAtPath path new)) = Except.ok (some tree')) :
      ∃ steps old new, tree.find steps = .ok old ∧ Reviews target f old new ∧
        Node.replace new steps tree = .ok tree' := by
    obtain ⟨_, put, h⟩ := bind_eq_ok.mp h
    cases h
    obtain ⟨steps, read, found⟩ := atPath?_eq_some at?
    obtain ⟨steps', read', replaced⟩ := bind_eq_ok.mp put
    cases read.symm.trans read'
    exact ⟨steps, old, new, found, reviews, replaced⟩
  split at h
  · split at h
    · rename_i same
      exact put at? (.reference same) h
    · cases h
  · split at h
    · rename_i same
      exact put at? (.check same) h
    · cases h
  · cases h

end Node

end RuleEditor
