import RuleEditor.Proofs.Session.Edits
import RuleEditor.Proofs.Session.Parallel
import Mathlib.Data.List.Forall2

/-!
# Edits under other spellings

What an edit does with the text of its path, apart from reading its steps, is to make requests stale and to count
labels. These texts are listed here for every edit. An edit ends alike under two spellings of its path if the texts
decide alike.
-/
namespace RuleEditor

open Session Editing

/-- The texts at and below which the removal of a condition may make requests stale: the groups above it that may be
left empty, and the place that has to be filled then, or the whole choice if a branch goes. -/
def Address.removalTexts : (depth : Nat) → (path : String) → List String
  | 0, path => [path]
  | depth + 1, path =>
    match steps path with
    | .ok [.condition _] => [Choice.rootPath, path]
    | _ =>
      match parent? path with
      | .ok (some above) => above :: removalTexts depth above
      | _ => []

/-- The definition of the open rule, if there is one. -/
def Session.tree (s : Session) : Node := (s.document.map (·.definition)).getD .absent

namespace Edit

/-- The edit with its path spelled in another way. -/
def spelled (spelling : String → String) : Edit → Edit
  | .changeConditionKind path kind => .changeConditionKind (spelling path) kind
  | .addCondition path => .addCondition (spelling path)
  | .addConditionGroup path => .addConditionGroup (spelling path)
  | .removeCondition path => .removeCondition (spelling path)
  | .renameCondition path name => .renameCondition (spelling path) name
  | .setConjunction path conjunction => .setConjunction (spelling path) conjunction
  | .toggleNegation path => .toggleNegation (spelling path)
  | .reorderConditions path source destination => .reorderConditions (spelling path) source destination
  | .changeOperator path operator => .changeOperator (spelling path) operator
  | .changeLeft path left => .changeLeft (spelling path) left
  | .addRightOperand path => .addRightOperand (spelling path)
  | .removeRightOperand path index => .removeRightOperand (spelling path) index
  | .setExpression path e => .setExpression (spelling path) e
  | .changeSource path source => .changeSource (spelling path) source
  | .wrapExpression path operator => .wrapExpression (spelling path) operator
  | .insertOperand path after operator => .insertOperand (spelling path) after operator
  | .appendOperand path operator => .appendOperand (spelling path) operator
  | .removeOperand path index => .removeOperand (spelling path) index
  | .updateOperator path index operator => .updateOperator (spelling path) index operator
  | .clearReference path => .clearReference (spelling path)
  | e => e

/-- The requests that an edit may make stale, by the texts of their paths. -/
def marks : Edit → List Mark
  | .changeConditionKind path _ | .reorderConditions path _ _ | .setExpression path _ | .changeSource path _
  | .wrapExpression path _ | .insertOperand path _ _ | .appendOperand path _ | .removeOperand path _ => [.below path]
  | .changeOperator path _ | .removeRightOperand path _ => [.below (path ++ "-right")]
  | .changeLeft path _ => [.below (path ++ "-left")]
  | .removeCondition path =>
    match Address.steps path with
    | .ok steps => (Address.removalTexts steps.length path).map .below
    | .error _ => []
  | .removeBranch _ => [.below Choice.rootPath]
  | .changeBranchKind index _ => [.below (Choice.conditionPath index)]
  | .clearReference path => [.only path, .below path]
  | _ => []

/-- The texts under which an edit may count labels, by the words of the labels. A new group of conditions is numbered
by its place among the other conditions. -/
def counters (place : Nat) : Edit → List (String × String)
  | .addCondition path => [(Kind.comparison.word, path)]
  | .addConditionGroup path =>
    [(Kind.group.word, path), (Kind.comparison.word, Address.join [path, "condition", toString place])]
  | .changeConditionKind path kind =>
    match Kind.ofValue kind with
    | .ok .group => [(Kind.comparison.word, path)]
    | _ => []
  | .addBranch => [(Kind.comparison.word, Choice.rootPath)]
  | .changeBranchKind index kind =>
    match Kind.ofValue kind with
    | .ok .group => [(Kind.comparison.word, Choice.conditionPath index)]
    | _ => []
  | _ => []

end Edit

theorem Session.Twin.tree {b : Bond} {s s' : Session} (twin : Twin b s s') : s'.tree = s.tree := by
  rw [Session.tree, twin.document, Session.tree]

/-! ### Edits that label -/

namespace Labelling

variable {b : Bond} {c : Catalogue} {path path' : String} {kind : Kind}

theorem parallel_addChild (h : b.counted Kind.comparison.word path path') (g : Group) :
    Parallel b (g.addChild c path) (g.addChild c path') := by
  unfold Group.addChild
  refine (parallel_lift _).bind fun names => (parallel_next h _).bind fun label => ?_
  exact (parallel_lift _).bind fun child => parallel_pure _

theorem parallel_addChildGroup {g : Group} (h : b.counted Kind.group.word path path')
    (hg : b.counted Kind.comparison.word (g.nextChildPath path) (g.nextChildPath path')) :
    Parallel b (g.addChildGroup c path) (g.addChildGroup c path') := by
  unfold Group.addChildGroup
  refine (parallel_lift _).bind fun names => (parallel_next h _).bind fun label => ?_
  refine (parallel_children hg _ _).bind fun labels => ?_
  exact (parallel_lift _).bind fun child => parallel_pure _

theorem parallel_changeKind
    (hl : ∀ kind target carried,
      Label.afterChange path' kind target carried = Label.afterChange path kind target carried)
    (h : kind = .group → b.counted Kind.comparison.word path path') (condition : Node) :
    Parallel b (condition.changeKind c path kind) (condition.changeKind c path' kind) := by
  unfold Node.changeKind
  simp only [hl]
  refine (parallel_lift _).bind fun own => ?_
  split
  · exact parallel_pure _
  · split
    · exact (parallel_lift _).bind fun label => parallel_pure _
    · split
      · exact (parallel_lift _).bind fun name => (parallel_lift _).bind fun label => parallel_lift _
      · exact (parallel_lift _).bind fun label => parallel_lift _
    · refine (parallel_lift _).bind fun label => ?_
      split
      · refine (parallel_next (h rfl) _).bind fun sibling => ?_
        exact (parallel_lift _).bind fun added => parallel_pure _
      · exact (parallel_children (h rfl) _ _).bind fun hl => parallel_lift _
    · exact parallel_throw _

theorem parallel_addBranch (h : b.counted Kind.comparison.word Choice.rootPath Choice.rootPath) (choice : Choice) :
    Parallel b (choice.addBranch c) (choice.addBranch c) := by
  unfold Choice.addBranch
  refine (parallel_lift _).bind fun names => (parallel_next h _).bind fun label => ?_
  refine (parallel_lift _).bind fun condition => (parallel_lift _).bind fun type => ?_
  exact (parallel_lift _).bind fun result => parallel_pure _

theorem parallel_changeConditionKind {index : Int}
    (h : kind = .group → b.counted Kind.comparison.word (Choice.conditionPath index) (Choice.conditionPath index))
    (choice : Choice) :
    Parallel b (choice.changeConditionKind c index kind) (choice.changeConditionKind c index kind) := by
  unfold Choice.changeConditionKind
  refine (parallel_lift _).bind fun branch => ?_
  exact (parallel_changeKind (fun _ _ _ => rfl) h _).bind fun condition => parallel_lift _

end Labelling

/-! ### Rules -/

namespace Editing

variable {b : Bond}

theorem parallel_initial (form type : Value) : Parallel b (initial form type) (initial form type) := by
  intro s s' twin
  unfold initial
  refine paired_get ?_
  rw [twin.catalogue, twin.settings]
  split
  · exact paired_lift twin fun group made => parallel_pure _ s s' twin
  · exact paired_lift twin fun choice made => parallel_pure _ s s' twin
  · exact paired_lift twin fun literal made => parallel_pure _ s s' twin
  · exact ⟨.same _, twin⟩

theorem parallel_newRule (form type ruleType id description : Value) :
    Parallel b (newRule form type ruleType id description) (newRule form type ruleType id description) := by
  unfold newRule
  refine (parallel_reset _ _).then fun _ => (parallel_initial _ _).then fun made => ?_
  refine (parallel_lift _).then fun d => (parallel_modify fun _ _ twin => ?_).then fun _ => parallel_noteHere _ _
  exact { twin with document := rfl, level := twin.level_elsewhere rfl rfl rfl rfl rfl rfl }

theorem parallel_loadRule (d : Document) : Parallel b (loadRule d) (loadRule d) := by
  unfold loadRule
  refine (parallel_reset _ _).then fun _ => (parallel_modify fun _ _ twin => ?_).then fun _ => ?_
  · exact { twin with document := rfl, level := twin.level_elsewhere rfl rfl rfl rfl rfl rfl }
  · exact parallel_refreshWarnings.then fun _ => parallel_noteHere _ _

end Editing

/-! ### Edits of conditions -/

namespace Editing

variable {b : Bond} {s s' : Session} {path path' : String}

theorem parallel_replaceRemoved {steps : List Step} (hr : Address.steps path = .ok steps)
    (hr' : Address.steps path' = .ok steps) (ha : b.Agrees (.below path) (.below path')) :
    Parallel b (replaceRemoved path) (replaceRemoved path') := by
  intro s s' twin
  unfold replaceRemoved
  refine (parallel_invalidate ha).bind twin fun _ t t' twin => ?_
  rw [Label.positional_respelled hr hr']
  refine paired_lift twin fun label known => paired_get ?_
  rw [twin.catalogue]
  exact paired_lift twin fun condition made => parallel_put (hr'.trans hr.symm) _ t t' twin

theorem paired_removeBranchCondition {steps : List Step} {i : Nat} (twin : Twin b s s')
    (hr : Address.steps path = .ok steps) (hr' : Address.steps path' = .ok steps)
    (hw : b.Agrees (.below Choice.rootPath) (.below Choice.rootPath))
    (ha : b.Agrees (.below path) (.below path')) :
    Together b (removeBranchCondition path i) (removeBranchCondition path' i) s s' := by
  unfold removeBranchCondition
  refine paired_choice twin fun d c opened same => ?_
  split
  · refine (parallel_invalidate hw).bind twin fun _ t t' twin => ?_
    exact paired_lift twin fun c' removed => parallel_commit _ t t' twin
  · exact parallel_replaceRemoved hr hr' ha s s' twin

theorem removalTexts_inside {way : List Step} {step : Step} {above : String} {depth : Nat}
    (hr : Address.steps path = .ok (way ++ [step])) (hi : ∀ i, way ++ [step] ≠ [.condition i])
    (hu : Address.parent? path = .ok (some above)) :
    Address.removalTexts (depth + 1) path = above :: Address.removalTexts depth above := by
  rw [Address.removalTexts, hr]
  split
  · rename_i same
    exact absurd (Except.ok.inj same) (hi _)
  · rw [hu]

theorem paired_removeUp {steps : List Step} {depth : Nat} (twin : Twin b s s')
    (hr : Address.steps path = .ok steps) (hr' : Address.steps path' = .ok steps) (hl : steps.length = depth)
    (ha : List.Forall₂ (fun text text' => b.Agrees (.below text) (.below text'))
      (Address.removalTexts depth path) (Address.removalTexts depth path')) :
    Together b (removeUp depth path) (removeUp depth path') s s' := by
  induction depth generalizing path path' steps s s' with
  | zero => exact parallel_replaceRemoved hr hr' (List.forall₂_cons.mp ha).1 s s' twin
  | succ depth ih =>
      unfold removeUp
      refine paired_known hr hr' ?_
      split
      · rename_i i _
        simp only [Address.removalTexts, hr, hr'] at ha
        obtain ⟨whole, ha⟩ := List.forall₂_cons.mp ha
        exact paired_removeBranchCondition twin hr hr' whole (List.forall₂_cons.mp ha).1
      · rename_i none
        rw [List.getLast?_eq_none_iff] at none
        subst none
        cases hl
      · rename_i step inside last
        obtain ⟨way, rfl⟩ := List.getLast?_eq_some_iff.mp last
        obtain ⟨above, up, readAbove⟩ := Address.parent?_of_steps hr
        obtain ⟨above', up', readAbove'⟩ := Address.parent?_of_steps hr'
        have same := readAbove'.trans readAbove.symm
        refine paired_known up up' (paired_node twin same fun node leads => ?_)
        split
        · rw [removalTexts_inside hr inside up, removalTexts_inside hr' inside up'] at ha
          obtain ⟨here, ha⟩ := List.forall₂_cons.mp ha
          refine paired_invalidate twin here fun twin => paired_modify ?_
          have twin := twin.forgotten path path'
          split
          · exact ⟨.same _, twin⟩
          · refine paired_lift twin fun left removed => ?_
            split
            · exact parallel_put same _ _ _ twin
            · refine paired_note twin fun twin => ih twin readAbove readAbove' ?_ ha
              simpa using hl
        · exact ⟨.group (hr'.trans hr.symm), twin⟩

theorem parallel_renameCondition (h : Address.steps path' = Address.steps path) (name : Value) :
    Parallel b (renameCondition path name) (renameCondition path' name) := by
  intro s s' twin
  unfold renameCondition
  refine paired_node twin h fun node leads => paired_lift twin fun condition renamed => ?_
  obtain ⟨d, steps, opened, read, found⟩ := leads
  have read' := h.trans read
  cases last : steps.getLast? with
  | none =>
      have up {path : String} (read : Address.steps path = .ok steps) : Address.parent? path = .ok none := by
        rw [Address.parent?, read, ok_bind, last]
        rfl
      exact paired_known (up read) (up read') (parallel_put h condition s s' twin)
  | some step =>
      obtain ⟨way, rfl⟩ := List.getLast?_eq_some_iff.mp last
      obtain ⟨above, up, readAbove⟩ := Address.parent?_of_steps read
      obtain ⟨above', up', readAbove'⟩ := Address.parent?_of_steps read'
      have sameAbove := readAbove'.trans readAbove.symm
      refine paired_known up up' (paired_node twin sameAbove fun parent leads => ?_)
      split
      · refine paired_steps twin h fun steps _ => ?_
        split
        · exact paired_lift twin fun g updated => parallel_put sameAbove _ s s' twin
        · exact ⟨.same _, twin⟩
      · exact parallel_put h condition s s' twin

/-! ### Edits of expressions -/

theorem parallel_setExpression (hs : Address.steps path' = Address.steps path)
    (ha : b.Agrees (.below path) (.below path')) (e : Node) :
    Parallel b (setExpression path e) (setExpression path' e) := by
  unfold setExpression
  exact (parallel_invalidate ha).then fun _ => parallel_putExpression hs e

theorem parallel_operatorOr (operator : Value) (type : Except Fault Value) :
    Parallel b (operatorOr operator type) (operatorOr operator type) := by
  intro s s' twin
  unfold operatorOr
  split
  · exact parallel_pure _ s s' twin
  · refine paired_get ?_
    rw [twin.catalogue]
    exact paired_lift twin fun t known => paired_lift twin fun symbol joins => parallel_pure _ s s' twin

theorem parallel_insertOperand (hs : Address.steps path' = Address.steps path)
    (ha : b.Agrees (.below path) (.below path')) (after : Int) (operator : Value) :
    Parallel b (insertOperand path after operator) (insertOperand path' after operator) := by
  intro s s' twin
  unfold insertOperand
  refine paired_node twin hs fun e leads => (parallel_operatorOr _ _).bind twin fun operator t t' twin => ?_
  refine paired_lift twin fun c known => paired_get ?_
  rw [twin.numeric]
  refine paired_lift twin fun c made => (parallel_invalidate ha).bind twin fun _ t t' twin => ?_
  exact parallel_put hs _ t t' twin

theorem parallel_removeOperand (hs : Address.steps path' = Address.steps path)
    (ha : b.Agrees (.below path) (.below path')) (index : Int) :
    Parallel b (removeOperand path index) (removeOperand path' index) := by
  intro s s' twin
  unfold removeOperand
  refine (parallel_modify fun _ _ twin => twin.forgotten _ _).bind twin fun _ t t' twin => ?_
  refine paired_node twin hs fun e leads => paired_lift twin fun c known => paired_get ?_
  rw [twin.numeric]
  exact paired_lift twin fun new made => parallel_setExpression hs ha new _ _ twin

theorem parallel_clearReference (hs : Address.steps path' = Address.steps path)
    (ha : b.Agrees (.only path) (.only path')) (hb : b.Agrees (.below path) (.below path')) :
    Parallel b (clearReference path) (clearReference path') := by
  intro s s' twin
  unfold clearReference
  refine paired_issueToken twin ha fun twin => paired_node twin hs fun node leads => ?_
  obtain ⟨d, steps, opened, read, found⟩ := leads
  split
  · unfold Node.clearRule
    rw [Label.positional_respelled read (hs.trans read)]
    refine paired_lift twin fun new made => (parallel_put hs new).bind twin fun _ t t' twin => ?_
    exact parallel_noteHere _ _ t t' twin
  · refine (parallel_setExpression hs hb _).bind twin fun _ t t' twin => ?_
    exact parallel_noteHere _ _ t t' twin
  · exact ⟨.reference hs, twin⟩

end Editing

/-! ### All edits -/

theorem length_removalTexts {path path' : String} (h : Address.steps path' = Address.steps path) (depth : Nat) :
    (Address.removalTexts depth path').length = (Address.removalTexts depth path).length := by
  induction depth generalizing path path' with
  | zero => rfl
  | succ depth ih =>
      rw [Address.removalTexts, Address.removalTexts, h]
      split
      · rfl
      · cases read : Address.steps path with
        | error fault => rw [Address.parent?, Address.parent?, h, read]; rfl
        | ok steps =>
            rcases List.eq_nil_or_concat steps with rfl | ⟨way, step, rfl⟩
            · rw [Address.parent?, Address.parent?, h, read]; rfl
            · rw [List.concat_eq_append] at read
              obtain ⟨above, up, readAbove⟩ := Address.parent?_of_steps read
              obtain ⟨above', up', readAbove'⟩ := Address.parent?_of_steps (h.trans read)
              rw [up, up']
              exact congrArg (· + 1) (ih (readAbove'.trans readAbove.symm))

namespace Edit

variable {b : Bond} {s s' : Session} {spelling : String → String}

theorem length_marks (e : Edit) (h : ∀ path, Address.steps (spelling path) = Address.steps path) :
    (e.spelled spelling).marks.length = e.marks.length := by
  cases e with
  | removeCondition path =>
      simp only [spelled, marks, h]
      split
      · rw [List.length_map, List.length_map, length_removalTexts (h path)]
      · rfl
  | _ => rfl

/-- Labels of the same words are counted under two spellings of a path. -/
theorem counters_words (e : Edit) (spelling : String → String) (place : Nat) :
    List.Forall₂ (fun m m' => m'.1 = m.1) (e.counters place) ((e.spelled spelling).counters place) := by
  cases e with
  | addCondition path => exact .cons rfl .nil
  | addConditionGroup path => exact .cons rfl (.cons rfl .nil)
  | changeConditionKind path kind =>
      simp only [spelled, counters]
      split
      · exact .cons rfl .nil
      · exact .nil
  | changeBranchKind index kind => exact List.forall₂_same.mpr fun _ _ => rfl
  | addBranch => exact .cons rfl .nil
  | _ => exact .nil

/-- The texts of two spellings decide alike what an edit makes stale, and how it counts labels. -/
structure Decides (b : Bond) (e e' : Edit) : Prop where
  marks : List.Forall₂ b.Agrees e.marks e'.marks
  counters : ∀ place, List.Forall₂ (fun m m' => m'.1 = m.1 ∧ b.counted m.1 m.2 m'.2) (e.counters place)
    (e'.counters place)

theorem forall₂_below {texts texts' : List String}
    (h : List.Forall₂ b.Agrees (texts.map .below) (texts'.map .below)) :
    List.Forall₂ (fun text text' => b.Agrees (.below text) (.below text')) texts texts' := by
  rwa [List.forall₂_map_left_iff, List.forall₂_map_right_iff] at h

theorem paired_addConditionGroup {path path' : String} (twin : Twin b s s')
    (hs : Address.steps path' = Address.steps path)
    (decides : (addConditionGroup path).Decides b (.addConditionGroup path')) :
    Together b (Session.addConditionGroup path) (Session.addConditionGroup path') s s' := by
  unfold Session.addConditionGroup
  refine paired_node twin hs fun node leads => paired_lift twin fun g grouped => paired_get ?_
  obtain ⟨group, inside⟩ := List.forall₂_cons.mp (decides.counters g.children.length)
  have labels : Labelling.Parallel b (g.addChildGroup s.catalogue path) (g.addChildGroup s'.catalogue path') := by
    rw [twin.catalogue]
    exact Labelling.parallel_addChildGroup group.2 (List.forall₂_cons.mp inside).1.2
  exact (parallel_labelled labels).bind twin fun g' t t' twin => parallel_put hs _ t t' twin

/-- The labels of a group of conditions are counted under its own path. -/
theorem counted_of_group (path path' : String) {kind : Value} {known : Kind} {e e' : Edit}
    (hk : Kind.ofValue kind = .ok known) (decides : e.Decides b e')
    (h : Kind.ofValue kind = .ok .group → e.counters 0 = [(Kind.comparison.word, path)])
    (h' : Kind.ofValue kind = .ok .group → e'.counters 0 = [(Kind.comparison.word, path')]) (hg : known = .group) :
    b.counted Kind.comparison.word path path' := by
  have counters := decides.counters 0
  rw [h (hg ▸ hk), h' (hg ▸ hk)] at counters
  exact (List.forall₂_cons.mp counters).1.2

theorem paired_changeConditionKind {path path' : String} {kind : Value} (twin : Twin b s s')
    (hs : Address.steps path' = Address.steps path)
    (decides : (changeConditionKind path kind).Decides b (.changeConditionKind path' kind)) :
    Together b (Session.changeConditionKind path kind) (Session.changeConditionKind path' kind) s s' := by
  unfold Session.changeConditionKind
  refine paired_invalidate twin (List.forall₂_cons.mp decides.marks).1 fun twin => ?_
  refine paired_node twin hs fun condition leads => paired_lift twin fun known kinds => paired_get ?_
  obtain ⟨d, steps, opened, read, found⟩ := leads
  have counted := counted_of_group path path' kinds decides
    (fun group => by simp only [Edit.counters, group]) fun group => by simp only [Edit.counters, group]
  rw [twin.catalogue]
  refine (parallel_labelled (Labelling.parallel_changeKind ?_ counted condition)).bind twin fun new t t' twin => ?_
  · exact Label.afterChange_respelled read (hs.trans read)
  · exact parallel_put hs new t t' twin

theorem paired_changeBranchKind {index : Int} {kind : Value} (twin : Twin b s s')
    (decides : (changeBranchKind index kind).Decides b (.changeBranchKind index kind)) :
    Together b (Session.changeBranchKind index kind) (Session.changeBranchKind index kind) s s' := by
  unfold Session.changeBranchKind
  refine paired_invalidate twin (List.forall₂_cons.mp decides.marks).1 fun twin => ?_
  refine paired_choice twin fun d c opened same => paired_lift twin fun known kinds => paired_get ?_
  have counted := counted_of_group (Choice.conditionPath index) (Choice.conditionPath index) kinds decides
    (fun group => by simp only [Edit.counters, group]) fun group => by simp only [Edit.counters, group]
  rw [twin.catalogue]
  refine (parallel_labelled (Labelling.parallel_changeConditionKind counted c)).bind twin fun c' t t' twin => ?_
  exact parallel_commit _ t t' twin

theorem paired_removeCondition {path path' : String} (twin : Twin b s s')
    (hs : Address.steps path' = Address.steps path)
    (decides : (removeCondition path).Decides b (.removeCondition path')) :
    Together b (Session.removeCondition path) (Session.removeCondition path') s s' := by
  unfold Session.removeCondition
  refine paired_steps twin hs fun steps read => ?_
  have read' := hs.trans read
  have marks := decides.marks
  simp only [Edit.marks, read, read'] at marks
  exact paired_removeUp twin read read' rfl (forall₂_below marks)

/-- An edit ends alike under two spellings of its path. -/
theorem paired (e : Edit) (hs : ∀ path, Address.steps (spelling path) = Address.steps path) (twin : Twin b s s')
    (decides : e.Decides b (e.spelled spelling)) :
    Together b e.perform (e.spelled spelling).perform s s' := by
  cases e with
  | newRule form type ruleType id description => exact parallel_newRule form type ruleType id description s s' twin
  | loadRule d => exact parallel_loadRule d s s' twin
  -- the five edits that label
  | addCondition path =>
      refine paired_node twin (hs path) fun node leads => paired_lift twin fun g grouped => paired_get ?_
      rw [twin.catalogue]
      have counted := (List.forall₂_cons.mp (decides.counters 0)).1.2
      refine (parallel_labelled (Labelling.parallel_addChild counted g)).bind twin fun g' t t' twin => ?_
      exact parallel_put (hs path) _ t t' twin
  | addConditionGroup path => exact paired_addConditionGroup twin (hs path) decides
  | changeConditionKind path kind => exact paired_changeConditionKind twin (hs path) decides
  | addBranch =>
      refine paired_choice twin fun d c opened same => paired_get ?_
      rw [twin.catalogue]
      have counted := (List.forall₂_cons.mp (decides.counters 0)).1.2
      refine (parallel_labelled (Labelling.parallel_addBranch counted c)).bind twin fun c' t t' twin => ?_
      exact parallel_commit _ t t' twin
  | changeBranchKind index kind => exact paired_changeBranchKind twin decides
  -- all others
  | removeCondition path => exact paired_removeCondition twin (hs path) decides
  | renameCondition path name => exact parallel_renameCondition (hs path) name s s' twin
  | setConjunction path | toggleNegation path =>
      refine paired_node twin (hs path) fun node leads => paired_lift twin fun c known => ?_
      exact parallel_put (hs path) _ s s' twin
  | reorderConditions path | changeLeft path =>
      obtain ⟨agree, -⟩ := List.forall₂_cons.mp decides.marks
      refine paired_invalidate twin agree fun twin => paired_node twin (hs path) fun node leads => ?_
      refine paired_lift twin fun c known => paired_lift twin fun c' made => ?_
      exact parallel_put (hs path) _ _ _ twin
  | changeOperator path | removeRightOperand path =>
      obtain ⟨agree, -⟩ := List.forall₂_cons.mp decides.marks
      refine paired_invalidate twin agree fun twin => paired_node twin (hs path) fun node leads => ?_
      refine paired_lift twin fun c known => paired_get ?_
      rw [twin.catalogue]
      exact paired_lift twin fun c' made => parallel_put (hs path) _ _ _ twin
  | addRightOperand path =>
      refine paired_node twin (hs path) fun node leads => paired_lift twin fun c known => paired_get ?_
      rw [twin.catalogue]
      exact paired_lift twin fun c' made => parallel_put (hs path) _ _ _ twin
  | updateOperator path =>
      refine paired_node twin (hs path) fun node leads => paired_lift twin fun c known => paired_get ?_
      rw [twin.numeric]
      exact paired_lift twin fun c' made => parallel_put (hs path) _ _ _ twin
  | setExpression path e =>
      obtain ⟨agree, -⟩ := List.forall₂_cons.mp decides.marks
      exact parallel_setExpression (hs path) agree e s s' twin
  | changeSource path =>
      obtain ⟨agree, -⟩ := List.forall₂_cons.mp decides.marks
      refine paired_node twin (hs path) fun node leads => paired_get ?_
      rw [defaultField, defaultField, twin.catalogue, twin.settings]
      exact paired_lift twin fun e made => parallel_setExpression (hs path) agree e s s' twin
  | wrapExpression path =>
      obtain ⟨agree, -⟩ := List.forall₂_cons.mp decides.marks
      refine paired_node twin (hs path) fun node leads => ?_
      refine (parallel_operatorOr _ _).bind twin fun operator t t' twin => ?_
      refine paired_get ?_
      rw [twin.numeric]
      exact paired_lift twin fun c made => parallel_setExpression (hs path) agree _ t t' twin
  | insertOperand path after operator =>
      obtain ⟨agree, -⟩ := List.forall₂_cons.mp decides.marks
      exact parallel_insertOperand (hs path) agree after operator s s' twin
  | appendOperand path operator =>
      obtain ⟨agree, -⟩ := List.forall₂_cons.mp decides.marks
      refine paired_node twin (hs path) fun node leads => paired_lift twin fun c known => ?_
      exact parallel_insertOperand (hs path) agree _ operator s s' twin
  | removeOperand path index =>
      obtain ⟨agree, -⟩ := List.forall₂_cons.mp decides.marks
      exact parallel_removeOperand (hs path) agree index s s' twin
  | removeBranch =>
      obtain ⟨agree, -⟩ := List.forall₂_cons.mp decides.marks
      refine paired_invalidate twin agree fun twin => paired_choice twin fun d c opened same => ?_
      exact paired_lift twin fun c' removed => parallel_commit _ _ _ twin
  | setResultLabel =>
      refine paired_choice twin fun d c opened same => ?_
      exact paired_lift twin fun c' set => parallel_commit _ s s' twin
  | setOtherwiseLabel => exact paired_choice twin fun d c opened same => parallel_commit _ s s' twin
  | clearReference path =>
      obtain ⟨alone, rest⟩ := List.forall₂_cons.mp decides.marks
      exact parallel_clearReference (hs path) alone (List.forall₂_cons.mp rest).1 s s' twin

end Edit

end RuleEditor
