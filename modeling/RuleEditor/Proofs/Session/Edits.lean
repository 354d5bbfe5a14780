import RuleEditor.Proofs.Address.Steps
import RuleEditor.Proofs.Edit.Shapes
import RuleEditor.Proofs.Session.Moves

/-!
# Edits as moves

Every edit is a sequence of moves, whatever its arguments are and however it ends.
-/
namespace RuleEditor

namespace Node

variable {node : Node}

theorem eq_of_asGroup {g : Group} (h : node.asGroup = .ok g) : node = g.node := by
  cases node <;> cases h
  rfl

theorem eq_of_asComparison {c : Comparison} (h : node.asComparison = .ok c) : node = c.node := by
  cases node <;> cases h
  rfl

theorem eq_of_asChain {c : Chain} (h : node.asChain = .ok c) : node = c.node := by
  cases node <;> cases h
  rfl

theorem eq_of_chainAt {c : Chain} {index : Int} (h : node.chainAt index = .ok c) : node = c.node := by
  unfold chainAt at h
  split at h
  · cases h
  · exact eq_of_asChain h

end Node

namespace Session

open Editing

variable {sc : Scope} {s s' : Session} {mark : Mark} {path : String} {new : Node}

/-! ### Edits that fail -/

/-- What a session shows of its rule is as before, or the rule is one of which no warnings can be told. -/
def Spares (s s' : Session) : Prop :=
  (s'.document = s.document ∧ s'.warnings = s.warnings) ∨ ∃ d fault, s'.document = some d ∧ d.warnings = .error fault

/-- How an edit leaves the session when it fails. -/
structure Fails (sc : Scope) (s s' : Session) : Prop where
  moves : Moves sc s s'
  spares : s.Spares s'

theorem Fails.refl : Fails sc s s := ⟨.refl, .inl ⟨rfl, rfl⟩⟩

theorem Aside.fails (h : Aside mark s s') : Fails sc s s' := ⟨h.moves, .inl ⟨h.document, h.warnings⟩⟩

theorem Fails.after {s'' : Session} (aside : Aside mark s s') (h : Fails sc s' s'') : Fails sc s s'' := by
  refine ⟨aside.moves.trans h.moves, ?_⟩
  rcases h.spares with ⟨document, warnings⟩ | untold
  · exact .inl ⟨document.trans aside.document, warnings.trans aside.warnings⟩
  · exact .inr untold

/-- An edit that has put a tree in place fails only if no warnings can be told of it. -/
theorem fails_committed {d : Document} {tree : Node} {fault : Fault} (hm : Moves sc s (s'.committed d tree))
    (hu : Document.warnings { d with definition := tree } = .error fault) : Fails sc s (s'.committed d tree) :=
  ⟨hm, .inr ⟨_, fault, rfl, hu⟩⟩

/-! ### Nodes in place -/

/-- A path leads to one node only. -/
theorem LeadsTo.unique {node node' : Node} (h : s.LeadsTo path node) (h' : s.LeadsTo path node') : node = node' := by
  obtain ⟨d, steps, opened, read, found⟩ := h
  obtain ⟨d', steps', opened', read', found'⟩ := h'
  cases opened.symm.trans opened'
  cases read.symm.trans read'
  exact Except.ok.inj (found.symm.trans found')

/-- What becomes of the node that a path leads to becomes of any node that it leads to. -/
theorem LeadsTo.rewrites {catalogue : Catalogue} {numeric : List String} {old : Node}
    (hl : s.LeadsTo path old) (rewrite : Rewrite sc catalogue numeric path mark old new) :
    ∀ node, s.LeadsTo path node → Rewrite sc catalogue numeric path mark node new := by
  intro node leads'
  cases hl.unique leads'
  exact rewrite

/-- The set-up and the rule are as before, so a rewriting in the one session is one in the other. -/
theorem Aside.place (hs : Aside mark s s') (here : sc.here path)
    (hr : ∀ old, s'.LeadsTo path old → Rewrite sc s.catalogue s.numeric path mark old new)
    {d : Document} {steps : List Step} {old tree : Node} (ho : s'.document = some d)
    (he : Address.steps path = .ok steps) (hf : d.definition.find steps = .ok old)
    (placed : Placed s'.numeric new steps d.definition tree) : Moves sc s (s'.committed d tree) := by
  rw [hs.numeric] at placed
  exact .single (.place hs here (hs.document ▸ ho) he hf
    (hr old ⟨d, steps, ho, he, hf⟩) placed)

theorem put_moves (hs : Aside mark s s') (here : sc.here path)
    (hr : ∀ old, s'.LeadsTo path old → Rewrite sc s.catalogue s.numeric path mark old new) :
    Ends (put path new) s' (fun _ => Moves sc s) (fun _ => Fails sc s) := by
  refine ends_put (fun _ => hs.fails) fun d steps old tree opened read found placed => ?_
  have moved := hs.place here hr opened read found placed
  exact ⟨moved, fun _ => fails_committed moved⟩

theorem putExpression_moves (hs : Aside mark s s') (here : sc.here path)
    (hr : ∀ old, s'.LeadsTo path old → Rewrite sc s.catalogue s.numeric path mark old new) :
    Ends (putExpression path new) s' (fun _ => Moves sc s) (fun _ => Fails sc s) := by
  refine ends_putExpression (fun _ => hs.fails) fun d steps old tree opened read found placed => ?_
  have moved := hs.place here hr opened read found placed
  exact ⟨moved, fun _ => fails_committed moved⟩

theorem commit_moves {d : Document} {c c' : Choice} (hs : Aside mark s s') (ho : s'.document = some d)
    (ha : d.definition = c.node) (recast : Recast sc s.catalogue mark c c') (may : sc.may .recast) :
    Ends (commit c'.node) s' (fun _ => Moves sc s) (fun _ => Fails sc s) := by
  refine ends_commit (fun _ => hs.fails) fun d' opened' => ?_
  cases ho.symm.trans opened'
  have moved : Moves sc s (s'.committed d c'.node) :=
    .single (.recast hs (hs.document ▸ ho) ha recast may)
  exact ⟨moved, fun _ => fails_committed moved⟩

/-! ### Conditions -/

theorem changeConditionKind_moves (here : sc.here path) (kind : Value) :
    Ends (changeConditionKind path kind) s (fun _ => Moves sc s) (fun _ => Fails sc s) := by
  unfold changeConditionKind
  have start := Aside.invalidated path s
  refine bind_invalidate (bind_node (fun _ => start.fails) fun condition leads => ?_)
  refine bind_lift (fun _ => start.fails) fun kind known => bind_get ?_
  refine bind_labelled (fun _ n => (start.also n _ _).fails) fun new n made => ?_
  exact put_moves (start.also n _ _) here (leads.rewrites (.kindChanged made))

theorem addCondition_moves (here : sc.here path) :
    Ends (addCondition path) s (fun _ => Moves sc s) (fun _ => Fails sc s) := by
  unfold addCondition
  have start := Aside.refl s
  refine bind_node (fun _ => start.fails) fun node leads => bind_lift (fun _ => start.fails) fun g same => ?_
  refine bind_get (bind_labelled (fun _ n => (start.also n _ _).fails) fun g' n made => ?_)
  cases Node.eq_of_asGroup same
  exact put_moves (start.also n _ _) here (leads.rewrites (.childAdded made))

theorem addConditionGroup_moves (here : sc.here path) :
    Ends (addConditionGroup path) s (fun _ => Moves sc s) (fun _ => Fails sc s) := by
  unfold addConditionGroup
  have start := Aside.refl s
  refine bind_node (fun _ => start.fails) fun node leads => bind_lift (fun _ => start.fails) fun g same => ?_
  refine bind_get (bind_labelled (fun _ n => (start.also n _ _).fails) fun g' n made => ?_)
  cases Node.eq_of_asGroup same
  exact put_moves (start.also n _ _) here (leads.rewrites (.groupAdded made))

theorem replaceRemoved_moves (here : sc.here path) (hc : ∀ old, s.LeadsTo path old → sc.dares (.clear old)) :
    Ends (replaceRemoved path) s (fun _ => Moves sc s) (fun _ => Fails sc s) := by
  unfold replaceRemoved
  have start := Aside.invalidated path s
  refine bind_invalidate (bind_lift (fun _ => start.fails) fun label _ => bind_get ?_)
  refine bind_lift (fun _ => start.fails) fun condition made => ?_
  exact put_moves start here fun old leads => .emptied made (hc old leads)

theorem removeBranchCondition_moves (here : sc.here path) (may : sc.may .recast)
    (hc : ∀ old, s.LeadsTo path old → sc.dares (.clear old))
    (hd : ∀ c : Choice, c.branches ≠ [] → sc.dares (.drop c)) (i : Nat) :
    Ends (removeBranchCondition path i) s (fun _ => Moves sc s) (fun _ => Fails sc s) := by
  unfold removeBranchCondition
  refine bind_choice (fun _ => .refl) fun d c opened same => ?_
  split
  · rename_i others
    have start := Aside.invalidated Choice.rootPath s
    refine bind_invalidate (bind_lift (fun _ => start.fails) fun c' removed => ?_)
    have drop := hd c' (Choice.branches_of_removeBranch others removed)
    exact commit_moves start opened same (.removed removed drop) may
  · exact replaceRemoved_moves here hc

/-- The path leads to a whole definition or to the condition of a branch. -/
def Topmost (path : String) : Prop :=
  ∃ steps, Address.steps path = .ok steps ∧ (steps = [] ∨ ∃ i, steps = [.condition i])

theorem removeUp_moves (upward : sc.Upward) (here : sc.here path) (may : sc.may .recast) (depth : Nat)
    (hc : ∀ old, s.LeadsTo path old → depth = 0 ∨ Topmost path → sc.dares (.clear old))
    (hg : ∀ g : Group, sc.dares (.clear g.node)) (hd : ∀ c : Choice, c.branches ≠ [] → sc.dares (.drop c)) :
    Ends (removeUp depth path) s (fun _ => Moves sc s) (fun _ => Fails sc s) := by
  induction depth generalizing s path with
  | zero => exact replaceRemoved_moves here fun old leads => hc old leads (.inl rfl)
  | succ depth ih =>
      unfold removeUp
      refine bind_lift (fun _ => .refl) fun steps read => ?_
      split
      · rename_i _ i
        have topmost : Topmost path := ⟨_, read, .inr ⟨i, rfl⟩⟩
        exact removeBranchCondition_moves here may (fun old leads => hc old leads (.inr topmost)) hd _
      · rename_i none
        have topmost : Topmost path := ⟨_, read, .inl (List.getLast?_eq_none_iff.mp none)⟩
        exact replaceRemoved_moves here fun old leads => hc old leads (.inr topmost)
      · rename_i step _ last
        refine bind_lift (fun _ => .refl) fun parent above => ?_
        have named : sc.here (parent.getD "") := by
          simp only [Address.parent?, read, ok_bind, last, pure_eq_ok, Except.ok.injEq] at above
          subst above
          exact upward path _ here (by simp only [Address.parent?, read, ok_bind, last, pure_eq_ok, Option.getD_some])
        refine bind_node (fun _ => .refl) fun node leads => ?_
        split
        · rename_i name children conjunction negated
          have start := (Aside.invalidated (parent.getD "") s).also s.numbering (s.expansion.forget path) s.journal
          refine bind_invalidate (bind_modify ?_)
          split
          · exact ends_throw start.fails
          · rename_i i _
            refine bind_lift (fun _ => start.fails) fun group removed => ?_
            split
            · rename_i g'
              refine put_moves start named ?_
              exact leads.rewrites (.childRemoved (g := ⟨name, children, conjunction, negated⟩) removed)
            · refine bind_note ?_
              have noted := start.also s.numbering (s.expansion.forget path)
                (s.journal ++ [⟨.debug, "Removing emptied condition group", [("path", .text (parent.getD ""))]⟩])
              refine (ih named fun old leads' _ => ?_).mono (fun _ _ => noted.moves.trans) (fun _ _ => .after noted)
              cases LeadsTo.unique leads leads'
              exact hg ⟨name, children, conjunction, negated⟩
        · exact ends_throw .refl

theorem removeCondition_moves (upward : sc.Upward) (here : sc.here path) (may : sc.may .recast)
    (hc : ∀ old, s.LeadsTo path old → Topmost path → sc.dares (.clear old))
    (hg : ∀ g : Group, sc.dares (.clear g.node)) (hd : ∀ c : Choice, c.branches ≠ [] → sc.dares (.drop c)) :
    Ends (removeCondition path) s (fun _ => Moves sc s) (fun _ => Fails sc s) := by
  unfold removeCondition
  refine bind_lift (fun _ => .refl) fun steps read => removeUp_moves upward here may steps.length ?_ hg hd
  rintro old leads (none | topmost)
  · exact hc old leads ⟨steps, read, .inl (List.length_eq_zero_iff.mp none)⟩
  · exact hc old leads topmost

/-- Below a path that leads to a group stands a child of the group. -/
theorem child_of_leadsTo {parent : String} {steps : List Step} {i : Nat} {g : Group} {child : Node}
    (hb : s.LeadsTo path child) (hu : Address.parent? path = .ok (some parent)) (ha : s.LeadsTo parent g.node)
    (hr : Address.steps path = .ok steps) (hl : steps.getLast?.bind Step.index? = some i) :
    g.children[i]? = some child := by
  obtain ⟨d, _, opened, read', found⟩ := hb
  cases hr.symm.trans read'
  obtain ⟨before, step, rfl, readParent⟩ := Address.steps_parent hr hu
  obtain ⟨d', _, opened', readParent', found'⟩ := ha
  cases opened.symm.trans opened'
  cases readParent.symm.trans readParent'
  rw [Node.find_append, found', ok_bind] at found
  obtain ⟨node, stands, rest⟩ := bind_eq_ok.mp found
  cases rest
  rw [List.getLast?_concat, Option.bind_some] at hl
  cases step <;> simp only [Step.index?, Option.some.injEq, reduceCtorEq] at hl <;>
    simp only [Group.node, Node.child, reduceCtorEq] at stands
  subst hl
  exact Node.item_eq_ok.mp stands

theorem renameCondition_moves (upward : sc.Upward) (here : sc.here path) (name : Value) :
    Ends (renameCondition path name) s (fun _ => Moves sc s) (fun _ => Fails sc s) := by
  unfold renameCondition
  have start := Aside.refl s
  refine bind_node (fun _ => .refl) fun child leads => bind_lift (fun _ => .refl) fun child' renamed => ?_
  have alone : Ends (put path child') s (fun _ => Moves sc s) (fun _ => Fails sc s) :=
    put_moves start here (leads.rewrites (.renamed renamed))
  refine bind_lift (fun _ => .refl) fun parent? up => ?_
  cases parent? with
  | none => exact alone
  | some parent =>
      refine bind_node (fun _ => .refl) fun node above => ?_
      split
      · rename_i groupName children conjunction negated
        refine bind_lift (fun _ => .refl) fun steps read => ?_
        split
        · rename_i i last
          refine bind_lift (fun _ => .refl) fun g' updated => ?_
          refine put_moves start (upward _ _ here up) fun old above' => ?_
          cases above.unique above'
          have stands := child_of_leadsTo (g := ⟨groupName, children, conjunction, negated⟩) leads up above read last
          exact .childRenamed (g := ⟨groupName, children, conjunction, negated⟩) stands renamed updated
        · exact ends_throw .refl
      · exact alone

theorem setConjunction_moves (here : sc.here path) (conjunction : Value) :
    Ends (setConjunction path conjunction) s (fun _ => Moves sc s) (fun _ => Fails sc s) := by
  unfold setConjunction
  refine bind_node (fun _ => .refl) fun node leads => bind_lift (fun _ => .refl) fun new set => ?_
  exact put_moves (.refl s) here (leads.rewrites (.conjunctionSet set))

theorem toggleNegation_moves (here : sc.here path) :
    Ends (toggleNegation path) s (fun _ => Moves sc s) (fun _ => Fails sc s) := by
  unfold toggleNegation
  refine bind_node (fun _ => .refl) fun node leads => bind_lift (fun _ => .refl) fun g same => ?_
  cases Node.eq_of_asGroup same
  exact put_moves (.refl s) here (leads.rewrites (.negationToggled))

theorem reorderConditions_moves (here : sc.here path) (source destination : Int) :
    Ends (reorderConditions path source destination) s (fun _ => Moves sc s) (fun _ => Fails sc s) := by
  unfold reorderConditions
  have start := Aside.invalidated path s
  refine bind_invalidate (bind_node (fun _ => start.fails) fun node leads => ?_)
  refine bind_lift (fun _ => start.fails) fun g same => bind_lift (fun _ => start.fails) fun g' moved => ?_
  cases Node.eq_of_asGroup same
  exact put_moves start here (leads.rewrites (.reordered moved))

/-! ### Comparisons -/

theorem changeOperator_moves (here : sc.here path) (operator : Value) :
    Ends (changeOperator path operator) s (fun _ => Moves sc s) (fun _ => Fails sc s) := by
  unfold changeOperator
  have start := Aside.invalidated (path ++ "-right") s
  refine bind_invalidate (bind_node (fun _ => start.fails) fun node leads => ?_)
  refine bind_lift (fun _ => start.fails) fun c same => bind_get (bind_lift (fun _ => start.fails) fun c' changed => ?_)
  cases Node.eq_of_asComparison same
  exact put_moves start here (leads.rewrites (.operatorChanged changed))

theorem changeLeft_moves (here : sc.here path) {left : Node} (given : sc.given left)
    (hl : ∀ c : Comparison, s.LeadsTo path c.node → sc.dares (.lead c left)) :
    Ends (changeLeft path left) s (fun _ => Moves sc s) (fun _ => Fails sc s) := by
  unfold changeLeft
  have start := Aside.invalidated (path ++ "-left") s
  refine bind_invalidate (bind_node (fun _ => start.fails) fun node leads => ?_)
  refine bind_lift (fun _ => start.fails) fun c same => bind_lift (fun _ => start.fails) fun c' changed => ?_
  cases Node.eq_of_asComparison same
  exact put_moves start here (leads.rewrites (.leftChanged given changed (hl c leads)))

theorem addRightOperand_moves (here : sc.here path) :
    Ends (addRightOperand path) s (fun _ => Moves sc s) (fun _ => Fails sc s) := by
  unfold addRightOperand
  refine bind_node (fun _ => .refl) fun node leads => bind_lift (fun _ => .refl) fun c same => ?_
  refine bind_get (bind_lift (fun _ => .refl) fun c' added => ?_)
  cases Node.eq_of_asComparison same
  exact put_moves (.refl s) here (leads.rewrites (.rightAdded added))

theorem removeRightOperand_moves (here : sc.here path) (index : Int) :
    Ends (removeRightOperand path index) s (fun _ => Moves sc s) (fun _ => Fails sc s) := by
  unfold removeRightOperand
  have start := Aside.invalidated (path ++ "-right") s
  refine bind_invalidate (bind_node (fun _ => start.fails) fun node leads => ?_)
  refine bind_lift (fun _ => start.fails) fun c same => bind_get (bind_lift (fun _ => start.fails) fun c' removed => ?_)
  cases Node.eq_of_asComparison same
  exact put_moves start here (leads.rewrites (.rightRemoved removed))

/-! ### Expressions -/

theorem setExpression_moves (here : sc.here path)
    (hr : ∀ old, s.LeadsTo path old → Rewrite sc s.catalogue s.numeric path (.below path) old new) :
    Ends (setExpression path new) s (fun _ => Moves sc s) (fun _ => Fails sc s) := by
  unfold setExpression
  exact bind_invalidate (putExpression_moves (.invalidated path s) here hr)

theorem changeSource_moves (here : sc.here path) (hf : ∀ old, s.LeadsTo path old → sc.dares (.fill old))
    (source : String) :
    Ends (changeSource path source) s (fun _ => Moves sc s) (fun _ => Fails sc s) := by
  unfold changeSource
  refine bind_node (fun _ => .refl) fun node leads => bind_get (bind_lift (fun _ => .refl) fun new changed => ?_)
  exact setExpression_moves here (leads.rewrites (.sourceChanged changed (hf node leads)))

/-- Looking up an operator changes nothing. -/
theorem bind_operatorOr {β : Type} {operator : Value} {type : Except Fault Value} {f : Value → Editing β}
    {Q : β → Session → Prop} {E : Fault → Session → Prop} (hb : ∀ fault, E fault s)
    (hg : ∀ used, used = operator ∨ (∃ word, used = .text word) → Ends (f used) s Q E) :
    Ends (operatorOr operator type >>= f) s Q E := by
  refine ends_bind ?_
  unfold operatorOr
  split
  · exact ends_pure (hg operator (.inl rfl))
  · refine bind_get (bind_lift hb fun type _ => bind_lift hb fun joining _ => ends_pure (hg _ ?_))
    exact .inr ⟨joining, rfl⟩

theorem wrapExpression_moves (here : sc.here path) (hf : ∀ old, s.LeadsTo path old → sc.dares (.fill old))
    {operator : Value} (hj : ∀ used, used = operator ∨ (∃ word, used = .text word) → sc.dares (.join used)) :
    Ends (wrapExpression path operator) s (fun _ => Moves sc s) (fun _ => Fails sc s) := by
  unfold wrapExpression
  refine bind_node (fun _ => .refl) fun node leads => bind_operatorOr (fun _ => .refl) fun used known => ?_
  refine bind_get (bind_lift (fun _ => .refl) fun c wrapped => ?_)
  exact setExpression_moves here (leads.rewrites (.wrapped wrapped (hf node leads) (hj used known)))

theorem insertOperand_moves (here : sc.here path) (after : Int) {operator : Value}
    (hj : ∀ used, used = operator ∨ (∃ word, used = .text word) → sc.dares (.join used)) :
    Ends (insertOperand path after operator) s (fun _ => Moves sc s) (fun _ => Fails sc s) := by
  unfold insertOperand
  refine bind_node (fun _ => .refl) fun node leads => bind_operatorOr (fun _ => .refl) fun used known => ?_
  refine bind_lift (fun _ => .refl) fun c same => bind_get (bind_lift (fun _ => .refl) fun c' inserted => ?_)
  cases Node.eq_of_chainAt same
  refine bind_invalidate (put_moves (.invalidated path s) here ?_)
  exact leads.rewrites (.operandInserted inserted (hj used known))

theorem appendOperand_moves (here : sc.here path) {operator : Value}
    (hj : ∀ used, used = operator ∨ (∃ word, used = .text word) → sc.dares (.join used)) :
    Ends (appendOperand path operator) s (fun _ => Moves sc s) (fun _ => Fails sc s) := by
  unfold appendOperand
  refine bind_node (fun _ => .refl) fun node leads => bind_lift (fun _ => .refl) fun c same => ?_
  exact insertOperand_moves here _ hj

theorem removeOperand_moves (here : sc.here path) (index : Int) :
    Ends (removeOperand path index) s (fun _ => Moves sc s) (fun _ => Fails sc s) := by
  unfold removeOperand
  refine bind_modify ?_
  have start := (Aside.refl s).also s.numbering (s.expansion.forget s!"{path}-operand-{index}") s.journal
  refine bind_node (fun _ => start.fails) fun node leads => bind_lift (fun _ => start.fails) fun c same => ?_
  refine bind_get (bind_lift (fun _ => start.fails) fun new removed => ?_)
  cases Node.eq_of_chainAt same
  have reduced := setExpression_moves here (leads.rewrites (.operandRemoved removed))
  exact reduced.mono (fun _ _ => start.moves.trans) (fun _ _ => .after start)

theorem updateOperator_moves (here : sc.here path) (index : Int) {operator : Value} (hj : sc.dares (.join operator)) :
    Ends (updateOperator path index operator) s (fun _ => Moves sc s) (fun _ => Fails sc s) := by
  unfold updateOperator
  refine bind_node (fun _ => .refl) fun node leads => bind_lift (fun _ => .refl) fun c same => ?_
  refine bind_get (bind_lift (fun _ => .refl) fun c' updated => ?_)
  cases Node.eq_of_asChain same
  exact put_moves (.refl s) here (leads.rewrites (.operatorUpdated updated hj))

/-! ### Choices -/

theorem addBranch_moves (may : sc.may .recast) : Ends addBranch s (fun _ => Moves sc s) (fun _ => Fails sc s) := by
  unfold addBranch
  refine bind_choice (fun _ => .refl) fun d c opened same => bind_get ?_
  have start := Aside.refl s
  refine bind_labelled (fun _ n => (start.also n _ _).fails) fun c' n added => ?_
  exact commit_moves (start.also n _ _) opened same (.added added) may

theorem removeBranch_moves (may : sc.may .recast) {index : Int} (hd : ∀ d c c', s.document = some d →
    d.definition = Choice.node c → Choice.removeBranch index c = .ok c' → sc.dares (.drop c')) :
    Ends (removeBranch index) s (fun _ => Moves sc s) (fun _ => Fails sc s) := by
  unfold removeBranch
  have start := Aside.invalidated Choice.rootPath s
  refine bind_invalidate (bind_choice (fun _ => start.fails) fun d c opened same => ?_)
  refine bind_lift (fun _ => start.fails) fun c' removed => ?_
  exact commit_moves start opened same (.removed removed (hd d c c' opened same removed)) may

theorem changeBranchKind_moves {index : Int} {kind : Value} (may : sc.may .recast)
    (ht : ∀ d c k, s.document = some d → d.definition = c.node → Kind.ofValue kind = .ok k → sc.turned c index k) :
    Ends (changeBranchKind index kind) s (fun _ => Moves sc s) (fun _ => Fails sc s) := by
  unfold changeBranchKind
  have start := Aside.invalidated (Choice.conditionPath index) s
  refine bind_invalidate (bind_choice (fun _ => start.fails) fun d c opened same => ?_)
  refine bind_lift (fun _ => start.fails) fun k known => bind_get ?_
  refine bind_labelled (fun _ n => (start.also n _ _).fails) fun c' n changed => ?_
  exact commit_moves (start.also n _ _) opened same (.kindChanged (ht d c k opened same known) changed) may

theorem setResultLabel_moves (may : sc.may .recast) (index : Int) (text : Value) :
    Ends (setResultLabel index text) s (fun _ => Moves sc s) (fun _ => Fails sc s) := by
  unfold setResultLabel
  refine bind_choice (fun _ => .refl) fun d c opened same => bind_lift (fun _ => .refl) fun c' labelled => ?_
  exact commit_moves (.refl s) opened same (.resultLabelled labelled) may

theorem setOtherwiseLabel_moves (may : sc.may .recast) (text : Value) :
    Ends (setOtherwiseLabel text) s (fun _ => Moves sc s) (fun _ => Fails sc s) := by
  unfold setOtherwiseLabel
  exact bind_choice (fun _ => .refl) fun d c opened same => commit_moves (.refl s) opened same .otherwiseLabelled may

/-! ### References -/

theorem note_moves {e : Event} {E : Fault → Session → Prop} (h : Moves sc s s') :
    Ends (note e) s' (fun _ => Moves sc s) E :=
  ends_modify (h.tail (.aside ((Aside.refl s').also _ _ (s'.journal ++ [e]))))

theorem noteHere_moves {e : Event} {E : Fault → Session → Prop} (h : Moves sc s s') :
    Ends (noteHere e) s' (fun _ => Moves sc s) E :=
  ends_modify (h.tail (.aside ((Aside.refl s').also _ _ (s'.journal ++ [e.within [("session_id", .text s'.id)]]))))

theorem clearReference_moves (here : sc.here path) :
    Ends (clearReference path) s (fun _ => Moves sc s) (fun _ => Fails sc s) := by
  unfold clearReference
  have start := Aside.issued path s
  refine bind_issueToken (bind_node (fun _ => start.fails) fun node leads => ?_)
  split
  · rename_i name target
    refine bind_lift (fun _ => start.fails) fun new cleared => ends_bind ?_
    have emptied : Ends (put path new) (s.issued path) (fun _ => Moves sc s) (fun _ => Fails sc s) :=
      put_moves start here (leads.rewrites (.checkCleared cleared))
    exact emptied.mono (fun _ _ => noteHere_moves) (fun _ _ failed => failed)
  · rename_i target
    have emptied := setExpression_moves here (leads.rewrites .referenceCleared)
    exact ends_bind (emptied.mono (fun _ _ moved => noteHere_moves (start.moves.trans moved)) (fun _ _ => .after start))
  · exact ends_bind (ends_throw start.fails)

/-! ### Starting and loading rules -/

theorem bind_reset {β : Type} {form : Option Form} {isNew : Bool} {f : Unit → Editing β}
    {Q : β → Session → Prop} {E : Fault → Session → Prop} (h : Ends (f ()) (s.restarted form isNew) Q E) :
    Ends (reset form isNew >>= f) s Q E := ends_bind h

/-- What a new rule starts with does not depend on the rule before, and is looked up only. -/
theorem bind_initial {β : Type} {form type : Value} {f : Node × Value → Editing β} {Q : β → Session → Prop}
    {E : Fault → Session → Prop} (hb : ∀ fault, E fault s)
    (hg : ∀ start, ((initial form type).run s).1 = .ok start → Ends (f start) s Q E) :
    Ends (initial form type >>= f) s Q E := by
  refine ends_bind ?_
  have same : Ends (initial form type) s (fun _ s' => s' = s) (fun _ s' => s' = s) := by
    unfold initial
    refine bind_get ?_
    split
    · exact bind_lift (fun _ => rfl) fun _ _ => ends_pure rfl
    · exact bind_lift (fun _ => rfl) fun _ _ => ends_pure rfl
    · exact bind_lift (fun _ => rfl) fun _ _ => ends_pure rfl
    · exact ends_throw rfl
  have kept := same.after
  simp only [Ends, kept]
  cases result : ((initial form type).run s).1 with
  | ok start => exact hg start result
  | error fault => exact hb fault

/-- A document that is made has the form, the type and the definition that it is made of. -/
theorem make_eq_ok {form type ruleType uuid version id description : Value} {node : Node} {d : Document}
    (h : Document.make form type node ruleType uuid version id description = .ok d) :
    Form.ofValue? form = some d.form ∧ d.type.isMissing = false ∧ d.type = type ∧ d.definition = node := by
  unfold Document.make at h
  split at h
  · cases h
  · rename_i known
    split at h
    · cases h
    · rename_i present
      cases h
      exact ⟨known, eq_false_of_ne_true present, rfl, rfl⟩

/-- A new rule is taken up, or the rule before it is put away at least. -/
theorem newRule_ends {E : Fault → Session → Prop} (may : sc.may .takeUp) (form type ruleType id description : Value)
    (hb : ∀ fault, E fault (s.restarted (Form.ofValue? form) true)) :
    Ends (newRule form type ruleType id description) s (fun _ s' => Moves sc s s' ∧ s.epoch < s'.epoch) E := by
  unfold newRule
  refine bind_reset (bind_initial hb fun start started => bind_lift hb fun d made => bind_modify ?_)
  obtain ⟨known, present, sameType, sameNode⟩ := make_eq_ok made
  have same : start = (d.definition, d.type) := by rw [sameNode, sameType]
  subst same
  have taken : Moves sc s { s.restarted (Form.ofValue? form) true with document := some d } :=
    .single (.create started may known present)
  exact ends_modify ⟨taken.tail (.aside ((Aside.refl _).also _ _ _)), Nat.lt_succ_self _⟩

theorem newRule_moves (may : sc.may .takeUp) (form type ruleType id description : Value)
    (ha : ∀ fault, ((newRule form type ruleType id description).run s).1 = .error fault → sc.dares .abandon) :
    Ends (newRule form type ruleType id description) s
      (fun _ s' => Moves sc s s' ∧ s.epoch < s'.epoch) (fun _ s' => Moves sc s s' ∧ s.epoch < s'.epoch) := by
  cases result : ((newRule form type ruleType id description).run s).1 with
  | ok done =>
      have ends : Ends (newRule form type ruleType id description) s (fun _ s' => Moves sc s s' ∧ s.epoch < s'.epoch)
          (fun _ _ => True) := newRule_ends may form type ruleType id description fun _ => trivial
      have taken := ends.ok result
      simpa only [Ends, result] using taken
  | error fault =>
      refine newRule_ends may form type ruleType id description fun _ => ⟨?_, Nat.lt_succ_self _⟩
      exact .single (.restart may (ha fault result))

theorem loadRule_moves {d : Document} (may : sc.may .takeUp) (given : sc.given d.definition)
    (hl : sc.dares (.load d)) :
    Ends (loadRule d) s (fun _ s' => Moves sc s s' ∧ s.epoch < s'.epoch ∧ s'.document = some d)
      (fun _ s' => Moves sc s s' ∧ s.epoch < s'.epoch ∧ s'.document = some d ∧ ∃ fault, d.warnings = .error fault) := by
  unfold loadRule
  have later : s.epoch < s.epoch + 1 := Nat.lt_succ_self _
  have taken (warnings : Members (List Warning)) (told : ∀ told, d.warnings = .ok told → warnings = told) :
      Moves sc s { s.restarted (some d.form) false with document := some d, warnings } :=
    .single (.load given may hl told)
  refine bind_reset (bind_modify (bind_refreshWarnings rfl (fun fault failed => ?_) fun warnings told => ?_))
  · exact ⟨taken [] fun _ told => (by cases failed.symm.trans told), later, rfl, fault, failed⟩
  · have loaded := taken warnings fun _ told' => Except.ok.inj (told.symm.trans told')
    exact ends_modify ⟨loaded.tail (.aside ((Aside.refl _).also _ _ _)), later, rfl⟩

end Session

/-! ### All edits -/

namespace Edit

/-- The path that an edit names. -/
def path? : Edit → Option String
  | .changeConditionKind path _ | .addCondition path | .addConditionGroup path | .removeCondition path
  | .renameCondition path _ | .setConjunction path _ | .toggleNegation path | .reorderConditions path _ _
  | .changeOperator path _ | .changeLeft path _ | .addRightOperand path | .removeRightOperand path _
  | .setExpression path _ | .changeSource path _ | .wrapExpression path _ | .insertOperand path _ _
  | .appendOperand path _ | .removeOperand path _ | .updateOperator path _ _ | .clearReference path => some path
  | .newRule .. | .loadRule _ | .addBranch | .removeBranch _ | .changeBranchKind .. | .setResultLabel ..
  | .setOtherwiseLabel _ => none

/-- The nodes that an edit supplies. -/
def supplied : Edit → List Node
  | .loadRule d => [d.definition]
  | .changeLeft _ left => [left]
  | .setExpression _ e => [e]
  | _ => []

def Does : Edit → Deed → Prop
  | .newRule .., .takeUp | .loadRule _, .takeUp => True
  | .removeCondition _, .recast | .addBranch, .recast | .removeBranch _, .recast | .changeBranchKind .., .recast
  | .setResultLabel .., .recast | .setOtherwiseLabel _, .recast => True
  | _, _ => False

/-- What an edit does to the data that it comes upon. -/
def Dares (s : Session) (e : Edit) : Feat → Prop
  | .lead c left => ∃ path, e = .changeLeft path left ∧ s.LeadsTo path c.node
  | .supply new => ∃ path, e = .setExpression path new
  | .fill old => ∃ path, ((∃ new, e = .setExpression path new) ∨ (∃ source, e = .changeSource path source) ∨
      ∃ operator, e = .wrapExpression path operator) ∧ s.LeadsTo path old
  | .clear old => ∃ path, e = .removeCondition path ∧
      ((∃ g : Group, old = g.node) ∨ Session.Topmost path ∧ s.LeadsTo path old)
  | .join used => ∃ path operator, (e = .wrapExpression path operator ∨ (∃ after, e = .insertOperand path after operator) ∨
      e = .appendOperand path operator ∨ ∃ index, e = .updateOperator path index operator) ∧
      (used = operator ∨ ∃ word, used = .text word)
  | .drop c' => (∃ path, e = .removeCondition path ∧ c'.branches ≠ []) ∨ ∃ index d c, e = .removeBranch index ∧
      s.document = some d ∧ d.definition = Choice.node c ∧ Choice.removeBranch index c = .ok c'
  | .load d => e = .loadRule d
  | .abandon => ∃ form type ruleType id description fault, e = .newRule form type ruleType id description ∧
      (e.perform.run s).1 = .error fault

/-- The moves that an edit makes are in the scope. -/
structure Allowed (sc : Scope) (s : Session) (e : Edit) : Prop where
  here : ∀ path ∈ e.path?, sc.here path
  given : ∀ node ∈ e.supplied, sc.given node
  turned : ∀ index kind, e = .changeBranchKind index kind → ∀ d c k, s.document = some d → d.definition = c.node →
    Kind.ofValue kind = .ok k → sc.turned c index k
  may : ∀ deed, e.Does deed → sc.may deed
  dares : ∀ feat, e.Dares s feat → sc.dares feat

/-- The edit starts a new rule. -/
def Begins (e : Edit) : Prop := ∃ form type ruleType id description, e = .newRule form type ruleType id description

/-- Whatever an edit does and however it ends, it is made of moves. If it fails, it spares the rule, unless it was to
start a new one. -/
theorem ends {sc : Scope} (upward : sc.Upward) {s : Session} {e : Edit} (allowed : e.Allowed sc s) :
    Editing.Ends e.perform s (fun _ => Session.Moves sc s)
      (fun _ s' => Session.Moves sc s s' ∧ (¬ e.Begins → s.Spares s')) := by
  obtain ⟨here, given, turned, may, dares⟩ := allowed
  have spares {op : Editing Unit} (h : Editing.Ends op s (fun _ => Session.Moves sc s) (fun _ => Session.Fails sc s)) :
      Editing.Ends op s (fun _ => Session.Moves sc s) (fun _ s' => Session.Moves sc s s' ∧ (¬ e.Begins → s.Spares s')) :=
    h.mono (fun _ _ moved => moved) fun _ _ failed => ⟨failed.moves, fun _ => failed.spares⟩
  cases e with
  | newRule form type ruleType id description =>
      have abandons fault (failed : ((Session.newRule form type ruleType id description).run s).1 = .error fault) :
          sc.dares .abandon := dares .abandon ⟨_, _, _, _, _, fault, rfl, failed⟩
      refine (Session.newRule_moves (may .takeUp trivial) form type ruleType id description abandons).mono
        (fun _ _ => And.left) fun _ _ done => ⟨done.1, fun other => ?_⟩
      exact absurd ⟨_, _, _, _, _, rfl⟩ other
  | loadRule d =>
      refine (Session.loadRule_moves (may .takeUp trivial) (given _ List.mem_cons_self) (dares (.load d) rfl)).mono
        (fun _ _ => And.left) ?_
      rintro _ _ ⟨moved, -, opened, fault, untold⟩
      exact ⟨moved, fun _ => .inr ⟨d, fault, opened, untold⟩⟩
  | changeConditionKind path kind => exact spares (Session.changeConditionKind_moves (here _ rfl) kind)
  | addCondition path => exact spares (Session.addCondition_moves (here _ rfl))
  | addConditionGroup path => exact spares (Session.addConditionGroup_moves (here _ rfl))
  | removeCondition path =>
      refine spares (Session.removeCondition_moves upward (here _ rfl) (may .recast trivial) ?_ ?_ ?_)
      · exact fun old leads topmost => dares (.clear old) ⟨path, rfl, .inr ⟨topmost, leads⟩⟩
      · exact fun g => dares (.clear g.node) ⟨path, rfl, .inl ⟨g, rfl⟩⟩
      · exact fun c others => dares (.drop c) (.inl ⟨path, rfl, others⟩)
  | renameCondition path name => exact spares (Session.renameCondition_moves upward (here _ rfl) name)
  | setConjunction path conjunction => exact spares (Session.setConjunction_moves (here _ rfl) conjunction)
  | toggleNegation path => exact spares (Session.toggleNegation_moves (here _ rfl))
  | reorderConditions path source destination =>
      exact spares (Session.reorderConditions_moves (here _ rfl) source destination)
  | changeOperator path operator => exact spares (Session.changeOperator_moves (here _ rfl) operator)
  | changeLeft path left =>
      refine spares (Session.changeLeft_moves (here _ rfl) (given _ List.mem_cons_self) ?_)
      exact fun c leads => dares (.lead c left) ⟨path, rfl, leads⟩
  | addRightOperand path => exact spares (Session.addRightOperand_moves (here _ rfl))
  | removeRightOperand path index => exact spares (Session.removeRightOperand_moves (here _ rfl) index)
  | setExpression path e =>
      refine spares (Session.setExpression_moves (here _ rfl) fun old leads => ?_)
      have supplies : sc.dares (.supply e) := dares (.supply e) ⟨path, rfl⟩
      exact .replaced (given _ List.mem_cons_self) supplies (dares (.fill old) ⟨path, .inl ⟨e, rfl⟩, leads⟩)
  | changeSource path source =>
      refine spares (Session.changeSource_moves (here _ rfl) ?_ source)
      exact fun old leads => dares (.fill old) ⟨path, .inr (.inl ⟨source, rfl⟩), leads⟩
  | wrapExpression path operator =>
      refine spares (Session.wrapExpression_moves (here _ rfl) ?_ ?_)
      · exact fun old leads => dares (.fill old) ⟨path, .inr (.inr ⟨operator, rfl⟩), leads⟩
      · exact fun used known => dares (.join used) ⟨path, operator, .inl rfl, known⟩
  | insertOperand path after operator =>
      refine spares (Session.insertOperand_moves (here _ rfl) after ?_)
      exact fun used known => dares (.join used) ⟨path, operator, .inr (.inl ⟨after, rfl⟩), known⟩
  | appendOperand path operator =>
      refine spares (Session.appendOperand_moves (here _ rfl) ?_)
      exact fun used known => dares (.join used) ⟨path, operator, .inr (.inr (.inl rfl)), known⟩
  | removeOperand path index => exact spares (Session.removeOperand_moves (here _ rfl) index)
  | updateOperator path index operator =>
      refine spares (Session.updateOperator_moves (here _ rfl) index ?_)
      exact dares (.join operator) ⟨path, operator, .inr (.inr (.inr ⟨index, rfl⟩)), .inl rfl⟩
  | addBranch => exact spares (Session.addBranch_moves (may .recast trivial))
  | removeBranch index =>
      refine spares (Session.removeBranch_moves (may .recast trivial) ?_)
      exact fun d c c' opened same removed => dares (.drop c') (.inr ⟨index, d, c, rfl, opened, same, removed⟩)
  | changeBranchKind index kind =>
      exact spares (Session.changeBranchKind_moves (may .recast trivial) (turned index kind rfl))
  | setResultLabel index text => exact spares (Session.setResultLabel_moves (may .recast trivial) index text)
  | setOtherwiseLabel text => exact spares (Session.setOtherwiseLabel_moves (may .recast trivial) text)
  | clearReference path => exact spares (Session.clearReference_moves (here _ rfl))

theorem moves {sc : Scope} (upward : sc.Upward) {s : Session} {e : Edit} (allowed : e.Allowed sc s) :
    Session.Moves sc s (s.after e) :=
  ((ends upward allowed).mono (fun _ _ moved => moved) fun _ _ => And.left).after

theorem spares {sc : Scope} (upward : sc.Upward) {s : Session} {e : Edit} (allowed : e.Allowed sc s)
    (other : ¬ e.Begins) {fault : Fault} (failed : (e.perform.run s).1 = .error fault) : s.Spares (s.after e) :=
  ((ends upward allowed).error failed).2 other

end Edit

end RuleEditor
