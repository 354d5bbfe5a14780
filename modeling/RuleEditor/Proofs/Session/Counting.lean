import RuleEditor.Proofs.Label.Issued
import RuleEditor.Proofs.Session.Edits
import RuleEditor.Proofs.Session.Persistent

/-!
# Numbers that are given out in a session

Some edits label new conditions, and with each label they give out a number. The edit and the rule tell under which
parents and words; everything else that is done in a session leaves the numbers as they are, unless another rule is
taken up, which begins them anew.
-/
namespace RuleEditor

/-- Parents and words of labels. -/
abbrev Places := String → String → Prop

namespace Numbering

/-- Numbers are given out at some places only, and none is taken back. -/
structure Gives (places : Places) (n n' : Numbering) : Prop extends Advances n n' where
  other : ∀ parent word, ¬ places parent word → n'.last parent word = n.last parent word

namespace Gives

variable {places places' : Places} {n n' n'' : Numbering}

theorem refl : n.Gives places n := ⟨.refl, fun _ _ _ => rfl⟩

theorem trans (h : n.Gives places n') (h' : n'.Gives places n'') : n.Gives places n'' :=
  ⟨h.toAdvances.trans h'.toAdvances, fun parent word outside =>
    (h'.other parent word outside).trans (h.other parent word outside)⟩

theorem mono (h : n.Gives places n') (hw : ∀ parent word, places parent word → places' parent word) :
    n.Gives places' n' :=
  ⟨h.toAdvances, fun parent word outside => h.other parent word fun inside => outside (hw parent word inside)⟩

end Gives

end Numbering

namespace Labelling

variable {α β : Type} {places : Places}

/-- However the edit ends, it labels at some places only. -/
def Within (places : Places) (edit : Labelling α) : Prop := ∀ n : Numbering, n.Gives places (edit.run n).2

theorem Within.bind {edit : Labelling α} {f : α → Labelling β} (h : Within places edit)
    (hn : ∀ a, Within places (f a)) : Within places (edit >>= f) := by
  intro n
  rw [run_bind_eq]
  cases (edit.run n).1 with
  | ok a => exact (h n).trans (hn a _)
  | error fault => exact h n

theorem within_pure (a : α) : Within places (pure a) := fun _ => .refl

theorem within_throw (fault : Fault) : Within places (throw fault : Labelling α) := fun _ => .refl

theorem within_lift (x : Except Fault α) : Within places (liftM x : Labelling α) := by
  intro n
  cases x <;> exact .refl

theorem within_children {parent : String} {kind : Kind} (h : places parent kind.word) (siblings : List Value)
    (count : Nat) : Within places (Label.forChildrenAfter parent kind siblings count) := by
  intro n
  refine ⟨Label.forChildrenAfter_advances parent kind siblings count n, fun parent' word outside => ?_⟩
  refine Label.forChildrenAfter_other ?_ siblings count n
  rintro ⟨rfl, rfl⟩
  exact outside h

theorem within_next {parent : String} {kind : Kind} (h : places parent kind.word) (siblings : List Value) :
    Within places (Label.next parent kind siblings) := by
  intro n
  refine ⟨Label.next_advances parent kind siblings n, fun parent' word outside => ?_⟩
  refine Label.next_other ?_ siblings n
  rintro ⟨rfl, rfl⟩
  exact outside h

/-! ### Edits that label -/

variable {c : Catalogue} {path : String} {kind : Kind}

theorem within_addChild (h : places path Kind.comparison.word) (g : Group) :
    Within places (g.addChild c path) := by
  unfold Group.addChild
  exact (within_lift _).bind fun _ => (within_next h _).bind fun _ => (within_lift _).bind fun _ => within_pure _

theorem within_addChildGroup {g : Group} (hh : places path Kind.group.word)
    (hb : places (g.nextChildPath path) Kind.comparison.word) : Within places (g.addChildGroup c path) := by
  unfold Group.addChildGroup
  refine (within_lift _).bind fun _ => (within_next hh _).bind fun _ => ?_
  exact (within_children hb _ _).bind fun _ => (within_lift _).bind fun _ => within_pure _

theorem within_changeKind (h : kind = .group → places path Kind.comparison.word) (condition : Node) :
    Within places (condition.changeKind c path kind) := by
  unfold Node.changeKind
  refine (within_lift _).bind fun own => ?_
  split
  · exact within_pure _
  · split
    · exact (within_lift _).bind fun _ => within_pure _
    · split
      · exact (within_lift _).bind fun _ => (within_lift _).bind fun _ => within_lift _
      · exact (within_lift _).bind fun _ => within_lift _
    · refine (within_lift _).bind fun _ => ?_
      split
      · exact (within_next (h rfl) _).bind fun _ => (within_lift _).bind fun _ => within_pure _
      · exact (within_children (h rfl) _ _).bind fun _ => within_lift _
    · exact within_throw _

theorem within_addBranch (h : places Choice.rootPath Kind.comparison.word) (choice : Choice) :
    Within places (choice.addBranch c) := by
  unfold Choice.addBranch
  refine (within_lift _).bind fun _ => (within_next h _).bind fun _ => (within_lift _).bind fun _ => ?_
  exact (within_lift _).bind fun _ => (within_lift _).bind fun _ => within_pure _

theorem within_changeConditionKind {index : Int}
    (h : kind = .group → places (Choice.conditionPath index) Kind.comparison.word) (choice : Choice) :
    Within places (choice.changeConditionKind c index kind) := by
  unfold Choice.changeConditionKind
  exact (within_lift _).bind fun _ => (within_changeKind h _).bind fun _ => within_lift _

end Labelling

namespace Session

/-- The same rule stays open, and numbers are given out at some places only. -/
structure Counts (places : Places) (s s' : Session) : Prop where
  epoch : s'.epoch = s.epoch
  gives : s.numbering.Gives places s'.numbering

/-- Another rule is taken up, and no number has been given out since. -/
structure Renewed (s s' : Session) : Prop where
  epoch : s.epoch < s'.epoch
  fresh : ∀ parent word, s'.numbering.last parent word = 0

variable {places : Places} {s s' s'' : Session}

theorem Counts.refl : Counts places s s := ⟨rfl, .refl⟩

theorem Counts.trans (h : Counts places s s') (h' : Counts places s' s'') : Counts places s s'' :=
  ⟨h'.epoch.trans h.epoch, h.gives.trans h'.gives⟩

/-- Where nothing is labelled, and no rule is taken up, the numbers stay as they are. -/
instance : Persistent (Counts places) where
  refl _ := .refl
  trans := .trans
  aside same := ⟨same.epoch, same.numbering ▸ .refl⟩
  invalidated _ _ := ⟨rfl, .refl⟩
  issued _ _ := ⟨rfl, .refl⟩

theorem Renewed.counts (h : Renewed s s') (h' : Counts (fun _ _ => False) s' s'') : Renewed s s'' where
  epoch := h'.epoch ▸ h.epoch
  fresh parent word := (h'.gives.other parent word not_false).trans (h.fresh parent word)

end Session

namespace Editing

open Session Labelling

variable {α β : Type} {places : Places}

theorem counts_labelled {edit : Labelling α} (h : Within places edit) : Persists (Counts places) (labelled edit) := by
  intro s
  have gives := h s.numbering
  refine Ends.after (ends_labelled (fun a n made => ⟨rfl, ?_⟩) fun fault n made => ⟨rfl, ?_⟩)
  · rwa [made] at gives
  · rwa [made] at gives

/-! ### Taking up a rule -/

/-- However the operation ends, another rule is taken up. -/
def Renewing (op : Editing α) : Prop := ∀ s, Renewed s (op.run s).2

/-- What is done then gives out no number. -/
theorem Renewing.bind {op : Editing α} {f : α → Editing β} (h : Renewing op)
    (hn : ∀ a, Persists (Counts fun _ _ => False) (f a)) : Renewing (op >>= f) := by
  refine fun s => Ends.after (ends_bind ((ends_of_after (h s)).mono (fun a s' first => ?_) fun _ _ failed => failed))
  exact ((hn a).ends s').mono (fun _ _ => first.counts) fun _ _ => first.counts

theorem renewing_reset (form : Option Form) (isNew : Bool) : Renewing (reset form isNew) :=
  fun s => ⟨Nat.lt_succ_self s.epoch, fun _ _ => rfl⟩

theorem renewing_newRule (form type ruleType id description : Value) :
    Renewing (newRule form type ruleType id description) := by
  unfold newRule
  refine (renewing_reset _ _).bind fun _ => (persists_initial _ _).bind fun _ => (persists_lift _).bind fun _ => ?_
  exact persists_bind_modify (fun _ => ⟨rfl, rfl, rfl, rfl⟩) (persists_noteHere _)

theorem renewing_loadRule (d : Document) : Renewing (loadRule d) := by
  unfold loadRule
  refine (renewing_reset _ _).bind fun _ => persists_bind_modify (fun _ => ⟨rfl, rfl, rfl, rfl⟩) ?_
  exact persists_refreshWarnings.bind fun _ => persists_noteHere _

end Editing

/-! ### All edits -/

open Session Editing Labelling

namespace Edit

/-- The edit labels conditions or groups under a parent, if it comes as far as that. -/
def Numbers (s : Session) : Edit → Places
  | .addCondition path, parent, word => parent = path ∧ word = Kind.comparison.word
  | .addConditionGroup path, parent, word =>
    (parent = path ∧ word = Kind.group.word) ∨
      ∃ g : Group, s.LeadsTo path g.node ∧ parent = g.nextChildPath path ∧ word = Kind.comparison.word
  | .changeConditionKind path kind, parent, word =>
    Kind.ofValue kind = .ok .group ∧ parent = path ∧ word = Kind.comparison.word
  | .addBranch, parent, word => parent = Choice.rootPath ∧ word = Kind.comparison.word
  | .changeBranchKind index kind, parent, word =>
    Kind.ofValue kind = .ok .group ∧ parent = Choice.conditionPath index ∧ word = Kind.comparison.word
  | _, _, _ => False

theorem counts_addConditionGroup (path : String) (s : Session) :
    Counts ((Edit.addConditionGroup path).Numbers s) s (s.after (.addConditionGroup path)) := by
  refine Ends.after ?_
  show Ends (Session.addConditionGroup path) s _ _
  unfold Session.addConditionGroup
  refine bind_node (fun _ => .refl) fun node leads => bind_lift (fun _ => .refl) fun g same => ?_
  cases Node.eq_of_asGroup same
  refine Persists.ends (persists_get.bind fun _ => Persists.bind ?_ fun _ => persists_put _ _) s
  exact counts_labelled (within_addChildGroup (.inl ⟨rfl, rfl⟩) (.inr ⟨g, leads, rfl, rfl⟩))

/-- An edit that takes up no rule gives out numbers where it labels, and nowhere else. -/
theorem counts (e : Edit) (s : Session) (same : ¬ e.Does .takeUp) : Counts (e.Numbers s) s (s.after e) := by
  by_cases plain : e.Plain
  · exact persists plain s
  cases e with
  | newRule | loadRule => exact absurd trivial same
  | addCondition path =>
      refine ((persists_node _).bind fun _ => (persists_lift _).bind fun g => persists_get.bind fun _ => ?_) s
      exact (counts_labelled (within_addChild ⟨rfl, rfl⟩ g)).bind fun _ => persists_put _ _
  | addConditionGroup path => exact counts_addConditionGroup path s
  | changeConditionKind path kind =>
      refine ((persists_invalidate _).bind fun _ => (persists_node _).bind fun _ =>
        persists_bind_lift fun k known => persists_get.bind fun _ => Persists.bind ?_ fun _ => persists_put _ _) s
      exact counts_labelled (within_changeKind (fun group => ⟨group ▸ known, rfl, rfl⟩) _)
  | addBranch =>
      refine (persists_choice.bind fun c => persists_get.bind fun _ => ?_) s
      exact (counts_labelled (within_addBranch ⟨rfl, rfl⟩ c)).bind fun _ => persists_commit _
  | changeBranchKind index kind =>
      refine ((persists_invalidate _).bind fun _ => persists_choice.bind fun _ =>
        persists_bind_lift fun k known => persists_get.bind fun _ => Persists.bind ?_ fun _ => persists_commit _) s
      exact counts_labelled (within_changeConditionKind (fun group => ⟨group ▸ known, rfl, rfl⟩) _)
  | _ => exact absurd trivial plain

theorem renewed {e : Edit} (h : e.Does .takeUp) (s : Session) : Renewed s (s.after e) := by
  cases e with
  | newRule form type ruleType id description => exact renewing_newRule form type ruleType id description s
  | loadRule d => exact renewing_loadRule d s
  | _ => exact h.elim

end Edit

end RuleEditor
