import RuleEditor.Proofs.Edit.Kinds
import RuleEditor.Proofs.Session.Counted
import RuleEditor.Proofs.Session.Seated
import RuleEditor.Proofs.Session.Staleness
import RuleEditor.Proofs.Tree.Weaving

/-!
# Groups that begin with two comparisons

A group that is added to a group begins with two new comparisons, and so does a check of another rule that is turned
into a group. Their labels have the two numbers after the last one that was given out for conditions at the path of the
new group. That it is a new group makes no difference: when another group has been at the path before and is gone, the
numbers go on from there. So the labels are the first two if and only if nothing has been labelled there yet.
-/
namespace RuleEditor

namespace Label

variable {parent word label : String} {kind : Kind} {siblings : List Value} {n n' : Numbering} {labels : List String}
  {count : Nat}

theorem highest_concat {v : Value} {h : Nat} (hk : highest word (siblings ++ [v]) = .ok h) :
    ∃ before here, highest word siblings = .ok before ∧ numberUnder word v = .ok here ∧ h = max before here := by
  induction siblings generalizing h with
  | nil =>
      obtain ⟨here, read, hk⟩ := bind_eq_ok.mp hk
      cases hk
      exact ⟨0, here, rfl, read, max_comm _ _⟩
  | cons first rest ih =>
      obtain ⟨m, read, hk⟩ := bind_eq_ok.mp hk
      obtain ⟨others, below, hk⟩ := bind_eq_ok.mp hk
      obtain ⟨before, here, ahead, last, rfl⟩ := ih below
      cases hk
      exact ⟨max m before, here, by rw [highest, read, ok_bind, ahead]; rfl, last, (max_assoc _ _ _).symm⟩

/-- Several children get the numbers after the last one, as long as no sibling has a greater one. -/
theorem forChildrenAfter_eq (hi : (forChildrenAfter parent kind siblings count).run n = (.ok labels, n'))
    (hb : ∀ h, highest kind.word siblings = .ok h → h ≤ n.last parent kind.word) :
    labels = (List.range' (n.last parent kind.word + 1) count).map (spelled kind.word) := by
  induction count generalizing siblings n labels with
  | zero =>
      cases hi
      rfl
  | succ count ih =>
      obtain ⟨label, n₁, first, hi⟩ := Labelling.run_bind hi
      obtain ⟨others, n₂, rest, hi⟩ := Labelling.run_bind hi
      cases hi
      obtain ⟨h, known, rfl, rfl⟩ := next_eq_upcoming first
      have number : upcoming n parent kind.word h = n.last parent kind.word + 1 :=
        congrArg (· + 1) (max_eq_left (hb h known))
      rw [number] at rest ⊢
      have later := ih rest fun h' known' => ?_
      · rw [Numbering.last_give] at later
        rw [later, List.range'_succ, List.map_cons]
      · rw [Numbering.last_give]
        obtain ⟨before, here, ahead, last, rfl⟩ := highest_concat known'
        cases known.symm.trans ahead
        exact max_le ((hb h known).trans (Nat.le_succ _)) (number_of_spelled last).le

/-- The two labels after a number. -/
def following (word : String) (number : Nat) : List String := [spelled word (number + 1), spelled word (number + 2)]

theorem forChildren_two (hi : (forChildren parent kind 2).run n = (.ok labels, n')) :
    labels = following kind.word (n.last parent kind.word) :=
  forChildrenAfter_eq hi fun h known => by
    cases known
    exact Nat.zero_le _

end Label

namespace Fresh

variable {c : Catalogue} {names : List Value} {nodes : List Node}

/-- New conditions have the names that they are made with. -/
theorem names_of_conditions (h : conditions c names = .ok nodes) : nodes.mapM Node.name = .ok names := by
  induction names generalizing nodes with
  | nil =>
      cases h
      rfl
  | cons name rest ih =>
      simp only [conditions, List.mapM_cons] at h
      obtain ⟨node, first, h⟩ := bind_eq_ok.mp h
      obtain ⟨others, below, h⟩ := bind_eq_ok.mp h
      cases h
      rw [List.mapM_cons, Node.name_of_condition first, ok_bind, ih below]
      rfl

end Fresh

/-- A new group of two comparisons with the two numbers after some number. -/
structure Group.Pair (c : Catalogue) (number : Nat) (pair : Group) : Prop where
  conjunction : pair.conjunction = .all
  affirmed : pair.negated = false
  children : Fresh.conditions c ((Label.following Kind.comparison.word number).map .text) = .ok pair.children

namespace Group

variable {c : Catalogue} {path : String} {g g' pair : Group} {n n' : Numbering} {number : Nat}

theorem Pair.names (h : pair.Pair c number) :
    pair.childNames = .ok ((Label.following Kind.comparison.word number).map .text) :=
  Fresh.names_of_conditions h.children

/-- The first two numbers follow nothing only. -/
theorem Pair.names_iff (h : pair.Pair c number) :
    pair.childNames = .ok [.text "Condition 1", .text "Condition 2"] ↔ number = 0 := by
  have two : [.text "Condition 1", .text "Condition 2"] = (Label.following Kind.comparison.word 0).map Value.text := by
    have labels : ["Condition 1", "Condition 2"] = Label.following Kind.comparison.word 0 := by decide +kernel
    rw [← labels]
    rfl
  rw [h.names, two]
  constructor
  · intro same
    have first := List.head_eq_of_cons_eq (Except.ok.inj same)
    exact Nat.succ.inj (Label.spelled_inj (Value.text.inj first))
  · rintro rfl
    rfl

/-- What a new group of two new comparisons looks like. -/
theorem pair_of_group {parent : String} {label : Value} {labels : List String} {new : Node}
    (hi : (Label.forChildren parent .comparison 2).run n = (.ok labels, n'))
    (hm : Fresh.group c label (labels.map .text) = .ok new) :
    ∃ pair : Group, new = pair.node ∧ pair.Pair c (n.last parent Kind.comparison.word) := by
  obtain ⟨children, conditions, hm⟩ := bind_eq_ok.mp hm
  cases hm
  rw [Label.forChildren_two hi] at conditions
  exact ⟨⟨label, children, .all, false⟩, rfl, rfl, rfl, conditions⟩

/-- The group after another one has been added to it. -/
def enlarged (g pair : Group) : Group := { g with children := g.children ++ [pair.node] }

theorem pair_of_addChildGroup (h : (addChildGroup c path g).run n = (.ok g', n')) :
    ∃ pair : Group, g' = g.enlarged pair ∧ pair.Pair c (n.last (g.nextChildPath path) Kind.comparison.word) := by
  obtain ⟨names, n₁, listed, h⟩ := Labelling.run_bind h
  obtain ⟨label, n₂, own, h⟩ := Labelling.run_bind h
  obtain ⟨labels, n₃, two, h⟩ := Labelling.run_bind h
  obtain ⟨child, n₄, grouped, h⟩ := Labelling.run_bind h
  cases Labelling.run_pure h
  cases (Labelling.run_known (Labelling.run_lift listed)).symm.trans listed
  obtain ⟨pair, rfl, numbered⟩ := pair_of_group two (Labelling.run_lift grouped)
  -- the label of the new group is one of a group, so it takes up no number of a condition
  have apart : ¬ (g.nextChildPath path = path ∧ Kind.comparison.word = Kind.group.word) := fun same =>
    absurd same.2 (by decide)
  have kept := Label.next_other apart names n
  rw [own] at kept
  exact ⟨pair, rfl, kept ▸ numbered⟩

theorem pair_of_changeKind {name : Value} {target : Reference} {new : Node}
    (h : ((Node.ruleCheck name target).changeKind c path .group).run n = (.ok new, n')) :
    ∃ pair : Group, new = pair.node ∧ pair.Pair c (n.last path Kind.comparison.word) := by
  have check : (Node.ruleCheck name target).conditionKind = .ok .reference := rfl
  unfold Node.changeKind at h
  rw [Labelling.run_bind_of (Labelling.run_known check), if_neg (by decide)] at h
  obtain ⟨label, n₁, own, h⟩ := Labelling.run_bind h
  cases (Labelling.run_known (Labelling.run_lift own)).symm.trans own
  obtain ⟨labels, n₂, two, h⟩ := Labelling.run_bind h
  exact pair_of_group two (Labelling.run_lift h)

end Group

namespace Session

open Editing

variable {s : Session} {path : String} {new : Node}

/-- A node that has been put at a path is there. -/
theorem ends_put_leadsTo : Ends (put path new) s (fun _ s' => s'.LeadsTo path new) fun _ _ => True := by
  unfold put
  refine bind_definition (fun _ => trivial) fun d opened => bind_lift (fun _ => trivial) fun steps read => ?_
  refine bind_lift (fun _ => trivial) fun replaced there => bind_get ?_
  refine bind_lift (fun _ => trivial) fun tree inferred => ?_
  have woven : Node.weave s.numeric new steps d.definition = .ok tree := by
    rw [Node.weave_eq, there, ok_bind, inferred]
  refine ends_commit (fun _ => trivial) fun d' opened' => ⟨?_, fun _ _ => trivial⟩
  exact ⟨{ d' with definition := tree }, steps, rfl, read, Node.find_woven woven⟩

/-- The edit puts a new group of two comparisons in the rule, by itself or as the last child of the group at the path.
The labels of its children are those under its own path, its home. -/
inductive Pairs (s : Session) : Edit → (path home : String) → (whole : Group → Group) → Prop where
  | added {path g} : s.LeadsTo path (Group.node g) →
      Pairs s (.addConditionGroup path) path (g.nextChildPath path) g.enlarged
  | turned {path kind name target} : s.LeadsTo path (.ruleCheck name target) → Kind.ofValue kind = .ok .group →
      Pairs s (.changeConditionKind path kind) path path fun pair => pair

variable {e : Edit} {home : String} {whole : Group → Group}

/-- The two comparisons have the two numbers after the last one. -/
theorem Pairs.numbered (h : s.Pairs e path home whole) : Ends e.perform s
    (fun _ s' => ∃ pair : Group, s'.LeadsTo path (whole pair).node ∧
      pair.Pair s.catalogue (s.numbering.last home Kind.comparison.word)) fun _ _ => True := by
  cases h with
  | @added _ g leads =>
      show Ends (addConditionGroup path) s _ _
      unfold addConditionGroup
      refine bind_node (fun _ => trivial) fun node leads' => bind_lift (fun _ => trivial) fun g' same => bind_get ?_
      cases leads.unique leads'
      cases same
      refine bind_labelled (fun _ _ => trivial) fun g' n made => ?_
      obtain ⟨pair, rfl, numbered⟩ := Group.pair_of_addChildGroup made
      exact ends_put_leadsTo.mono (fun _ _ there => ⟨pair, there, numbered⟩) fun _ _ _ => trivial
  | @turned _ kind name target leads known =>
      show Ends (changeConditionKind path kind) s _ _
      unfold changeConditionKind
      refine bind_invalidate (bind_node (fun _ => trivial) fun node leads' => bind_known known (bind_get ?_))
      cases leads.unique leads'
      refine bind_labelled (fun _ _ => trivial) fun new n made => ?_
      obtain ⟨pair, rfl, numbered⟩ := Group.pair_of_changeKind made
      exact ends_put_leadsTo.mono (fun _ _ there => ⟨pair, there, numbered⟩) fun _ _ _ => trivial

end Session

namespace Conversation

open Session

/-- Whatever has been said since a session was started: a new group of two comparisons is where it was to be put, and
its children have the two numbers after the last one that was given out for conditions at its path. They are labelled
as the first and the second condition if and only if no edit has given out a number for a condition there since the
rule was taken up. -/
theorem pair_numbered (catalogue : Catalogue) (settings : Settings) (id : String) (connected : Bool) (turns : List Turn)
    {start s : Session} (hf : start = .start catalogue settings id connected)
    (hr : s = ((opening start).run turns).session) {e : Edit} {path home : String} {whole : Group → Group}
    (hp : s.Pairs e path home whole) (hd : (e.perform.run s).1 = .ok ()) :
    ∃ pair : Group, (s.after e).LeadsTo path (whole pair).node ∧
      pair.Pair s.catalogue (s.numbering.last home Kind.comparison.word) ∧
      (pair.childNames = .ok [.text "Condition 1", .text "Condition 2"] ↔
        ¬ (opening start).HasGivenOut turns home Kind.comparison.word) := by
  obtain ⟨pair, there, numbered⟩ := hp.numbered.ok hd
  refine ⟨pair, there, numbered, ?_⟩
  have none : (opening start).session.numbering.last home Kind.comparison.word = 0 := hf ▸ rfl
  rw [numbered.names_iff, ← last_pos_iff none turns, hr, Nat.pos_iff_ne_zero, not_not]

/-- A new rule is started: a group of one comparison. -/
def beginning : Turn := .edit (.newRule (.text "condition") .null .null .null .null)

def widening : Turn := .edit (.addConditionGroup "root")

/-- Turning the comparison of a new rule into another kind. -/
def turning (kind : String) : Turn := .edit (.changeConditionKind "root-condition-0" (.text kind))

theorem ok_of_toBool {result : Except Fault Unit} (h : result.toBool = true) : result = .ok () := by
  cases result <;> cases h
  rfl

/-- The group that a new rule begins as. -/
def mainGroup : Group where
  name := .text "Main Condition"
  children := [.comparison (.text "Condition 1") (.field (.text "number") (.text "AGE")) (.text "equal")
    (.literal (.text "number") (.int 0))]
  conjunction := .all
  negated := false

variable {c : Conversation}

theorem begun_leads (h : c.session.catalogue = catalogue) :
    (c.next beginning).session.LeadsTo "root" mainGroup.node := by
  obtain ⟨⟨_, _, _, _, _, _, _, _, _, _, _, _, _, _, _⟩, _, _⟩ := c
  cases h
  exact ⟨_, [], rfl, rfl, rfl⟩

theorem begun_pairs (h : c.session.catalogue = catalogue) :
    (c.next beginning).session.Pairs (.addConditionGroup "root") "root" "root-condition-1" mainGroup.enlarged := by
  have home : mainGroup.nextChildPath "root" = "root-condition-1" := by decide +kernel
  have pairs := Pairs.added (begun_leads h)
  rwa [home] at pairs

/-- Where a rule has been started anew, the numbers have been as well. -/
theorem last_begun (c : Conversation) (parent word : String) :
    (c.next beginning).session.numbering.last parent word = 0 :=
  (Editing.renewing_newRule _ _ _ _ _ c.session).fresh parent word

/-- A group is added to a rule, and another rule is started then. -/
def startingOver : List Turn := [beginning, widening] ++ [beginning]

/-- A group has been added to the rule before, at the same path. The numbers have begun anew since. -/
theorem pair_of_new_rule :
    ∃ s, s = ((opening served).run startingOver).session ∧
      s.Pairs (.addConditionGroup "root") "root" "root-condition-1" mainGroup.enlarged ∧
      ((Edit.addConditionGroup "root").perform.run s).1 = .ok () ∧
      ∃ pair : Group, (s.after (.addConditionGroup "root")).LeadsTo "root" (mainGroup.enlarged pair).node ∧
        pair.childNames = .ok [.text "Condition 1", .text "Condition 2"] := by
  have known : ((opening served).run [beginning, widening]).session.catalogue = catalogue :=
    ((moves_next (opening served) beginning).sameSetUp.trans (moves_next _ widening).sameSetUp).catalogue
  have last : (opening served).run startingOver = ((opening served).run [beginning, widening]).next beginning :=
    next_run (opening served) [beginning, widening] beginning
  have pairs : ((opening served).run startingOver).session.Pairs (.addConditionGroup "root") "root" "root-condition-1"
      mainGroup.enlarged := by
    rw [last]
    exact begun_pairs known
  have succeeds : ((Edit.addConditionGroup "root").perform.run ((opening served).run startingOver).session).1 = .ok () :=
    ok_of_toBool (by decide +kernel)
  have none : ((opening served).run startingOver).session.numbering.last "root-condition-1" Kind.comparison.word = 0 := by
    rw [last]
    exact last_begun _ _ _
  have fresh : served = .start catalogue _ "es" true := rfl
  obtain ⟨pair, there, numbered, -⟩ := pair_numbered catalogue _ _ _ startingOver fresh rfl pairs succeeds
  exact ⟨_, rfl, pairs, succeeds, pair, there, numbered.names_iff.mpr none⟩

/-- The labels of the conditions in the group at a path. -/
def labels (c : Conversation) (path : String) : Option (List String) :=
  let lookUp : Editing (List Value) := do (← (← Session.node path).asGroup).childNames
  (lookUp.run c.session).1.toOption.map fun names => names.map Value.display

/-- A group is added where another one has been removed, and a check of a rule that was a group before is turned into a
group again. -/
theorem pair_counts_on :
    let withdrawn := (opening served).run [beginning, widening, .edit (.removeCondition "root-condition-1")]
    let wavering := (opening served).run [beginning, turning "ruleRef", turning "conditionGroup", turning "ruleRef"]
    withdrawn.labels "root" = some ["Condition 1"] ∧
      (withdrawn.next widening).labels "root-condition-1" = some ["Condition 3", "Condition 4"] ∧
      wavering.labels "root-condition-0" = none ∧
      (wavering.next (turning "conditionGroup")).labels "root-condition-0" = some ["Condition 3", "Condition 4"] :=
  ⟨by decide +kernel, by decide +kernel, by decide +kernel, by decide +kernel⟩

end Conversation

end RuleEditor
