import RuleEditor.Proofs.Address.Steps
import RuleEditor.Proofs.Session.Errands
import RuleEditor.Proofs.Session.Library
import RuleEditor.Proofs.Tree.Grafting

/-!
# Selecting a rule, step by step

What exactly the selection of a rule for a reference does to a session, from the request on and from the answer on:
a rule that was loaded in time is grafted in the place of the reference, and the warnings are those of the rule
then. Nothing else fails in a well-typed rule.
-/
namespace RuleEditor

open Session Editing

namespace Editing

variable {α : Type} {s : Session} {Q : α → Session → Prop}

/-- An operation succeeds and ends in `Q`. -/
abbrev Gives (op : Editing α) (s : Session) (Q : α → Session → Prop) : Prop := Ends op s Q fun _ _ => False

theorem Gives.run {op : Editing α} (h : Gives op s Q) : ∃ a, (op.run s).1 = .ok a ∧ Q a (op.run s).2 := by
  simp only [Gives, Ends] at h
  cases result : (op.run s).1 with
  | ok a =>
      rw [result] at h
      exact ⟨a, rfl, h⟩
  | error fault =>
      rw [result] at h
      exact h.elim

end Editing

/-! ### Labels that follow a reference -/

namespace Node

variable {change : List Step → ResultLabel → ResultLabel}

theorem branches_relabelled {branches : List (Branch Node)}
    (h : ∀ i b, branches[i]? = some b → change [.result i] b.label = b.label) :
    (branches.mapIdx fun i b => { b with label := change [.result i] b.label }) = branches := by
  refine List.ext_getElem? fun i => ?_
  rw [List.getElem?_mapIdx]
  cases at? : branches[i]? with
  | none => rfl
  | some b => rw [Option.map_some, h i b at?]

theorem relabelled_same (hk : ∀ i l, change [.result i] l = l) (hl : ∀ l, change [.otherwise] l = l) (tree : Node) :
    tree.relabelled change = tree := by
  cases tree with
  | choice branches otherwise label => rw [relabelled, branches_relabelled fun i b _ => hk i b.label, hl]
  | _ => rfl

end Node

namespace Graft

variable {numeric : List String} {steps : List Step} {target : Reference} {name : Value} {old tree tree' : Node}
  {place : List Step} {l : ResultLabel}

theorem follow_other {g : Graft} (h : place ≠ g.steps) : g.follow old place l = l := by
  unfold follow
  split
  · rw [if_neg h]
  · rfl

/-- Only results of the choice at the root have labels to follow. -/
theorem onto_unlabelled {g : Graft} (hr : ∀ i, g.steps ≠ [.result i]) (ho : g.steps ≠ [.otherwise]) :
    g.onto numeric tree = .ok tree' → Node.weave numeric g.new g.steps tree = .ok tree' := by
  intro grafted
  obtain ⟨old, woven, found, put, rfl⟩ := onto_eq_ok.mp grafted
  rw [put, Node.relabelled_same (fun i l => follow_other (hr i).symm) fun l => follow_other ho.symm]

theorem onto_check (h : (Graft.mk steps (.ruleCheck name target)).onto numeric tree = .ok tree') :
    Node.weave numeric (.ruleCheck name target) steps tree = .ok tree' := by
  obtain ⟨old, woven, found, put, rfl⟩ := onto_eq_ok.mp h
  rw [put, Node.relabelled_same (fun _ _ => rfl) fun _ => rfl]

theorem setResult_eq_ok {c : Choice} {i : Nat}
    (h : (Graft.mk [.result i] (.reference target)).onto numeric c.node = .ok tree') :
    ∃ c', c.setResult i (.reference target) = .ok c' ∧ c'.node = tree' := by
  obtain ⟨branches, otherwise, label⟩ := c
  obtain ⟨old, woven, found, put, rfl⟩ := onto_eq_ok.mp h
  obtain ⟨child, changed, mid, below, slot, settled⟩ := Node.weave_cons.mp put
  cases below
  cases slot with
  | @result _ branch _ _ _ _ at? =>
      cases settled
      have stood : old = branch.result := by
        have result : (Node.choice branches otherwise label).child (.result i) = .ok branch.result := by
          simp only [Node.child, Node.item, at?]
          rfl
        simp only [Choice.node, Node.find, result, ok_bind, Except.ok.injEq] at found
        exact found.symm
      subst stood
      have place : Index.place? branches.length (i : Int) = some i := by
        rw [Index.place?_ofNat, if_pos (Node.lt_of_item at?)]
      refine ⟨⟨branches.set i ⟨branch.condition, .reference target,
        branch.label.afterResult branch.result (.reference target)⟩, otherwise, label⟩, ?_, ?_⟩
      · simp only [Choice.setResult, Choice.branch, Choice.withBranch, Index.item?, Index.replace?, place,
          Option.bind_some, Option.map_some, at?, ok_bind]
      · rw [Choice.node, Node.relabelled, follow_other (by simp)]
        congr 1
        refine List.ext_getElem? fun j => ?_
        rw [List.getElem?_mapIdx]
        by_cases here : i = j
        · subst here
          simp only [List.getElem?_set_self (Node.lt_of_item at?), Option.map_some, follow, if_true]
        · rw [List.getElem?_set_ne here, List.getElem?_set_ne here]
          cases branches[j]? with
          | none => rfl
          | some b => rw [Option.map_some, follow_other (by simp [Ne.symm here])]

theorem setOtherwise_eq {c : Choice}
    (h : (Graft.mk [.otherwise] (.reference target)).onto numeric c.node = .ok tree') :
    (c.setOtherwise (.reference target)).node = tree' := by
  obtain ⟨branches, otherwise, label⟩ := c
  obtain ⟨old, woven, found, put, rfl⟩ := onto_eq_ok.mp h
  obtain ⟨child, changed, mid, below, slot, settled⟩ := Node.weave_cons.mp put
  cases below
  cases slot with
  | otherwise =>
      cases settled
      cases found
      rw [Node.relabelled, Node.branches_relabelled fun i b _ => follow_other (by simp)]
      rfl

end Graft

namespace Session

variable {s : Session} {d : Document} {path : String} {summary : Summary} {steps : List Step} {old new tree : Node}
  {target : Reference} {warnings : Members (List Warning)}

/-! ### The request -/

theorem gives_resolveReference (h : s.connected = true) (path : String) (summary : Summary) :
    Gives (resolveReference path summary) s fun p s' =>
      p = .loading summary.uuid summary.version (.resolving path summary (s.generation + 1) s.epoch) ∧
        ∃ journal, s' = { s.issued path with journal } := by
  unfold resolveReference
  refine bind_requireService (fun alone => by rw [h] at alone; cases alone) fun _ => ?_
  exact bind_issueToken (bind_noteHere (bind_get (ends_pure ⟨rfl, _, rfl⟩)))

/-! ### The answer -/

theorem gives_commit (ho : s.document = some d)
    (ht : Document.warnings { d with definition := tree } = .ok warnings) :
    Gives (commit tree) s fun _ s' => s' = { s with document := some { d with definition := tree }, warnings } := by
  unfold commit refreshWarnings
  refine bind_opened ho (bind_modify (bind_opened rfl (bind_known ht ?_)))
  exact ends_modify rfl

theorem gives_put (ho : s.document = some d) (hr : Address.steps path = .ok steps)
    (hw : Node.weave s.numeric new steps d.definition = .ok tree)
    (ht : Document.warnings { d with definition := tree } = .ok warnings) :
    Gives (put path new) s fun _ s' => s' = { s with document := some { d with definition := tree }, warnings } := by
  rw [Node.weave_eq] at hw
  obtain ⟨replaced, put, inferred⟩ := bind_eq_ok.mp hw
  unfold Session.put
  refine bind_defined ho (bind_known hr (bind_known put (bind_get (bind_known inferred ?_))))
  exact gives_commit ho ht

theorem gives_putExpression (ho : s.document = some d) (hr : Address.steps path = .ok steps)
    (hg : (Graft.mk steps (.reference target)).onto s.numeric d.definition = .ok tree)
    (ht : Document.warnings { d with definition := tree } = .ok warnings) :
    Gives (putExpression path (.reference target)) s fun _ s' =>
      s' = { s with document := some { d with definition := tree }, warnings } := by
  unfold putExpression
  refine bind_defined ho ?_
  split
  · rename_i branches otherwise label same
    refine bind_known hr ?_
    split
    · rw [same] at hg
      obtain ⟨c, set, rfl⟩ := Graft.setResult_eq_ok (c := ⟨branches, otherwise, label⟩) hg
      exact bind_known set (gives_commit ho ht)
    · rw [same] at hg
      cases Graft.setOtherwise_eq (c := ⟨branches, otherwise, label⟩) hg
      exact gives_commit ho ht
    · rename_i result last
      exact gives_put ho hr (Graft.onto_unlabelled result last hg) ht
  · rename_i other
    obtain ⟨old, -, found, -⟩ := Graft.onto_eq_ok.mp hg
    -- where the tree is no choice, no path leads to a result of one
    have unlabelled {step : Step} (labelled : (∃ i, step = .result i) ∨ step = .otherwise) : steps ≠ [step] := by
      rintro rfl
      obtain ⟨child, stands, -⟩ := bind_eq_ok.mp found
      cases shape : d.definition with
      | choice branches otherwise label => exact other _ _ _ shape
      | _ =>
          rw [shape] at stands
          rcases labelled with ⟨i, rfl⟩ | rfl <;> cases stands
    exact gives_put ho hr
      (Graft.onto_unlabelled (fun i => unlabelled (.inl ⟨i, rfl⟩)) (unlabelled (.inr rfl)) hg) ht

theorem gives_applyReference (ho : s.document = some d) (hr : Address.steps path = .ok steps)
    (hf : d.definition.find steps = .ok old) (chosen : Chosen path target old new)
    (hg : (Graft.mk steps new).onto s.numeric d.definition = .ok tree)
    (ht : Document.warnings { d with definition := tree } = .ok warnings) :
    Gives (applyReference path target) s fun applied s' =>
      applied = true ∧ s' = { s with document := some { d with definition := tree }, warnings } := by
  have at? : d.definition.atPath? path = .ok (some old) := by
    simp only [Node.atPath?, Node.atPath, hr, ok_bind, hf]
  unfold applyReference
  refine bind_defined ho (bind_known at? ?_)
  cases chosen with
  | @check name r new selected =>
      obtain ⟨label, -, same⟩ := bind_eq_ok.mp selected
      cases same
      have puts := gives_put ho hr (Graft.onto_check hg) ht
      refine bind_known selected (ends_bind (puts.mono ?_ fun _ _ failed => failed))
      rintro _ _ rfl
      exact ends_pure ⟨rfl, rfl⟩
  | reference =>
      refine ends_bind ((gives_putExpression ho hr hg ht).mono ?_ fun _ _ failed => failed)
      rintro _ _ rfl
      exact ends_pure ⟨rfl, rfl⟩

/-- A check that succeeds changes the memo and the journal. -/
theorem gives_review {uuid version : Value} {rule : Document} {f : Finding} {memo : Memo} {events : List Event}
    (h : s.memo.review uuid version (Finding.ofDocument rule) = .ok (f, memo, events)) :
    Gives (review noteHere uuid version rule) s fun f' s' => f' = f ∧ ∃ journal, s' = { s with memo, journal } := by
  have reports (events : List Event) (s : Session) :
      Gives (events.forM noteHere) s fun _ s' => ∃ journal, s' = { s with journal } := by
    induction events generalizing s with
    | nil => exact ends_pure ⟨s.journal, rfl⟩
    | cons e rest ih =>
        refine bind_noteHere ((ih _).mono ?_ fun _ _ failed => failed)
        rintro _ _ ⟨journal, rfl⟩
        exact ⟨journal, rfl⟩
  unfold review
  refine bind_get (bind_known h (bind_modify (ends_bind ((reports events _).mono ?_ fun _ _ failed => failed))))
  rintro _ _ ⟨journal, rfl⟩
  exact ends_pure ⟨rfl, journal, rfl⟩

/-- Where nothing newer was requested, the rule that was loaded is put in place. -/
theorem gives_resolved {lib : Library} {token epoch : Nat} {rule : Document} {f : Finding}
    (hc : s.isCurrent path token epoch = true) (hk : s.memo.Remembers lib.Recalled)
    (keeps : lib.Keeps summary.uuid rule) (hu : summary.uuid.isKey = true) (hv : rule.version.isKey = true)
    (hh : Finding.ofDocument rule = .ok f) (ho : s.document = some d)
    (hr : Address.steps path = .ok steps) (hf : d.definition.find steps = .ok old)
    (chosen : Chosen path (referenceTo summary rule rule.version f) old new)
    (hg : (Graft.mk steps new).onto s.numeric d.definition = .ok tree)
    (ht : Document.warnings { d with definition := tree } = .ok warnings) :
    Gives (resolved path summary token epoch (.ok rule)) s fun applied s' =>
      applied = true ∧ ∃ memo journal, memo.Remembers lib.Recalled ∧
        s' = { s with document := some { d with definition := tree }, warnings, memo, journal } := by
  unfold resolved
  refine bind_get ?_
  simp only [hc, if_true, keeps.carried, Bool.false_eq_true, if_false]
  obtain ⟨memo, events, reviewed, kept'⟩ := Library.review_eq_ok hk keeps hu hv hh
  refine ends_bind ((gives_review reviewed).mono ?_ fun _ _ failed => failed)
  rintro _ _ ⟨rfl, journal, rfl⟩
  have applies := gives_applyReference (s := { s with memo, journal }) ho hr hf chosen hg ht
  refine ends_bind (applies.mono ?_ fun _ _ failed => failed)
  rintro _ _ ⟨rfl, rfl⟩
  exact bind_noteHere (ends_pure ⟨rfl, memo, _, kept', rfl⟩)

/-- A request that is stale, or a rule that is not available, leaves all but the journal. -/
theorem gives_resolved_not (summary : Summary) {token epoch : Nat} {answer : Except Fault Document}
    (h : (∃ text uuid version, answer = .error (.unavailable text uuid version)) ∨
      ((∃ rule, answer = .ok rule) ∧ s.isCurrent path token epoch = false)) :
    Gives (resolved path summary token epoch answer) s fun applied s' =>
      applied = false ∧ ∃ journal, s' = { s with journal } := by
  unfold resolved
  rcases h with ⟨text, uuid, version, rfl⟩ | ⟨⟨rule, rfl⟩, stale⟩
  · exact bind_noteHere (ends_pure ⟨rfl, _, rfl⟩)
  · refine bind_get ?_
    rw [stale]
    exact bind_noteHere (ends_pure ⟨rfl, _, rfl⟩)

theorem ends_loaded {token epoch : Nat} {answer : Except Fault Document} {Q : Bool → Session → Prop}
    {E : Fault → Session → Prop} (h : Ends (resolved path summary token epoch answer) s Q E) :
    Ends (loaded (.resolving path summary token epoch) answer) s
      (fun p s' => ∃ outcome, p = .finished outcome ∧ ∃ applied, outcome = .resolved applied ∧ Q applied s') E := by
  unfold loaded
  exact ends_bind (h.mono (fun applied s' done => ends_pure ⟨_, rfl, applied, rfl, done⟩) fun _ _ failed => failed)

end Session

/-! ### What a selected rule makes of a reference -/

namespace Chosen

variable {path : String} {steps : List Step} {target : Reference} {old new : Node}

theorem exists_of_target (target : Reference) (hr : Address.steps path = .ok steps) (hi : old.target?.isSome) :
    ∃ new, Chosen path target old new := by
  cases old with
  | reference r => exact ⟨_, .reference⟩
  | ruleCheck name r =>
      obtain ⟨n, known⟩ := Address.position_of_steps hr
      have labelled : ∃ label, Label.afterChange path .reference target.id .null = .ok label := by
        unfold Label.afterChange Label.positional
        rw [known]
        split
        · exact ⟨_, rfl⟩
        · split
          · exact ⟨_, rfl⟩
          · split <;> exact ⟨_, rfl⟩
      obtain ⟨label, labelled⟩ := labelled
      refine ⟨.ruleCheck label target, .check ?_⟩
      unfold Node.selectRule
      rw [labelled]
      rfl
  | _ => cases hi

theorem target_old (chosen : Chosen path target old new) : old.target?.isSome := by
  cases chosen <;> rfl

theorem target_new (chosen : Chosen path target old new) : new.target?.isSome := by
  cases chosen with
  | check selected =>
      obtain ⟨label, -, same⟩ := bind_eq_ok.mp selected
      cases same
      rfl
  | reference => rfl

/-- A selected rule takes the place of a reference, and a reference to it has its type. -/
theorem fits {tree : Node} (chosen : Chosen path target old new) (hf : tree.find steps = .ok old)
    (textual : target.type.Textual) : (Graft.mk steps new).Fits tree := by
  cases chosen with
  | check selected =>
      obtain ⟨label, -, same⟩ := bind_eq_ok.mp selected
      cases same
      exact ⟨⟨_, rfl, trivial⟩, rfl, _, hf, rfl⟩
  | reference => exact ⟨⟨_, rfl, textual⟩, rfl, _, hf, rfl⟩

end Chosen

end RuleEditor
