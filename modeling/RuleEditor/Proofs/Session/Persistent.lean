import RuleEditor.Proofs.Session.Running
import RuleEditor.Session.Conversation

/-!
# Relations that persist

Some relations of a session to what it is later hold however an operation ends. They are reflexive and transitive, they
hold if nothing is counted on in between, and they hold if tokens are made stale or given. Labels that are given, and a
rule that is taken up, are left to the relation itself.
-/
namespace RuleEditor

namespace Session

/-- The sessions have counted alike, labels and rules and tokens. -/
structure SameCounters (s s' : Session) : Prop where
  epoch : s'.epoch = s.epoch
  numbering : s'.numbering = s.numbering
  tokens : s'.tokens = s.tokens
  generation : s'.generation = s.generation

/-- A relation to later sessions that most operations keep. -/
class Persistent (R : Session → Session → Prop) : Prop where
  refl (s : Session) : R s s
  trans {s s' s'' : Session} : R s s' → R s' s'' → R s s''
  aside {s s' : Session} : SameCounters s s' → R s s'
  invalidated (path : String) (s : Session) : R s (s.invalidated path)
  issued (path : String) (s : Session) : R s (s.issued path)

end Session

namespace Editing

open Session

variable {α β : Type} {s : Session}

/-- However the operation ends, the session has the relation to the one after it. -/
def Persists (R : Session → Session → Prop) (op : Editing α) : Prop := ∀ s, R s (op.run s).2

theorem ends_of_after {op : Editing α} {P : Session → Prop} (h : P (op.run s).2) : Ends op s (fun _ => P) fun _ => P := by
  unfold Ends
  split <;> exact h

variable {R : Session → Session → Prop}

theorem Persists.ends {op : Editing α} (h : Persists R op) (s : Session) : Ends op s (fun _ => R s) fun _ => R s :=
  ends_of_after (h s)

/-! ### Putting operations together -/

variable [Persistent R]

theorem Persists.bind {op : Editing α} {f : α → Editing β} (h : Persists R op) (hn : ∀ a, Persists R (f a)) :
    Persists R (op >>= f) := by
  refine fun s => Ends.after (ends_bind ((h.ends s).mono (fun a s' first => ?_) fun _ _ failed => failed))
  exact ((hn a).ends s').mono (fun _ _ => Persistent.trans first) fun _ _ => Persistent.trans first

theorem persists_pure (a : α) : Persists R (pure a) := fun s => Persistent.refl s

theorem persists_throw (fault : Fault) : Persists R (throw fault : Editing α) := fun s => Persistent.refl s

theorem persists_lift (x : Except Fault α) : Persists R (liftM x : Editing α) := by
  intro s
  cases x <;> exact Persistent.refl s

theorem persists_get : Persists R (get : Editing Session) := fun s => Persistent.refl s

theorem persists_modify {change : Session → Session} (h : ∀ s, SameCounters s (change s)) :
    Persists R (modify change : Editing Unit) := fun s => Persistent.aside (h s)

theorem persists_bind_modify {change : Session → Session} {f : Unit → Editing β}
    (ha : ∀ s, SameCounters s (change s)) (hn : Persists R (f ())) : Persists R (modify change >>= f) :=
  (persists_modify ha).bind fun _ => hn

theorem persists_bind_lift {x : Except Fault α} {f : α → Editing β} (h : ∀ a, x = .ok a → Persists R (f a)) :
    Persists R ((liftM x : Editing α) >>= f) := by
  intro s
  cases x with
  | ok a => exact h a rfl s
  | error fault => exact Persistent.refl s

/-! ### Reading and changing the rule -/

theorem persists_note (e : Event) : Persists R (note e) := persists_modify fun _ => ⟨rfl, rfl, rfl, rfl⟩

theorem persists_noteHere (e : Event) : Persists R (noteHere e) := persists_modify fun _ => ⟨rfl, rfl, rfl, rfl⟩

theorem persists_openDocument : Persists R openDocument := by
  unfold openDocument
  refine persists_get.bind fun s => ?_
  split
  · exact persists_pure _
  · exact persists_throw _

theorem persists_definition : Persists R definition := by
  unfold definition
  exact persists_openDocument.bind fun _ => persists_pure _

theorem persists_node (path : String) : Persists R (Session.node path) := by
  unfold Session.node
  exact persists_definition.bind fun _ => persists_lift _

theorem persists_choice : Persists R choice := by
  unfold choice
  refine persists_definition.bind fun _ => ?_
  split
  · exact persists_pure _
  · exact persists_throw _

theorem persists_refreshWarnings : Persists R refreshWarnings := by
  unfold refreshWarnings
  refine persists_openDocument.bind fun _ => (persists_lift _).bind fun _ => ?_
  exact persists_modify fun _ => ⟨rfl, rfl, rfl, rfl⟩

theorem persists_commit (tree : Node) : Persists R (commit tree) := by
  unfold commit
  exact persists_openDocument.bind fun _ => persists_bind_modify (fun _ => ⟨rfl, rfl, rfl, rfl⟩) persists_refreshWarnings

theorem persists_put (path : String) (new : Node) : Persists R (put path new) := by
  unfold put
  refine persists_definition.bind fun _ => (persists_lift _).bind fun _ => (persists_lift _).bind fun _ => ?_
  exact persists_get.bind fun _ => (persists_lift _).bind fun _ => persists_commit _

theorem persists_putExpression (path : String) (e : Node) : Persists R (putExpression path e) := by
  unfold putExpression
  refine persists_definition.bind fun _ => ?_
  split
  · refine (persists_lift _).bind fun _ => ?_
    split
    · exact (persists_lift _).bind fun _ => persists_commit _
    · exact persists_commit _
    · exact persists_put _ _
  · exact persists_put _ _

theorem persists_invalidate (path : String) : Persists R (invalidate path) := Persistent.invalidated path

theorem persists_issueToken (path : String) : Persists R (issueToken path) := Persistent.issued path

/-! ### Edits -/

theorem persists_replaceRemoved (path : String) : Persists R (replaceRemoved path) := by
  unfold replaceRemoved
  refine (persists_invalidate _).bind fun _ => (persists_lift _).bind fun _ => persists_get.bind fun _ => ?_
  exact (persists_lift _).bind fun _ => persists_put _ _

theorem persists_removeBranchCondition (path : String) (i : Nat) : Persists R (removeBranchCondition path i) := by
  unfold removeBranchCondition
  refine persists_choice.bind fun _ => ?_
  split
  · exact (persists_invalidate _).bind fun _ => (persists_lift _).bind fun _ => persists_commit _
  · exact persists_replaceRemoved _

theorem persists_removeUp (depth : Nat) (path : String) : Persists R (removeUp depth path) := by
  induction depth generalizing path with
  | zero => exact persists_replaceRemoved _
  | succ depth ih =>
      unfold removeUp
      refine (persists_lift _).bind fun _ => ?_
      split
      · exact persists_removeBranchCondition _ _
      · exact persists_replaceRemoved _
      · refine (persists_lift _).bind fun _ => (persists_node _).bind fun _ => ?_
        split
        · refine (persists_invalidate _).bind fun _ => persists_bind_modify (fun _ => ⟨rfl, rfl, rfl, rfl⟩) ?_
          split
          · exact persists_throw _
          · refine (persists_lift _).bind fun _ => ?_
            split
            · exact persists_put _ _
            · exact (persists_note _).bind fun _ => ih _
        · exact persists_throw _

theorem persists_setExpression (path : String) (e : Node) : Persists R (setExpression path e) := by
  unfold setExpression
  exact (persists_invalidate _).bind fun _ => persists_putExpression _ _

theorem persists_operatorOr (operator : Value) (type : Except Fault Value) :
    Persists R (operatorOr operator type) := by
  unfold operatorOr
  split
  · exact persists_pure _
  · exact persists_get.bind fun _ => (persists_lift _).bind fun _ => (persists_lift _).bind fun _ => persists_pure _

theorem persists_insertOperand (path : String) (after : Int) (operator : Value) :
    Persists R (insertOperand path after operator) := by
  unfold insertOperand
  refine (persists_node _).bind fun _ => (persists_operatorOr _ _).bind fun _ => (persists_lift _).bind fun _ => ?_
  refine persists_get.bind fun _ => (persists_lift _).bind fun _ => ?_
  exact (persists_invalidate _).bind fun _ => persists_put _ _

theorem persists_removeOperand (path : String) (index : Int) : Persists R (removeOperand path index) := by
  unfold removeOperand
  refine persists_bind_modify (fun _ => ⟨rfl, rfl, rfl, rfl⟩) ((persists_node _).bind fun _ => ?_)
  refine (persists_lift _).bind fun _ => persists_get.bind fun _ => ?_
  exact (persists_lift _).bind fun _ => persists_setExpression _ _

theorem persists_renameCondition (path : String) (name : Value) : Persists R (renameCondition path name) := by
  unfold renameCondition
  refine (persists_node _).bind fun _ => (persists_lift _).bind fun _ => (persists_lift _).bind fun _ => ?_
  split
  · exact persists_put _ _
  · refine (persists_node _).bind fun _ => ?_
    split
    · refine (persists_lift _).bind fun _ => ?_
      split
      · exact (persists_lift _).bind fun _ => persists_put _ _
      · exact persists_throw _
    · exact persists_put _ _

theorem persists_clearReference (path : String) : Persists R (clearReference path) := by
  unfold clearReference
  refine (persists_issueToken _).bind fun _ => (persists_node _).bind fun _ => ?_
  split
  · exact (persists_lift _).bind fun _ => (persists_put _ _).bind fun _ => persists_noteHere _
  · exact (persists_setExpression _ _).bind fun _ => persists_noteHere _
  · exact (persists_throw _).bind fun _ => persists_noteHere _

theorem persists_initial (form type : Value) : Persists R (initial form type) := by
  unfold initial
  refine persists_get.bind fun _ => ?_
  split
  · exact (persists_lift _).bind fun _ => persists_pure _
  · exact (persists_lift _).bind fun _ => persists_pure _
  · exact (persists_lift _).bind fun _ => persists_pure _
  · exact persists_throw _

/-! ### Errands -/

theorem persists_requireService : Persists R requireService := by
  unfold requireService
  refine persists_get.bind fun _ => ?_
  split
  · exact persists_pure _
  · exact persists_throw _

theorem persists_referenceTypes : Persists R referenceTypes := by
  unfold referenceTypes
  refine persists_get.bind fun _ => ?_
  split
  · exact persists_pure _
  · split
    · exact persists_pure _
    · exact (persists_note _).bind fun _ => persists_pure _

theorem persists_searchReferences (query : Value) : Persists R (searchReferences query) := by
  unfold searchReferences
  refine persists_referenceTypes.bind fun _ => ?_
  split
  · exact persists_pure _
  · exact persists_requireService.bind fun _ => persists_pure _

theorem persists_found (answer : Except Fault (List Summary)) : Persists R (found answer) := by
  unfold found
  split
  · exact persists_pure _
  · exact (persists_note _).bind fun _ => persists_pure _
  · exact persists_throw _

theorem persists_review {report : Event → Editing Unit} (h : ∀ e, Persists R (report e))
    (uuid version : Value) (d : Document) : Persists R (review report uuid version d) := by
  have reports (events : List Event) : Persists R (events.forM report) := by
    induction events with
    | nil => exact persists_pure _
    | cons e rest ih => exact (h e).bind fun _ => ih
  unfold review
  refine persists_get.bind fun _ => (persists_lift _).bind fun _ => ?_
  exact persists_bind_modify (fun _ => ⟨rfl, rfl, rfl, rfl⟩) ((reports _).bind fun _ => persists_pure _)

theorem persists_applyReference (path : String) (target : Reference) :
    Persists R (applyReference path target) := by
  unfold applyReference
  refine persists_definition.bind fun _ => (persists_lift _).bind fun _ => ?_
  split
  · exact (persists_lift _).bind fun _ => (persists_put _ _).bind fun _ => persists_pure _
  · exact (persists_putExpression _ _).bind fun _ => persists_pure _
  · exact persists_pure _

theorem persists_resolveReference (path : String) (summary : Summary) :
    Persists R (resolveReference path summary) := by
  unfold resolveReference
  refine persists_requireService.bind fun _ => (persists_issueToken _).bind fun _ => ?_
  exact (persists_noteHere _).bind fun _ => persists_get.bind fun _ => persists_pure _

theorem persists_resolved (path : String) (summary : Summary) (token epoch : Nat) (answer : Except Fault Document) :
    Persists R (resolved path summary token epoch answer) := by
  have discards (e : Event) : Persists R (do noteHere e; return false) :=
    (persists_noteHere e).bind fun _ => persists_pure _
  unfold resolved
  split
  · exact discards _
  · exact persists_throw _
  · refine persists_get.bind fun _ => ?_
    split
    · refine (persists_review persists_noteHere _ _ _).bind fun _ => (persists_applyReference _ _).bind fun _ => ?_
      split
      · exact (persists_noteHere _).bind fun _ => persists_pure _
      · exact discards _
    · exact discards _

theorem persists_writeFinding (r : Refresh) (path : String) (target : Reference) (f : Finding) (tree : Node) :
    Persists R (writeFinding r path target f tree) := by
  unfold writeFinding
  refine persists_get.bind fun _ => ?_
  split
  · exact (persists_note _).bind fun _ => persists_pure _
  · refine (persists_lift _).bind fun _ => ?_
    split
    · exact persists_pure _
    · exact (persists_note _).bind fun _ => persists_pure _

theorem persists_writeFindings (r : Refresh) (checks : List (String × Reference × Finding)) (tree : Node) :
    Persists R (writeFindings r checks tree) := by
  induction checks generalizing tree with
  | nil => exact persists_pure _
  | cons check rest ih =>
      unfold writeFindings
      refine (persists_writeFinding _ _ _ _ _).bind fun _ => ?_
      split
      · exact (ih _).bind fun _ => persists_pure _
      · exact ih _

theorem persists_finishRefresh (r : Refresh) : Persists R (finishRefresh r) := by
  unfold finishRefresh
  refine persists_definition.bind fun _ => (persists_writeFindings _ _ _).bind fun out => ?_
  show Persists R (if 0 < out.2 then _ else _)
  split
  · exact (persists_commit _).bind fun _ => persists_pure _
  · exact persists_pure _

theorem persists_advance (opening : Bool) (r : Refresh) (remaining : List (String × Reference)) :
    Persists R (advance opening r remaining) := by
  induction remaining generalizing r with
  | nil => exact (persists_finishRefresh _).bind fun _ => persists_pure _
  | cons next rest ih =>
      unfold advance
      refine persists_get.bind fun _ => (persists_lift _).bind fun _ => ?_
      split
      · exact ih _
      · exact persists_requireService.bind fun _ => persists_pure _

theorem persists_tokensOf (paths : List String) : Persists R (tokensOf paths) := by
  induction paths with
  | nil => exact persists_pure _
  | cons path rest ih =>
      have token : Persists R (currentToken path) := by
        unfold currentToken
        refine persists_get.bind fun _ => ?_
        split
        · exact persists_pure _
        · exact persists_issueToken _
      exact token.bind fun _ => ih.bind fun _ => persists_pure _

theorem persists_refresh (opening : Bool) : Persists R (refresh opening) := by
  unfold refresh
  refine persists_definition.bind fun _ => (persists_tokensOf _).bind fun _ => ?_
  exact persists_get.bind fun _ => persists_advance _ _ _

theorem persists_refreshed (opening : Bool) (r : Refresh) (answer : Except Fault Document) :
    Persists R (refreshed opening r answer) := by
  unfold refreshed
  split
  · exact persists_advance _ _ _
  · exact (persists_review persists_note _ _ _).bind fun _ => persists_advance _ _ _
  · exact (persists_note _).bind fun _ => persists_advance _ _ _
  · exact persists_throw _

theorem persists_save : Persists R save := by
  unfold save
  refine persists_definition.bind fun _ => (persists_lift _).bind fun _ => ?_
  exact persists_openDocument.bind fun _ => persists_pure _

theorem persists_restore (version : Int) : Persists R (restore version) := by
  unfold restore
  refine persists_get.bind fun _ => ?_
  split
  · split
    · exact persists_pure _
    · exact persists_throw _
  · exact persists_throw _

theorem persists_written (next : AfterWrite) (answer : Except Fault Saved) : Persists R (written next answer) := by
  unfold written
  refine (persists_lift _).bind fun _ => ?_
  split
  · refine persists_openDocument.bind fun _ => persists_bind_modify (fun _ => ⟨rfl, rfl, rfl, rfl⟩) ?_
    exact (persists_noteHere _).bind fun _ => persists_pure _
  · exact (persists_noteHere _).bind fun _ => persists_pure _

end Editing

open Session Editing

variable {R : Session → Session → Prop} [Persistent R]

namespace Edit

/-- The edit gives no label, and takes up no rule. -/
def Plain : Edit → Prop
  | .newRule .. | .loadRule _ | .addCondition _ | .addConditionGroup _ | .changeConditionKind .. | .addBranch
  | .changeBranchKind .. => False
  | _ => True

theorem persists {e : Edit} (plain : e.Plain) : Persists R e.perform := by
  cases e with
  | newRule | loadRule | addCondition | addConditionGroup | changeConditionKind | addBranch | changeBranchKind =>
      exact plain.elim
  | removeCondition path => exact (persists_lift _).bind fun _ => persists_removeUp _ _
  | renameCondition path name => exact persists_renameCondition path name
  | setConjunction | toggleNegation =>
      exact (persists_node _).bind fun _ => (persists_lift _).bind fun _ => persists_put _ _
  | reorderConditions | changeLeft =>
      exact (persists_invalidate _).bind fun _ => (persists_node _).bind fun _ => (persists_lift _).bind fun _ =>
        (persists_lift _).bind fun _ => persists_put _ _
  | changeOperator | removeRightOperand =>
      exact (persists_invalidate _).bind fun _ => (persists_node _).bind fun _ => (persists_lift _).bind fun _ =>
        persists_get.bind fun _ => (persists_lift _).bind fun _ => persists_put _ _
  | addRightOperand | updateOperator =>
      exact (persists_node _).bind fun _ => (persists_lift _).bind fun _ => persists_get.bind fun _ =>
        (persists_lift _).bind fun _ => persists_put _ _
  | setExpression path e => exact persists_setExpression path e
  | changeSource =>
      exact (persists_node _).bind fun _ => persists_get.bind fun _ => (persists_lift _).bind fun _ =>
        persists_setExpression _ _
  | wrapExpression =>
      exact (persists_node _).bind fun _ => (persists_operatorOr _ _).bind fun _ => persists_get.bind fun _ =>
        (persists_lift _).bind fun _ => persists_setExpression _ _
  | insertOperand path after operator => exact persists_insertOperand path after operator
  | appendOperand =>
      exact (persists_node _).bind fun _ => (persists_lift _).bind fun _ => persists_insertOperand _ _ _
  | removeOperand path index => exact persists_removeOperand path index
  | removeBranch =>
      exact (persists_invalidate _).bind fun _ => persists_choice.bind fun _ => (persists_lift _).bind fun _ =>
        persists_commit _
  | setResultLabel => exact persists_choice.bind fun _ => (persists_lift _).bind fun _ => persists_commit _
  | setOtherwiseLabel => exact persists_choice.bind fun _ => persists_commit _
  | clearReference path => exact persists_clearReference path

end Edit

theorem Query.persists (q : Query) : Persists R q.perform := by
  cases q with
  | node path => exact (persists_node _).bind fun _ => persists_pure _
  | availableOperators path =>
      refine Persists.bind ?_ fun _ => persists_pure _
      unfold Session.availableOperators
      refine (persists_node _).bind fun _ => (persists_lift _).bind fun _ => persists_get.bind fun _ => ?_
      exact (persists_lift _).bind fun _ => persists_lift _
  | resultLabel index => exact (persists_choice.bind fun _ => persists_lift _).bind fun _ => persists_pure _
  | otherwiseLabel => exact (persists_choice.bind fun _ => persists_lift _).bind fun _ => persists_pure _
  | referenceTypes => exact persists_referenceTypes.bind fun _ => persists_pure _
  | output =>
      refine Persists.bind ?_ fun _ => persists_pure _
      unfold Session.output
      refine persists_definition.bind fun _ => (persists_lift _).bind fun _ => ?_
      exact persists_openDocument.bind fun _ => persists_lift _

theorem Errand.persists (errand : Errand) : Persists R errand.start := by
  cases errand with
  | openRule uuid version => exact persists_requireService.bind fun _ => persists_pure _
  | searchReferences query => exact persists_searchReferences query
  | resolveReference path summary => exact persists_resolveReference path summary
  | refreshReferences => exact persists_refresh false
  | save => exact persists_save
  | restore version => exact persists_restore version

end RuleEditor
