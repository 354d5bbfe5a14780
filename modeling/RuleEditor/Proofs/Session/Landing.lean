import RuleEditor.Proofs.Session.Opening
import RuleEditor.Proofs.Session.Output
import RuleEditor.Proofs.Session.Selections
import RuleEditor.Proofs.Session.Told
import RuleEditor.Proofs.Tree.Proper
import RuleEditor.Proofs.Tree.Stumbling

/-!
# Selections that do not land

The selection of a rule for a reference lands, or it leaves the rule that is edited as it is: the rule to select may
not be available, the request may be stale, and the path may lead nowhere or to a node that is no reference. In all
these cases the session tells that nothing was put in place. Only along a path that stumbles the selection fails.
-/
namespace RuleEditor

open Session Editing

namespace Node

variable {sc : Scope} {numeric : List String} {node : Node}

theorem Leaf.proper (h : node.Leaf) : node.Proper .expression := ⟨h.type, h.belongs.keyed⟩

theorem IsCondition.proper (h : node.IsCondition) (seat : Seat) : node.Proper seat :=
  ⟨suits_of_type h.named.type seat, h.belongs.keyed⟩

/-- What every edit puts at a seat is proper there, if the nodes and the rules that are brought in are, and the
operators can be looked up. -/
theorem seating_proper (hs : ∀ e, sc.dares (.supply e) → e.Seated Proper .expression)
    (hl : ∀ c left, sc.dares (.lead c left) → left.Seated Proper .expression)
    (hj : ∀ operator, sc.dares (.join operator) → operator.isKey = true)
    (ho : ∀ d, sc.dares (.load d) → d.Seated Proper) : sc.Seating numeric Proper where
  supplied := hs _
  left := hl _ _
  leaf := Leaf.proper
  condition h := h.proper .condition
  nothing := ⟨.inl rfl, nofun⟩
  several := proper_several
  operand h := ⟨h.suits, h.keyed⟩
  right h := ⟨.inr (.inr h.suits), h.keyed⟩
  item := by
    rintro e ⟨suits, keyed⟩ one single
    rcases suits with rfl | ⟨items, rfl⟩ | typed
    · exact absurd rfl one
    · exact absurd rfl (single items)
    · exact ⟨typed, keyed⟩
  inner _ h declared := ⟨suits_of_type ⟨_, declared⟩ _, h.keyed⟩
  outer _ h expression := ⟨suits_of_type (type_of_isExpression expression) _, h.keyed⟩
  cleared _ _ condition := condition.proper _
  filled _ _ h := ⟨suits_of_type h.suits _, h.keyed⟩
  lifted _ _ h named := ⟨suits_of_type named.type _, h.keyed⟩
  call _ := ⟨suits_of_type ⟨_, rfl⟩ _, nofun⟩
  reference _ := ⟨suits_of_type ⟨_, rfl⟩ _, nofun⟩
  choice _ last _ := by
    refine ⟨suits_of_type ?_ _, nofun⟩
    exact last.suits
  joined operator _ := ⟨⟨_, rfl⟩, List.forall_mem_singleton.mpr (hj _ operator)⟩
  rebuilt h _ known :=
    ⟨suits_of_type ⟨_, rfl⟩ _, fun o within => (known o within).elim (h.keyed o) (hj o)⟩
  retyped _ _ _ h retyped := ⟨type_of_isExpression (isExpression_retyped retyped), h.keyed.retyped retyped⟩
  settled slot settled h put := (h.slot slot put).settled settled
  alike slot _ h put := h.slot slot put
  begun := ⟨fun _ => nofun, nofun⟩
  loaded := ho _

/-- A whole definition is no list of operands. -/
theorem Seated.not_several {form : Form} (h : node.Seated Proper (.ofForm form)) :
    ∀ items, node ≠ .several items := by
  rintro items rfl
  have suits := h.here.suits
  cases form with
  | expression =>
      obtain ⟨type, no⟩ := suits
      cases no
  | condition | choice => exact suits items rfl

end Node

/-- A proper rule can be checked. -/
theorem Document.finding_eq_ok {d : Document} (h : d.Seated Node.Proper) : ∃ f, Finding.ofDocument d = .ok f := by
  obtain ⟨type, evaluated⟩ := Node.Seated.evaluates h h.not_several (some d.form)
  refine ⟨Finding.ofTypes d.type type, ?_⟩
  unfold Finding.ofDocument Finding.ofRule
  rw [evaluated]
  rfl

/-- The answer to a load is a proper rule, with a version that can be looked up, or that the rule is not available. -/
def Supplies (answer : Except Fault Document) : Prop :=
  (∃ text uuid version, answer = .error (.unavailable text uuid version)) ∨
    ∃ rule, answer = .ok rule ∧ rule.Seated Node.Proper ∧ rule.version.isKey = true

namespace Session

variable {s : Session} {d : Document} {path : String} {summary : Summary}

/-- The rule came in time, and the path that it was to be put in place at stumbles. -/
def Trips (s : Session) (d : Document) (path : String) (token epoch : Nat) (answer : Except Fault Document) : Prop :=
  (∃ rule, answer = .ok rule) ∧ s.isCurrent path token epoch = true ∧ d.definition.Stumbles path

theorem ends_applyReference (ho : s.document = some d) (hp : d.Seated Node.Proper) (path : String)
    (target : Reference) :
    Ends (applyReference path target) s
      (fun applied s' => ¬ d.definition.Stumbles path ∧ (applied = false → s' = s))
      (fun _ s' => d.definition.Stumbles path ∧ s' = s) := by
  cases at? : d.definition.atPath? path with
  | error fault =>
      unfold applyReference
      refine bind_defined ho ?_
      rw [at?]
      exact ends_bind (ends_throw ⟨Node.stumbles_iff.mpr ⟨fault, at?⟩, rfl⟩)
  | ok old? =>
      have steady : ¬ d.definition.Stumbles path := by
        rw [Node.stumbles_iff]
        rintro ⟨fault, failed⟩
        cases at?.symm.trans failed
      by_cases reference : ∃ old, old? = some old ∧ old.target?.isSome
      · obtain ⟨old, rfl, isSome⟩ := reference
        obtain ⟨steps, read, found⟩ := Node.atPath?_eq_some at?
        obtain ⟨new, chosen⟩ := Chosen.exists_of_target target read isSome
        obtain ⟨tree, grafted, proper'⟩ :=
          Graft.onto_proper (g := ⟨steps, new⟩) hp found chosen.target_new s.numeric
        obtain ⟨warnings, told⟩ := Document.warnings_eq_ok (d := { d with definition := tree }) proper'.leftsTyped
        refine (gives_applyReference ho read found chosen grafted told).mono ?_ fun _ _ failed => failed.elim
        rintro _ _ ⟨rfl, -⟩
        exact ⟨steady, nofun⟩
      · unfold applyReference
        refine bind_defined ho (bind_known at? ?_)
        split
        · exact absurd ⟨_, rfl, rfl⟩ reference
        · exact absurd ⟨_, rfl, rfl⟩ reference
        · exact ends_pure ⟨steady, fun _ => rfl⟩

/-- The selection tells whether the rule was put in place, and fails only where it trips. Unless the rule was put in
place, what is edited stays as it is. -/
theorem ends_resolved (ho : s.document = some d) (hp : d.Seated Node.Proper) (summary : Summary)
    (hu : summary.uuid.isKey = true) (hv : summary.version.isKey = true) (path : String) (token epoch : Nat)
    {answer : Except Fault Document} (supplies : Supplies answer) :
    Ends (resolved path summary token epoch answer) s
      (fun applied s' => ¬ s.Trips d path token epoch answer ∧ (applied = false → s'.document = some d))
      (fun _ s' => s.Trips d path token epoch answer ∧ s'.document = some d) := by
  rcases supplies with ⟨text, u, v, rfl⟩ | ⟨rule, rfl, properRule, versioned⟩
  · refine (gives_resolved_not summary (.inl ⟨text, u, v, rfl⟩)).mono ?_ fun _ _ failed => failed.elim
    rintro _ _ ⟨rfl, journal, rfl⟩
    refine ⟨?_, fun _ => ho⟩
    rintro ⟨⟨_, no⟩, -⟩
    cases no
  cases current : s.isCurrent path token epoch with
  | false =>
      refine (gives_resolved_not summary (.inr ⟨⟨rule, rfl⟩, current⟩)).mono ?_ fun _ _ failed => failed.elim
      rintro _ _ ⟨rfl, journal, rfl⟩
      refine ⟨?_, fun _ => ho⟩
      rintro ⟨-, no, -⟩
      cases current.symm.trans no
  | true =>
      unfold resolved
      refine bind_get ?_
      simp only [current, if_true]
      have known : (if rule.version.isNull then summary.version else rule.version).isKey = true := by
        split
        · exact hv
        · exact versioned
      obtain ⟨f, checked⟩ := Document.finding_eq_ok properRule
      obtain ⟨f', memo, events, reviewed⟩ := s.memo.review_of_checked hu known checked
      refine ends_bind ((gives_review reviewed).mono ?_ fun _ _ failed => failed.elim)
      rintro _ _ ⟨rfl, journal, rfl⟩
      refine ends_bind ((ends_applyReference (s := { s with memo, journal }) ho hp path _).mono ?_ ?_)
      · rintro applied s' ⟨steady, kept⟩
        have lands : ¬ s.Trips d path token epoch (.ok rule) := fun trips => steady trips.2.2
        cases applied with
        | true => exact bind_noteHere (ends_pure ⟨lands, nofun⟩)
        | false =>
            cases kept rfl
            exact bind_noteHere (ends_pure ⟨lands, fun _ => ho⟩)
      · rintro _ _ ⟨stumbles, rfl⟩
        exact ⟨⟨⟨rule, rfl⟩, current, stumbles⟩, ho⟩

end Session

/-- Moves that bring in proper nodes and rules only, and operators that can be looked up. -/
def Bringing : Feat → Prop
  | .supply e => e.Seated Node.Proper .expression
  | .lead _ left => left.Seated Node.Proper .expression
  | .join operator => operator.isKey = true
  | .load d => d.Seated Node.Proper
  | _ => True

namespace Conversation

variable {c : Conversation} {turns : List Turn}

/-- The turn brings in proper expressions and rules only. -/
abbrev BringsProper : Conversation → Turn → Prop :=
  Brings (Node.Seated Node.Proper .expression) (Document.Seated Node.Proper)

theorem within_of_proper (hb : Throughout BringsProper c turns)
    (hk : ∀ t ∈ turns, ∀ operator ∈ t.operators, operator.isKey = true) : Throughout (Within Bringing) c turns := by
  refine hb.mono fun t among c hb feat does => ?_
  cases feat with
  | supply e => exact hb.expressions e (expression_of_supply does)
  | lead c' left => exact hb.expressions left (expression_of_lead does)
  | join operator => exact isKey_of_join (hk t among) does
  | load d => exact hb.rules d does
  | _ => trivial

/-- Every rule that is edited is proper if what is brought in is. -/
theorem proper_run (hn : c.session.document = none)
    (hb : Throughout BringsProper c turns) (hk : ∀ t ∈ turns, ∀ operator ∈ t.operators, operator.isKey = true) :
    (c.run turns).session.Seated Node.Proper := by
  have seating : (Scope.daring Bringing).Seating c.session.numeric Node.Proper :=
    Node.seating_proper (fun _ supplies => supplies) (fun _ _ leads => leads) (fun _ joins => joins) fun _ loads => loads
  exact seated_run seating (fun _ some => by cases hn.symm.trans some) (within_of_proper hb hk)

/-- A call that an answer brings to its end has an outcome, or a fault. -/
theorem outcome?_of_ends {call : Nat} {p : Progress} {a : Answer} {op : Editing Progress}
    {Q : Outcome → Session → Prop} {E : Fault → Session → Prop} (hw : c.waiting.lookup call = some p)
    (hr : p.resume a = some op)
    (h : Ends op c.session (fun q s' => ∃ outcome, q = .finished outcome ∧ Q outcome s') E) :
    (∃ outcome, c.outcome? (.answer call a) = some (.ok outcome) ∧ Q outcome (c.next (.answer call a)).session) ∨
      ∃ fault, c.outcome? (.answer call a) = some (.error fault) ∧ E fault (c.next (.answer call a)).session := by
  unfold Ends at h
  cases ran : op.run c.session with
  | mk result s' =>
      rw [ran] at h
      unfold outcome? next
      cases result with
      | ok q =>
          obtain ⟨outcome, rfl, done⟩ := h
          rw [take_answer hw hr ran]
          exact .inl ⟨outcome, rfl, done⟩
      | error fault =>
          unfold take proceed
          simp only [hw, Option.bind_some, hr, ran]
          exact .inr ⟨fault, rfl, h⟩

/-- The selection of a rule asks for the rule, and changes nothing about the one that is edited. With the answer it ends
and tells whether the rule was put in place; unless it was, the rule that is edited stays as it is. The selection
fails exactly if the rule comes in time and the path stumbles then. -/
theorem selection_lands_or_leaves (catalogue : Catalogue) (settings : Settings) (id : String) (turns : List Turn)
    {s : Session} {c : Conversation} (hs : s = .start catalogue settings id true)
    (hb : Throughout BringsProper (opening s) turns)
    (hk : ∀ t ∈ turns, ∀ operator ∈ t.operators, operator.isKey = true) (hr : c = (opening s).run turns)
    {d : Document} (ho : c.session.document = some d) (path : String) (summary : Summary)
    (hu : summary.uuid.isKey = true) (hv : summary.version.isKey = true) :
    (c.outcome? (.start (.resolveReference path summary)) = none ∧
        (c.next (.start (.resolveReference path summary))).session.document = some d ∧
        ∃ token epoch, (c.next (.start (.resolveReference path summary))).waiting.lookup c.started =
          some (.loading summary.uuid summary.version (.resolving path summary token epoch))) ∧
      ∀ call token epoch answer, c.waiting.lookup call =
          some (.loading summary.uuid summary.version (.resolving path summary token epoch)) → Supplies answer →
        (¬ c.session.Trips d path token epoch answer → ∃ applied,
            c.outcome? (.answer call (.rule answer)) = some (.ok (.resolved applied)) ∧
              (applied = false → (c.next (.answer call (.rule answer))).session.document = some d)) ∧
          (c.session.Trips d path token epoch answer → ∃ fault,
            c.outcome? (.answer call (.rule answer)) = some (.error fault) ∧
              (c.next (.answer call (.rule answer))).session.document = some d) := by
  have connected : c.session.connected = true := by
    rw [hr, connected_run, hs]
    rfl
  have none : s.document = none := hs ▸ rfl
  have proper : d.Seated Node.Proper := by
    subst hr
    exact proper_run none hb hk d ho
  refine ⟨?_, fun call token epoch answer waits supplies => ?_⟩
  · obtain ⟨journal, taken⟩ := take_request connected path summary
    unfold outcome? next
    rw [taken]
    exact ⟨rfl, ho, _, _, List.lookup_cons_self⟩
  · have ends := ends_resolved ho proper summary hu hv path token epoch supplies
    rcases outcome?_of_ends (a := .rule answer) waits rfl (ends_loaded ends) with
      ⟨_, told, applied, rfl, lands, kept⟩ | ⟨fault, failed, trips, kept⟩
    · exact ⟨fun _ => ⟨applied, told, kept⟩, fun trips => absurd trips lands⟩
    · exact ⟨fun lands => absurd trips lands, fun _ => ⟨fault, failed, kept⟩⟩

def wanted : Summary := ⟨age.id, age.uuid, age.version, age.type, age.ruleType, .null⟩

/-- A rule is selected for some path of a new rule, which is a group with one comparison. -/
def selecting (path : String) : List Turn :=
  [.edit (.newRule (.text "condition") .null .null .null .null), .start (.resolveReference path wanted)]

theorem age_proper : age.Seated Node.Proper := Node.seated_field.mpr ⟨⟨_, rfl⟩, nofun⟩

theorem selecting_proper (path : String) :
    Throughout BringsProper (opening served) (selecting path) := ⟨⟨nofun, nofun⟩, ⟨nofun, nofun⟩, trivial⟩

/-- The group has no eighth condition, so the rule that comes is not put in place. -/
theorem selection_leaves_group :
    Throughout BringsProper (opening served) (selecting "root-condition-7") ∧
      (∀ t ∈ selecting "root-condition-7", ∀ operator ∈ t.operators, operator.isKey = true) ∧
      wanted.uuid.isKey = true ∧ wanted.version.isKey = true ∧ Supplies (.ok age) ∧
      ∃ c d, c = (opening served).run (selecting "root-condition-7") ∧ c.session.document = some d ∧
        c.waiting.lookup 0 = some (.loading wanted.uuid wanted.version (.resolving "root-condition-7" wanted 1 1)) ∧
        ¬ c.session.Trips d "root-condition-7" 1 1 (.ok age) ∧ ∃ applied,
          c.outcome? (.answer 0 (.rule (.ok age))) = some (.ok (.resolved applied)) ∧
            (applied = false → (c.next (.answer 0 (.rule (.ok age)))).session.document = some d) := by
  have brings := selecting_proper "root-condition-7"
  have keys : ∀ t ∈ selecting "root-condition-7", ∀ operator ∈ t.operators, operator.isKey = true := by
    simp [selecting, Turn.operators]
  have supplies : Supplies (.ok age) := .inr ⟨age, rfl, age_proper, rfl⟩
  obtain ⟨-, ends⟩ := selection_lands_or_leaves catalogue _ _ _ rfl brings keys rfl rfl "root-condition-7" wanted rfl rfl
  refine ⟨brings, keys, rfl, rfl, supplies, _, _, rfl, rfl, rfl, ?_⟩
  suffices lands : ¬ Session.Trips _ _ "root-condition-7" 1 1 (.ok age) from ⟨lands, (ends 0 1 1 _ rfl supplies).1 lands⟩
  rintro ⟨-, -, stumbles⟩
  obtain ⟨fault, failed⟩ := Node.stumbles_iff.mp stumbles
  cases failed

/-- The right side of the comparison is a single operand, and the index of another path is no number: the rule comes,
and the selection of it fails. -/
theorem selection_stumbles :
    (∀ path, Throughout BringsProper (opening served) (selecting path)) ∧
      (∀ path, ∃ d, ((opening served).run (selecting path)).session.document = some d) ∧ Supplies (.ok age) ∧
      ((opening served).run (selecting "root-condition-0-right-0")).outcome? (.answer 0 (.rule (.ok age))) =
        some (.error .unsuitable) ∧
      ((opening served).run (selecting "root-condition-²")).outcome? (.answer 0 (.rule (.ok age))) =
        some (.error (.unreadableNumber "²")) :=
  ⟨selecting_proper, fun _ => ⟨_, rfl⟩, .inr ⟨age, rfl, age_proper, rfl⟩, rfl, rfl⟩

end Conversation

end RuleEditor
