import RuleEditor.Proofs.Session.Mirror

/-!
# Starting a rule

A new rule can be started if its form is known, and the catalogue and the settings have what it begins with. The
session puts the rule before it away first and finds that out afterwards: where a new rule cannot be started, the
document of the rule before stays open, but all that belongs to its editing is gone.
-/
namespace RuleEditor

/-- New conditions have an operator to begin with. -/
def Catalogue.StartsConditions (c : Catalogue) : Prop :=
  ∃ t operator, c.types.get? "number" = some t ∧ t.comparison = some operator ∧ operator ≠ ""

/-- The value can be the type of a rule that begins with an empty value of its type. -/
def Value.CanType (type : Value) : Prop := type.isPresent = true ∧ type.isKey = true

/-! ### What a rule begins with -/

theorem Catalogue.given?_eq_some {given : Option String} {text : String} :
    given? given = some text ↔ given = some text ∧ text ≠ "" := by
  simp [given?, Option.filter_eq_some_iff]

theorem Catalogue.defaultComparison_eq_ok {c : Catalogue} {type operator : String} :
    c.defaultComparison (.text type) = .ok operator ↔
      ∃ t, c.types.get? type = some t ∧ t.comparison = some operator ∧ operator ≠ "" := by
  have known : c.defaultComparison (.text type) = .ok operator ↔
      ((c.types.get? type).bind fun t => given? t.comparison) = some operator := by
    simp only [defaultComparison, entry?, ok_bind]
    split <;> rename_i same <;> simp [same, throw, throwThe, MonadExceptOf.throw]
  simp only [known, Option.bind_eq_some_iff, given?_eq_some]

namespace Fresh

variable {c : Catalogue} {type : Value}

theorem literal_ok_iff : (type.isPresent = true ∧ ∃ node, literal type = .ok node) ↔ type.CanType := by
  refine and_congr_right fun present => ?_
  have missing : type.isMissing = false := by simpa only [Value.isPresent, Bool.not_eq_true'] using present
  unfold literal value
  simp only [Value.orElse, missing, Bool.false_eq_true, if_false]
  split <;> simp_all [Except.map, Value.isKey]

theorem condition_ok_iff (name : Value) : (∃ node, condition c name = .ok node) ↔ c.StartsConditions := by
  constructor
  · rintro ⟨node, made⟩
    obtain ⟨operator, default, -⟩ := bind_eq_ok.mp made
    obtain ⟨t, known⟩ := Catalogue.defaultComparison_eq_ok.mp default
    exact ⟨t, operator, known⟩
  · rintro ⟨t, operator, known⟩
    have default := Catalogue.defaultComparison_eq_ok.mpr ⟨t, known⟩
    exact ⟨_, by rw [condition, comparison, default]; rfl⟩

theorem group_ok_iff {name child : Value} : (∃ node, group c name [child] = .ok node) ↔ c.StartsConditions := by
  rw [← condition_ok_iff child]
  cases made : condition c child <;> simp [group, conditions, made]

theorem choice_ok_iff :
    (type.isPresent = true ∧ ∃ node, choice c type = .ok node) ↔ c.StartsConditions ∧ type.CanType := by
  rw [← condition_ok_iff (.text "Condition 1"), ← literal_ok_iff]
  cases made : condition c (.text "Condition 1") <;> cases empty : literal type <;>
    simp [choice, branch, made, empty]

end Fresh

/-- A document can be made of a known form and a type that is there. -/
theorem Document.make_ok_iff (form type ruleType uuid version id description : Value) (node : Node) :
    (∃ d, make form type node ruleType uuid version id description = .ok d) ↔
      (Form.ofValue? form).isSome = true ∧ type.isPresent = true := by
  unfold make
  cases Form.ofValue? form <;> cases missing : type.isMissing <;> simp [Value.isPresent, missing]

namespace Session

open Editing

variable {s s' : Session} {form type ruleType id description : Value}

/-- What a new rule begins with is there. -/
def Startable (s : Session) (form type : Value) : Prop :=
  match Form.ofValue? form with
  | some .condition => s.catalogue.StartsConditions
  | some .choice => s.catalogue.StartsConditions ∧ (type.orElse (.text s.settings.defaultType)).CanType
  | some .expression => (type.orElse (.text "number")).CanType
  | none => False

/-- Looking up where a rule begins fails, or gives a beginning with a type, exactly as it should. -/
theorem ends_beginning {x : Except Fault Node} {needed : Prop}
    (h : (type.isPresent = true ∧ ∃ node, x = .ok node) ↔ needed) :
    Ends ((liftM x : Editing Node) >>= fun node => pure (node, type)) s
      (fun start s' => s' = s ∧ (start.2.isPresent = true ↔ needed)) (fun _ s' => s' = s ∧ ¬ needed) := by
  refine ends_bind (ends_lift (fun node there => ends_pure ⟨rfl, ?_⟩) fun fault failed => ⟨rfl, fun has => ?_⟩)
  · exact ⟨fun present => h.mp ⟨present, node, there⟩, fun has => (h.mpr has).1⟩
  · obtain ⟨-, node, there⟩ := h.mpr has
    cases failed.symm.trans there

/-- What a new rule begins with is looked up without a change. -/
theorem initial_ends : Ends (initial form type) s
    (fun start s' => s' = s ∧ (((Form.ofValue? form).isSome = true ∧ start.2.isPresent = true) ↔ s.Startable form type))
    (fun _ s' => s' = s ∧ ¬ s.Startable form type) := by
  unfold initial
  refine bind_get ?_
  split <;> rename_i known <;> simp only [Startable, known, Option.isSome_some, true_and]
  · exact ends_beginning ((and_iff_right rfl).trans Fresh.group_ok_iff)
  · exact ends_beginning Fresh.choice_ok_iff
  · exact ends_beginning Fresh.literal_ok_iff
  · exact ends_throw ⟨rfl, fun none => none⟩

/-- A new rule is started exactly if it can be. Otherwise the rule before it has been put away all the same. -/
theorem newRule_spec : Ends (newRule form type ruleType id description) s (fun _ _ => s.Startable form type)
    (fun _ s' => ¬ s.Startable form type ∧ s' = s.restarted (Form.ofValue? form) true) := by
  unfold newRule
  refine bind_reset (ends_bind (initial_ends.mono ?_ ?_))
  · rintro start _ ⟨rfl, startable⟩
    have made := Document.make_ok_iff form start.2 ruleType .null (.int 1) id description start.1
    refine ends_bind (ends_lift (fun d done => ?_) fun fault failed => ⟨fun can => ?_, rfl⟩)
    · exact bind_modify (ends_modify (startable.mp (made.mp ⟨d, done⟩)))
    · obtain ⟨d, done⟩ := made.mpr (startable.mpr can)
      cases failed.symm.trans done
  · rintro fault _ ⟨rfl, cannot⟩
    exact ⟨cannot, rfl⟩

/-! ### What a rule that is not started leaves behind -/

/-- The rule and all that belongs to its editing are as before, and what is asked for the rule can still land. -/
structure Undisturbed (s s' : Session) : Prop where
  document : s'.document = s.document
  warnings : s'.warnings = s.warnings
  isNew : s'.isNew = s.isNew
  numbering : s'.numbering = s.numbering
  expansion : s'.expansion = s.expansion
  tokens : s'.tokens = s.tokens
  pending : ∀ t : Ticket, t.Current s → t.Current s'

/-- There is nothing in the session that a rule of a form does not begin with. -/
structure Blank (form : Option Form) (s : Session) : Prop where
  warnings : s.warnings = []
  isNew : s.isNew = true
  numbering : s.numbering = .fresh
  expansion : s.expansion = .start form true
  tokens : s.tokens = []

theorem undisturbed_restarted_iff {form : Option Form} : s.Undisturbed (s.restarted form true) ↔ s.Blank form := by
  constructor
  · rintro ⟨-, warnings, isNew, numbering, expansion, tokens, -⟩
    exact ⟨warnings.symm, isNew.symm, numbering.symm, expansion.symm, tokens.symm⟩
  · rintro ⟨warnings, isNew, numbering, expansion, tokens⟩
    refine ⟨rfl, warnings.symm, isNew.symm, numbering.symm, expansion.symm, tokens.symm, fun t current => ?_⟩
    have token := (isCurrent_iff.mp current).2
    rw [tokens] at token
    cases token

/-- A new rule fails to start exactly if something that it begins with is missing. The document of the rule before
stays open then. The session as a whole is as before exactly if it was blank. -/
theorem starting_atomic_iff (s : Session) (form type ruleType id description : Value) :
    let e := Edit.newRule form type ruleType id description
    ((∃ fault, (e.perform.run s).1 = .error fault) ↔ ¬ s.Startable form type) ∧
      (¬ s.Startable form type → (s.after e).document = s.document) ∧
      ((∀ fault, (e.perform.run s).1 = .error fault → s.Undisturbed (s.after e)) ↔
        s.Startable form type ∨ s.Blank (Form.ofValue? form)) := by
  intro e
  have spec : Ends e.perform s (fun _ _ => s.Startable form type)
      (fun _ s' => ¬ s.Startable form type ∧ s' = s.restarted (Form.ofValue? form) true) := newRule_spec
  cases result : (e.perform.run s).1 with
  | ok done =>
      have can := spec.ok result
      refine ⟨⟨nofun, fun cannot => absurd can cannot⟩, fun cannot => absurd can cannot, fun _ => .inl can, ?_⟩
      exact fun _ => nofun
  | error fault =>
      obtain ⟨cannot, left⟩ := spec.error result
      have after : s.after e = s.restarted (Form.ofValue? form) true := left
      rw [after, undisturbed_restarted_iff]
      refine ⟨⟨fun _ => cannot, fun _ => ⟨fault, rfl⟩⟩, fun _ => rfl, fun blank => .inr (blank fault rfl), ?_⟩
      rintro (can | blank) _ _
      · exact absurd can cannot
      · exact blank

end Session

namespace Conversation

open Session

/-- A rule with a warning that blocks it is open, and another rule is selected for its reference. -/
def blaming : Conversation :=
  (opening served).run [.edit (.loadRule blamed), .start (.resolveReference "root" selected)]

def tabling : Edit := .newRule (.text "table") .null .null .null .null

/-- No rule has the form of a table. The rule that stays open has lost its warnings, counts as new, and what is
selected for its reference is not put in place any more. -/
theorem tabling_disturbs :
    (tabling.perform.run blaming.session).1 = .error (.unknownForm (.text "table")) ∧
      (blaming.session.after tabling).document = some blamed ∧ blaming.session.document = some blamed ∧
      blaming.session.hasBlockingWarnings = true ∧ (blaming.session.after tabling).warnings = [] ∧
      blaming.session.isNew = false ∧ (blaming.session.after tabling).isNew = true ∧
      blaming.outcome? (.answer 0 (.rule (.ok adult))) = some (.ok (.resolved true)) ∧
      (blaming.next (.edit tabling)).outcome? (.answer 0 (.rule (.ok adult))) = some (.ok (.resolved false)) ∧
      ¬ blaming.session.Undisturbed (blaming.session.after tabling) := by
  refine ⟨rfl, rfl, rfl, rfl, rfl, rfl, rfl, rfl, rfl, fun same => ?_⟩
  exact absurd same.isNew (by decide)

end Conversation

end RuleEditor
