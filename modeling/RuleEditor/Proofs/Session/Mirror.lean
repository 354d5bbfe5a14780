import RuleEditor.Proofs.Session.Staleness
import RuleEditor.Proofs.Session.Told

/-!
# Warnings mirror the rule

After any run in which every place for an expression is given a node that declares a type, and no new rule fails to
start, the warnings of a session are those of the rule that it holds: they are found under the paths of the selected
references that there is something to say about. An edit that fails leaves the rule and the warnings as they are.
-/
namespace RuleEditor

namespace Document

variable {d : Document} {steps : List Step} {node : Node} {here : List Warning} {told : Members (List Warning)}

/-- A rule is selected here that does not have the type that it declares, or not the one that is needed here. -/
def Warrants (d : Document) (steps : List Step) (node : Node) : Prop :=
  ∃ target required, node.target? = some target ∧ target.isResolved = true ∧
    d.requiredType steps node = .ok required ∧
    (target.mismatch = some true ∨ Finding.differ target.type required = true)

/-- There are warnings about a node exactly if it warrants some. -/
theorem warrants_iff (h : d.warningsAt steps node = .ok here) : here.isEmpty = false ↔ d.Warrants steps node := by
  unfold warningsAt at h
  by_cases selected : ∃ target, node.target? = some target ∧ target.isResolved = true
  · obtain ⟨target, is, resolved⟩ := selected
    simp only [is, resolved, Bool.not_true, Bool.false_eq_true, if_false] at h
    obtain ⟨required, known, h⟩ := bind_eq_ok.mp h
    cases h
    have warrants : d.Warrants steps node ↔ target.mismatch = some true ∨ Finding.differ target.type required = true := by
      constructor
      · rintro ⟨target', required', same, -, known', why⟩
        cases is.symm.trans same
        cases known.symm.trans known'
        exact why
      · exact fun why => ⟨target, required, is, resolved, known, why⟩
    rw [warrants]
    by_cases mismatch : target.mismatch = some true
    · simp [mismatch]
    · by_cases differ : Finding.differ target.type required = true <;> simp [mismatch, differ]
  · have silent : here = [] := by
      split at h
      · exact (Except.ok.inj h).symm
      · rename_i target is
        rw [if_pos (by simpa using fun resolved => selected ⟨target, is, resolved⟩)] at h
        exact (Except.ok.inj h).symm
    subst silent
    refine ⟨nofun, ?_⟩
    rintro ⟨target, required, is, resolved, -⟩
    exact absurd ⟨target, is, resolved⟩ selected

/-- The warnings are about the nodes that warrant some. -/
theorem mem_warnings_iff (h : d.warnings = .ok told) (path : String) :
    path ∈ told.map (·.1) ↔ ∃ steps node, (steps, node) ∈ d.definition.positions ∧
      path = Address.render d.definition.root steps ∧ d.Warrants steps node := by
  have among (positions : List (List Step × Node)) {told : Members (List Warning)}
      (h : d.warningsAmong positions = .ok told) :
      path ∈ told.map (·.1) ↔ ∃ p ∈ positions, path = Address.render d.definition.root p.1 ∧ d.Warrants p.1 p.2 := by
    induction positions generalizing told with
    | nil =>
        cases h
        exact ⟨nofun, fun ⟨_, no, _⟩ => nomatch no⟩
    | cons p rest ih =>
        obtain ⟨here, at?, h⟩ := bind_eq_ok.mp h
        obtain ⟨others, below, h⟩ := bind_eq_ok.mp h
        cases h
        simp only [List.mem_cons, exists_eq_or_imp]
        rw [← ih below, ← warrants_iff at?]
        cases empty : here.isEmpty <;> simp
  rw [among _ h]
  exact ⟨fun ⟨p, h⟩ => ⟨p.1, p.2, h⟩, fun ⟨steps, node, h⟩ => ⟨(steps, node), h⟩⟩

end Document

/-- Moves that bring in trees with a type in each place of an expression, and put no rule away. -/
def Telling : Feat → Prop
  | .supply e => e.Seated Node.Declares .expression
  | .lead _ left => left.Seated Node.Declares .expression
  | .load d => d.Seated Node.Declares
  | .abandon => False
  | _ => True

namespace Conversation

open Session

variable {c : Conversation} {t : Turn} {turns : List Turn} {e : Edit} {fault : Fault}

/-- The turn brings in trees with a type in each place of an expression. -/
abbrev BringsTyped : Conversation → Turn → Prop :=
  Brings (Node.Seated Node.Declares .expression) (Document.Seated Node.Declares)

theorem within_telling (hb : c.BringsTyped t) (hk : ¬ c.Dares t .abandon) : c.Within Telling t := by
  intro feat does
  cases feat with
  | supply e => exact hb.expressions e (expression_of_supply does)
  | lead c' left => exact hb.expressions left (expression_of_lead does)
  | load d => exact hb.rules d does
  | abandon => exact hk does
  | _ => trivial

theorem seating_telling {numeric : List String} : (Scope.daring Telling).Seating numeric Node.Declares :=
  Node.seating_declares (fun _ supplies => supplies) (fun _ _ leads => leads) fun _ loads => loads

/-- An edit that fails has not touched the rule: if it had put one in place, its warnings could be told. -/
theorem failed_edit_keeps (hd : c.session.Seated Node.Declares) (hb : c.BringsTyped (.edit e))
    (ho : ¬ e.Begins) (hf : (e.perform.run c.session).1 = .error fault) :
    (c.session.after e).document = c.session.document ∧ (c.session.after e).warnings = c.session.warnings := by
  have allowed : e.Allowed .any c.session :=
    ⟨fun _ _ => trivial, fun _ _ => trivial, fun _ _ _ _ _ _ _ _ _ => trivial, fun _ _ => trivial, fun _ _ => trivial⟩
  rcases e.spares (fun _ _ _ _ => trivial) allowed ho hf with kept | ⟨d, fault', opened, untold⟩
  · exact kept
  · have keeps : ¬ c.Dares (.edit e) .abandon := by
      rintro ⟨form, type, ruleType, id, description, _, same, -⟩
      exact ho ⟨form, type, ruleType, id, description, same⟩
    have seated := (moves_of_within (within_telling hb keeps)).seated seating_telling hd
    obtain ⟨warnings, told⟩ := Document.warnings_eq_ok (seated d opened).leftsDeclared
    cases told.symm.trans untold

/-- In every conversation the warnings are those of the rule that is edited, under the paths of the references that
warrant them. Whatever fails then, an edit or a look-up, changes neither the rule nor the warnings; only a new rule
that cannot be started does. -/
theorem warnings_mirror_rule (catalogue : Catalogue) (settings : Settings) (id : String) (connected : Bool)
    (turns : List Turn) {s : Session} {c : Conversation} (hs : s = .start catalogue settings id connected)
    (hb : Throughout BringsTyped (opening s) turns)
    (hk : Throughout (fun c t => ¬ c.Dares t .abandon) (opening s) turns) (hr : c = (opening s).run turns) :
    (∀ d, c.session.document = some d → d.warnings = .ok c.session.warnings ∧
        ∀ path, path ∈ c.session.warnings.map (·.1) ↔ ∃ steps node, (steps, node) ∈ d.definition.positions ∧
          path = Address.render d.definition.root steps ∧ d.Warrants steps node) ∧
      (∀ e fault, ¬ Edit.Begins e → c.BringsTyped (.edit e) → (e.perform.run c.session).1 = .error fault →
        (c.session.after e).document = c.session.document ∧ (c.session.after e).warnings = c.session.warnings) ∧
      ∀ q : Query, (q.perform.run c.session).2.document = c.session.document ∧
        (q.perform.run c.session).2.warnings = c.session.warnings := by
  have none : s.document = none := hs ▸ rfl
  have within : Throughout (Within Telling) (opening s) turns :=
    (hb.and hk).mono fun _ _ _ h => within_telling h.1 h.2
  have moves : Moves (.daring Telling) s c.session := hr ▸ moves_run within
  have declared : c.session.Seated Node.Declares :=
    moves.seated seating_telling fun _ some => by cases none.symm.trans some
  have told : c.session.Told :=
    moves.told (fun abandons => abandons) seating_telling (fun _ some => by cases none.symm.trans some)
      fun _ some => by cases none.symm.trans some
  refine ⟨fun d opened => ⟨told d opened, Document.mem_warnings_iff (told d opened)⟩, ?_, fun q => ?_⟩
  · exact fun e fault other brings failed => failed_edit_keeps declared brings other failed
  · exact ⟨q.aside.document, q.aside.warnings⟩

/-- A rule that is a reference to another one. The other rule gives a text, and does not even do that. -/
def blamed : Document where
  form := .expression
  type := .text "number"
  definition := .reference
    { Reference.unchecked (.text "text") (.text "NAME") (.text "u-name") (.int 1) .null with
      mismatch := some true
      declared := .text "text"
      evaluated := .text "boolean" }
  ruleType := .null
  uuid := .text "u-blamed"
  version := .int 1
  id := .text "BLAMED"
  description := .null

def appending : Edit := .appendOperand "root" (.text "+")

/-- The warnings are under the path of the reference. No operand can be appended to it, and nothing changes then. -/
theorem blamed_mirrored :
    Throughout BringsTyped (opening served) [.edit (.loadRule blamed)] ∧
      Throughout (fun c t => ¬ c.Dares t .abandon) (opening served) [.edit (.loadRule blamed)] ∧
      ∃ c fault, c = (opening served).run [.edit (.loadRule blamed)] ∧ c.session.document = some blamed ∧
        "root" ∈ c.session.warnings.map (·.1) ∧ blamed.Warrants [] blamed.definition ∧ ¬ appending.Begins ∧
        c.BringsTyped (.edit appending) ∧ (appending.perform.run c.session).1 = .error fault ∧
        (c.session.after appending).document = some blamed ∧
        (c.session.after appending).warnings = c.session.warnings := by
  have brings : Throughout BringsTyped (opening served) [.edit (.loadRule blamed)] := by
    refine ⟨⟨nofun, ?_⟩, trivial⟩
    rintro d ⟨⟩
    exact Node.seated_reference.mpr fun _ => ⟨_, rfl⟩
  have keeps : Throughout (fun c t => ¬ c.Dares t .abandon) (opening served) [.edit (.loadRule blamed)] := by
    refine ⟨?_, trivial⟩
    rintro ⟨_, _, _, _, _, _, no, -⟩
    cases no
  have other : ¬ appending.Begins := by
    rintro ⟨_, _, _, _, _, no⟩
    cases no
  obtain ⟨mirrors, failing, -⟩ := warnings_mirror_rule catalogue _ _ _ _ rfl brings keeps rfl
  have warned : "root" ∈ ((opening served).run [.edit (.loadRule blamed)]).session.warnings.map (·.1) := List.mem_cons_self
  obtain ⟨steps, node, within, same, warrants⟩ := ((mirrors blamed rfl).2 "root").mp warned
  cases List.mem_singleton.mp within
  obtain ⟨document, warnings⟩ := failing appending _ other ⟨nofun, nofun⟩ rfl
  exact ⟨brings, keeps, _, _, rfl, rfl, warned, warrants, other, ⟨nofun, nofun⟩, rfl, document, warnings⟩

end Conversation

end RuleEditor
