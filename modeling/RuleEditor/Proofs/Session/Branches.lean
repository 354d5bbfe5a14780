import RuleEditor.Proofs.Session.Seated
import RuleEditor.Proofs.Session.Staleness
import RuleEditor.Proofs.Tree.Violations

/-!
# Choices keep a branch

A choice that has a branch keeps one, whatever is done to it, as long as its last branch is not removed itself: where
a condition is removed that is the last one, another one takes its place.
-/
namespace RuleEditor

namespace Node

variable {numeric : List String} {node : Node}

/-- Moves that bring in choices with branches, and leave a branch in each choice. -/
def Branching : Feat → Prop
  | .supply e => e.Everywhere Branched
  | .lead _ left => left.Everywhere Branched
  | .load d => d.definition.Everywhere Branched
  | .drop c => c.branches ≠ []
  | _ => True

theorem branched_settled {mid node' : Node} (hs : mid.reinferAt numeric [] = .ok node') (h : mid.Branched) :
    node'.Branched := by
  rcases settled_eq hs with rfl | ⟨_, _, _, _, rfl, rfl⟩
  · exact h
  · trivial

theorem seating_branched : (Scope.daring Branching).Seating numeric fun _ => Branched where
  supplied supplies := Seated.of_everywhere (fun _ _ here => here) supplies _
  left leads := Seated.of_everywhere (fun _ _ here => here) leads _
  leaf leaf := by cases leaf <;> trivial
  condition := by
    rintro c ⟨kind, is⟩
    cases c <;> cases is <;> trivial
  nothing := trivial
  several _ := trivial
  operand h := h
  right h := h
  item h _ _ := h
  inner _ h _ := h
  outer _ h _ := h
  cleared := by
    rintro seat old new - - ⟨kind, is⟩
    cases new <;> cases is <;> trivial
  filled _ _ h := h
  lifted _ _ h _ := h
  call _ := trivial
  reference _ := trivial
  choice h _ kept := (kept h).elim id id
  joined _ _ := trivial
  rebuilt _ _ _ := trivial
  retyped := by
    intro c left type e e' _ _ _ h retyped
    cases e with
    | chain =>
        obtain ⟨operands, -, made⟩ := bind_eq_ok.mp retyped
        cases made
        trivial
    | literal | field | call | reference =>
        cases retyped
        trivial
    | _ => cases retyped
  settled slot settled h _ := branched_settled settled (branched_slot slot h)
  alike slot _ h _ := branched_slot slot h
  begun := nofun
  loaded loads := Seated.of_everywhere (fun _ _ here => here) loads _

end Node

namespace Conversation

variable {c : Conversation} {t : Turn}

/-- The turn removes the only branch of the choice. -/
def Empties (c : Conversation) (t : Turn) : Prop := ∃ left, c.Dares t (.drop left) ∧ left.branches = []

/-- As long as no turn removes the only branch of a choice, every choice in the rule has a branch, and no violation
says otherwise. -/
theorem choices_keep_branch (catalogue : Catalogue) (settings : Settings) (id : String) (connected : Bool)
    (turns : List Turn) {s : Session} (hs : s = .start catalogue settings id connected)
    (hb : Throughout (Brings (fun e => ∃ known, e.ensureWellFormed known = .ok ())
      fun d => ∃ known, d.definition.ensureWellFormed known = .ok ()) (opening s) turns)
    (hk : Throughout (fun c t => ¬ c.Empties t) (opening s) turns) {d : Document}
    (ho : ((opening s).run turns).session.document = some d) :
    (∀ branches otherwise label, d.definition = .choice branches otherwise label → branches ≠ []) ∧
      ∀ known vs, Violation.all known d.definition = .ok vs → ∀ path, Violation.noBranches path ∉ vs := by
  have branched {node : Node} : (∃ known, node.ensureWellFormed known = .ok ()) → node.Everywhere Node.Branched :=
    fun ⟨_, accepted⟩ => (Violation.proportioned_of_wellFormed accepted).mono fun _ here => here.2
  have within : Throughout (Within Node.Branching) (opening s) turns := by
    refine (hb.and hk).mono fun t _ c ⟨brings, keeps⟩ feat does => ?_
    cases feat with
    | supply e => exact branched (brings.expressions e (expression_of_supply does))
    | lead c' left => exact branched (brings.expressions left (expression_of_lead does))
    | load d => exact branched (brings.rules d does)
    | drop left => exact fun none => keeps ⟨left, does, none⟩
    | _ => trivial
  have none : s.document = none := hs ▸ rfl
  have seated := seated_run (c := opening s) Node.seating_branched (fun _ some => by cases none.symm.trans some)
    within d ho
  have everywhere : d.definition.Everywhere Node.Branched := Node.Seated.everywhere (fun _ _ here => here) seated
  refine ⟨fun branches otherwise label same => ?_, fun known vs => Violation.branched_all everywhere⟩
  have here := everywhere.here
  rwa [same] at here

/-- Of two branches the first one is removed, and then the condition of the other one. -/
def pruning : List Turn :=
  [.edit (.newRule (.text "case") .null .null .null .null), .edit .addBranch, .edit (.removeBranch 0),
    .edit (.removeCondition "case-when-0")]

theorem pruning_keeps_branch :
    Throughout (Brings (fun e => ∃ known, e.ensureWellFormed known = .ok ())
        fun d => ∃ known, d.definition.ensureWellFormed known = .ok ()) (opening served) pruning ∧
      Throughout (fun c t => ¬ c.Empties t) (opening served) pruning ∧
      ∃ d, ((opening served).run pruning).session.document = some d ∧
        (∀ branches otherwise label, d.definition = .choice branches otherwise label → branches ≠ []) ∧
        ∀ known vs, Violation.all known d.definition = .ok vs → ∀ path, Violation.noBranches path ∉ vs := by
  have brings : Throughout (Brings (fun e => ∃ known, e.ensureWellFormed known = .ok ())
      fun d => ∃ known, d.definition.ensureWellFormed known = .ok ()) (opening served) pruning :=
    ⟨⟨nofun, nofun⟩, ⟨nofun, nofun⟩, ⟨nofun, nofun⟩, ⟨nofun, nofun⟩, trivial⟩
  have keeps : Throughout (fun c t => ¬ c.Empties t) (opening served) pruning := by
    refine ⟨?_, ?_, ?_, ?_, trivial⟩
    · rintro ⟨left, ⟨_, no, -⟩ | ⟨_, _, _, no, -⟩, -⟩ <;> cases no
    · rintro ⟨left, ⟨_, no, -⟩ | ⟨_, _, _, no, -⟩, -⟩ <;> cases no
    · rintro ⟨left, ⟨_, no, -⟩ | ⟨index, d, ⟨branches, otherwise, label⟩, same, opened, is, removed⟩, none⟩
      · cases no
      · cases same
        cases opened
        cases is
        cases removed
        cases none
    · rintro ⟨left, ⟨_, _, others⟩ | ⟨_, _, _, no, -⟩, none⟩
      · exact others none
      · cases no
  exact ⟨brings, keeps, _, rfl, choices_keep_branch _ _ _ _ pruning rfl brings keeps rfl⟩

/-- The only branch of a new choice can be removed. -/
theorem choice_without_branches :
    ∃ d otherwise label, ((opening served).run [.edit (.newRule (.text "case") .null .null .null .null),
        .edit (.removeBranch 0)]).session.document = some d ∧ d.definition = .choice [] otherwise label ∧
      ∃ vs, Violation.all none d.definition = .ok vs ∧ Violation.noBranches "case" ∈ vs :=
  ⟨_, _, _, rfl, rfl, _, rfl, List.mem_cons_self⟩

end Conversation

end RuleEditor
