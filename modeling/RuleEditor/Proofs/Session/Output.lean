import RuleEditor.Proofs.Session.Seated
import RuleEditor.Proofs.Session.Staleness
import RuleEditor.Proofs.Stored.ReadBack
import RuleEditor.Proofs.Stored.Sorted
import RuleEditor.Proofs.Tree.Violations

/-!
# What is put out is read back

As long as no edit puts an expression in the place of a condition or a condition in the place of an expression, every
node of the rule is of the sort that its seat admits. The stored form that a session puts out is then read back as a
rule of the same structure.
-/
namespace RuleEditor

namespace Node

/-- Moves that put nodes where their sort belongs. -/
def Belonging : Feat → Prop
  | .supply e => e.Seated Belongs .expression
  | .lead _ left => left.Seated Belongs .expression
  | .fill old => old.Admitted .right
  | .clear old => old.Admitted .condition
  | .join operator => operator.isKey = true
  | .load d => d.Seated Belongs ∧ d.type.isMissing = false
  | _ => True

theorem seating_belongs {numeric : List String} : (Scope.daring Belonging).Seating numeric Belongs where
  supplied supplies := supplies
  left leads := leads
  leaf := Leaf.belongs
  condition := IsCondition.belongs
  nothing := ⟨rfl, nofun⟩
  several _ := ⟨rfl, nofun⟩
  operand h := ⟨admitted_of_isExpression (isExpression_of_expression h.admitted) _ (by decide), h.keyed⟩
  right h := ⟨admitted_of_isExpression (isExpression_of_operand h.admitted) _ (by decide), h.keyed⟩
  item := by
    rintro e h one single
    refine ⟨?_, h.keyed⟩
    cases e with
    | absent => exact absurd rfl one
    | several items => exact absurd rfl (single items)
    | _ => exact h.admitted
  inner := by
    rintro seat old type fills h declared
    refine ⟨?_, h.keyed⟩
    have expression : old.isExpression = true := by
      cases old with
      | absent | several => cases declared
      | _ => exact fills
    refine admitted_of_isExpression expression _ ?_
    cases seat <;> decide
  outer := by
    rintro seat type operands operators e h below expression
    exact ⟨admitted_of_isExpression expression _ (seat_of_isExpression rfl h.admitted), below.keyed⟩
  cleared clears h new := seat_of_condition clears h.admitted ▸ new.belongs
  filled fills h new :=
    ⟨admitted_of_isExpression (isExpression_of_expression new.admitted) _ (seat_of_right fills h.admitted), new.keyed⟩
  lifted h condition new _ := seat_of_condition condition.belongs.admitted h.admitted ▸ new
  call h := ⟨admitted_of_isExpression rfl _ (seat_of_isExpression rfl h.admitted), nofun⟩
  reference h := ⟨admitted_of_isExpression rfl _ (seat_of_isExpression rfl h.admitted), nofun⟩
  choice := by
    rintro seat _ _ _ _ _ _ h - -
    cases seat <;> exact ⟨h.admitted, nofun⟩
  joined joins _ := ⟨rfl, List.forall_mem_singleton.mpr joins⟩
  rebuilt h _ known :=
    ⟨admitted_of_isExpression rfl _ (seat_of_isExpression rfl h.admitted),
      fun o within => (known o within).elim (h.keyed o) id⟩
  retyped _ _ _ h retyped :=
    ⟨admitted_of_isExpression (isExpression_retyped retyped) _ (by decide), h.keyed.retyped retyped⟩
  settled slot settled h _ := (h.slot slot).settled settled
  alike slot _ h _ := h.slot slot
  begun := ⟨rfl, nofun⟩
  loaded loads := loads.1

end Node

namespace Session

open Editing

variable {sc : Scope} {s s' : Session}

/-- The rule that is edited, if there is one, declares a type. -/
def Declared (s : Session) : Prop := ∀ d, s.document = some d → d.type.isMissing = false

theorem Move.declared (hl : ∀ d, sc.dares (.load d) → d.type.isMissing = false) (h : s.Declared)
    (move : Move sc s s') : s'.Declared := by
  cases move with
  | aside aside =>
      intro d opened
      exact h d (aside.document ▸ opened)
  | remember | restart => exact h
  | place _ _ opened | recast _ opened | choose _ _ _ opened | recheck _ opened | store _ opened =>
      have typed := h _ opened
      intro d same
      cases same
      exact typed
  | create _ _ _ typed =>
      intro d same
      cases same
      exact typed
  | load _ _ dares =>
      intro d same
      cases same
      exact hl _ dares

theorem Moves.declared (hl : ∀ d, sc.dares (.load d) → d.type.isMissing = false) (h : s.Declared)
    (moves : Moves sc s s') : s'.Declared := by
  induction moves with
  | refl => exact h
  | tail _ move ih => exact move.declared hl ih

/-- A well-formed rule is put out in its stored form. -/
theorem output_run {d : Document} (h : s.document = some d) :
    (output.run s).1 = (do d.definition.ensureWellFormed none; d.write) := by
  have ends : Ends output s (fun o _ => (do d.definition.ensureWellFormed none; d.write) = .ok o)
      (fun fault _ => (do d.definition.ensureWellFormed none; d.write) = .error fault) := by
    unfold output
    refine bind_defined h ?_
    cases formed : d.definition.ensureWellFormed none with
    | error fault => exact ends_bind (ends_throw rfl)
    | ok done => exact bind_known rfl (bind_opened h (ends_lift (fun _ written => written) fun _ failed => failed))
  unfold Ends at ends
  split at ends
  · rename_i o put
    rw [put, ends]
  · rename_i fault failed
    rw [failed, ends]

end Session

/-- The operators that a turn names. -/
def Turn.operators : Turn → List Value
  | .edit (.wrapExpression _ operator) | .edit (.insertOperand _ _ operator) | .edit (.appendOperand _ operator)
  | .edit (.updateOperator _ _ operator) => [operator]
  | _ => []

namespace Conversation

open Session

variable {c : Conversation} {t : Turn} {turns : List Turn}

/-- The turn puts an expression in the place of a condition or of a choice, or a condition in the place of a node
that is none. -/
def Misplaces (c : Conversation) (t : Turn) : Prop :=
  ∃ old, (c.Dares t (.fill old) ∧ ¬ old.Admitted .right) ∨ (c.Dares t (.clear old) ∧ ¬ old.Admitted .condition)

/-- An edit misplaces nothing if it names a place of the right side, and takes no condition away. -/
theorem not_misplaces {e : Edit} (hk : ∀ path, e ≠ .removeCondition path)
    (hn : ∀ path, e.path? = some path → ∃ old, c.session.LeadsTo path old ∧ old.Admitted .right) :
    ¬ c.Misplaces (.edit e) := by
  rintro ⟨old, ⟨⟨path, edit, leads⟩, wrong⟩ | ⟨⟨path, clears, -⟩, -⟩⟩
  · have named : e.path? = some path := by
      rcases edit with ⟨_, rfl⟩ | ⟨_, rfl⟩ | ⟨_, rfl⟩ <;> rfl
    obtain ⟨old', leads', admitted⟩ := hn path named
    cases leads.unique leads'
    exact wrong admitted
  · exact hk path clears

theorem isKey_of_join {operator : Value} (hk : ∀ o ∈ t.operators, o.isKey = true) (h : c.Dares t (.join operator)) :
    operator.isKey = true := by
  cases t with
  | edit e =>
      obtain ⟨path, named, joins, known⟩ := h
      have key : named.isKey = true := by
        rcases joins with rfl | ⟨_, rfl⟩ | rfl | ⟨_, rfl⟩ <;> exact hk _ List.mem_cons_self
      rcases known with rfl | ⟨word, rfl⟩
      · exact key
      · rfl
  | query | start => exact h.elim
  | answer call a =>
      obtain ⟨p, -, d, no, -⟩ := h
      cases no

theorem within_of_places {catalogue : Option Catalogue}
    (hb : Throughout (Brings (Node.Seated Node.Belongs .expression)
      fun d => d.Readable catalogue ∧ d.definition.Everywhere Node.Keyed) c turns)
    (hk : ∀ t ∈ turns, ∀ operator ∈ t.operators, operator.isKey = true)
    (hp : Throughout (fun c t => ¬ c.Misplaces t) c turns) : Throughout (Within Node.Belonging) c turns := by
  refine (hb.and hp).mono fun t among c ⟨hb, hp⟩ feat does => ?_
  cases feat with
  | supply e => exact hb.expressions e (expression_of_supply does)
  | lead c' left => exact hb.expressions left (expression_of_lead does)
  | fill old => exact Classical.not_not.mp fun wrong => hp ⟨old, .inl ⟨does, wrong⟩⟩
  | clear old => exact Classical.not_not.mp fun wrong => hp ⟨old, .inr ⟨does, wrong⟩⟩
  | join operator => exact isKey_of_join (hk t among) does
  | load d =>
      obtain ⟨readable, keyed⟩ := hb.rules d does
      obtain ⟨sorted, typed⟩ := readable.sorted
      exact ⟨(sorted.and_everywhere keyed).mono fun _ _ here => ⟨here.1, here.2⟩, typed⟩
  | _ => trivial

/-- As long as no turn misplaces a node, the definition has nodes of the right sorts, and what is put out for it is
read back as a definition of the same structure. -/
theorem output_reads_back (catalogue : Catalogue) (settings : Settings) (id : String) (connected : Bool)
    (turns : List Turn) {s s' : Session} (hs : s = .start catalogue settings id connected)
    (hb : Throughout (Brings (Node.Seated Node.Belongs .expression)
      fun d => d.Readable (some catalogue) ∧ d.definition.Everywhere Node.Keyed) (opening s) turns)
    (hk : ∀ t ∈ turns, ∀ operator ∈ t.operators, operator.isKey = true)
    (hp : Throughout (fun c t => ¬ c.Misplaces t) (opening s) turns)
    (hr : s' = ((opening s).run turns).session) {d : Document} (ho : s'.document = some d) :
    d.definition.Seated Node.Belongs (.ofForm d.form) ∧
      ∀ o, (output.run s').1 = .ok o → (d.definition.Everywhere fun node => node.numbered ≤ 10 ^ Text.maxDigits) →
        ∃ d', Document.read (some catalogue) o = .ok d' ∧ d'.form = d.form ∧
          d'.definition.bare = d.definition.bare := by
  subst hr
  have none : s.document = none := hs ▸ rfl
  have moves : Moves (.daring Node.Belonging) s ((opening s).run turns).session :=
    moves_run (within_of_places hb hk hp)
  have seated := moves.seated Node.seating_belongs (fun _ some => by cases none.symm.trans some) d ho
  have typed := moves.declared (fun d (loads : Node.Belonging (.load d)) => loads.2)
    (fun _ some => by cases none.symm.trans some) d ho
  refine ⟨seated, fun o put small => ?_⟩
  rw [output_run ho] at put
  obtain ⟨done, formed, written⟩ := bind_eq_ok.mp put
  have proportioned := (Violation.proportioned_of_wellFormed formed).mono fun _ here => here.1
  have storable : d.definition.Seated Node.Storable (.ofForm d.form) :=
    ((seated.and_everywhere proportioned).and_everywhere small).mono
      fun _ _ here => ⟨here.1.1, here.1.2, here.2⟩
  obtain ⟨o', written', reads⟩ := Document.read_write typed storable
  cases written.symm.trans written'
  obtain ⟨d', read, form, -, same⟩ := reads (some catalogue)
  exact ⟨d', read, form, same⟩

def seven : Node := .literal (.text "number") (.int 7)

/-- The right side of a comparison becomes a sum with another literal. -/
def adding : List Turn :=
  [.edit (.newRule (.text "condition") .null .null .null .null),
    .edit (.wrapExpression "root-condition-0-right" (.text "+")),
    .edit (.setExpression "root-condition-0-right-operand-1" seven)]

/-- The rule in the end. -/
def seventh : Document where
  form := .condition
  type := .text "boolean"
  definition := .group (.text "Main Condition") [.comparison (.text "Condition 1")
    (.field (.text "number") (.text "AGE")) (.text "equal")
    (.chain (.text "number") [.literal (.text "number") (.int 0), seven] [.text "+"])] .all false
  ruleType := .null
  uuid := .null
  version := .int 1
  id := .null
  description := .null

theorem adding_places : Throughout (fun c t => ¬ c.Misplaces t) (opening served) adding := by
  refine ⟨not_misplaces nofun nofun, not_misplaces nofun ?_, not_misplaces nofun ?_, trivial⟩
  · rintro path ⟨⟩
    exact ⟨_, ⟨_, [.child 0, .right], rfl, rfl, rfl⟩, rfl⟩
  · rintro path ⟨⟩
    exact ⟨_, ⟨_, [.child 0, .right, .operand 1], rfl, rfl, rfl⟩, rfl⟩

theorem sum_reads_back :
    Throughout (Brings (Node.Seated Node.Belongs .expression)
        fun d => d.Readable (some catalogue) ∧ d.definition.Everywhere Node.Keyed) (opening served) adding ∧
      (∀ t ∈ adding, ∀ operator ∈ t.operators, operator.isKey = true) ∧
      Throughout (fun c t => ¬ c.Misplaces t) (opening served) adding ∧
      ((opening served).run adding).session.document = some seventh ∧
      seventh.definition.Seated Node.Belongs (.ofForm seventh.form) ∧
      (seventh.definition.Everywhere fun node => node.numbered ≤ 10 ^ Text.maxDigits) ∧
      ∃ o, (output.run ((opening served).run adding).session).1 = .ok o ∧
        ∃ d', Document.read (some catalogue) o = .ok d' ∧ d'.form = seventh.form ∧
          d'.definition.bare = seventh.definition.bare := by
  have brings : Throughout (Brings (Node.Seated Node.Belongs .expression)
      fun d => d.Readable (some catalogue) ∧ d.definition.Everywhere Node.Keyed) (opening served) adding := by
    refine ⟨⟨nofun, nofun⟩, ⟨nofun, nofun⟩, ⟨?_, nofun⟩, trivial⟩
    exact List.forall_mem_singleton.mpr (Node.seated_literal.mpr ⟨rfl, nofun⟩)
  have keys : ∀ t ∈ adding, ∀ operator ∈ t.operators, operator.isKey = true := by
    simp [adding, Turn.operators, Value.isKey]
  have opened : ((opening served).run adding).session.document = some seventh := rfl
  obtain ⟨seated, reads⟩ := output_reads_back catalogue _ _ _ adding rfl brings keys adding_places rfl opened
  have small : seventh.definition.Everywhere fun node => node.numbered ≤ 10 ^ Text.maxDigits := by
    have none {n : Nat} : 0 ≤ n := Nat.zero_le n
    refine .intro (Nat.one_le_pow _ _ (by decide)) (List.forall_mem_singleton.mpr (.intro none ?_))
    refine List.forall_mem_cons.mpr ⟨.intro none nofun, List.forall_mem_singleton.mpr (.intro none ?_)⟩
    exact List.forall_mem_cons.mpr ⟨.intro none nofun, List.forall_mem_singleton.mpr (.intro none nofun)⟩
  obtain ⟨o, put⟩ : ∃ o, (output.run ((opening served).run adding).session).1 = .ok o := by
    rw [output_run opened]
    exact ⟨_, rfl⟩
  exact ⟨brings, keys, adding_places, opened, seated, small, o, put, reads o put small⟩

/-- A literal takes the place of the condition of a rule. -/
def misplacing : List Turn :=
  [.edit (.newRule (.text "condition") .null .null .null .null), .edit (.setExpression "root" seven)]

/-- The rule is put out, and it is not read back. -/
theorem literal_not_read_back :
    Throughout (Brings (Node.Seated Node.Belongs .expression)
        fun d => d.Readable (some catalogue) ∧ d.definition.Everywhere Node.Keyed) (opening served) misplacing ∧
      ∃ d o, ((opening served).run misplacing).session.document = some d ∧ d.form = .condition ∧
        d.definition = seven ∧ (output.run ((opening served).run misplacing).session).1 = .ok o ∧
        Document.read (some catalogue) o = .error (.unknownConditionTag (.text "value")) := by
  refine ⟨⟨⟨nofun, nofun⟩, ⟨?_, nofun⟩, trivial⟩, _, _, rfl, rfl, rfl, rfl, rfl⟩
  exact List.forall_mem_singleton.mpr (Node.seated_literal.mpr ⟨rfl, nofun⟩)

end Conversation

end RuleEditor
