import RuleEditor.Proofs.Session.Opening
import RuleEditor.Proofs.Session.Told

/-!
# Types that selected rules do not have

A reference on the right side of a comparison is checked against the left side by the type that it carries. The
warnings are right as long as a selected reference carries the type of its rule, and they are the ones of the rule
that is edited. A change of the left side that gives references on the right another type breaks the one, and a new
rule that cannot be started breaks the other.
-/
namespace RuleEditor

/-- What the rule service has for a version of a rule. Every rule declares a type. -/
structure Resolver where
  rule? : Value → Value → Option Document
  typed : ∀ uuid version d, rule? uuid version = some d → d.type.isMissing = false

/-- If a rule is selected for the reference, the reference carries the type of the rule. -/
def Resolver.Tagged (resolver : Resolver) (r : Reference) : Prop :=
  r.isResolved = true → ∃ d, resolver.rule? r.uuid r.version = some d ∧ r.type = d.type

/-- The reference is in the tree. -/
def Node.Mentions (tree : Node) (r : Reference) : Prop := ∃ part, tree.Within part ∧ part.target? = some r

/-- With another left operand, a selected reference on the right side carries a type that it has not carried. -/
def Comparison.Retags (left : Node) (c : Comparison) : Prop :=
  ∃ c' r, Comparison.changeLeft left c = .ok c' ∧ c'.right.Mentions r ∧ r.isResolved = true ∧ ¬ c.right.Mentions r

/-- Moves that bring in trees with a type in each place of an expression, and hide no type. -/
def Candid : Feat → Prop
  | .supply e => e.Seated Node.Declares .expression
  | .lead c left => left.Seated Node.Declares .expression ∧ ¬ c.Retags left
  | .load d => d.Seated Node.Declares
  | .abandon => False
  | _ => True

namespace Resolver

variable {resolver : Resolver}

/-- The scope in which selected references carry the types of their rules. -/
def scope (resolver : Resolver) : Scope :=
  { Scope.any with
    given := fun node => node.EveryReference resolver.Tagged
    chosen := resolver.Tagged
    dares := Candid }

theorem leads_tagged : resolver.scope.Leads False resolver.Tagged := by
  intro c c' left _ changed candid h
  have before := (Node.intact_comparison.mp h).2
  have lasting : Lasting fun _ => True := ⟨fun _ _ _ => trivial, fun _ _ _ => trivial⟩
  have after : c'.right.Intact False fun _ => True :=
    Node.intact_changeLeft lasting (before.mono fun _ here => ⟨here.1, fun _ _ => trivial⟩) changed
  refine after.within.mono fun part ⟨_, within⟩ => ⟨False.elim, fun r target resolved => ?_⟩
  by_cases old : c.right.Mentions r
  · obtain ⟨part, there, is⟩ := old
    exact (before.part there).2 r is resolved
  · exact absurd ⟨c', r, changed, ⟨part, within, target⟩, resolved, old⟩ candid.2

theorem keeps_tagged : resolver.scope.Keeps False resolver.Tagged where
  unselected _ _ _ := nofun
  leads := leads_tagged
  given _ given := Node.everyReference_iff_intact.mp given
  chosen _ tagged := tagged
  reviewed _ _ _ tagged _ _ := tagged

theorem seating_declares {numeric : List String} : resolver.scope.Seating numeric Node.Declares :=
  Node.seating_declares (fun _ supplies => supplies) (fun _ _ candid => candid.1) fun _ loads => loads

end Resolver

namespace Session

/-- A warning under the path blocks. -/
def Blocks (s : Session) (path : String) : Prop :=
  ∃ warnings, s.warnings.get? path = some warnings ∧ ∃ w ∈ warnings, w.isBlocking = true

end Session

namespace Conversation

open Session

variable {resolver : Resolver} {c : Conversation} {t : Turn} {turns : List Turn}

/-- A rule that comes for a reference is the one of the version that the reference is to. -/
def Resolves (resolver : Resolver) (c : Conversation) : Turn → Prop
  | .answer call (.rule (.ok d)) => ∀ uuid version path summary token epoch,
    c.waiting.lookup call = some (.loading uuid version (.resolving path summary token epoch)) →
      resolver.rule? uuid (if d.version.isNull then version else d.version) = some d
  | _ => True

/-- The expressions and rules that a turn brings in have a type in each place of an expression, and selected references
in them carry the types of their rules. -/
def Declares (resolver : Resolver) : Conversation → Turn → Prop :=
  Brings (fun e => e.Seated Node.Declares .expression ∧ e.EveryReference resolver.Tagged)
    fun d => d.Seated Node.Declares ∧ d.definition.EveryReference resolver.Tagged

/-- The turn hides the type of a selected rule: it gives a reference another type, or it takes the warnings away and
leaves the rule there, as a new rule does that cannot be started. -/
def Masks (c : Conversation) (t : Turn) : Prop :=
  c.Dares t .abandon ∨ ∃ c' left, c.Dares t (.lead c' left) ∧ c'.Retags left

/-- The references and the warnings of the session are right, and its calls ask for what they go on with. -/
structure Watched (resolver : Resolver) (c : Conversation) : Prop where
  tagged : c.session.Intact False resolver.Tagged
  declared : c.session.Seated Node.Declares
  told : c.session.Told
  waiting : ∀ n p, (n, p) ∈ c.waiting → p.Coherent resolver.scope

/-- What is remembered of checks is left open. -/
theorem remembers_scope (m : Memo) : m.Remembers resolver.scope.found := fun _ _ _ _ _ => trivial

theorem candid_of_dares (declares : c.Declares resolver t) (hu : ¬ c.Masks t) : c.Within Candid t := by
  intro feat does
  cases feat with
  | supply e => exact (declares.expressions e (expression_of_supply does)).1
  | lead c' left =>
      have declared := (declares.expressions left (expression_of_lead does)).1
      exact ⟨declared, fun retags => hu (.inr ⟨c', left, does, retags⟩)⟩
  | load d => exact (declares.rules d does).1
  | abandon => exact hu (.inl does)
  | _ => trivial

theorem tagged_of_supplied {e : Edit} (declares : c.Declares resolver (.edit e)) :
    ∀ node ∈ e.supplied, node.EveryReference resolver.Tagged := by
  cases e with
  | loadRule d => exact List.forall_mem_singleton.mpr (declares.rules d rfl).2
  | changeLeft path left => exact List.forall_mem_singleton.mpr (declares.expressions left List.mem_cons_self).2
  | setExpression path e => exact List.forall_mem_singleton.mpr (declares.expressions e List.mem_cons_self).2
  | _ => nofun

theorem tagged_of_takenUp {call : Nat} {a : Answer} {p : Progress} (hw : c.waiting.lookup call = some p)
    (declares : c.Declares resolver (.answer call a)) (ht : p.Does a .takeUp) :
    ∀ node ∈ a.supplied, node.EveryReference resolver.Tagged := by
  intro node within
  cases a with
  | rule answer =>
      cases answer with
      | ok d =>
          cases List.mem_singleton.mp within
          exact (declares.rules d ⟨p, hw, d, rfl, rfl, ht⟩).2
      | error fault => cases within
  | _ => cases within

theorem selects_tagged {uuid version : Value} {d : Document} {summary : Summary}
    (ha : uuid = summary.uuid ∧ version = summary.version)
    (hr : resolver.rule? uuid (if d.version.isNull then version else d.version) = some d) :
    Selects resolver.scope summary (.ok d) := by
  obtain ⟨rfl, rfl⟩ := ha
  rintro _ ⟨⟩
  refine ⟨fun _ _ => ⟨trivial, fun _ _ _ _ => trivial⟩, fun f _ _ => ⟨d, hr, ?_⟩⟩
  have typed := resolver.typed _ _ _ hr
  simp only [referenceTo, Reference.reviewed, Reference.unchecked, Value.orElse, typed, Bool.false_eq_true, if_false]

theorem Watched.allowed (h : c.Watched resolver) (resolves : c.Resolves resolver t) (declares : c.Declares resolver t)
    (hu : ¬ c.Masks t) : c.Allowed resolver.scope t := by
  have candid := candid_of_dares declares hu
  cases t with
  | edit e =>
      have tagged := tagged_of_supplied declares
      exact ⟨fun _ _ => trivial, tagged, fun _ _ _ _ _ _ _ _ _ => trivial, fun _ _ => trivial, candid⟩
  | query q => trivial
  | start errand => exact fun _ _ _ _ _ => trivial
  | answer call a =>
      intro p op waits resumed
      have coherent := h.waiting call p (mem_of_lookup waits)
      refine ⟨tagged_of_takenUp waits declares, fun _ _ => trivial, fun _ _ => trivial,
        fun feat does => candid feat ⟨p, waits, does⟩,
        fun _ _ _ _ _ => trivial, ?_, fun _ _ _ _ _ => ⟨fun _ _ => trivial, fun _ _ => trivial⟩,
        fun _ _ _ _ _ _ _ _ _ _ _ _ _ => fun _ _ => ⟨trivial, fun _ _ _ _ => trivial⟩⟩
      intro uuid version path summary token epoch answer same rule
      subst same
      cases answer with
      | error fault => nofun
      | ok d =>
          subst rule
          exact selects_tagged coherent (resolves _ _ _ _ _ _ waits)

theorem Watched.next (h : c.Watched resolver) (resolves : c.Resolves resolver t) (declares : c.Declares resolver t)
    (hu : ¬ c.Masks t) : (c.next t).Watched resolver := by
  have upward : resolver.scope.Upward := fun _ _ _ _ => trivial
  have allowed := h.allowed resolves declares hu
  have moves := next_moves upward (remembers_scope _) allowed
  exact ⟨moves.intact Resolver.keeps_tagged h.tagged, moves.seated Resolver.seating_declares h.declared,
    moves.told (fun abandons => abandons) Resolver.seating_declares h.declared h.told,
    coherent_next (remembers_scope _) allowed h.waiting⟩

theorem Watched.run (h : c.Watched resolver) (hr : Throughout (Resolves resolver) c turns)
    (hd : Throughout (Declares resolver) c turns) (hu : Throughout (fun c t => ¬ c.Masks t) c turns) :
    (c.run turns).Watched resolver := by
  induction turns generalizing c with
  | nil => exact h
  | cons t rest ih => exact ih (h.next hr.1 hd.1 hu.1) hr.2 hd.2 hu.2

theorem watched_opening {s : Session} (h : s.document = none) : (opening s).Watched resolver where
  tagged _ some := by cases h.symm.trans some
  declared _ some := by cases h.symm.trans some
  told _ some := by cases h.symm.trans some
  waiting := nofun

/-- As long as no turn hides a type, there is a blocking warning under the path of a selected reference on the right
side of a comparison exactly if its rule has another type than the left side, which has one. -/
theorem blocks_iff_types_differ (resolver : Resolver) (catalogue : Catalogue) (settings : Settings) (id : String)
    (connected : Bool) (turns : List Turn) {s s' : Session} (hs : s = .start catalogue settings id connected)
    (hv : Throughout (Resolves resolver) (opening s) turns)
    (hd : Throughout (Declares resolver) (opening s) turns)
    (hu : Throughout (fun c t => ¬ c.Masks t) (opening s) turns) (hr : s' = ((opening s).run turns).session)
    {d : Document} (ho : s'.document = some d) {above : List Step} {c : Comparison}
    (hf : d.definition.find above = .ok c.node) {side : Step} (hp : side = .right ∨ ∃ i, side = .rightItem i)
    {r : Reference} (hb : d.definition.find (above ++ [side]) = .ok (.reference r)) (ht : r.isResolved = true) :
    ∃ rule type, resolver.rule? r.uuid r.version = some rule ∧ c.left.type = .ok type ∧
      (s'.Blocks (Address.render d.definition.root (above ++ [side])) ↔
        type.isMissing = false ∧ rule.type.same type = false) := by
  subst hr
  have none : s.document = none := hs ▸ rfl
  have before : (opening s).Watched resolver := watched_opening none
  have watched := before.run hv hd hu
  obtain ⟨rule, known, carried⟩ := ((watched.tagged d ho).find hb).here.2 r rfl ht
  have lefts := (watched.declared d ho).leftsDeclared
  obtain ⟨type, declared⟩ := lefts hf
  refine ⟨rule, type, known, declared, ?_⟩
  obtain ⟨here, at?⟩ := Document.warningsAt_eq_ok lefts hb
  have required := (Document.requiredType_right (r := r) hf hp).trans declared
  have listed := Document.get?_warnings (watched.told d ho) hb rfl at?
  have blocking := Document.blocking_iff at? ht required
  have typed := resolver.typed _ _ _ known
  rw [carried, Finding.differ, Value.isPresent, Value.isPresent, typed] at blocking
  simp only [Bool.not_false, Bool.true_and, Bool.and_eq_true, Bool.not_eq_true'] at blocking
  rw [← blocking, Session.Blocks, listed]
  cases here with
  | nil => simp
  | cons w rest => simp

/-! ### A rule is selected for the right side, before or after the left side changes -/

def ages : Resolver where
  rule? _ _ := some age
  typed := by
    rintro uuid version d ⟨⟩
    rfl

/-- The right side of a comparison becomes a reference. -/
def referring : List Turn :=
  [.edit (.newRule (.text "condition") .null .null .null .null),
    .edit (.changeSource "root-condition-0-right" "ruleRef")]

def picking : List Turn :=
  [.start (.resolveReference "root-condition-0-right" ⟨age.id, age.uuid, age.version, age.type, age.ruleType, .null⟩),
    .answer 0 (.rule (.ok age))]

/-- The left side becomes a text. -/
def naming : Turn := .edit (.changeLeft "root-condition-0" (.field (.text "text") (.text "NAME")))

/-- The reference to the rule, under the type that it carries. -/
def toAge (type : Value) : Reference :=
  { Reference.unchecked type age.id age.uuid age.version age.ruleType with mismatch := some false }

/-- The comparison in the end. -/
def named (type : Value) : Comparison :=
  ⟨.text "Condition 1", .field (.text "text") (.text "NAME"), .text "equal", .reference (toAge type)⟩

/-- Only the field is brought in. -/
theorem naming_declares {c : Conversation} : c.Declares ages naming :=
  ⟨List.forall_mem_singleton.mpr ⟨Node.seated_field.mpr fun _ => ⟨_, rfl⟩, .intro nofun nofun⟩, nofun⟩

theorem referring_declares {rest : List Turn} (h : Throughout (Declares ages) ((opening served).run referring) rest) :
    Throughout (Declares ages) (opening served) (referring ++ rest) :=
  ⟨⟨nofun, nofun⟩, ⟨nofun, nofun⟩, h⟩

theorem picking_declares {c : Conversation} {rest : List Turn} (h : Throughout (Declares ages) (c.run picking) rest)
    (hr : ∀ p, (c.run (picking.take 1)).waiting.lookup 0 = some p → ¬ p.Does (.rule (.ok age)) .takeUp) :
    Throughout (Declares ages) c (picking ++ rest) :=
  ⟨⟨nofun, nofun⟩, ⟨nofun, fun _ ⟨p, waits, _, _, _, taken⟩ => (hr p waits taken).elim⟩, h⟩

theorem naming_unmasked : ¬ ((opening served).run referring).Masks naming := by
  rintro (⟨_, _, _, _, _, _, no, -⟩ | ⟨⟨name, left, operator, right⟩, new, leads, retags⟩)
  · cases no
  · obtain ⟨path, same, leads⟩ := leads
    cases same
    have here : ((opening served).run referring).session.LeadsTo "root-condition-0" (.comparison (.text "Condition 1")
        (.field (.text "number") (.text "AGE")) (.text "equal")
        (.reference (.unselected (.text "number") .null))) := ⟨_, [.child 0], rfl, rfl, rfl⟩
    cases leads.unique here
    obtain ⟨c', r, changed, ⟨part, within, is⟩, resolved, -⟩ := retags
    cases changed
    -- no rule is selected for the only reference there
    have unselected : (Node.reference (.unselected (.text "text") .null)).Intact False fun r => r.isResolved = false :=
      Node.intact_reference.mpr rfl
    have unresolved := (unselected.part within).2 r is
    rw [unresolved] at resolved
    cases resolved

/-- The rule is selected after the change of the left side. -/
theorem mismatch_of_named :
    Throughout (Resolves ages) (opening served) (referring ++ naming :: picking) ∧
      Throughout (Declares ages) (opening served) (referring ++ naming :: picking) ∧
      Throughout (fun c t => ¬ c.Masks t) (opening served) (referring ++ naming :: picking) ∧
      ∃ d, ((opening served).run (referring ++ naming :: picking)).session.document = some d ∧
        d.definition.find [.child 0] = .ok (named (.text "number")).node ∧
        d.definition.find ([.child 0] ++ [.right]) = .ok (.reference (toAge (.text "number"))) ∧
        (toAge (.text "number")).isResolved = true ∧
        ∃ rule type, ages.rule? age.uuid age.version = some rule ∧ (named (.text "number")).left.type = .ok type ∧
          (((opening served).run (referring ++ naming :: picking)).session.Blocks
              (Address.render d.definition.root ([.child 0] ++ [.right])) ↔
            type.isMissing = false ∧ rule.type.same type = false) := by
  have resolves : Throughout (Resolves ages) (opening served) (referring ++ naming :: picking) :=
    ⟨trivial, trivial, trivial, trivial, fun _ _ _ _ _ _ _ => rfl, trivial⟩
  have declares : Throughout (Declares ages) (opening served) (referring ++ naming :: picking) := by
    refine referring_declares ⟨naming_declares, picking_declares trivial ?_⟩
    rintro p ⟨⟩ no
    exact no
  have unmasked : Throughout (fun c t => ¬ c.Masks t) (opening served) (referring ++ naming :: picking) := by
    refine ⟨?_, ?_, naming_unmasked, ?_, ?_, trivial⟩
    · rintro (⟨_, _, _, _, _, _, ⟨⟩, failed⟩ | ⟨_, _, ⟨_, no, -⟩, -⟩)
      · cases failed
      · cases no
    · rintro (⟨_, _, _, _, _, _, no, -⟩ | ⟨_, _, ⟨_, no, -⟩, -⟩) <;> cases no
    · rintro (no | ⟨_, _, no, -⟩) <;> exact no
    · rintro (⟨_, -, _, no, -⟩ | ⟨_, _, ⟨_, -, _, no, -⟩, -⟩) <;> cases no
  exact ⟨resolves, declares, unmasked, _, rfl, rfl, rfl, rfl,
    blocks_iff_types_differ ages _ _ _ _ _ rfl resolves declares unmasked rfl rfl rfl (.inl rfl) rfl rfl⟩

/-- The rule is selected before the change of the left side, and the reference takes on the type of the left side. -/
theorem mismatch_masked :
    Throughout (Resolves ages) (opening served) (referring ++ picking ++ [naming]) ∧
      Throughout (Declares ages) (opening served) (referring ++ picking ++ [naming]) ∧
      (∃ d, ((opening served).run (referring ++ picking ++ [naming])).session.document = some d ∧
        d.definition.find [.child 0] = .ok (named (.text "text")).node ∧
        d.definition.find [.child 0, .right] = .ok (.reference (toAge (.text "text"))) ∧
        (toAge (.text "text")).isResolved = true ∧ ages.rule? age.uuid age.version = some age ∧
        (named (.text "text")).left.type = .ok (.text "text") ∧
        age.type.same (.text "text") = false ∧
        ¬ ((opening served).run (referring ++ picking ++ [naming])).session.Blocks "root-condition-0-right") ∧
      ((opening served).run (referring ++ naming :: picking)).session.Blocks "root-condition-0-right" := by
  have declares : Throughout (Declares ages) (opening served) (referring ++ picking ++ [naming]) := by
    rw [List.append_assoc]
    refine referring_declares (picking_declares ⟨naming_declares, trivial⟩ ?_)
    rintro p ⟨⟩ no
    exact no
  refine ⟨⟨trivial, trivial, trivial, fun _ _ _ _ _ _ _ => rfl, trivial, trivial⟩, declares, ?_, _, rfl, _,
    List.mem_cons_self, rfl⟩
  refine ⟨_, rfl, rfl, rfl, rfl, rfl, rfl, by decide, ?_⟩
  rintro ⟨warnings, told, -⟩
  cases told

end Conversation

end RuleEditor
