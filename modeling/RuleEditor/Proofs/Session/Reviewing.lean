import RuleEditor.Proofs.Session.Formed
import RuleEditor.Proofs.Session.Library
import RuleEditor.Proofs.Session.Pending
import RuleEditor.Proofs.Tree.Positions
import RuleEditor.Proofs.Tree.Reviewed

/-!
# Checks of all references

The references of a rule are collected at the start of a check and written back at its end, and the rule may be
edited in between. Whatever happens meanwhile, the end of a check changes findings only. If the service gives the
same rule whenever it is asked for the same version, then a finding that stands beside a reference is what a check
of the version that it refers to has found, unless the reference has no rule selected and was given with the
finding.
-/
namespace RuleEditor

open Session Editing

/-! ### The end of a check -/

/-- The moves of a session whose references are checked, and nothing else. -/
def checking : Scope where
  given _ := False
  here _ := False
  turned _ _ _ := False
  asked _ := False
  chosen _ := False
  listed _ := True
  found _ _ _ := True
  may _ := False
  dares _ := True

namespace Session

variable {s s' : Session}

theorem remembers_checking (m : Memo) : m.Remembers checking.found := fun _ _ _ _ _ => trivial

theorem Move.unreviewed (move : Move checking s s') :
    s'.document.map Document.unreviewed = s.document.map Document.unreviewed := by
  cases move with
  | aside aside => rw [aside.document]
  | remember => rfl
  | place _ here => exact here.elim
  | recast _ _ _ _ may => exact may.elim
  | choose _ asked => exact asked.elim
  | recheck _ opened rechecked =>
      rw [opened]
      simp only [committed, Option.map_some, Document.unreviewed, Node.unreviewed_rechecked rechecked]
  | store _ _ may => exact may.elim
  | restart may => exact may.elim
  | create _ may => exact may.elim
  | load given => exact given.elim

theorem Moves.unreviewed (moves : Moves checking s s') :
    s'.document.map Document.unreviewed = s.document.map Document.unreviewed := by
  induction moves with
  | refl => rfl
  | tail _ move ih => exact move.unreviewed.trans ih

theorem refresh_unreviewed (opening : Bool) :
    Ends (refresh opening) s (fun _ s' => s'.document.map Document.unreviewed = s.document.map Document.unreviewed)
      (fun _ s' => s'.document.map Document.unreviewed = s.document.map Document.unreviewed) := by
  have runs : Runs checking (refresh opening) s (·.Rests checking) :=
    refresh_runs (remembers_checking _) (fun _ _ _ _ => trivial) opening
  exact runs.mono (fun _ _ done => done.1.unreviewed) fun _ _ moves => moves.unreviewed

theorem refreshed_unreviewed (opening : Bool) (r : Refresh) (answer : Except Fault Document) :
    Ends (refreshed opening r answer) s
      (fun _ s' => s'.document.map Document.unreviewed = s.document.map Document.unreviewed)
      (fun _ s' => s'.document.map Document.unreviewed = s.document.map Document.unreviewed) := by
  have sound : r.Sound checking := ⟨fun _ _ => trivial, fun _ _ => trivial⟩
  have answered : Answered checking r answer := fun _ _ _ _ _ _ _ _ => ⟨trivial, fun _ _ _ _ => trivial⟩
  have runs : Runs checking (refreshed opening r answer) s (·.Rests checking) :=
    refreshed_runs (remembers_checking _) opening sound answered
  exact runs.mono (fun _ _ done => done.1.unreviewed) fun _ _ moves => moves.unreviewed

/-- A rule that is opened is checked at once as far as nothing has to be loaded. -/
theorem opened_unreviewed (d : Document) :
    Ends (loaded .opening (.ok d)) s (fun _ s' => s'.document.map Document.unreviewed = some d.unreviewed)
      (fun _ s' => s'.document.map Document.unreviewed = some d.unreviewed) := by
  have given : Scope.any.given d.definition := trivial
  show Ends (loadRule d >>= fun _ => refresh true) _ _ _
  refine ends_bind ((loadRule_moves trivial given trivial).mono (fun _ s' done => ?_) fun _ _ done => ?_)
  · have opened : s'.document = some d := done.2.2
    exact (refresh_unreviewed true).mono (fun _ _ same => by rw [same, opened]; rfl)
      fun _ _ same => by rw [same, opened]; rfl
  · rw [done.2.2.1]
    rfl

end Session

namespace Conversation

variable {c : Conversation} {call : Nat} {p : Progress} {a : Answer} {op : Editing Progress}

/-- The turn begins a check of all references, or goes on with one. -/
def Checks (c : Conversation) : Turn → Prop
  | .start errand => errand = .refreshReferences
  | .answer call _ =>
    ∃ uuid version r opening, c.waiting.lookup call = some (.loading uuid version (.refreshing r opening))
  | _ => False

/-- The turn opens a rule that was loaded, and begins a check of its references. -/
def Opens (c : Conversation) (d : Document) : Turn → Prop
  | .answer call (.rule (.ok loaded)) =>
    loaded = d ∧ ∃ uuid version, c.waiting.lookup call = some (.loading uuid version .opening)
  | _ => False

theorem checks_unreviewed {t : Turn} (checks : c.Checks t) :
    (c.next t).session.document.map Document.unreviewed = c.session.document.map Document.unreviewed := by
  cases t with
  | edit e => exact checks.elim
  | query q => exact checks.elim
  | start errand =>
      cases (checks : errand = .refreshReferences)
      rw [session_start]
      exact (refresh_unreviewed false).after
  | answer call a =>
      obtain ⟨uuid, version, r, opening, waits⟩ := checks
      cases a with
      | rule answer =>
          rw [session_answer waits rfl]
          exact (refreshed_unreviewed opening r answer).after
      | rules found => rw [session_unasked waits rfl]
      | version answer => rw [session_unasked waits rfl]

theorem opens_unreviewed {t : Turn} {d : Document} (opens : c.Opens d t) :
    (c.next t).session.document.map Document.unreviewed = some d.unreviewed := by
  cases t with
  | answer call a =>
      match a, opens with
      | .rule (.ok _), ⟨rfl, uuid, version, waits⟩ =>
          rw [session_answer waits rfl]
          exact (opened_unreviewed _).after
  | edit e => exact opens.elim
  | query q => exact opens.elim
  | start errand => exact opens.elim

end Conversation

/-! ### What stands beside references -/

/-- The turn supplies the reference, but for its type. -/
def Turn.Brings (r : Reference) (t : Turn) : Prop :=
  ∃ node ∈ t.supplied, ∃ part r', node.Within part ∧ part.target? = some r' ∧ r = { r' with type := r.type }

/-- The reference is to a version if it is to a rule, and a finding beside it is the one of that version, or was
brought with a reference that no rule is selected for. -/
structure Library.Accounts (lib : Library) (turns : List Turn) (r : Reference) : Prop where
  versioned : r.isResolved = true → r.version.isNull = false
  flagged : r.mismatch ≠ none → lib.Checked r ∨ (r.isResolved = false ∧ ∃ t ∈ turns, t.Brings r)

/-- The scope in which references are accounted for. -/
def Library.scope (lib : Library) (turns : List Turn) : Scope :=
  { Scope.any with
    given := fun node => node.EveryReference (lib.Accounts turns)
    chosen := fun r => r.version.isNull = false ∧ lib.Checked r
    listed := fun r => r.version.isNull = false
    found := lib.Found }

namespace Library

variable {lib : Library} {turns : List Turn} {d : Document}

theorem lasting_accounts : Lasting (lib.Accounts turns) where
  retyped r type h := by
    refine ⟨h.versioned, fun flagged => ?_⟩
    rcases h.flagged flagged with checked | ⟨unresolved, t, among, node, supplied, part, r', there, target, same⟩
    · exact .inl (checked.retyped type)
    · refine .inr ⟨unresolved, t, among, node, supplied, part, r', there, target, ?_⟩
      rw [same]
  unselected type version ruleType := ⟨nofun, fun flagged => absurd rfl flagged⟩

theorem keeps_accounts : (lib.scope turns).Keeps False (lib.Accounts turns) where
  unselected := lasting_accounts.unselected
  leads := lasting_accounts.leads
  given _ given := Node.everyReference_iff_intact.mp given
  chosen _ known := ⟨fun _ => known.1, fun _ => .inl known.2⟩
  reviewed _ _ _ h same found := ⟨h.versioned, fun _ => .inl (lib.checked_reviewed same found)⟩

theorem listed_selected {tree : Node} (h : tree.EveryReference (lib.Accounts turns)) :
    ∀ entry ∈ tree.selectedReferences, (lib.scope turns).listed entry.2 := by
  rintro ⟨path, r⟩ listed
  obtain ⟨⟨path', node⟩, there, selected⟩ := List.mem_filterMap.mp listed
  obtain ⟨position, within, same⟩ := List.mem_map.mp there
  cases same
  have found := h.find (Node.find_of_mem_positions within)
  simp only at selected
  split at selected
  · rename_i target is
    split at selected
    · rename_i resolved
      cases selected
      exact (found.here _ is).versioned resolved
    · cases selected
  · cases selected

/-- A finding that was made of a rule is one of the version that was asked for. -/
theorem selects_accounts {uuid version : Value} {answer : Except Fault Document} {summary : Summary}
    (ha : uuid = summary.uuid ∧ version = summary.version)
    (hn : ∀ d, answer = .ok d → lib.Answers uuid version d) : Selects (lib.scope turns) summary answer := by
  obtain ⟨rfl, rfl⟩ := ha
  intro d same
  have kept := (hn d same).1
  have carried := kept.carried
  simp only [carried, Bool.false_eq_true, if_false]
  exact ⟨settles kept, fun f found => ⟨carried, f, found, rfl⟩⟩

end Library

namespace Conversation

variable {lib : Library} {c : Conversation} {t : Turn} {turns all : List Turn}

/-- All that is known in a conversation about references is accounted for. -/
structure Accounted (lib : Library) (all : List Turn) (c : Conversation) : Prop where
  session : c.session.Intact False (lib.Accounts all)
  memo : c.session.memo.Remembers lib.Found
  waiting : ∀ n p, (n, p) ∈ c.waiting → p.Coherent (lib.scope all)

theorem Accounted.lists (h : c.Accounted lib all) : Lists (lib.scope all) c.session :=
  fun d opened => Library.listed_selected (Node.everyReference_iff_intact.mpr (h.session d opened))

theorem Accounted.allowed (h : c.Accounted lib all) (draws : c.Draws lib t)
    (hg : ∀ node ∈ t.supplied, node.EveryReference (lib.Accounts all)) : c.Allowed (lib.scope all) t := by
  cases t with
  | edit e =>
      exact ⟨fun _ _ => trivial, hg, fun _ _ _ _ _ _ _ _ _ => trivial, fun _ _ => trivial, fun _ _ => trivial⟩
  | query q => trivial
  | start errand => exact fun _ => h.lists
  | answer call a =>
      intro p op waits resumed
      have coherent := h.waiting call p (mem_of_lookup waits)
      refine ⟨fun _ => hg, fun _ _ => trivial, fun _ _ => trivial, fun _ _ => trivial, ?_, ?_, ?_, ?_⟩
      · rintro - d rfl
        exact Library.listed_selected (hg _ List.mem_cons_self)
      · intro uuid version path summary token epoch answer same rule
        subst same
        exact Library.selects_accounts coherent (draws.answers waits rule)
      · intro uuid version r opening same
        subst same
        exact coherent.1
      · intro uuid version r opening answer same rule d path target rest ok come
        subst same
        obtain ⟨sound, path', target', rest', first, rfl, rfl⟩ := coherent
        cases first.symm.trans come
        -- a load without a version may bring any one, but all references that are looked up name theirs
        have versioned : target.version.isNull = false := sound.remaining (path, target) (come ▸ List.mem_cons_self)
        exact Library.settles ((draws.answers waits rule d ok).version? versioned)

theorem Accounted.next (h : c.Accounted lib all) (draws : c.Draws lib t)
    (hg : ∀ node ∈ t.supplied, node.EveryReference (lib.Accounts all)) : (c.next t).Accounted lib all := by
  have upward : (lib.scope all).Upward := fun _ _ _ _ => trivial
  have allowed := h.allowed draws hg
  have moves := next_moves upward h.memo allowed
  exact ⟨moves.intact Library.keeps_accounts h.session, moves.remembers h.memo, coherent_next h.memo allowed h.waiting⟩

theorem Accounted.run (h : c.Accounted lib all) (hd : DrawsThroughout lib c turns)
    (hg : ∀ t ∈ turns, ∀ node ∈ t.supplied, node.EveryReference (lib.Accounts all)) :
    (c.run turns).Accounted lib all := by
  induction turns generalizing c with
  | nil => exact h
  | cons t rest ih =>
      obtain ⟨first, others⟩ := List.forall_mem_cons.mp hg
      exact ih (h.next hd.1 first) hd.2 others

theorem accounted_opening (catalogue : Catalogue) (settings : Settings) (id : String) (connected : Bool) :
    (opening (.start catalogue settings id connected)).Accounted lib all where
  session := nofun
  memo := Memo.remembers_empty _
  waiting := nofun

theorem accounts_supplied {node : Node} (ha : t ∈ all) (hs : node ∈ t.supplied)
    (hg : node.EveryReference fun r => r.isResolved = true → r.version.isNull = false ∧ r.mismatch = none) :
    node.EveryReference (lib.Accounts all) := by
  refine hg.within.mono fun part ⟨here, within⟩ r target => ?_
  refine ⟨fun resolved => (here r target resolved).1, fun flagged => .inr ?_⟩
  have unresolved : r.isResolved = false := by
    cases resolved : r.isResolved with
    | false => rfl
    | true => exact absurd (here r target resolved).2 flagged
  exact ⟨unresolved, t, ha, node, hs, part, r, within, target, rfl⟩

/-- A check of all references changes nothing but findings, also of a rule that is opened. If the service answers
from a library, and the selected references that come from outside are to versions and without findings, then a
finding beside a reference is the one of its version, or was brought with a reference without a rule. -/
theorem findings_of_own_version (lib : Library) (catalogue : Catalogue) (settings : Settings) (id : String)
    (connected : Bool) (turns : List Turn) {c : Conversation}
    (hr : c = (opening (.start catalogue settings id connected)).run turns) :
    (∀ t, c.Checks t →
        (c.next t).session.document.map Document.unreviewed = c.session.document.map Document.unreviewed) ∧
      (∀ t d, c.Opens d t → (c.next t).session.document.map Document.unreviewed = some d.unreviewed) ∧
      (DrawsThroughout lib (opening (.start catalogue settings id connected)) turns →
        (∀ t ∈ turns, ∀ node ∈ t.supplied,
          node.EveryReference fun r => r.isResolved = true → r.version.isNull = false ∧ r.mismatch = none) →
        ∀ d, c.session.document = some d → d.definition.EveryReference fun r =>
          r.mismatch ≠ none → lib.Checked r ∨ (r.isResolved = false ∧ ∃ t ∈ turns, t.Brings r)) := by
  refine ⟨fun t checks => checks_unreviewed checks, fun t d opens => opens_unreviewed opens, ?_⟩
  intro draws supplied d opened
  subst hr
  have start : (opening (.start catalogue settings id connected)).Accounted lib turns :=
    accounted_opening catalogue settings id connected
  have accounted := start.run draws fun t among node within =>
    accounts_supplied among within (supplied t among node within)
  have every := Node.everyReference_iff_intact.mpr (accounted.session d opened)
  exact every.mono fun part here r target => (here r target).flagged

/-- A rule that declares another type than its definition has. -/
def discount : Document where
  form := .expression
  type := .text "text"
  definition := .field (.text "number") (.text "DISCOUNT")
  ruleType := .null
  uuid := .text "d-1"
  version := .int 2
  id := .text "DISCOUNT"
  description := .null

/-- A rule that refers to it. -/
def billing : Document :=
  { total with
    definition := .chain (.text "number")
      [.reference (.unchecked (.text "number") (.text "DISCOUNT") (.text "d-1") (.int 2) .null),
        .literal (.text "number") (.int 1)] [.text "+"] }

def discounts : Library := .of [("d-1", 2, discount)]

def serviced : Conversation := opening (.start plain.catalogue plain.settings "es" true)

/-- The operator is changed while the rule that is referred to is being loaded. -/
def revising : List Turn :=
  [.edit (.loadRule billing), .start .refreshReferences, .edit (.updateOperator "root" 0 (.text "-"))]

/-- The end of the check. -/
def found : Turn := .answer 0 (.rule (.ok discount))

theorem billing_finding :
    (serviced.run revising).Checks found ∧
      ((serviced.run revising).next found).session.document.map Document.unreviewed =
        (serviced.run revising).session.document.map Document.unreviewed ∧
      (serviced.run [.start (.openRule billing.uuid .null)]).Opens billing (.answer 0 (.rule (.ok billing))) ∧
      ((serviced.run [.start (.openRule billing.uuid .null)]).next
          (.answer 0 (.rule (.ok billing)))).session.document.map Document.unreviewed = some billing.unreviewed ∧
      DrawsThroughout discounts serviced (revising ++ [found]) ∧
      (∀ t ∈ revising ++ [found], ∀ node ∈ t.supplied,
        node.EveryReference fun r => r.isResolved = true → r.version.isNull = false ∧ r.mismatch = none) ∧
      ∃ d r, (serviced.run (revising ++ [found])).session.document = some d ∧
        d.definition = .chain (.text "number") [.reference r, .literal (.text "number") (.int 1)] [.text "-"] ∧
        r.mismatch = some true ∧ d.definition.EveryReference fun r => r.mismatch ≠ none →
          discounts.Checked r ∨ (r.isResolved = false ∧ ∃ t ∈ revising ++ [found], t.Brings r) := by
  have checks : (serviced.run revising).Checks found := ⟨_, _, _, _, rfl⟩
  have opens : (serviced.run [.start (.openRule billing.uuid .null)]).Opens billing (.answer 0 (.rule (.ok billing))) :=
    ⟨rfl, _, _, rfl⟩
  have draws : DrawsThroughout discounts serviced (revising ++ [found]) := by
    refine ⟨trivial, trivial, trivial, ?_, trivial⟩
    intro p uuid version waits asks
    rcases asks with ⟨next, rfl⟩ | ⟨saved, rfl⟩
    · cases waits
      exact ⟨rfl, fun _ => rfl⟩
    · cases waits
  have supplied : ∀ t ∈ revising ++ [found], ∀ node ∈ t.supplied,
      node.EveryReference fun r => r.isResolved = true → r.version.isNull = false ∧ r.mismatch = none := by
    simp [revising, found, Turn.supplied, Edit.supplied, Answer.supplied, billing, discount, Reference.unchecked,
      Value.isNull, Node.everyReference_iff_intact]
  obtain ⟨checked, -⟩ := findings_of_own_version discounts _ _ _ _ revising rfl
  obtain ⟨-, opened, -⟩ :=
    findings_of_own_version discounts _ _ _ _ [.start (.openRule billing.uuid .null)] rfl
  obtain ⟨-, -, own⟩ := findings_of_own_version discounts _ _ _ _ (revising ++ [found]) rfl
  exact ⟨checks, checked _ checks, opens, opened _ _ opens, draws, supplied, _, _, rfl, rfl, rfl,
    own draws supplied _ rfl⟩

/-- A reference without a rule, with a finding beside it. -/
def marked : Reference :=
  { Reference.unselected (.text "number") .null with
    mismatch := some true, declared := .text "text", evaluated := .text "number" }

/-- No rule is selected for the reference, so it is never checked. -/
def marking : List Turn :=
  [.edit (.newRule (.text "expression") .null .null .null .null), .edit (.setExpression "root" (.reference marked)),
    .start .refreshReferences]

theorem finding_without_rule :
    DrawsThroughout discounts serviced marking ∧
      (∀ t ∈ marking, ∀ node ∈ t.supplied,
        node.EveryReference fun r => r.isResolved = true → r.version.isNull = false ∧ r.mismatch = none) ∧
      ∃ d, (serviced.run marking).session.document = some d ∧
        d.definition = .reference marked ∧
        ¬ d.definition.EveryReference fun r => r.mismatch ≠ none → discounts.Checked r := by
  have supplied : ∀ t ∈ marking, ∀ node ∈ t.supplied,
      node.EveryReference fun r => r.isResolved = true → r.version.isNull = false ∧ r.mismatch = none := by
    simp [marking, Turn.supplied, Edit.supplied, marked, Reference.unselected, Reference.unchecked,
      Reference.isResolved, Value.isPresent, Value.isMissing, Node.everyReference_iff_intact]
  refine ⟨⟨trivial, trivial, trivial, trivial⟩, supplied, _, rfl, rfl, ?_⟩
  intro every
  obtain ⟨f, ⟨d, kept, -⟩, -⟩ := every.here marked rfl (Option.some_ne_none _)
  exact Bool.noConfusion (Library.carries _ _ _ _ kept).2

end Conversation

end RuleEditor
