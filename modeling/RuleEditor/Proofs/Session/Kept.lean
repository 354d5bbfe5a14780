import RuleEditor.Proofs.Edit.Held
import RuleEditor.Proofs.Session.Moves

/-!
# What current requests rely on

Once a request for a path is stale, it never becomes current again. While it is current, the rule has the same
root, and the path holds the same reference, since each move that reaches the path makes the request stale. The
one exception is a change of the kind of a branch's condition where the branch is counted from the end: it makes
requests stale at a path that no branch has.
-/
namespace RuleEditor

namespace Session

/-- The reference that stands at a path. -/
def heldAt (s : Session) (path : String) : Option Held :=
  match s.document, Address.steps path with
  | some d, .ok steps => d.definition.heldAt steps
  | _, _ => none

/-- The path is spelled as those of the open rule are. -/
def Canonical (s : Session) (path : String) : Prop :=
  ∀ d, s.document = some d → Address.Canonical d.definition.root path

/-- The rule of the later session has the root of the one before. -/
def SameRoot (s s' : Session) : Prop :=
  ∀ d', s'.document = some d' → ∃ d, s.document = some d ∧ d'.definition.root = d.definition.root

variable {s s' s'' : Session} {path : String}

theorem SameRoot.refl (s : Session) : SameRoot s s := fun d' opened => ⟨d', opened, rfl⟩

theorem SameRoot.of_document (h : s'.document = s.document) : SameRoot s s' :=
  fun d' opened => ⟨d', h ▸ opened, rfl⟩

theorem SameRoot.trans (h : SameRoot s s') (h' : SameRoot s' s'') : SameRoot s s'' := by
  intro d'' opened''
  obtain ⟨d', opened', root'⟩ := h' d'' opened''
  obtain ⟨d, opened, root⟩ := h d' opened'
  exact ⟨d, opened, root'.trans root⟩

theorem SameRoot.canonical (h : SameRoot s s') (canonical : s.Canonical path) : s'.Canonical path := by
  intro d' opened'
  obtain ⟨d, opened, root⟩ := h d' opened'
  exact root ▸ canonical d opened

theorem SameRoot.committed {d : Document} {tree : Node} (ho : s.document = some d)
    (hr : tree.root = d.definition.root) : SameRoot s (s'.committed d tree) := by
  intro d' opened'
  cases opened'
  exact ⟨d, ho, hr⟩

theorem heldAt_of_document (h : s'.document = s.document) (path : String) : s'.heldAt path = s.heldAt path := by
  unfold heldAt
  rw [h]

theorem heldAt_committed {d : Document} {tree : Node} (ho : s.document = some d)
    (h : ∀ steps, Address.steps path = .ok steps → tree.heldAt steps = d.definition.heldAt steps) :
    (s'.committed d tree).heldAt path = s.heldAt path := by
  unfold heldAt
  rw [ho]
  cases read : Address.steps path with
  | ok steps => exact h steps read
  | error _ => rfl

theorem isCurrent_iff {token epoch : Nat} :
    s.isCurrent path token epoch = true ↔ epoch = s.epoch ∧ s.tokens.get? path = some token := by
  simp only [isCurrent, Bool.and_eq_true, beq_iff_eq]

end Session

namespace Ticket

/-- The request is not stale. -/
def Current (t : Ticket) (s : Session) : Prop := s.isCurrent t.path t.token t.epoch = true

/-- The session has given the ticket out, and while it is current its path is spelled as those of the rule. -/
structure Known (t : Ticket) (s : Session) : Prop where
  token : t.token ≤ s.generation
  epoch : t.epoch ≤ s.epoch
  canonical : t.Current s → s.Canonical t.path

/-- Two requests for one path are not current together, unless they have the same token. -/
theorem Current.token_eq {t t' : Ticket} {s : Session} (h : t.Current s) (h' : t'.Current s) (hs : t'.path = t.path) :
    t'.token = t.token := by
  have token := (Session.isCurrent_iff.mp h').2
  rw [hs, (Session.isCurrent_iff.mp h).2] at token
  exact (Option.some.inj token).symm

end Ticket

namespace Session

variable {sc : Scope} {mark : Mark} {s s' s'' : Session} {t : Ticket}

/-! ### Stale requests stay stale -/

/-- Tokens and epochs are not given again, and no request that was stale is current. -/
structure Wanes (s s' : Session) : Prop where
  generation : s.generation ≤ s'.generation
  epoch : s.epoch ≤ s'.epoch
  current : ∀ t : Ticket, t.token ≤ s.generation → t.epoch ≤ s.epoch → t.Current s' → t.Current s

namespace Wanes

theorem refl (s : Session) : Wanes s s := ⟨Nat.le_refl _, Nat.le_refl _, fun _ _ _ current => current⟩

theorem trans (h : Wanes s s') (h' : Wanes s' s'') : Wanes s s'' where
  generation := Nat.le_trans h.generation h'.generation
  epoch := Nat.le_trans h.epoch h'.epoch
  current t token epoch later :=
    h.current t token epoch (h'.current t (Nat.le_trans token h.generation) (Nat.le_trans epoch h.epoch) later)

theorem committed (h : Wanes s s') (d : Document) (tree : Node) : Wanes s (s'.committed d tree) :=
  h.trans ⟨Nat.le_refl _, Nat.le_refl _, fun _ _ _ current => current⟩

/-- A session that starts anew has no requests. -/
theorem anew (hg : s'.generation = s.generation) (he : s'.epoch = s.epoch + 1) (ht : s'.tokens = []) :
    Wanes s s' where
  generation := Nat.le_of_eq hg.symm
  epoch := Nat.le_of_lt (he ▸ Nat.lt_succ_self _)
  current t _ _ current := by
    have none := (isCurrent_iff.mp current).2
    rw [ht] at none
    cases none

end Wanes

theorem Aside.current (h : Aside mark s s') (ho : t.token ≤ s.generation) (current : t.Current s') :
    t.Current s ∧ mark.renews t.path = false := by
  obtain ⟨epoch, token⟩ := isCurrent_iff.mp current
  obtain ⟨before, missed⟩ := h.tokens _ _ token ho
  exact ⟨isCurrent_iff.mpr ⟨epoch.trans h.epoch, before⟩, missed⟩

theorem Aside.wanes (h : Aside mark s s') : Wanes s s' where
  generation := h.generation
  epoch := Nat.le_of_eq h.epoch.symm
  current _ old _ current := (h.current old current).1

theorem Move.wanes (move : Move sc s s') : Wanes s s' := by
  cases move with
  | aside aside => exact aside.wanes
  | remember => exact ⟨Nat.le_refl _, Nat.le_refl _, fun _ _ _ current => current⟩
  | place aside | recast aside | choose aside | recheck aside => exact aside.wanes.committed _ _
  | store aside => exact aside.wanes.trans ⟨Nat.le_refl _, Nat.le_refl _, fun _ _ _ current => current⟩
  | restart | create | load => exact .anew rfl rfl rfl

theorem Moves.wanes (moves : Moves sc s s') : Wanes s s' := by
  induction moves with
  | refl => exact .refl s
  | tail _ move ih => exact ih.trans move.wanes

/-- Whether the session can ask a rule service is settled from the start. -/
theorem Moves.connected (moves : Moves sc s s') : s'.connected = s.connected := by
  induction moves with
  | refl => rfl
  | tail _ move ih =>
      refine Eq.trans ?_ ih
      cases move with
      | aside aside | place aside | recast aside | choose aside | recheck aside | store aside => exact aside.connected
      | remember | restart | create | load => rfl

/-! ### Current requests keep what they rely on -/

/-- No ticket of an earlier rule is current. -/
theorem not_current_restarted (hk : t.epoch ≤ s.epoch) (hl : s'.epoch = s.epoch + 1) : ¬ t.Current s' := by
  intro current
  have epoch := (isCurrent_iff.mp current).1
  omega

/-- The steps that a canonical path is read as spell the path. -/
theorem Canonical.eq_render {d : Document} {path : String} {steps : List Step} (canonical : s.Canonical path)
    (ho : s.document = some d) (hr : Address.steps path = .ok steps) :
    path = Address.render d.definition.root steps := (canonical d ho).eq_render d.definition.isRoot_root hr

/-- The rule keeps its root while a request is current. -/
theorem Move.sameRoot (hn : ∀ path, sc.here path → s.Canonical path) (known : t.Known s) (move : Move sc s s')
    (current : t.Current s') : SameRoot s s' := by
  cases move with
  | aside aside => exact .of_document aside.document
  | remember => exact .of_document rfl
  | place aside here opened read found rewrite placed =>
      obtain ⟨before, missed⟩ := aside.current known.token current
      obtain ⟨spelled, same⟩ := known.canonical before _ opened
      obtain ⟨replaced, there, -, root⟩ := placed.replaced
      have way := (hn _ here).eq_render opened read
      rw [same] at missed
      rw [way] at rewrite
      exact .committed opened (root.trans (rewrite.keeps (Node.isRoot_root _) there found missed).1)
  | recast aside opened same recast =>
      refine .committed opened ?_
      rw [same]
      rfl
  | choose aside asked _ opened read found chosen placed =>
      obtain ⟨replaced, there, -, root⟩ := placed.replaced
      exact .committed opened (root.trans (Node.root_put there found chosen.leaves.root))
  | recheck aside opened rechecked => exact .committed opened rechecked.alike.2
  | store aside opened =>
      intro d' same
      cases same
      exact ⟨_, opened, rfl⟩
  | restart | create | load => exact absurd current (not_current_restarted known.epoch rfl)

/-- The path of a request holds the same while the request is current. -/
theorem Move.heldAt_eq (hn : ∀ path, sc.here path → s.Canonical path)
    (hs : ∀ c index kind, sc.turned c index kind → ¬ c.Slips index kind t.path)
    (ho : ∀ t', sc.asked t' → t'.token ≠ t.token ∧ t'.Known s) (known : t.Known s) (move : Move sc s s')
    (current : t.Current s') : s'.heldAt t.path = s.heldAt t.path := by
  cases move with
  | aside aside => exact heldAt_of_document aside.document _
  | remember => exact heldAt_of_document rfl _
  | place aside here opened read found rewrite placed =>
      obtain ⟨before, missed⟩ := aside.current known.token current
      have canonical := known.canonical before
      obtain ⟨replaced, there, alike, -⟩ := placed.replaced
      rw [(hn _ here).eq_render opened read] at rewrite
      refine heldAt_committed opened fun q reads => (alike q).trans ?_
      rw [canonical.eq_render opened reads] at missed
      exact (rewrite.keeps (Node.isRoot_root _) there found missed).2
  | recast aside opened same recast =>
      obtain ⟨before, missed⟩ := aside.current known.token current
      refine heldAt_committed opened fun q reads => ?_
      have spelled := (known.canonical before).eq_render opened reads
      rw [same] at spelled ⊢
      rw [spelled] at missed
      exact recast.heldAt_eq (fun index kind turned => spelled ▸ hs _ index kind turned) missed
  | @choose _ ticket _ _ _ _ _ _ aside asked first opened read found chosen placed =>
      obtain ⟨before, -⟩ := aside.current known.token current
      obtain ⟨apart, knows⟩ := ho _ asked
      obtain ⟨replaced, there, alike, -⟩ := placed.replaced
      refine heldAt_committed opened fun q reads => (alike q).trans ?_
      have way := (knows.canonical first).eq_render opened read
      have missed : (Mark.only ticket.path).renews t.path = false :=
        beq_eq_false_iff_ne.mpr fun same => apart (before.token_eq first same.symm)
      rw [(known.canonical before).eq_render opened reads] at missed
      have leaves := chosen.leaves
      rw [way] at leaves missed
      exact leaves.heldAt_eq (Node.isRoot_root _) there found missed
  | recheck aside opened rechecked => exact heldAt_committed opened fun q _ => rechecked.alike.1 q
  | store aside opened =>
      simp only [heldAt, opened]
      cases Address.steps t.path <;> rfl
  | restart | create | load => exact absurd current (not_current_restarted known.epoch rfl)

/-- Moves that name canonical paths only: a known ticket stays known, and the rule keeps its root while the
request is current. -/
theorem Moves.known (hn : ∀ path, sc.here path → s.Canonical path) (known : t.Known s) (moves : Moves sc s s') :
    t.Known s' ∧ (t.Current s' → SameRoot s s') := by
  induction moves with
  | refl => exact ⟨known, fun _ => .refl s⟩
  | @tail mid last moves move ih =>
      obtain ⟨knows, same⟩ := ih
      have stays (current : t.Current last) : SameRoot mid last :=
        have root := same (move.wanes.current t knows.token knows.epoch current)
        move.sameRoot (fun path here => root.canonical (hn path here)) knows current
      refine ⟨⟨?_, ?_, fun current => ?_⟩, fun current => ?_⟩
      · exact Nat.le_trans knows.token move.wanes.generation
      · exact Nat.le_trans knows.epoch move.wanes.epoch
      · exact (stays current).canonical (knows.canonical (move.wanes.current t knows.token knows.epoch current))
      · exact (same (move.wanes.current t knows.token knows.epoch current)).trans (stays current)

theorem Moves.heldAt_eq (hn : ∀ path, sc.here path → s.Canonical path)
    (hs : ∀ c index kind, sc.turned c index kind → ¬ c.Slips index kind t.path)
    (ho : ∀ t', sc.asked t' → t'.token ≠ t.token ∧ t'.Known s) (known : t.Known s) (moves : Moves sc s s')
    (current : t.Current s') : s'.heldAt t.path = s.heldAt t.path := by
  induction moves with
  | refl => rfl
  | @tail mid last moves move ih =>
      obtain ⟨knows, same⟩ := Moves.known hn known moves
      have before := move.wanes.current t knows.token knows.epoch current
      refine (move.heldAt_eq (fun path here => (same before).canonical (hn path here)) hs ?_ knows
        current).trans (ih before)
      intro t' asked
      obtain ⟨apart, known'⟩ := ho t' asked
      exact ⟨apart, (Moves.known hn known' moves).1⟩

end Session

end RuleEditor
