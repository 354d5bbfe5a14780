import RuleEditor.Proofs.Session.Findings
import RuleEditor.Proofs.Session.Rewrite
import RuleEditor.Proofs.Session.Running
import RuleEditor.Proofs.Tree.Lens
import Mathlib.Logic.Relation

/-!
# Moves of a session

What an operation does to a session, failing or not, is a sequence of moves, and each move is of one of a few
sorts: it changes nothing about the rule, it keeps other findings, it rewrites the node at one path, it recasts
the choice as a whole, it writes what the rule service has answered, or it takes up another rule. What holds over
whole runs is proved about these moves.
-/
namespace RuleEditor

open Relation (ReflTransGen)

namespace Session

/-- The set-up of a session never changes. -/
structure SameSetUp (s s' : Session) : Prop where
  catalogue : s'.catalogue = s.catalogue
  settings : s'.settings = s.settings
  id : s'.id = s.id
  connected : s'.connected = s.connected
  numeric : s'.numeric = s.numeric

/-- The sessions differ in their bookkeeping at most. No token is given twice, and those that are marked get
new values. -/
structure Aside (mark : Mark) (s s' : Session) : Prop extends SameSetUp s s' where
  document : s'.document = s.document
  isNew : s'.isNew = s.isNew
  warnings : s'.warnings = s.warnings
  memo : s'.memo = s.memo
  epoch : s'.epoch = s.epoch
  generation : s.generation ≤ s'.generation
  tokens : ∀ key token, s'.tokens.get? key = some token → token ≤ s.generation →
    s.tokens.get? key = some token ∧ mark.renews key = false

/-- The session with its rule put away. -/
def restarted (form : Option Form) (isNew : Bool) (s : Session) : Session :=
  { s with
    epoch := s.epoch + 1
    tokens := []
    numbering := .fresh
    expansion := .start form isNew
    warnings := []
    isNew }

/-- One move of a session. -/
inductive Move (sc : Scope) (s : Session) : Session → Prop where
  | aside {mark s'} : Aside mark s s' → Move sc s s'
  | remember {memo} : memo.Remembers sc.found → Move sc s { s with memo }
  | place {mark s' path d steps old new tree} : Aside mark s s' → sc.here path → s.document = some d →
      Address.steps path = .ok steps → d.definition.find steps = .ok old →
      Rewrite sc s.catalogue s.numeric path mark old new → Placed s.numeric new steps d.definition tree →
      Move sc s (s'.committed d tree)
  | recast {mark s' d c c'} : Aside mark s s' → s.document = some d → d.definition = c.node →
      Recast sc s.catalogue mark c c' → sc.may .recast → Move sc s (s'.committed d c'.node)
  | choose {s' ticket d steps target old new tree} : Aside .none s s' → sc.asked ticket →
      s.isCurrent ticket.path ticket.token ticket.epoch = true → s.document = some d →
      Address.steps ticket.path = .ok steps → d.definition.find steps = .ok old →
      Chosen ticket.path target old new → Placed s.numeric new steps d.definition tree → sc.chosen target →
      Move sc s (s'.committed d tree)
  | recheck {s' d tree} : Aside .none s s' → s.document = some d → Rechecked sc.found d.definition tree →
      Move sc s (s'.committed d tree)
  | store {s' d uuid version} : Aside .none s s' → s.document = some d → sc.may .store →
      Move sc s { s' with document := some { d with uuid, version }, isNew := false }
  | restart {form isNew} : sc.may .takeUp → sc.dares .abandon → Move sc s (s.restarted form isNew)
  | create {form d type} :
      ((initial form type).run (s.restarted (Form.ofValue? form) true)).1 = .ok (d.definition, d.type) →
      sc.may .takeUp → Form.ofValue? form = some d.form → d.type.isMissing = false →
      Move sc s { s.restarted (Form.ofValue? form) true with document := some d }
  | load {d warnings} : sc.given d.definition → sc.may .takeUp → sc.dares (.load d) →
      (∀ told, d.warnings = .ok told → warnings = told) →
      Move sc s { s.restarted (some d.form) false with document := some d, warnings }

/-- What an operation does to a session. -/
abbrev Moves (sc : Scope) : Session → Session → Prop := ReflTransGen (Move sc)

namespace SameSetUp

theorem refl (s : Session) : SameSetUp s s := ⟨rfl, rfl, rfl, rfl, rfl⟩

theorem trans {s s' s'' : Session} (h : SameSetUp s s') (h' : SameSetUp s' s'') : SameSetUp s s'' where
  catalogue := h'.catalogue.trans h.catalogue
  settings := h'.settings.trans h.settings
  id := h'.id.trans h.id
  connected := h'.connected.trans h.connected
  numeric := h'.numeric.trans h.numeric

end SameSetUp

/-! ### Bookkeeping -/

section Staled

variable {path name : String}

theorem staled_covered (h : Address.covers path name = true) (generation token : Nat) (rest : Members Nat) :
    staled path generation ((name, token) :: rest) =
      ((name, generation + 1) :: (staled path (generation + 1) rest).1, (staled path (generation + 1) rest).2) := by
  rw [staled, if_pos h]

theorem staled_missed (h : Address.covers path name = false) (generation token : Nat) (rest : Members Nat) :
    staled path generation ((name, token) :: rest) =
      ((name, token) :: (staled path generation rest).1, (staled path generation rest).2) := by
  rw [staled, if_neg (Bool.eq_false_iff.mp h)]

end Staled

/-- Making requests stale gives no token twice, and none of the old values to a path at or below the one. -/
theorem staled_spec (path : String) (generation : Nat) (tokens : Members Nat) :
    generation ≤ (staled path generation tokens).2 ∧
      ∀ key token, (staled path generation tokens).1.get? key = some token → token ≤ generation →
        tokens.get? key = some token ∧ Address.covers path key = false := by
  induction tokens generalizing generation with
  | nil => exact ⟨Nat.le_refl _, fun key token found => by cases found⟩
  | cons m rest ih =>
      obtain ⟨name, value⟩ := m
      cases covered : Address.covers path name with
      | true =>
          obtain ⟨later, kept⟩ := ih (generation + 1)
          rw [staled_covered covered]
          refine ⟨Nat.le_of_succ_le later, fun key token found old => ?_⟩
          rw [Members.get?] at found ⊢
          split at found
          · exact absurd (Option.some.inj found) (by omega)
          · rename_i other
            rw [if_neg other]
            exact kept key token found (Nat.le_succ_of_le old)
      | false =>
          obtain ⟨later, kept⟩ := ih generation
          rw [staled_missed covered]
          refine ⟨later, fun key token found old => ?_⟩
          rw [Members.get?] at found ⊢
          split at found
          · rename_i same
            rw [if_pos same, ← same]
            exact ⟨found, covered⟩
          · rename_i other
            rw [if_neg other]
            exact kept key token found old

namespace Aside

variable {mark : Mark} {s s' s'' : Session}

theorem refl (s : Session) : Aside .none s s where
  toSameSetUp := .refl s
  document := rfl
  isNew := rfl
  warnings := rfl
  memo := rfl
  epoch := rfl
  generation := Nat.le_refl _
  tokens _ _ found _ := ⟨found, rfl⟩

/-- What follows a marking without marks keeps it. -/
theorem trans (h : Aside mark s s') (h' : Aside .none s' s'') : Aside mark s s'' where
  toSameSetUp := h.toSameSetUp.trans h'.toSameSetUp
  document := h'.document.trans h.document
  isNew := h'.isNew.trans h.isNew
  warnings := h'.warnings.trans h.warnings
  memo := h'.memo.trans h.memo
  epoch := h'.epoch.trans h.epoch
  generation := Nat.le_trans h.generation h'.generation
  tokens key token found old :=
    h.tokens key token (h'.tokens key token found (Nat.le_trans old h.generation)).1 old

/-- The numbering, the expansion and the journal may change as well. -/
theorem also (h : Aside mark s s') (numbering : Numbering) (expansion : Expansion) (journal : List Event) :
    Aside mark s { s' with numbering, expansion, journal } :=
  h.trans { refl s' with }

theorem invalidated (path : String) (s : Session) : Aside (.below path) s (s.invalidated path) :=
  { refl s with
    generation := (staled_spec path s.generation s.tokens).1
    tokens := (staled_spec path s.generation s.tokens).2 }

theorem issued (path : String) (s : Session) : Aside (.only path) s (s.issued path) :=
  { refl s with
    generation := Nat.le_succ _
    tokens := fun key token found old => by
      by_cases here : key = path
      · subst here
        rw [Session.issued, Members.get?_set_self, Option.some.injEq] at found
        omega
      · rw [Session.issued, Members.get?_set_of_ne here] at found
        exact ⟨found, beq_eq_false_iff_ne.mpr here⟩ }

theorem moves {sc : Scope} (h : Aside mark s s') : Moves sc s s' := .single (.aside h)

end Aside

/-- What is kept about other rules stays so. -/
theorem Move.remembers {sc : Scope} {s s' : Session} (h : s.memo.Remembers sc.found) (move : Move sc s s') :
    s'.memo.Remembers sc.found := by
  cases move with
  | aside aside => exact aside.memo ▸ h
  | remember kept => exact kept
  | place aside | recast aside | choose aside | recheck aside | store aside => exact aside.memo ▸ h
  | restart | create | load => exact h

theorem Moves.remembers {sc : Scope} {s s' : Session} (h : s.memo.Remembers sc.found) (moves : Moves sc s s') :
    s'.memo.Remembers sc.found := by
  induction moves with
  | refl => exact h
  | tail _ move ih => exact move.remembers ih

/-! ### Putting nodes in place -/

open Editing

variable {sc : Scope} {s s' : Session} {mark : Mark}

theorem ends_put {path : String} {new : Node} {Q : Unit → Session → Prop} {E : Fault → Session → Prop}
    (hb : ∀ fault, E fault s)
    (hg : ∀ d steps old tree, s.document = some d → Address.steps path = .ok steps →
      d.definition.find steps = .ok old → Placed s.numeric new steps d.definition tree →
      Q () (s.committed d tree) ∧
        ∀ fault, Document.warnings { d with definition := tree } = .error fault → E fault (s.committed d tree)) :
    Ends (put path new) s Q E := by
  unfold put
  refine bind_definition hb fun d opened => bind_lift hb fun steps read => ?_
  refine bind_lift hb fun replaced there => bind_get (bind_lift hb fun tree inferred => ?_)
  obtain ⟨old, found⟩ := Node.find_of_replace there
  refine ends_commit hb fun d' opened' => ?_
  cases opened.symm.trans opened'
  exact hg d steps old tree opened read found (.put there inferred)

theorem find_result {c c' : Choice} {e : Node} {i : Nat} (h : c.setResult i e = .ok c') :
    ∃ old, c.node.find [.result i] = .ok old := by
  obtain ⟨branch, found, -⟩ := bind_eq_ok.mp h
  simp only [Choice.branch, Index.item?, Index.place?_ofNat] at found
  split at found
  · rename_i same
    cases found
    split at same
    · have at? : c.branches[i]? = some branch := same
      exact ⟨branch.result, by simp [Choice.node, Node.find, Node.child, Node.item, Except.map, at?]⟩
    · cases same
  · cases found

theorem ends_putExpression {path : String} {new : Node} {Q : Unit → Session → Prop}
    {E : Fault → Session → Prop} (hb : ∀ fault, E fault s)
    (hg : ∀ d steps old tree, s.document = some d → Address.steps path = .ok steps →
      d.definition.find steps = .ok old → Placed s.numeric new steps d.definition tree →
      Q () (s.committed d tree) ∧
        ∀ fault, Document.warnings { d with definition := tree } = .error fault → E fault (s.committed d tree)) :
    Ends (putExpression path new) s Q E := by
  unfold putExpression
  refine bind_definition hb fun d opened => ?_
  split
  · rename_i branches otherwise label same
    refine bind_lift hb fun steps read => ?_
    split
    · rename_i i
      refine bind_lift hb fun c set => ends_commit hb fun d' opened' => ?_
      cases opened.symm.trans opened'
      obtain ⟨old, found⟩ := find_result set
      refine hg d [.result i] old c.node opened read ?_ ?_
      · rw [same]
        exact found
      · rw [same]
        exact .result set
    · refine ends_commit hb fun d' opened' => ?_
      cases opened.symm.trans opened'
      refine hg d [.otherwise] otherwise _ opened read ?_ ?_
      · rw [same]
        rfl
      · rw [same]
        exact .otherwise (c := ⟨branches, otherwise, label⟩)
    · exact ends_put hb hg
  · exact ends_put hb hg

end Session

end RuleEditor
