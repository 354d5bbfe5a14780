import RuleEditor.Proofs.Session.Intact
import RuleEditor.Proofs.Session.Seated
import RuleEditor.Proofs.Tree.Warned

/-!
# The warnings are those of the rule

As long as every place for an expression holds a node that declares a type, the warnings of a rule can be told, and
after each move the warnings that a session shows are those of the rule that it holds. Only a new rule that cannot be
started takes the warnings away and leaves the old rule there.
-/
namespace RuleEditor

namespace Node

/-- A node in the place of an expression declares a type. -/
def Declares (seat : Seat) (node : Node) : Prop := seat = .expression → ∃ type, node.type = .ok type

variable {numeric : List String} {seat : Seat} {node : Node}

theorem Leaf.type (h : node.Leaf) : ∃ type, node.type = .ok type := by
  cases h <;> exact ⟨_, rfl⟩

theorem Named.type (h : node.Named) : ∃ type, node.type = .ok type := by
  obtain ⟨name, has⟩ := h
  cases node <;> cases has <;> exact ⟨_, rfl⟩

theorem type_settled {mid node' : Node} (hs : mid.reinferAt numeric [] = .ok node')
    (h : ∃ type, mid.type = .ok type) : ∃ type, node'.type = .ok type := by
  rcases settled_eq hs with rfl | ⟨_, _, _, _, rfl, rfl⟩
  · exact h
  · exact ⟨_, rfl⟩

theorem Declares.slot {step : Step} {old new node' : Node} (slot : Slot step old new node node')
    (h : node.Declares seat) (hp : new.Declares (seat.after step)) : node'.Declares seat := by
  intro here
  cases slot with
  | otherwise => exact hp rfl
  | _ => exact h here

theorem seating_declares {sc : Scope} (hs : ∀ e, sc.dares (.supply e) → e.Seated Declares .expression)
    (hl : ∀ c left, sc.dares (.lead c left) → left.Seated Declares .expression)
    (ho : ∀ d, sc.dares (.load d) → d.Seated Declares) : sc.Seating numeric Declares where
  supplied := hs _
  left := hl _ _
  leaf leaf _ := leaf.type
  condition _ := nofun
  nothing := nofun
  several _ := nofun
  operand _ := nofun
  right _ := nofun
  item _ _ _ := nofun
  inner _ _ declared _ := ⟨_, declared⟩
  outer _ _ expression _ := type_of_isExpression expression
  cleared _ _ condition _ := condition.named.type
  filled _ _ h _ := h rfl
  lifted _ _ _ named _ := named.type
  call _ _ := ⟨_, rfl⟩
  reference _ _ := ⟨_, rfl⟩
  choice _ last _ _ := last rfl
  joined _ _ _ := ⟨_, rfl⟩
  rebuilt _ _ _ _ := ⟨_, rfl⟩
  retyped _ _ _ _ _ := nofun
  settled slot settled h put here := type_settled settled (Declares.slot slot h put here)
  alike slot _ h put := Declares.slot slot h put
  begun := nofun
  loaded := ho _

theorem Seated.leftsDeclared (h : node.Seated Declares seat) : node.LeftsDeclared :=
  fun _ _ _ _ _ found => (seated_comparison.mp (h.find found)).2.1.here rfl

end Node

namespace Document

variable {d : Document}

/-- Without a selected rule there is nothing to warn of. -/
theorem warnings_unresolved (h : d.definition.EveryReference fun r => r.isResolved = false) :
    d.warnings = .ok [] := by
  have among (positions : List (List Step × Node)) (leads : ∀ p ∈ positions, d.definition.find p.1 = .ok p.2) :
      d.warningsAmong positions = .ok [] := by
    induction positions with
    | nil => rfl
    | cons p rest ih =>
        obtain ⟨found, below⟩ := List.forall_mem_cons.mp leads
        have none : d.warningsAt p.1 p.2 = .ok [] := by
          unfold warningsAt
          split
          · rfl
          · rename_i target is
            simp [(h.find found).here target is]
        unfold warningsAmong
        rw [none, ok_bind, ih below, ok_bind]
        rfl
  exact among _ fun p within => Node.find_of_mem_positions within

/-- What identifies a rule makes no difference to its warnings. -/
theorem warnings_stored (d : Document) (uuid version : Value) : { d with uuid, version }.warnings = d.warnings := by
  have among (positions : List (List Step × Node)) :
      { d with uuid, version }.warningsAmong positions = d.warningsAmong positions := by
    induction positions with
    | nil => rfl
    | cons p rest ih =>
        unfold warningsAmong
        rw [ih]
        rfl
  exact among _

end Document

namespace Session

variable {sc : Scope} {s s' : Session}

/-- The warnings that are shown are those of the rule. -/
def Told (s : Session) : Prop := ∀ d, s.document = some d → d.warnings = .ok s.warnings

theorem told_committed {d : Document} {tree : Node} (h : (s.committed d tree).Seated Node.Declares) :
    (s.committed d tree).Told := by
  intro d' same
  cases same
  obtain ⟨warnings, told⟩ := Document.warnings_eq_ok (h _ rfl).leftsDeclared
  simp only [committed, told]

theorem Move.told (hk : ¬ sc.dares .abandon) (seated : s'.Seated Node.Declares) (h : s.Told) (move : Move sc s s') :
    s'.Told := by
  cases move with
  | aside aside =>
      intro d opened
      rw [aside.warnings]
      exact h d (aside.document ▸ opened)
  | remember => exact h
  | place | recast | choose | recheck => exact told_committed seated
  | @store s' d uuid version aside opened =>
      intro d' same
      cases same
      rw [Document.warnings_stored, h d opened, aside.warnings]
  | restart _ abandons => exact absurd abandons hk
  | create started =>
      intro d same
      cases same
      have unresolved : Unselected fun r => r.isResolved = false := fun _ _ _ => rfl
      have fresh : Node.Intact False (fun r => r.isResolved = false) _ := (intact_initial _ _).ok started
      exact Document.warnings_unresolved (Node.everyReference_iff_intact.mpr fresh)
  | load _ _ _ kept =>
      intro d same
      cases same
      obtain ⟨warnings, told⟩ := Document.warnings_eq_ok (seated _ rfl).leftsDeclared
      rw [told, kept warnings told]

theorem Moves.told (hk : ¬ sc.dares .abandon) (seating : sc.Seating s.numeric Node.Declares)
    (seated : s.Seated Node.Declares) (h : s.Told) (moves : Moves sc s s') : s'.Told := by
  induction moves with
  | refl => exact h
  | tail earlier move ih => exact move.told hk (Moves.seated seating seated (earlier.tail move)) ih

end Session

end RuleEditor
