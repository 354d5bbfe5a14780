import RuleEditor.Proofs.Tree.Lens
import RuleEditor.Session.Reference

/-!
# Paths that stumble

Where a path does not lead to a node, there is nothing to be found, with two exceptions: a path with an index that is
no number, and a path that takes one of several operands on a right side that is not made of several. The walk along
these fails in another way, and stumbles.
-/
namespace RuleEditor

/-- Nothing is at the place that was looked for. -/
def Fault.Misses : Fault → Prop
  | .noSuchPlace _ | .outOfRange _ => True
  | _ => False

namespace Address

variable {path segment : String} {fault : Fault}

theorem number_error (h : number segment = .error fault) : ∃ text, fault = .badValue text := by
  simp only [number] at h
  split at h
  · cases h
    exact ⟨_, rfl⟩
  · split at h
    · cases h
    · cases h
      exact ⟨_, rfl⟩

theorem readSteps_error {segments : List String} (h : readSteps path segments = .error fault) :
    fault.Misses ∨ ∃ text, fault = .badValue text := by
  fun_induction readSteps path segments with
  | case1 | case3 => cases h
  | case2 | case4 | case6 | case9 =>
      cases h
      exact .inl trivial
  | case5 word next rest step known isIndex ih | case7 word next rest step known unknown isIndex ih =>
      rcases bind_eq_error.mp h with read | ⟨i, -, h⟩
      · exact .inr (number_error read)
      · rcases bind_eq_error.mp h with below | ⟨tail, -, no⟩
        · exact ih below
        · cases no
  | case8 word next rest step known unknown isPlain ih =>
      rcases bind_eq_error.mp h with below | ⟨tail, -, no⟩
      · exact ih below
      · cases no

/-- A path that cannot be read names no place, or it has an index that is no number. -/
theorem steps_error (h : steps path = .error fault) : fault.Misses ∨ ∃ text, fault = .badValue text := by
  unfold steps at h
  split at h
  · exact readSteps_error h
  · exact readSteps_error h
  · cases h
    exact .inl trivial

end Address

namespace Node

variable {path : String} {step : Step} {steps : List Step} {node tree : Node} {fault : Fault}

/-- The steps take one of several operands where the right side of a comparison is a single one or empty. -/
def Singles (steps : List Step) (tree : Node) : Prop :=
  ∃ above i below name left operator right, steps = above ++ .rightItem i :: below ∧
    tree.find above = .ok (.comparison name left operator right) ∧ ∀ items, right ≠ .several items

/-- The walk along the path fails, and not because nothing is there. -/
def Stumbles (path : String) (tree : Node) : Prop :=
  (∃ text, Address.steps path = .error (.badValue text)) ∨ ∃ steps, Address.steps path = .ok steps ∧ tree.Singles steps

theorem item_error {α : Type} {xs : List α} {i : Nat} (h : item xs i = .error fault) : fault.Misses := by
  unfold item at h
  split at h
  · cases h
  · cases h
    trivial

theorem map_item_error {α β : Type} {xs : List α} {i : Nat} {f : α → β} (h : (item xs i).map f = .error fault) :
    fault.Misses := by
  cases found : item xs i with
  | ok x =>
      rw [found] at h
      cases h
  | error bad =>
      rw [found] at h
      cases h
      exact item_error found

theorem child_error (h : node.child step = .error fault) : fault.Misses ∨ node.Singles [step] := by
  cases node with
  | choice branches otherwise label =>
      cases step with
      | condition i | result i => exact .inl (map_item_error h)
      | otherwise => cases h
      | _ =>
          cases h
          exact .inl trivial
  | group name children conjunction negated =>
      cases step with
      | child i => exact .inl (item_error h)
      | _ =>
          cases h
          exact .inl trivial
  | comparison name left operator right =>
      cases step with
      | rightItem i =>
          by_cases several : ∃ items, right = .several items
          · obtain ⟨items, rfl⟩ := several
            exact .inl (item_error h)
          · exact .inr ⟨[], i, [], name, left, operator, right, rfl, rfl, fun items same => several ⟨items, same⟩⟩
      | left | right => cases h
      | _ =>
          cases h
          exact .inl trivial
  | chain type operands operators =>
      cases step with
      | operand i => exact .inl (item_error h)
      | _ =>
          cases h
          exact .inl trivial
  | call type name arguments =>
      cases step with
      | argument i => exact .inl (map_item_error h)
      | _ =>
          cases h
          exact .inl trivial
  | _ =>
      cases h
      exact .inl trivial

/-- A walk that fails comes to a place where nothing is, or stumbles over a single operand. -/
theorem find_error (h : tree.find steps = .error fault) : fault.Misses ∨ tree.Singles steps := by
  induction steps generalizing tree with
  | nil => cases h
  | cons step rest ih =>
      rcases bind_eq_error.mp h with failed | ⟨child, stands, lost⟩
      · rcases child_error failed with misses | ⟨above, i, below, name, left, operator, right, same, found, single⟩
        · exact .inl misses
        · refine .inr ⟨above, i, below ++ rest, name, left, operator, right, ?_, found, single⟩
          exact congrArg (· ++ rest) same |>.trans (List.append_assoc above (.rightItem i :: below) rest)
      · rcases ih lost with misses | ⟨above, i, below, name, left, operator, right, rfl, found, single⟩
        · exact .inl misses
        · refine .inr ⟨step :: above, i, below, name, left, operator, right, rfl, ?_, single⟩
          simp only [find, stands, ok_bind, found]

theorem Singles.find_eq (h : tree.Singles steps) : tree.find steps = .error .unsuitable := by
  obtain ⟨above, i, below, name, left, operator, right, rfl, found, single⟩ := h
  have stumbles : (Node.comparison name left operator right).child (.rightItem i) = .error .unsuitable := by
    cases right with
    | several items => exact absurd rfl (single items)
    | _ => rfl
  rw [find_append, found, ok_bind, find, stumbles, error_bind]

theorem atPath?_eq_error : tree.atPath? path = .error fault ↔ tree.atPath path = .error fault ∧ ¬ fault.Misses := by
  unfold atPath?
  cases tree.atPath path with
  | ok node => exact ⟨nofun, fun h => nomatch h.1⟩
  | error bad =>
      cases bad with
      | noSuchPlace | outOfRange =>
          refine ⟨nofun, ?_⟩
          rintro ⟨⟨⟩, other⟩
          exact absurd trivial other
      | _ =>
          constructor
          · rintro ⟨⟩
            exact ⟨rfl, id⟩
          · rintro ⟨⟨⟩, -⟩
            rfl

/-- A look-up fails exactly along the paths that stumble; along all others there is a node or none. -/
theorem stumbles_iff : tree.Stumbles path ↔ ∃ fault, tree.atPath? path = .error fault := by
  simp only [atPath?_eq_error, atPath]
  constructor
  · rintro (⟨text, unread⟩ | ⟨steps, read, singles⟩)
    · exact ⟨.badValue text, by rw [unread, error_bind], fun misses => misses⟩
    · exact ⟨.unsuitable, by rw [read, ok_bind, singles.find_eq], fun misses => misses⟩
  · rintro ⟨fault, failed, other⟩
    rcases bind_eq_error.mp failed with unread | ⟨steps, read, lost⟩
    · rcases Address.steps_error unread with misses | ⟨text, rfl⟩
      · exact absurd misses other
      · exact .inl ⟨text, unread⟩
    · exact .inr ⟨steps, read, (find_error lost).resolve_left other⟩

end Node

end RuleEditor
