import RuleEditor.Proofs.Address.Steps
import RuleEditor.Tree.Traversal

/-!
# Canonical paths

A path is canonical if it is spelled as the steps that it is read as. The text of a canonical path goes on in
the paths below it, so making the requests at a path and below it stale finds them all.
-/
namespace RuleEditor.Address

/-- The path is spelled as some steps below a root. -/
def Canonical (root path : String) : Prop := ∃ steps, path = render root steps

/-- The words that paths start with. -/
def IsRoot (root : String) : Prop := root = "root" ∨ root = "case"

variable {root path : String} {steps more : List Step}

theorem segment_root (h : IsRoot root) : Segment root := by
  rcases h with rfl | rfl <;> decide

theorem segment_render (h : IsRoot root) : ∀ s ∈ root :: steps.flatMap Step.segments, Segment s := by
  intro s within
  rcases List.mem_cons.mp within with rfl | within
  · exact segment_root h
  · obtain ⟨step, -, there⟩ := List.mem_flatMap.mp within
    exact segments_of_step there

theorem segments_render (h : IsRoot root) : segments (render root steps) = root :: steps.flatMap Step.segments :=
  segments_join (segment_render h)

/-- A canonical path is read as its own steps, if it can be read. -/
theorem eq_of_steps_render {read : List Step} (h : IsRoot root) (hs : Address.steps (render root steps) = .ok read) :
    read = steps := by
  rw [steps_of_segments h (segments_render h)] at hs
  exact eq_of_readSteps hs

theorem toString_inj {i j : Nat} (h : toString i = toString j) : i = j :=
  Option.some.inj (Text.decimal?_toString i ▸ h ▸ Text.decimal?_toString j)

/-- Steps are told apart by their segments: no word is a number. -/
theorem eq_of_segments {steps' : List Step} (h : steps.flatMap Step.segments = steps'.flatMap Step.segments) :
    steps = steps' := by
  induction steps generalizing steps' with
  | nil =>
      cases steps' with
      | nil => rfl
      | cons s rest =>
          have first := head?_segments s (rest.flatMap Step.segments)
          rw [← List.flatMap_cons, ← h] at first
          cases first
  | cons s rest ih =>
      cases steps' with
      | nil =>
          have first := head?_segments s (rest.flatMap Step.segments)
          rw [← List.flatMap_cons, h] at first
          cases first
      | cons s' rest' =>
          have number {i : Nat} {below : List String} (steps : List Step)
              (same : steps.flatMap Step.segments = toString i :: below) : False := by
            have plain : isNumber (toString i) = false := not_isNumber_head (congrArg List.head? same)
            rw [isNumber_toString] at plain
            cases plain
          rw [List.flatMap_cons, List.flatMap_cons] at h
          cases s <;> cases s' <;>
            simp only [Step.segments, Step.index?, Step.word, List.cons_append, List.nil_append, List.cons.injEq,
              String.reduceEq, false_and, true_and] at h
          case right.rightItem i => exact (number rest h).elim
          case rightItem.right i => exact (number rest' h.symm).elim
          case otherwise.otherwise | left.left | right.right => rw [ih h]
          all_goals rw [toString_inj h.1, ih h.2]

theorem render_inj {steps' : List Step} (h : IsRoot root) (hs : render root steps = render root steps') :
    steps = steps' := by
  have segments := congrArg segments hs
  rw [segments_render h, segments_render h] at segments
  exact eq_of_segments (List.cons.inj segments).2

theorem Canonical.eq_render (h : IsRoot root) (canonical : Canonical root path)
    (hr : Address.steps path = .ok steps) : path = render root steps := by
  obtain ⟨spelled, rfl⟩ := canonical
  rw [eq_of_steps_render h hr]

/-- The path one step up from a canonical one is canonical. -/
theorem Canonical.parent {parent : String} (h : IsRoot root) (canonical : Canonical root path)
    (hu : parent? path = .ok (some parent)) : Canonical root parent := by
  obtain ⟨spelled, rfl⟩ := canonical
  obtain ⟨read, same, hu⟩ := bind_eq_ok.mp hu
  cases eq_of_steps_render h same
  rcases List.eq_nil_or_concat spelled with rfl | ⟨before, last, rfl⟩
  · cases hu
  · rw [List.concat_eq_append, List.getLast?_concat] at hu
    cases hu
    refine ⟨before, ?_⟩
    rw [segments_render h, List.flatMap_append, List.flatMap_singleton, ← List.cons_append, dropLast,
      List.length_append, Nat.add_sub_cancel, List.take_left]
    rfl

/-! ### Texts of paths -/

theorem toList_render (h : IsRoot root) :
    (render root steps).toList = root.toList ++ (steps.flatMap Step.segments).flatMap fun s => '-' :: s.toList :=
  join_cons (segment_render h)

/-- What stands below a path starts with a dash after the text of the path. -/
theorem covers_of_toList {key : String} {rest : List Char} (h : key.toList = path.toList ++ rest)
    (hd : rest = [] ∨ rest.head? = some '-') : covers path key = true := by
  cases rest with
  | nil =>
      rw [List.append_nil] at h
      simp [covers, String.toList_inj.mp h]
  | cons c rest =>
      simp only [List.head?_cons, Option.some.injEq, reduceCtorEq, false_or] at hd
      subst hd
      have : path.toList ++ ['-'] <+: key.toList := ⟨rest, by rw [h]; simp⟩
      simp [covers, this]

theorem head?_dashes (segments : List String) :
    (segments.flatMap fun s => '-' :: s.toList) = [] ∨
      (segments.flatMap fun s => '-' :: s.toList).head? = some '-' := by
  cases segments with
  | nil => exact .inl rfl
  | cons s rest => exact .inr rfl

/-- A path covers the paths below it. -/
theorem covers_render (h : IsRoot root) (steps more : List Step) :
    covers (render root steps) (render root (steps ++ more)) = true := by
  have text : (render root (steps ++ more)).toList =
      (render root steps).toList ++ (more.flatMap Step.segments).flatMap fun s => '-' :: s.toList := by
    rw [toList_render h, toList_render h, List.flatMap_append, List.flatMap_append, List.append_assoc]
  exact covers_of_toList text (head?_dashes _)

/-- The path of the whole right side covers the paths of the operands on it. -/
theorem covers_render_right (h : IsRoot root) (steps : List Step) (i : Nat) (more : List Step) :
    covers (render root (steps ++ [.right])) (render root (steps ++ .rightItem i :: more)) = true := by
  have text : (render root (steps ++ .rightItem i :: more)).toList = (render root (steps ++ [.right])).toList ++
      (toString i :: more.flatMap Step.segments).flatMap fun s => '-' :: s.toList := by
    rw [toList_render h, toList_render h]
    simp [Step.segments, Step.index?, Step.word]
  exact covers_of_toList text (head?_dashes _)

/-- A word after a path spells a step below it. -/
theorem render_append (h : IsRoot root) {step : Step} (hp : step.index? = none) :
    render root steps ++ ("-" ++ step.word) = render root (steps ++ [step]) := by
  apply String.toList_inj.mp
  rw [String.toList_append, toList_render h, toList_render h]
  simp [Step.segments, hp]

/-- A word and a number after a path spell a step below it. -/
theorem render_child (h : IsRoot root) (steps : List Step) (i : Nat) :
    render root steps ++ ("-condition-" ++ toString i) = render root (steps ++ [.child i]) := by
  apply String.toList_inj.mp
  rw [String.toList_append, toList_render h, toList_render h]
  simp [Step.segments, Step.index?, Step.word]

/-- Below a path that can be read, steps are read as they are on their own. -/
theorem readSteps_append {path' : String} (hr : readSteps path (steps.flatMap Step.segments) = .ok steps)
    (hb : readSteps path' (more.flatMap Step.segments) = .ok more) :
    readSteps path' ((steps ++ more).flatMap Step.segments) = .ok (steps ++ more) := by
  induction steps with
  | nil => exact hb
  | cons step rest ih =>
      rw [List.flatMap_cons, readSteps_step path step fun _ => not_isNumber_head] at hr
      obtain ⟨i, index, hr⟩ := bind_eq_ok.mp hr
      obtain ⟨tail, inner, same⟩ := bind_eq_ok.mp hr
      cases same
      rw [List.cons_append, List.flatMap_cons, readSteps_step path' step fun _ => not_isNumber_head, index, ok_bind,
        ih inner]
      rfl

theorem steps_append (h : IsRoot root) (hr : Address.steps (render root steps) = .ok steps)
    (hb : ∀ path, readSteps path (more.flatMap Step.segments) = .ok more) :
    Address.steps (render root (steps ++ more)) = .ok (steps ++ more) := by
  rw [steps_of_segments h (segments_render h)] at hr ⊢
  exact readSteps_append hr (hb _)

end RuleEditor.Address

theorem RuleEditor.Node.isRoot_root (tree : RuleEditor.Node) : RuleEditor.Address.IsRoot tree.root := by
  cases tree with
  | choice => exact .inr rfl
  | _ => exact .inl rfl
