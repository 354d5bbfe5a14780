import RuleEditor.Proofs.Address.Segments

/-!
# Paths and steps

A path that is written from steps is read as these steps, and the path one step up from a path is read as all
steps but the last. A path in this spelling is called canonical; it covers the paths below it.
-/
namespace RuleEditor.Address

/-- Reads the index of a step as it is written. -/
def readIndex (s : Step) : Except Fault Nat :=
  match s.index? with
  | some i => number (toString i)
  | none => .ok 0

/-- A step is read off the front of the segments, unless the next one is a number that it could take up. -/
theorem readSteps_step (path : String) (s : Step) {rest : List String}
    (h : ∀ x, rest.head? = some x → isNumber x = false) :
    readSteps path (s.segments ++ rest) = (do
      let _ ← readIndex s
      let steps ← readSteps path rest
      return s :: steps) := by
  have indexed (i : Nat) (word : String) (step : Nat → Step) (known : Step.indexed? word = some step) :
      readSteps path (word :: toString i :: rest) = (do
        let _ ← number (toString i)
        let steps ← readSteps path rest
        return step i :: steps) := by
    rw [readSteps.eq_def]
    simp only [known, isNumber_toString, if_true]
    cases read : number (toString i) with
    | error fault => rfl
    | ok j =>
        cases eq_of_number_toString read
        rfl
  have plain (word : String) (step : Step) (unknown : Step.indexed? word = none)
      (known : Step.plain? word = some step) :
      readSteps path (word :: rest) = (do
        let steps ← readSteps path rest
        return step :: steps) := by
    cases rest with
    | nil =>
        rw [readSteps.eq_def]
        simp only [unknown, known, readSteps, ok_bind, pure_eq_ok]
    | cons x rest =>
        rw [readSteps.eq_def]
        simp only [unknown, known, h x rfl, Bool.false_eq_true, and_false, if_false]
  cases s with
  | child i => exact indexed i _ _ rfl
  | condition i => exact indexed i _ _ rfl
  | result i => exact indexed i _ _ rfl
  | operand i => exact indexed i _ _ rfl
  | argument i => exact indexed i _ _ rfl
  | otherwise => exact plain _ _ rfl rfl
  | left => exact plain _ _ rfl rfl
  | right => exact plain _ _ rfl rfl
  | rightItem i =>
      show readSteps path ("right" :: toString i :: rest) = _
      rw [readSteps.eq_def]
      simp only [Step.indexed?, Step.plain?, isNumber_toString, if_true, readIndex, Step.index?]
      cases read : number (toString i) with
      | error fault => rfl
      | ok j =>
          cases eq_of_number_toString read
          rfl

theorem head?_segments (s : Step) (rest : List String) : (s.segments ++ rest).head? = some s.word := by
  unfold Step.segments
  split <;> rfl

/-- The segments of steps start with a word, and no word is a number. -/
theorem not_isNumber_head {steps : List Step} {x : String} (h : (steps.flatMap Step.segments).head? = some x) :
    isNumber x = false := by
  cases steps with
  | nil => cases h
  | cons s rest =>
      rw [List.flatMap_cons, head?_segments, Option.some.injEq] at h
      exact h ▸ not_isNumber_word s

/-- No step is read as another one. -/
theorem eq_of_readSteps {path : String} {steps read : List Step}
    (h : readSteps path (steps.flatMap Step.segments) = .ok read) : read = steps := by
  induction steps generalizing read with
  | nil =>
      cases h
      rfl
  | cons s rest ih =>
      rw [List.flatMap_cons, readSteps_step path s fun _ => not_isNumber_head] at h
      obtain ⟨_, _, h⟩ := bind_eq_ok.mp h
      obtain ⟨tail, below, h⟩ := bind_eq_ok.mp h
      cases h
      rw [ih below]

/-! ### One step up -/

/-- The last step was read from the last segments, and the steps before it from the segments before. -/
def LastRead (segments : List String) (steps : List Step) : Prop :=
  ∃ before last front back, steps = before ++ [last] ∧ segments = front ++ back ∧
    back.length = last.segments.length ∧ ∀ path, readSteps path front = .ok before

theorem length_segments_of_indexed {word : String} {step : Nat → Step} (h : Step.indexed? word = some step)
    (i : Nat) : (step i).segments.length = 2 := by
  unfold Step.indexed? at h
  split at h <;> cases h <;> rfl

theorem length_segments_of_plain {word : String} {step : Step} (h : Step.plain? word = some step) :
    step.segments.length = 1 := by
  unfold Step.plain? at h
  split at h <;> cases h <;> rfl

theorem readSteps_last {path : String} {segments : List String} {steps : List Step}
    (h : readSteps path segments = .ok steps) : (steps = [] ∧ segments = []) ∨ LastRead segments steps := by
  fun_induction readSteps path segments generalizing steps with
  | case1 =>
      cases h
      exact .inl ⟨rfl, rfl⟩
  | case2 | case4 | case6 | case9 => cases h
  | case3 word step known unknown =>
      cases h
      exact .inr ⟨[], step, [], [word], rfl, rfl, (length_segments_of_plain known).symm, fun _ => rfl⟩
  | case5 word next rest step known isIndex ih =>
      obtain ⟨i, read, h⟩ := bind_eq_ok.mp h
      obtain ⟨tail, below, h⟩ := bind_eq_ok.mp h
      cases h
      rcases ih below with ⟨rfl, rfl⟩ | ⟨before, last, front, back, rfl, rfl, same, readFront⟩
      · exact .inr ⟨[], step i, [], [word, next], rfl, rfl, (length_segments_of_indexed known i).symm, fun _ => rfl⟩
      · refine .inr ⟨step i :: before, last, word :: next :: front, back, rfl, rfl, same, fun path' => ?_⟩
        rw [readSteps.eq_def]
        simp only [known, isIndex, if_true, read, ok_bind, readFront, pure_eq_ok]
  | case7 word next rest step known unknown isIndex ih =>
      obtain ⟨i, read, h⟩ := bind_eq_ok.mp h
      obtain ⟨tail, below, h⟩ := bind_eq_ok.mp h
      cases h
      rcases ih below with ⟨rfl, rfl⟩ | ⟨before, last, front, back, rfl, rfl, same, readFront⟩
      · exact .inr ⟨[], .rightItem i, [], [word, next], rfl, rfl, rfl, fun _ => rfl⟩
      · refine .inr ⟨.rightItem i :: before, last, word :: next :: front, back, rfl, rfl, same, fun path' => ?_⟩
        rw [readSteps.eq_def]
        simp only [known, unknown, isIndex, and_self, if_true, read, ok_bind, readFront, pure_eq_ok]
  | case8 word next rest step known unknown isPlain ih =>
      obtain ⟨tail, below, h⟩ := bind_eq_ok.mp h
      cases h
      rcases ih below with ⟨-, none⟩ | ⟨before, last, front, back, rfl, same, length, readFront⟩
      · cases none
      · refine .inr ⟨step :: before, last, word :: front, back, rfl, congrArg (word :: ·) same, length, fun path' => ?_⟩
        cases front with
        | nil =>
            have nothing : before = [] := (Except.ok.inj (readFront path')).symm
            rw [readSteps.eq_def]
            simp only [known, unknown, nothing]
        | cons x front =>
            obtain ⟨rfl, -⟩ := List.cons.inj same
            rw [readSteps.eq_def]
            simp only [known, unknown, isPlain, if_false, readFront, ok_bind, pure_eq_ok]

/-- A path is read below one of the two roots. -/
theorem steps_eq_ok {path : String} {steps : List Step} (h : Address.steps path = .ok steps) :
    ∃ root rest, (root = "root" ∨ root = "case") ∧ segments path = root :: rest ∧
      readSteps path rest = .ok steps := by
  unfold Address.steps at h
  split at h
  · rename_i rest same
    exact ⟨_, rest, .inl rfl, same, h⟩
  · rename_i rest same
    exact ⟨_, rest, .inr rfl, same, h⟩
  · cases h

theorem steps_of_segments {path root : String} {rest : List String} (hi : root = "root" ∨ root = "case")
    (hs : segments path = root :: rest) : Address.steps path = readSteps path rest := by
  unfold Address.steps
  rcases hi with rfl | rfl
  · simp only [hs]
  · simp only [hs]

/-- The path one step up is read as all steps but the last. -/
theorem steps_parent {path parent : String} {steps : List Step} (hr : Address.steps path = .ok steps)
    (hu : parent? path = .ok (some parent)) :
    ∃ before last, steps = before ++ [last] ∧ Address.steps parent = .ok before := by
  obtain ⟨root, rest, isRoot, same, readRest⟩ := steps_eq_ok hr
  simp only [parent?, hr, ok_bind] at hu
  rcases readSteps_last readRest with ⟨rfl, -⟩ | ⟨before, last, front, back, rfl, rfl, length, readFront⟩
  · cases hu
  · simp only [List.getLast?_concat, pure_eq_ok, Except.ok.injEq, Option.some.injEq] at hu
    have kept : dropLast last.segments.length (segments path) = root :: front := by
      rw [dropLast, same, ← length, ← List.cons_append, List.length_append, Nat.add_sub_cancel, List.take_left]
    have plain : ∀ s ∈ root :: front, Segment s := by
      intro s within
      have inside : s ∈ segments path := by
        rw [same, ← List.cons_append]
        exact List.mem_append_left _ within
      exact segment_of_mem_segments inside
    have spelled : segments parent = root :: front := by
      rw [← hu, kept, segments_join plain]
    exact ⟨before, last, rfl, (steps_of_segments isRoot spelled).trans (readFront parent)⟩

/-- From a path below the root there is a way up. -/
theorem parent?_of_steps {path : String} {before : List Step} {last : Step}
    (h : Address.steps path = .ok (before ++ [last])) :
    ∃ above, parent? path = .ok (some above) ∧ Address.steps above = .ok before := by
  have up : parent? path = .ok (some (join (dropLast last.segments.length (segments path)))) := by
    simp only [parent?, h, ok_bind, List.getLast?_concat, pure_eq_ok]
  obtain ⟨before', last', same, readAbove⟩ := steps_parent h up
  obtain ⟨rfl, -⟩ := List.append_inj' same rfl
  exact ⟨_, up, readAbove⟩

/-! ### Positions -/

theorem not_isNumber_of_plain {word : String} {step : Step} (h : Step.plain? word = some step) :
    isNumber word = false := by
  unfold Step.plain? at h
  split at h <;> cases h <;> decide

/-- A number at the end of a path that can be read can be read itself. -/
theorem number_of_readSteps {path last : String} {segments : List String} {steps : List Step}
    (hr : readSteps path segments = .ok steps) (he : segments.getLast? = some last)
    (hd : isNumber last = true) : ∃ n, number last = .ok n := by
  fun_induction readSteps path segments generalizing steps with
  | case1 => cases he
  | case2 | case4 | case6 | case9 => cases hr
  | case3 word step known unknown =>
      have same : word = last := by simpa using he
      rw [← same, not_isNumber_of_plain known] at hd
      cases hd
  | case5 word next rest step known isIndex ih | case7 word next rest step known unknown isIndex ih =>
      obtain ⟨i, here, hr⟩ := bind_eq_ok.mp hr
      obtain ⟨tail, below, -⟩ := bind_eq_ok.mp hr
      cases rest with
      | nil =>
          have same : next = last := by simpa using he
          exact ⟨i, same ▸ here⟩
      | cons x rest => exact ih below (by simpa using he)
  | case8 word next rest step known unknown isPlain ih =>
      obtain ⟨tail, below, -⟩ := bind_eq_ok.mp hr
      exact ih below (by simpa using he)

/-- A path that can be read has a position. -/
theorem position_of_steps {path : String} {steps : List Step} (h : Address.steps path = .ok steps) :
    ∃ n, position path = .ok n := by
  obtain ⟨root, rest, isRoot, same, below⟩ := steps_eq_ok h
  unfold position
  rw [same]
  cases ends : (root :: rest).getLast? with
  | none => exact ⟨1, rfl⟩
  | some last =>
      by_cases digits : isNumber last = true
      · have within : rest.getLast? = some last := by
          cases rest with
          | nil =>
              have same : root = last := by simpa using ends
              subst same
              rcases isRoot with rfl | rfl <;> exact absurd digits (by decide)
          | cons x rest => simpa using ends
        obtain ⟨n, known⟩ := number_of_readSteps below within digits
        exact ⟨n + 1, by simp only [digits, if_true, known, Except.map]⟩
      · exact ⟨1, by simp only [digits, Bool.false_eq_true, if_false]⟩

end RuleEditor.Address
