import RuleEditor.Fault

/-! Outcomes of computations that may fail. A sequence of steps succeeds exactly when every step does,
so a successful computation can be taken apart from its front. -/
namespace RuleEditor

variable {α β : Type}

@[simp] theorem ok_bind (a : α) (f : α → Except Fault β) : (Except.ok a >>= f) = f a := rfl

@[simp] theorem error_bind (fault : Fault) (f : α → Except Fault β) :
    ((Except.error fault : Except Fault α) >>= f) = .error fault := rfl

@[simp] theorem pure_eq_ok (a : α) : (pure a : Except Fault α) = .ok a := rfl

theorem bind_eq_ok {x : Except Fault α} {f : α → Except Fault β} {b : β} :
    (x >>= f) = .ok b ↔ ∃ a, x = .ok a ∧ f a = .ok b := by
  cases x with
  | ok a => simp only [ok_bind, Except.ok.injEq, exists_eq_left']
  | error fault => simp only [error_bind, reduceCtorEq, false_and, exists_false]

theorem bind_eq_error {x : Except Fault α} {f : α → Except Fault β} {fault : Fault} :
    (x >>= f) = .error fault ↔ x = .error fault ∨ ∃ a, x = .ok a ∧ f a = .error fault := by
  cases x with
  | ok a => simp only [ok_bind, reduceCtorEq, Except.ok.injEq, exists_eq_left', false_or]
  | error bad => simp only [error_bind, Except.error.injEq, reduceCtorEq, false_and, exists_false, or_false]

theorem map_eq_ok {x : Except Fault α} {f : α → β} {b : β} :
    x.map f = .ok b ↔ ∃ a, x = .ok a ∧ f a = b := by
  cases x with
  | ok a => simp only [Except.map, Except.ok.injEq, exists_eq_left']
  | error fault => simp only [Except.map, reduceCtorEq, false_and, exists_false]

/-- Each result comes from one of the items. -/
theorem mapM_eq_ok {f : α → Except Fault β} {xs : List α} {ys : List β} (h : xs.mapM f = .ok ys) :
    ys.length = xs.length ∧ ∀ y ∈ ys, ∃ x ∈ xs, f x = .ok y := by
  induction xs generalizing ys with
  | nil =>
      cases h
      exact ⟨rfl, fun y within => by cases within⟩
  | cons x rest ih =>
      rw [List.mapM_cons] at h
      obtain ⟨y, first, h⟩ := bind_eq_ok.mp h
      obtain ⟨others, below, h⟩ := bind_eq_ok.mp h
      cases h
      obtain ⟨length, all⟩ := ih below
      refine ⟨congrArg (· + 1) length, fun m within => ?_⟩
      rcases List.mem_cons.mp within with rfl | within
      · exact ⟨x, List.mem_cons_self, first⟩
      · obtain ⟨x', there, same⟩ := all m within
        exact ⟨x', List.mem_cons_of_mem _ there, same⟩

end RuleEditor
