import RuleEditor.Journal
import Mathlib.Data.List.Basic

/-!
# Blocks inside blocks

A block binds its variables when it is entered, and when it is left they are unbound. What they were bound to before
does not come back. So leaving a block restores the context exactly if neither the block nor one left inside it binds
what was bound before, and inside a block a variable keeps the value from the innermost block that binds it until a
block that binds it too is left further inside.
-/
namespace RuleEditor

/-! ### Binding and unbinding -/

namespace Members

variable {α : Type} {key other : String}

theorem get?_erase_self (key : String) (ms : Members α) : get? key (erase key ms) = none := by
  induction ms with
  | nil => rfl
  | cons m ms ih =>
      obtain ⟨name, value⟩ := m
      by_cases here : name = key
      · rw [erase, List.filter_cons_of_neg (by simp [here])]
        exact ih
      · rw [erase, List.filter_cons_of_pos (by simp [here]), get?, if_neg here]
        exact ih

theorem get?_erase_of_ne (h : other ≠ key) (ms : Members α) : get? other (erase key ms) = get? other ms := by
  induction ms with
  | nil => rfl
  | cons m ms ih =>
      obtain ⟨name, value⟩ := m
      by_cases here : name = key
      · rw [erase, List.filter_cons_of_neg (by simp [here]), get?, if_neg (here ▸ Ne.symm h)]
        exact ih
      · rw [erase, List.filter_cons_of_pos (by simp [here]), get?, get?]
        exact if_congr Iff.rfl rfl ih

end Members

namespace Context

variable {c : Context} {bound : Members Value} {x : String}

/-- The value that a block with these variables binds a name to. The last one counts. -/
def given? (x : String) (bound : Members Value) : Option Value := (bound.reverse.find? (·.1 = x)).map (·.2)

theorem get?_enter : (c.enter bound).get? x = (given? x bound).or (c.get? x) := by
  unfold enter given?
  induction bound generalizing c with
  | nil => rfl
  | cons m bound ih =>
      rw [List.foldl_cons, ih, List.reverse_cons, List.find?_append, Option.map_or, Option.or_assoc]
      congr 1
      by_cases here : m.1 = x
      · rw [here, Members.get?_set_self]
        simp [here]
      · rw [Members.get?_set_of_ne (Ne.symm here)]
        simp [here]

theorem get?_leave : (c.leave bound).get? x = if x ∈ bound.names then none else c.get? x := by
  unfold leave
  induction bound generalizing c with
  | nil => rfl
  | cons m bound ih =>
      rw [List.foldl_cons, ih]
      by_cases here : x = m.1
      · rw [here, Members.get?_erase_self, ite_self]
        exact (if_pos List.mem_cons_self).symm
      · rw [Members.get?_erase_of_ne here]
        exact if_congr (by simp [here, Members.names]) rfl rfl

theorem given?_of_not_mem (h : x ∉ bound.names) : given? x bound = none := by
  rw [given?, Option.map_eq_none_iff, List.find?_eq_none]
  intro m within same
  exact h (List.mem_map.mpr ⟨m, List.mem_reverse.mp within, of_decide_eq_true same⟩)

end Context

/-! ### Courses of blocks -/

/-- What is done from some point on, as far as blocks go. -/
inductive Course where
  | done
  /-- Something fails, and what is left of the blocks around is skipped. -/
  | fail
  /-- A fault of the body goes no further. -/
  | attempt (body rest : Course)
  | block (bound : Members Value) (body rest : Course)

namespace Course

variable {t body rest : Course} {c : Context} {bound : Members Value} {x : String}

/-- The context at the end, and whether the course failed. -/
def run : Course → Context → Context × Bool
  | .done, c => (c, false)
  | .fail, c => (c, true)
  | .attempt body rest, c => rest.run (body.run c).1
  | .block bound body rest, c =>
      let (opened, within) := (Block.closed bound).enter c
      let (within, failed) := body.run within
      let (_, after) := opened.leave within
      if failed then (after, true) else rest.run after

def fails : Course → Bool
  | .done => false
  | .fail => true
  | .attempt _ rest => rest.fails
  | .block _ body rest => body.fails || rest.fails

/-- The names of the blocks that are left in a course. -/
def released : Course → List String
  | .done | .fail => []
  | .attempt body rest => body.released ++ rest.released
  | .block bound body rest =>
      body.released ++ bound.names ++ if body.fails then [] else rest.released

theorem run_failed : (t.run c).2 = t.fails := by
  induction t generalizing c with
  | done => rfl
  | fail => rfl
  | attempt body rest _ after => exact after
  | block bound body rest inside after =>
      simp only [run, inside, fails]
      cases body.fails
      · exact after
      · rfl

theorem run_block :
    (Course.block bound body rest).run c =
      if body.fails then (((body.run (c.enter bound)).1.leave bound), true)
      else rest.run ((body.run (c.enter bound)).1.leave bound) := by
  simp only [run, Block.enter, Block.closed, Block.leave, if_true, run_failed]

/-- A course changes the context by what it unbinds. What it binds it unbinds as well. -/
theorem get?_run : (t.run c).1.get? x = if x ∈ t.released then none else c.get? x := by
  induction t generalizing c with
  | done => rfl
  | fail => rfl
  | attempt body rest inside after =>
      rw [run, after, inside, released, ← ite_or]
      exact if_congr (or_comm.trans List.mem_append.symm) rfl rfl
  | block bound body rest inside after =>
      have left : ((body.run (c.enter bound)).1.leave bound).get? x =
          if x ∈ body.released ++ bound.names then none else c.get? x := by
        rw [Context.get?_leave, inside, Context.get?_enter]
        by_cases own : x ∈ bound.names
        · rw [if_pos own, if_pos (List.mem_append_right _ own)]
        · rw [if_neg own, Context.given?_of_not_mem own, Option.none_or]
          exact if_congr (by rw [List.mem_append, or_iff_left own]) rfl rfl
      rw [run_block, released]
      cases body.fails
      · rw [if_neg Bool.false_ne_true, after, left, ← ite_or, if_neg Bool.false_ne_true]
        exact if_congr (or_comm.trans List.mem_append.symm) rfl rfl
      · rw [if_pos rfl, if_pos rfl, left, List.append_nil]

end Course

/-! ### Inside blocks -/

/-- A block that has been entered, with the names that were unbound since. -/
structure Opened where
  bound : Members Value
  lost : List String

/-- A moment in a course: the context, and the blocks around, the innermost one first. -/
structure Moment where
  context : Context
  opened : List Opened

namespace Moment

variable {m : Moment} {t : Course} {bound : Members Value} {x : String}

/-- The moment at which a block has just been entered. -/
def inside (bound : Members Value) (m : Moment) : Moment :=
  ⟨m.context.enter bound, ⟨bound, []⟩ :: m.opened⟩

/-- The moment after a course. -/
def after (t : Course) (m : Moment) : Moment :=
  ⟨(t.run m.context).1, m.opened.map fun b => { b with lost := b.lost ++ t.released }⟩

/-- The innermost block around that binds a name. -/
def binder? (x : String) (m : Moment) : Option Opened :=
  m.opened.find? fun b => (Context.given? x b.bound).isSome

/-- A name is bound as the innermost block around that binds it says, unless it was unbound since. -/
def Bound (m : Moment) : Prop :=
  ∀ x b, m.binder? x = some b → m.context.get? x = if x ∈ b.lost then none else Context.given? x b.bound

theorem Bound.inside (h : m.Bound) : (m.inside bound).Bound := by
  intro x b found
  rw [Moment.inside, Context.get?_enter]
  rw [binder?, Moment.inside, List.find?_cons] at found
  cases own : Context.given? x bound with
  | some v =>
      rw [own] at found
      cases found
      rw [if_neg List.not_mem_nil, own, Option.some_or]
  | none =>
      rw [own] at found
      rw [Option.none_or]
      exact h x b found

theorem Bound.after (h : m.Bound) : (m.after t).Bound := by
  intro x b found
  rw [binder?, Moment.after, List.find?_map, Option.map_eq_some_iff] at found
  obtain ⟨before, found, rfl⟩ := found
  rw [Moment.after, Course.get?_run, h x before found, ← ite_or]
  exact if_congr (or_comm.trans List.mem_append.symm) rfl rfl

end Moment

namespace Course

/-- The moments of a course: where it ends or fails, where a block is entered and where one has been left. -/
def moments : Course → Moment → List Moment
  | .done, m | .fail, m => [m]
  | .attempt body rest, m => body.moments m ++ rest.moments (m.after body)
  | .block bound body rest, m =>
      m :: body.moments (m.inside bound) ++
        if body.fails then [] else rest.moments (m.after (.block bound body .done))

theorem bound_of_mem_moments {t : Course} {m n : Moment} (h : m.Bound) (hw : n ∈ t.moments m) : n.Bound := by
  induction t generalizing m with
  | done => exact List.mem_singleton.mp hw ▸ h
  | fail => exact List.mem_singleton.mp hw ▸ h
  | attempt body rest inBody inRest =>
      rcases List.mem_append.mp hw with hw | hw
      · exact inBody h hw
      · exact inRest h.after hw
  | block bound body rest inBody inRest =>
      rcases List.mem_append.mp hw with hw | hw
      · rcases List.mem_cons.mp hw with rfl | hw
        · exact h
        · exact inBody h.inside hw
      · cases failed : body.fails <;> rw [failed] at hw
        · exact inRest h.after hw
        · cases hw

/-- Leaving a block restores the context in which it was entered exactly if nothing was bound there that the block or
one left inside it binds. In a course a name has the value from the innermost block around that binds it exactly if it
was not unbound since that block was entered. Both hold whether blocks are left at their end or by a fault. -/
theorem blocks_restore (t : Course) (c : Context) :
    (∀ bound body c, (∀ x, ((block bound body .done).run c).1.get? x = c.get? x) ↔
      ∀ x ∈ (block bound body .done).released, c.get? x = none) ∧
    ∀ m ∈ t.moments ⟨c, []⟩, ∀ x b, m.binder? x = some b →
      (m.context.get? x = Context.given? x b.bound ↔ x ∉ b.lost) := by
  constructor
  · intro bound body c
    refine forall_congr' fun x => ?_
    rw [get?_run]
    by_cases lost : x ∈ (block bound body .done).released
    · rw [if_pos lost, eq_comm]
      exact ⟨fun unbound _ => unbound, fun unbound => unbound lost⟩
    · rw [if_neg lost]
      exact iff_of_true rfl fun found => absurd found lost
  · intro m within x b found
    have start : Moment.Bound ⟨c, []⟩ := fun x b found => nomatch found
    have given : (Context.given? x b.bound).isSome := by
      have binds := List.find?_some found
      exact binds
    rw [bound_of_mem_moments start within x b found]
    by_cases lost : x ∈ b.lost
    · rw [if_pos lost]
      exact iff_of_false (fun none => by rw [← none] at given; cases given) (not_not_intro lost)
    · rw [if_neg lost]
      exact iff_of_true rfl lost

/-- A session's block around one that binds another name. -/
theorem other_names_restore :
    let inner : Course := .block [("path", .text "root")] .done .done
    let outside : Context := [("session_id", .text "es_a")]
    (∀ x, (inner.run outside).1.get? x = outside.get? x) ∧
      ∃ m ∈ (block outside inner .done).moments ⟨[], []⟩,
        m.binder? "path" = some ⟨[("path", .text "root")], []⟩ ∧
          m.context.get? "session_id" = some (.text "es_a") := by
  intro inner outside
  let m : Moment := (Moment.mk [] []).inside outside |>.inside [("path", .text "root")]
  have innermost : m ∈ (block outside inner .done).moments ⟨[], []⟩ :=
    List.mem_cons_of_mem _ (List.mem_cons_of_mem _ List.mem_cons_self)
  refine ⟨((blocks_restore inner []).1 _ _ _).mpr ?_, m, innermost, rfl, ?_⟩
  · simp [outside, released, fails, Members.names, Members.get?]
  · exact ((blocks_restore (block outside inner .done) []).2 _ innermost "session_id" _ rfl).mpr List.not_mem_nil

/-- The inner block unbinds what the outer one has bound. -/
theorem inner_block_unbinds :
    let outside : Members Value := [("session_id", .text "es_a")]
    let inner : Course := .block [("session_id", .text "es_b")] .done .done
    (inner.run outside).1.get? "session_id" ≠ outside.get? "session_id" ∧
      ∃ m ∈ (block outside inner .done).moments ⟨[], []⟩,
        m.binder? "session_id" = some ⟨outside, ["session_id"]⟩ ∧ m.context.get? "session_id" = none := by
  intro outside inner
  let m : Moment := ((Moment.mk [] []).inside outside).after inner
  have innerLeft : m ∈ (block outside inner .done).moments ⟨[], []⟩ :=
    List.mem_cons_of_mem _ (List.mem_cons_of_mem _ (List.mem_cons_of_mem _ List.mem_cons_self))
  refine ⟨?_, m, innerLeft, rfl, rfl⟩
  intro same
  cases same

end Course

end RuleEditor
