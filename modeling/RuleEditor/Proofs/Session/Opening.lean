import RuleEditor.Proofs.Session.Saving
import RuleEditor.Proofs.Session.Staleness

/-!
# Requests for rules

A rule is requested when it is started, loaded, opened or restored. The first two take it up at once; an opened or
restored rule comes later, and a call for it is not told that another rule has been requested meanwhile. So the rule
that was requested last stays, once it has been taken up, exactly if no call that was started before it brings another
one afterwards.
-/
namespace RuleEditor

open Session Editing

namespace Turn

/-- The turn requests a rule. -/
def Requests : Turn → Prop
  | .edit (.newRule ..) | .edit (.loadRule _) | .start (.openRule ..) | .start (.restore _) => True
  | _ => False

end Turn

namespace Progress

/-- The call brings another rule when its questions are answered. -/
def Brings : Progress → Prop
  | .loading _ _ .opening | .writing _ (.restoring ..) | .reading .. => True
  | _ => False

end Progress

namespace Session

variable {s : Session}

theorem advance_brings (opening : Bool) (r : Refresh) (remaining : List (String × Reference)) :
    Ends (advance opening r remaining) s (fun p _ => ¬ p.Brings) (fun _ _ => True) := by
  induction remaining generalizing r s with
  | nil => exact ends_bind ((ends_trivially _ s).mono (fun _ _ _ => ends_pure fun no => no) fun _ _ _ => trivial)
  | cons next rest ih =>
      obtain ⟨path, target⟩ := next
      unfold advance
      refine bind_get (bind_lift (fun _ => trivial) fun known? _ => ?_)
      split
      · exact ih _
      · exact bind_requireService (fun _ _ => trivial) fun _ => ends_pure fun no => no

theorem refresh_brings (opening : Bool) :
    Ends (refresh opening) s (fun p _ => ¬ p.Brings) (fun _ _ => True) := by
  unfold refresh
  refine bind_definition (fun _ => trivial) fun d _ => ends_bind ?_
  exact (ends_trivially _ s).mono (fun _ _ _ => bind_get (advance_brings opening _ _)) fun _ _ _ => trivial

theorem refreshed_brings (opening : Bool) (r : Refresh) (answer : Except Fault Document) :
    Ends (refreshed opening r answer) s (fun p _ => ¬ p.Brings) (fun _ _ => True) := by
  unfold refreshed
  split
  · exact advance_brings opening _ _
  · exact ends_bind ((ends_trivially _ s).mono (fun _ _ _ => advance_brings opening _ _) fun _ _ _ => trivial)
  · exact bind_note (advance_brings opening _ _)
  · exact ends_throw trivial

end Session

theorem Errand.start_brings {s : Session} (errand : Errand) :
    Ends errand.start s (fun p _ => p.Brings → (Turn.start errand).Requests) (fun _ _ => True) := by
  cases errand with
  | openRule | restore => exact (ends_trivially _ s).mono (fun _ _ _ _ => trivial) fun _ _ _ => trivial
  | searchReferences query =>
      refine ends_bind ((ends_trivially _ s).mono (fun types s' _ => ?_) fun _ _ _ => trivial)
      split
      · exact ends_pure fun no => no
      · exact bind_requireService (fun _ _ => trivial) fun _ => ends_pure fun no => no
  | resolveReference path summary =>
      show Ends (Session.resolveReference path summary) _ _ _
      unfold Session.resolveReference
      refine bind_requireService (fun _ _ => trivial) fun _ => bind_issueToken (bind_noteHere (bind_get ?_))
      exact ends_pure fun no => no
  | refreshReferences => exact (refresh_brings false).mono (fun _ _ no yes => no yes) fun _ _ _ => trivial
  | save =>
      refine save_spec.mono (fun p _ done => ?_) fun _ _ _ => trivial
      obtain ⟨-, d, -, rfl⟩ := done
      exact fun no => no

/-- A call that is still to bring a rule was to bring it before, and has not brought it yet. -/
theorem Progress.resume_brings {s : Session} {p : Progress} {a : Answer} {op : Editing Progress}
    (h : p.resume a = some op) :
    Ends op s (fun q _ => q.Brings → p.Brings ∧ ¬ p.Does a .takeUp) (fun _ _ => True) := by
  unfold resume at h
  split at h
  · rename_i uuid version next answer
    cases h
    unfold loaded
    cases next with
    | opening =>
        refine bind_lift (fun _ => trivial) fun d _ => ends_bind ?_
        refine (ends_trivially _ s).mono (fun _ s' _ => ?_) fun _ _ _ => trivial
        exact (refresh_brings true).mono (fun _ _ no yes => absurd yes no) fun _ _ _ => trivial
    | resolving path summary token epoch =>
        exact ends_bind ((ends_trivially _ s).mono (fun _ _ _ => ends_pure False.elim) fun _ _ _ => trivial)
    | refreshing r opening =>
        exact (refreshed_brings opening r answer).mono (fun _ _ no yes => absurd yes no) fun _ _ _ => trivial
  · rename_i types query answer
    cases h
    unfold found
    split
    · exact ends_pure False.elim
    · exact bind_note (ends_pure False.elim)
    · exact ends_throw trivial
  · rename_i write next answer
    cases h
    unfold written
    refine bind_lift (fun _ => trivial) fun saved _ => ?_
    cases next with
    | saving => exact bind_openDocument (fun _ => trivial) fun d _ => bind_modify (bind_noteHere (ends_pure False.elim))
    | restoring uuid version =>
        exact bind_noteHere (ends_pure fun _ => ⟨trivial, fun does => does⟩)
  · rename_i uuid version saved answer
    cases h
    unfold reread
    refine bind_lift (fun _ => trivial) fun d _ => ends_bind ?_
    exact (ends_trivially _ s).mono (fun _ _ _ => ends_pure False.elim) fun _ _ _ => trivial
  · cases h

namespace Conversation

variable {c c' : Conversation} {turn : Turn} {turns rest : List Turn} {n : Nat}

/-- Every call that is to bring a rule has a number below `n`. -/
def BroughtBelow (n : Nat) (c : Conversation) : Prop := ∀ m p, (m, p) ∈ c.waiting → p.Brings → m < n

theorem BroughtBelow.next (h : c.BroughtBelow n) (hu : ¬ turn.Requests) : (c.next turn).BroughtBelow n := by
  intro m p waits brings
  cases waits_of_mem waits with
  | still waited => exact h m p waited brings
  | answered waited resumed ran =>
      exact h m _ (mem_of_lookup waited) ((Progress.resume_brings resumed).ok ran brings).1
  | begun _ ran => exact absurd ((Errand.start_brings _).ok ran brings) hu

theorem BroughtBelow.run (h : c.BroughtBelow n) (hu : ∀ turn ∈ turns, ¬ turn.Requests) :
    (c.run turns).BroughtBelow n := by
  induction turns generalizing c with
  | nil => exact h
  | cons turn rest ih =>
      obtain ⟨first, others⟩ := List.forall_mem_cons.mp hu
      exact ih (h.next first) others

/-- A turn that does not request a rule takes one up only as the answer to a call that is to bring one. -/
theorem BroughtBelow.takesUp (h : c.BroughtBelow n) (hu : ¬ turn.Requests) (ht : c.TakesUp turn) :
    ∃ call d, turn = .answer call (.rule (.ok d)) ∧ call < n := by
  cases turn with
  | edit e => cases e <;> first | exact absurd trivial hu | cases ht
  | query q => cases ht
  | start errand => cases ht
  | answer call a =>
      obtain ⟨d, rfl, -⟩ := taken_of_answer ht
      obtain ⟨p, waits, does⟩ := ht
      refine ⟨call, d, rfl, h call p (mem_of_lookup waits) ?_⟩
      obtain ⟨_, -, ⟨uuid, version, rfl⟩ | ⟨uuid, version, saved, rfl⟩⟩ := p.does_takeUp does
      · trivial
      · trivial

/-- The rule that is requested next in a conversation has just been taken up, and none has been requested since. -/
inductive Fulfilled (c : Conversation) : Conversation → Prop where
  | atOnce {e} : (Turn.edit e).Requests → Fulfilled c (c.next (.edit e))
  | later {errand between a} : (Turn.start errand).Requests → (∀ turn ∈ between, ¬ turn.Requests) →
      ((c.next (.start errand)).run between).TakesUp (.answer c.started a) →
      Fulfilled c (((c.next (.start errand)).run between).next (.answer c.started a))

theorem Fulfilled.broughtBelow (numbered : c.Numbered) (fulfilled : Fulfilled c c') : c'.BroughtBelow c.started := by
  cases fulfilled with
  | atOnce => exact fun m p waits _ => numbered m p waits
  | @later errand between a _ unasked takes =>
      -- the call for the rule has the number `c.started` itself, and it brings nothing more once it is answered
      have first : (c.next (.start errand)).BroughtBelow (c.started + 1) := by
        intro m p waits _
        have below := numbered.next (.start errand) m p waits
        rwa [started_next] at below
      have before := first.run unasked
      intro m p waits brings
      have below : m < c.started + 1 := by
        cases waits_of_mem waits with
        | still waited => exact before m p waited brings
        | answered waited resumed ran =>
            exact before _ _ (mem_of_lookup waited) ((Progress.resume_brings resumed).ok ran brings).1
      have other : m ≠ c.started := by
        rintro rfl
        obtain ⟨q, waited, does⟩ := takes
        have answered {op : Editing Progress} (resumed : q.resume a = some op) : False := by
          obtain ⟨ran, -⟩ := not_mem_answered waited resumed waits
          exact ((Progress.resume_brings resumed).ok ran brings).2 does
        obtain ⟨_, rfl, ⟨uuid, version, rfl⟩ | ⟨uuid, version, saved, rfl⟩⟩ := q.does_takeUp does
        · exact answered rfl
        · exact answered rfl
      omega

/-- The rule that was requested last stays, once it has been taken up, exactly if no call that was started before the
request brings another one. Only such calls do, and each of them puts its rule in the place of the one requested. -/
theorem rule_requested_last_stays_iff (s : Session) (before rest : List Turn) {c c' : Conversation}
    (hr : c = (opening s).run before) (hf : Fulfilled c c') (hu : ∀ turn ∈ rest, ¬ turn.Requests) :
    ((c'.run rest).session.epoch = c'.session.epoch ↔
        ∀ sofar call a, sofar ++ [.answer call a] <+: rest → call < c.started →
          ¬ (c'.run sofar).TakesUp (.answer call a)) ∧
      ((c'.run rest).session.epoch = c'.session.epoch → (c'.run rest).session.heading = c'.session.heading) ∧
      ∀ sofar turn, sofar ++ [turn] <+: rest → (c'.run sofar).TakesUp turn →
        ∃ call d, turn = .answer call (.rule (.ok d)) ∧ call < c.started ∧
          ((c'.run sofar).next turn).session.heading = some d.heading := by
  have numbered : c.Numbered := hr ▸ (numbered_opening s).run before
  have below := hf.broughtBelow numbered
  have brought : ∀ sofar turn, sofar ++ [turn] <+: rest → (c'.run sofar).TakesUp turn →
      ∃ call d, turn = .answer call (.rule (.ok d)) ∧ call < c.started ∧
        ((c'.run sofar).next turn).session.heading = some d.heading := by
    intro sofar turn within takes
    have earlier : ∀ turn ∈ sofar, ¬ turn.Requests := by
      intro other there
      exact hu other (within.subset (List.mem_append_left _ there))
    have asked : ¬ turn.Requests := hu turn (within.subset (List.mem_append_right _ List.mem_cons_self))
    obtain ⟨call, d, rfl, old⟩ := (below.run earlier).takesUp asked takes
    obtain ⟨d', same, -, heading⟩ := taken_of_answer takes
    cases same
    exact ⟨call, d, rfl, old, heading⟩
  refine ⟨epoch_run_eq_iff.trans ⟨?_, ?_⟩, fun same => heading_run (epoch_run_eq_iff.mp same), brought⟩
  · intro never sofar call a within _ takes
    exact never ⟨sofar, _, within, takes⟩
  · rintro none ⟨sofar, turn, within, takes⟩
    obtain ⟨call, d, rfl, old, -⟩ := brought sofar turn within takes
    exact none sofar call _ within old takes

def age : Document where
  form := .expression
  type := .text "number"
  definition := .field (.text "number") (.text "AGE")
  ruleType := .text "Reporting"
  uuid := .text "u-age"
  version := .int 1
  id := .text "AGE"
  description := .null

def openingAdult : Conversation := (opening served).run [.start (.openRule adult.uuid .null)]

/-- Another one is opened after it, and comes first. -/
def openedAge : Conversation :=
  ((openingAdult.next (.start (.openRule age.uuid .null))).run []).next
    (.answer openingAdult.started (.rule (.ok age)))

theorem fulfilled_openedAge : Fulfilled openingAdult openedAge := by
  have takes : ((openingAdult.next (.start (.openRule age.uuid .null))).run []).TakesUp
      (.answer openingAdult.started (.rule (.ok age))) := ⟨.loading age.uuid .null .opening, by rfl, trivial⟩
  exact .later trivial (fun _ => nofun) takes

def valuing : List Turn := [.edit (.changeSource "root" "value")]

theorem requested_rule_stays_while_valuing :
    Fulfilled openingAdult openedAge ∧ (∀ turn ∈ valuing, ¬ turn.Requests) ∧
      (openedAge.run valuing).session.heading = openedAge.session.heading := by
  have unasked : ∀ turn ∈ valuing, ¬ turn.Requests := by
    simp [valuing, Turn.Requests]
  obtain ⟨stays, keeps, -⟩ := rule_requested_last_stays_iff served [.start (.openRule adult.uuid .null)] valuing rfl
    fulfilled_openedAge unasked
  refine ⟨fulfilled_openedAge, unasked, keeps (stays.mpr ?_)⟩
  rintro sofar call a within -
  have edits : Turn.answer call a ∈ valuing := within.subset (List.mem_append_right _ List.mem_cons_self)
  simp [valuing] at edits

/-- The rule that was requested first comes last, and takes the place of the one that was requested last. -/
theorem rule_requested_first_wins :
    Fulfilled openingAdult openedAge ∧
      openedAge.session.document.map (·.id) = some age.id ∧
      (openedAge.next (.answer 0 (.rule (.ok adult)))).session.document.map (·.id) = some adult.id ∧
      age.id ≠ adult.id := by
  exact ⟨fulfilled_openedAge, by rfl, by rfl, by simp [age, adult]⟩

end Conversation

end RuleEditor
