import RuleEditor.Proofs.Session.Formed
import RuleEditor.Proofs.Session.TakingUp

/-!
# Saving

A call that saves the rule is answered while the session may be edited, and what the store has given the rule is
then written onto the rule that is open. As long as no other rule has been taken up since, that is the rule that
was saved, with all that has been edited meanwhile. After another rule has been taken up, nothing tells the call
that its rule is not the open one, and the open rule is given the identity of the saved one.
-/
namespace RuleEditor

open Session Editing

namespace Session

variable {s : Session}

/-- The session after what the store has given a saved rule is written onto the document. -/
def stored (saved : Saved) (d : Document) (s : Session) : Session :=
  { s with
    document := some { d with uuid := saved.uuid, version := saved.version }
    isNew := false
    journal := s.journal ++ [Event.within [("session_id", .text s.id)] ⟨.info, "Rule saved",
      [("rule_uuid", saved.uuid), ("version", saved.version), ("rule_id", saved.id)]⟩] }

/-- A save stops with the open rule as it is to be written, and changes nothing before. -/
theorem save_spec : Ends save s
    (fun p s' => s' = s ∧ ∃ d, s.document = some d ∧
      p = .writing (if d.isStored then .update d.uuid d else .create d) .saving) (fun _ s' => s' = s) := by
  unfold save
  refine bind_definition (fun _ => rfl) fun d _ => bind_lift (fun _ => rfl) fun _ _ => ?_
  exact bind_openDocument (fun _ => rfl) fun d opened => ends_pure ⟨rfl, d, opened, rfl⟩

/-- The end of a save writes onto the open rule, whichever that is. -/
theorem written_saving (answer : Except Fault Saved) : Ends (written .saving answer) s
    (fun p s' => ∃ saved d, answer = .ok saved ∧ p = .finished (.saved saved) ∧ s.document = some d ∧
      s' = s.stored saved d) (fun _ s' => s' = s) := by
  unfold written
  refine bind_lift (fun _ => rfl) fun saved answered => ?_
  refine bind_openDocument (fun _ => rfl) fun d opened => bind_modify (bind_noteHere (ends_pure ?_))
  exact ⟨saved, d, answered, rfl, opened, rfl⟩

end Session

namespace Conversation

variable {c : Conversation} {turns : List Turn}

def saving (c : Conversation) : Conversation := c.next (.start .save)

theorem session_saving (c : Conversation) : c.saving.session = c.session := by
  rw [saving, session_start]
  exact (save_spec.mono (fun _ _ done => done.1) fun _ _ failed => failed).after

theorem waits_saving (numbered : c.Numbered) {p : Progress} (hw : (c.started, p) ∈ (c.saving.run turns).waiting) :
    ∃ first write, c.session.document = some first ∧ p = .writing write .saving := by
  have given : c.started < c.saving.started := by
    rw [saving, started_next]
    exact Nat.lt_succ_self _
  -- no answer makes a save wait for anything else, so it waits with its write all the time
  refine waits_run (P := fun p => ∃ first write, c.session.document = some first ∧ p = .writing write .saving)
    given ?_ ?_ turns p hw
  · intro p hw
    cases waits_of_mem hw with
    | still waited => exact absurd (numbered _ _ waited) (Nat.lt_irrefl _)
    | begun _ ran =>
        obtain ⟨-, d, opened, rfl⟩ := save_spec.ok ran
        exact ⟨d, _, opened, rfl⟩
  · rintro p a op s q ⟨first, write, opened, rfl⟩ resumed ran unfinished
    cases a with
    | version answer =>
        cases resumed
        obtain ⟨saved, d, -, rfl, -⟩ := (written_saving answer).ok ran
        exact absurd rfl (unfinished _)
    | _ => cases resumed

/-- A completed save changes the identity of the open rule, its version and whether it is new, and nothing else.
If no other rule has been taken up since its start, the open rule is the one that was saved. If another one has, the
rule stays as it is exactly if it has the identity and the version of the saved one already and is not new. -/
theorem save_written_onto_open_rule (s : Session) (before turns : List Turn) {c : Conversation}
    (hr : c = (opening s).run before) {a : Answer} {saved : Saved}
    (he : (c.saving.run turns).outcome? (.answer c.started a) = some (.ok (.saved saved))) :
    ∃ first d, c.session.document = some first ∧ (c.saving.run turns).session.document = some d ∧
      ((c.saving.run turns).next (.answer c.started a)).session = (c.saving.run turns).session.stored saved d ∧
      (¬ c.saving.TakesUpAmong turns → d.heading = first.heading) ∧
      (c.saving.TakesUpAmong turns →
        ((((c.saving.run turns).next (.answer c.started a)).session.document =
              (c.saving.run turns).session.document ∧
            ((c.saving.run turns).next (.answer c.started a)).session.isNew =
              (c.saving.run turns).session.isNew) ↔
          d.uuid = saved.uuid ∧ d.version = saved.version ∧ (c.saving.run turns).session.isNew = false)) := by
  have numbered : c.Numbered := hr ▸ (numbered_opening s).run before
  obtain ⟨p, op, waits, resumed, ran, session⟩ := outcome?_answer he
  obtain ⟨first, write, opened, rfl⟩ := waits_saving numbered waits
  cases a with
  | version answer =>
      cases resumed
      obtain ⟨saved', d, rfl, finished, live, after⟩ := (written_saving answer).ok ran
      cases finished
      rw [← session] at after
      refine ⟨first, d, opened, live, after, ?_, ?_⟩
      · intro never
        have same := heading_run never
        rw [heading, heading, session_saving, live, opened] at same
        exact Option.some.inj same
      · intro _
        rw [after, live]
        constructor
        · rintro ⟨document, isNew⟩
          have same := Option.some.inj document
          exact ⟨(congrArg Document.uuid same).symm, (congrArg Document.version same).symm, isNew.symm⟩
        · rintro ⟨uuid, version, isNew⟩
          exact ⟨by rw [stored, ← uuid, ← version], isNew.symm⟩
  | _ => cases resumed

def loadedTotal : Conversation := (opening plain).run [.edit (.loadRule total)]

/-- What the store answers when the rule is saved as its next version. -/
def totalSaved : Saved := ⟨total.uuid, .int 2, total.id⟩

/-- The last number is taken out while the rule is being saved. -/
def shortening : List Turn := [.edit (.removeOperand "root" 2)]

theorem save_while_shortening :
    (loadedTotal.saving.run shortening).outcome? (.answer loadedTotal.started (.version (.ok totalSaved))) =
        some (.ok (.saved totalSaved)) ∧
      ∃ first d, loadedTotal.session.document = some first ∧
        (loadedTotal.saving.run shortening).session.document = some d ∧
        ((loadedTotal.saving.run shortening).next (.answer loadedTotal.started (.version (.ok totalSaved)))).session =
          (loadedTotal.saving.run shortening).session.stored totalSaved d ∧
        (¬ loadedTotal.saving.TakesUpAmong shortening → d.heading = first.heading) := by
  have ended : (loadedTotal.saving.run shortening).outcome?
      (.answer loadedTotal.started (.version (.ok totalSaved))) = some (.ok (.saved totalSaved)) := by rfl
  obtain ⟨first, d, opened, live, after, same, -⟩ :=
    save_written_onto_open_rule plain [.edit (.loadRule total)] shortening rfl ended
  exact ⟨ended, first, d, opened, live, after, same⟩

/-- Another rule is started while the rule is being saved. -/
def restarting : List Turn := [.edit (.newRule (.text "expression") .null .null (.text "OTHER") .null)]

/-- The new rule, which was never stored, is given the identity of the rule that was saved. -/
theorem save_names_other_rule :
    loadedTotal.saving.TakesUpAmong restarting ∧
      (loadedTotal.saving.run restarting).outcome? (.answer loadedTotal.started (.version (.ok totalSaved))) =
        some (.ok (.saved totalSaved)) ∧
      (loadedTotal.saving.run restarting).session.document.map (fun d => (d.id, d.uuid)) =
        some (.text "OTHER", .null) ∧
      (loadedTotal.saving.run restarting).session.isNew = true ∧
      ((loadedTotal.saving.run restarting).next
          (.answer loadedTotal.started (.version (.ok totalSaved)))).session.document.map (fun d => (d.id, d.uuid)) =
        some (.text "OTHER", total.uuid) ∧
      ((loadedTotal.saving.run restarting).next
          (.answer loadedTotal.started (.version (.ok totalSaved)))).session.isNew = false := by
  refine ⟨⟨[], _, List.prefix_refl _, trivial⟩, by rfl, by rfl, by rfl, by rfl, by rfl⟩

end Conversation

end RuleEditor
