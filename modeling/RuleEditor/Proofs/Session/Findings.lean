import RuleEditor.Proofs.Outcome
import RuleEditor.Review

/-!
# Findings that are kept

A memo keeps findings by version, and drops the oldest ones. Whatever is `found` about versions, a memo that
keeps nothing else answers with nothing else, and a check of one more rule leaves it so.
-/
namespace RuleEditor

variable {found : Value → Value → Finding → Prop} {uuid version : Value} {m m' : Memo} {f : Finding}

/-- Every finding that is kept has been found about the version that it is looked up for. -/
def Memo.Remembers (found : Value → Value → Finding → Prop) (m : Memo) : Prop :=
  ∀ entry ∈ m.entries, ∀ uuid version, isFor uuid version entry = true → found uuid version entry.2

/-- What a check of the document finds has been found about the version, however the version is given. -/
def Document.Settles (found : Value → Value → Finding → Prop) (uuid version : Value) (d : Document) : Prop :=
  ∀ f, Finding.ofDocument d = .ok f →
    found uuid version f ∧ ∀ u v, uuid.same u = true → version.same v = true → found u v f

namespace Memo

theorem remembers_empty (capacity : Int) : (empty capacity).Remembers found := by
  intro entry within
  cases within

theorem Remembers.lookup (h : m.Remembers found) (hk : m.lookup uuid version = .ok (some f)) :
    found uuid version f := by
  unfold Memo.lookup at hk
  split at hk
  · obtain ⟨entry, first, rfl⟩ := Option.map_eq_some_iff.mp (Except.ok.inj hk)
    exact h entry (List.mem_of_find?_eq_some first) uuid version (List.find?_some first)
  · cases hk

theorem Remembers.touch (h : m.Remembers found) (uuid version : Value) : (m.touch uuid version).Remembers found := by
  intro entry within
  apply h
  rcases List.mem_append.mp within with within | within
  · exact (List.mem_filter.mp within).1
  · exact (List.mem_filter.mp within).1

theorem Remembers.record (h : m.Remembers found)
    (hc : ∀ u v, uuid.same u = true → version.same v = true → found u v f) :
    (m.record uuid version f).Remembers found := by
  have added : ∀ entry ∈ m.entries ++ [((uuid, version), f)],
      ∀ u v, isFor u v entry = true → found u v entry.2 := by
    intro entry within u v asked
    rcases List.mem_append.mp within with within | within
    · exact h entry within u v asked
    · cases List.mem_singleton.mp within
      simp only [isFor, Bool.and_eq_true] at asked
      exact hc u v asked.1 asked.2
  intro entry within
  simp only [Memo.record] at within
  split at within
  · exact added entry (List.mem_of_mem_drop within)
  · exact added entry within

/-- The finding about a version is a kept one or a new one, and what is kept then has been found. -/
theorem Remembers.review {d : Document} {events : List Event} (h : m.Remembers found)
    (settles : d.Settles found uuid version)
    (hr : m.review uuid version (Finding.ofDocument d) = .ok (f, m', events)) :
    found uuid version f ∧ m'.Remembers found := by
  obtain ⟨known?, looked, hr⟩ := bind_eq_ok.mp hr
  cases known? with
  | some known =>
      cases hr
      exact ⟨h.lookup looked, h.touch uuid version⟩
  | none =>
      obtain ⟨new, checked, hr⟩ := bind_eq_ok.mp hr
      cases hr
      obtain ⟨here, alike⟩ := settles f checked
      exact ⟨here, h.record alike⟩

/-- A check of a version that can be looked up succeeds if the rule itself can be checked. -/
theorem review_of_checked (m : Memo) {check : Except Fault Finding} (hu : uuid.isKey = true)
    (hv : version.isKey = true) (hc : check = .ok f) :
    ∃ f' m' events, m.review uuid version check = .ok (f', m', events) := by
  unfold review lookup
  rw [hu, hv, Bool.and_self, if_pos rfl, ok_bind, hc]
  cases m.entries.find? (isFor uuid version) with
  | none => exact ⟨_, _, _, rfl⟩
  | some entry => exact ⟨_, _, _, rfl⟩

end Memo

end RuleEditor
