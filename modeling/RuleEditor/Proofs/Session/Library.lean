import RuleEditor.Proofs.Session.Findings
import RuleEditor.Session.Conversation

/-!
# Libraries

A library is a store whose versions never change: all that a service ever answers about a version of a rule is the
same document, and it carries that version. What a check finds about a version is the same then at any time.
-/
namespace RuleEditor

/-- Values that are the same name the same rule, and the same version of it. -/
structure Library where
  version? : Value → Value → Option Document
  uuid_same : ∀ uuid uuid' version, uuid.same uuid' = true → version? uuid version = version? uuid' version
  version_same : ∀ uuid version version', version.same version' = true → version? uuid version = version? uuid version'
  carries : ∀ uuid version d, version? uuid version = some d → d.version.same version = true ∧ version.isNull = false

namespace Library

variable {lib : Library} {uuid version : Value} {d : Document} {f : Finding}

/-- The rule is one that the library has, in the version that it carries. -/
def Keeps (lib : Library) (uuid : Value) (d : Document) : Prop := lib.version? uuid d.version = some d

/-- A load of a rule is answered with the version that was asked for; if none was, any may come. -/
def Answers (lib : Library) (uuid version : Value) (d : Document) : Prop :=
  lib.Keeps uuid d ∧ (version.isNull = false → d.version.same version = true)

/-- What a check of a version finds. -/
def Found (lib : Library) (uuid version : Value) (f : Finding) : Prop :=
  ∃ d, lib.version? uuid version = some d ∧ Finding.ofDocument d = .ok f

/-- What is remembered about a version, if it is one. -/
def Recalled (lib : Library) (uuid version : Value) (f : Finding) : Prop :=
  version.isNull = false → lib.Found uuid version f

/-- What stands beside the reference is what a check finds of the version that it refers to. -/
def Checked (lib : Library) (r : Reference) : Prop := ∃ f, lib.Found r.uuid r.version f ∧ r = r.reviewed f

theorem Keeps.carried (h : lib.Keeps uuid d) : d.version.isNull = false := (lib.carries _ _ _ h).2

theorem Answers.version? (h : lib.Answers uuid version d) (hg : version.isNull = false) :
    lib.version? uuid version = some d := by
  rw [← lib.version_same uuid _ _ (h.2 hg)]
  exact h.1

theorem version?_same {uuid' version' : Value} (hu : uuid.same uuid' = true)
    (hv : version.same version' = true) : lib.version? uuid version = lib.version? uuid' version' := by
  rw [lib.uuid_same _ _ _ hu, lib.version_same _ _ _ hv]

/-- The finding about a version is the same whatever names the version. -/
theorem settles (h : lib.version? uuid version = some d) : d.Settles lib.Found uuid version := by
  intro f checked
  refine ⟨⟨d, h, checked⟩, fun u v uuids versions => ⟨d, ?_, checked⟩⟩
  rw [← version?_same uuids versions]
  exact h

theorem recalls (h : lib.Answers uuid version d) : d.Settles lib.Recalled uuid version := by
  intro f checked
  cases null : version.isNull with
  | false =>
      obtain ⟨here, alike⟩ := settles (h.version? null) f checked
      exact ⟨fun _ => here, fun u v uuids versions _ => alike u v uuids versions⟩
  | true =>
      refine ⟨fun given => (by rw [null] at given; cases given), fun u v uuids versions given => ?_⟩
      cases version with
      | null =>
          cases v with
          | null => cases given
          | _ => cases versions
      | _ => cases null

theorem Keeps.answers (h : lib.Keeps uuid d) : lib.Answers uuid d.version d := ⟨h, fun _ => (lib.carries _ _ _ h).1⟩

/-- A check of a version finds the same as any other check of it, kept or not. -/
theorem review_eq_ok {m : Memo} (hk : m.Remembers lib.Recalled) (h : lib.Keeps uuid d) (hu : uuid.isKey = true)
    (hv : d.version.isKey = true) (hc : Finding.ofDocument d = .ok f) :
    ∃ m' events, m.review uuid d.version (Finding.ofDocument d) = .ok (f, m', events) ∧ m'.Remembers lib.Recalled := by
  obtain ⟨f', m', events, reviewed⟩ := m.review_of_checked hu hv hc
  obtain ⟨recalled, kept'⟩ := hk.review (recalls h.answers) reviewed
  obtain ⟨d', version, checked'⟩ := recalled h.carried
  cases version.symm.trans h
  cases checked'.symm.trans hc
  exact ⟨m', events, reviewed, kept'⟩

theorem Checked.retyped {r : Reference} (h : lib.Checked r) (type : Value) : lib.Checked { r with type } := by
  obtain ⟨f, found, same⟩ := h
  refine ⟨f, found, ?_⟩
  show { r with type } = { r.reviewed f with type }
  rw [← same]

theorem checked_reviewed {live target : Reference} (hs : live.sameTarget target = true)
    (found : lib.Found target.uuid target.version f) : lib.Checked (live.reviewed f) := by
  obtain ⟨d, kept, checked⟩ := found
  simp only [Reference.sameTarget, Bool.and_eq_true] at hs
  exact ⟨f, ⟨d, (version?_same hs.1 hs.2).trans kept, checked⟩, rfl⟩

/-! ### Libraries of some versions -/

theorem toInt?_same {x y : Binary64} (h : x.same y = true) : x.toInt? = y.toInt? := by
  have zero (negative : Bool) (exponent : Int) : (Binary64.finite negative 0 exponent).toInt? = some 0 := by
    cases negative <;> by_cases below : exponent < 0 <;> simp [Binary64.toInt?, Binary64.fraction, below]
  cases x with
  | finite negative m e =>
      cases y with
      | finite negative' m' e' =>
          simp only [Binary64.same, Bool.or_eq_true, Bool.and_eq_true, beq_iff_eq] at h
          rcases h with ⟨rfl, rfl⟩ | ⟨⟨rfl, rfl⟩, rfl⟩
          · rw [zero, zero]
          · rfl
      | _ => cases h
  | infinite negative =>
      cases y with
      | infinite negative' => rfl
      | _ => cases h
  | undefined => cases h

theorem same_text_congr {s : String} {v w : Value} (h : v.same w = true) :
    (Value.text s).same v = (Value.text s).same w := by
  cases v with
  | text t =>
      cases w with
      | text t' =>
          rw [Value.same, beq_iff_eq] at h
          rw [h]
      | _ => cases h
  | _ =>
      cases w with
      | text t' => cases h
      | _ => rfl

theorem same_int_congr {n : Int} {v w : Value} (h : v.same w = true) :
    (Value.int n).same v = (Value.int n).same w := by
  have integer {m : Int} (h : Value.sameAsNumber (.inl m) w = true) : (n == m) = (Value.int n).same w := by
    unfold Value.sameAsNumber at h
    rw [Value.same, Value.sameAsNumber]
    cases known : w.number? with
    | none => simp only [known, Bool.false_eq_true] at h
    | some b =>
        simp only [known] at h ⊢
        cases b with
        | inl k =>
            rw [Value.sameNumber, beq_iff_eq] at h
            rw [Value.sameNumber, h]
        | inr y =>
            rw [Value.sameNumber, beq_iff_eq] at h
            rw [Value.sameNumber, h]
            grind
  cases v with
  | int m => exact integer h
  | bool b => exact integer h
  | float x =>
      have number : Value.sameAsNumber (.inr x) w = true := h
      show (x.toInt? == some n) = _
      unfold Value.sameAsNumber at number
      rw [Value.same, Value.sameAsNumber]
      cases known : w.number? with
      | none => simp only [known, Bool.false_eq_true] at number
      | some b =>
          simp only [known] at number ⊢
          cases b with
          | inl k =>
              rw [Value.sameNumber, beq_iff_eq] at number
              rw [Value.sameNumber, number]
              grind
          | inr y =>
              rw [Value.sameNumber] at number
              rw [Value.sameNumber, toInt?_same number]
  | _ =>
      cases w with
      | null | text _ | list _ | record _ => rfl
      | _ => cases h

/-- The library of some rules with a number each. -/
def of (entries : List (String × Int × Document)) : Library where
  version? uuid version :=
    (entries.find? fun e => (Value.text e.1).same uuid && (Value.int e.2.1).same version).map
      fun e => { e.2.2 with version := .int e.2.1 }
  uuid_same uuid uuid' version same := by simp only [same_text_congr same]
  version_same uuid version version' same := by simp only [same_int_congr same]
  carries uuid version d found := by
    obtain ⟨e, first, rfl⟩ := Option.map_eq_some_iff.mp found
    have fits := List.find?_some first
    simp only [Bool.and_eq_true] at fits
    refine ⟨fits.2, ?_⟩
    cases version with
    | null => cases fits.2
    | _ => rfl

end Library

/-! ### Answers from a library -/

namespace Conversation

variable {lib : Library} {c : Conversation}

/-- What the service answers about a rule is what the library has. -/
def Draws (lib : Library) (c : Conversation) : Turn → Prop
  | .answer call (.rule (.ok d)) => ∀ p uuid version, c.waiting.lookup call = some p →
    ((∃ next, p = .loading uuid version next) ∨ ∃ saved, p = .reading uuid version saved) → lib.Answers uuid version d
  | _ => True

/-- Throughout the turns the service answers from the library. -/
def DrawsThroughout (lib : Library) : Conversation → List Turn → Prop
  | _, [] => True
  | c, t :: rest => c.Draws lib t ∧ DrawsThroughout lib (c.next t) rest

theorem Draws.answers {call : Nat} {a : Answer} {uuid version : Value} {next : AfterLoad}
    {answer : Except Fault Document} (draws : c.Draws lib (.answer call a))
    (hw : c.waiting.lookup call = some (.loading uuid version next)) (hr : a = .rule answer) :
    ∀ d, answer = .ok d → lib.Answers uuid version d := by
  rintro d rfl
  subst hr
  exact draws _ uuid version hw (.inl ⟨next, rfl⟩)

end Conversation

end RuleEditor
