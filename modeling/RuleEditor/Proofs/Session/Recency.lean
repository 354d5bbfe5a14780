import RuleEditor.Proofs.Session.Keys
import Mathlib.Data.List.DropRight
import Mathlib.Data.List.Pairwise

/-!
# Findings about the versions checked last

A memo moves the entry of a version that is checked to its end, and drops the entry at its front when there are too
many. It is compared here with a ledger of all checks, in which nothing is moved or dropped and the entries that are
held are read off.
-/
namespace RuleEditor

namespace Memo

/-- A finding and the version that it is about. -/
abbrev Entry := (Value × Value) × Finding

/-- A rule as it is checked: its form, the type it declares and its definition. -/
structure Subject where
  form : Option Form
  type : Value
  definition : Node

/-- What a check makes of a rule, or of none. -/
def Subject.check : Option Subject → Except Fault Finding
  | none => .ok Finding.none
  | some rule => Finding.ofRule rule.form rule.type rule.definition

/-- What a memo is asked: to check a rule as a version, to look a version up, or to forget everything. -/
inductive Call where
  | check (uuid version : Value) (rule : Option Subject)
  | look (uuid version : Value)
  | clear

/-- A finding, or none where nothing is kept or nothing was asked for. -/
abbrev Reply := Except Fault (Option Finding)

def answer (m : Memo) : Call → Reply × Memo
  | .check uuid version rule =>
    match m.review uuid version (Subject.check rule) with
    | .ok (f, m', _) => (.ok (some f), m')
    | .error fault => (.error fault, m)
  | .look uuid version => (m.lookup uuid version, m)
  | .clear => (.ok none, m.clear)

/-- The replies to calls one after the other, and the state after them. -/
def serve {σ : Type} (answer : σ → Call → Reply × σ) : σ → List Call → List Reply × σ
  | s, [] => ([], s)
  | s, call :: calls =>
    let rest := serve answer (answer s call).2 calls
    ((answer s call).1 :: rest.1, rest.2)

/-- Two entries are about the same version. -/
def Alike (a b : Entry) : Prop := isFor a.1.1 a.1.2 b = true

instance : DecidableRel Alike := fun a b => inferInstanceAs (Decidable (isFor a.1.1 a.1.2 b = true))

/-- The last entry about each version, in the order of these entries. -/
def latest (checks : List Entry) : List Entry := checks.pwFilter fun a b => ¬ Alike a b

/-- All that a memo was asked to check since it was last cleared, where nothing is moved or dropped. -/
structure Ledger where
  capacity : Nat
  checks : List Entry
  evaluations : Nat

namespace Ledger

def start (capacity : Nat) : Ledger := ⟨capacity, [], 0⟩

/-- The versions that were checked last, as many as there is room for. -/
def held (l : Ledger) : List Entry := (latest l.checks).rtake l.capacity

/-- The entry that is held for a version; a list or a record identifies none. -/
def find (uuid version : Value) (l : Ledger) : Except Fault (Option Entry) :=
  if uuid.isKey && version.isKey then .ok (l.held.find? (isFor uuid version)) else .error .unsuitable

/-- A check of a version that is held repeats its finding, and only a check of another one evaluates the rule. Looking
up changes nothing. -/
def answer (l : Ledger) : Call → Reply × Ledger
  | .check uuid version rule =>
    match l.find uuid version with
    | .error fault => (.error fault, l)
    | .ok (some e) => (.ok (some e.2), { l with checks := l.checks ++ [e] })
    | .ok none =>
      match Subject.check rule with
      | .error fault => (.error fault, l)
      | .ok f => (.ok (some f),
          { l with checks := l.checks ++ [((uuid, version), f)], evaluations := l.evaluations + 1 })
  | .look uuid version => ((l.find uuid version).map (Option.map (·.2)), l)
  | .clear => (.ok none, { l with checks := [] })

section Check

variable {l : Ledger} {uuid version : Value} {e : Entry} {rule : Option Subject} {f : Finding} {fault : Fault}

theorem answer_refused (h : l.find uuid version = .error fault) :
    l.answer (.check uuid version rule) = (.error fault, l) := by
  simp only [answer, h]

theorem answer_held (h : l.find uuid version = .ok (some e)) :
    l.answer (.check uuid version rule) = (.ok (some e.2), { l with checks := l.checks ++ [e] }) := by
  simp only [answer, h]

theorem answer_failed (hf : l.find uuid version = .ok none) (hc : Subject.check rule = .error fault) :
    l.answer (.check uuid version rule) = (.error fault, l) := by
  simp only [answer, hf, hc]

theorem answer_new (hf : l.find uuid version = .ok none) (hc : Subject.check rule = .ok f) :
    l.answer (.check uuid version rule) = (.ok (some f),
      { l with checks := l.checks ++ [((uuid, version), f)], evaluations := l.evaluations + 1 }) := by
  simp only [answer, hf, hc]

end Check

end Ledger

/-! ### The last entry about each version -/

/-- The version of an entry can be looked up, and numbers in it are in their normal form. -/
structure Keyed (e : Entry) : Prop where
  uuidKey : e.1.1.isKey = true
  versionKey : e.1.2.isKey = true
  uuidNormal : e.1.1.Normal
  versionNormal : e.1.2.Normal

variable {a b e x : Entry} {checks kept : List Entry} {uuid version : Value} {m : Memo} {l : Ledger} {n : Nat}

theorem Alike.symm (hf : Keyed a) (hs : Keyed b) (alike : Alike a b) : Alike b a := by
  obtain ⟨uuids, versions⟩ := Bool.and_eq_true_iff.mp alike
  apply Bool.and_eq_true_iff.mpr
  constructor
  · exact Value.same_symm hs.uuidKey hs.uuidNormal hf.uuidNormal uuids
  · exact Value.same_symm hs.versionKey hs.versionNormal hf.versionNormal versions

theorem Alike.trans (hf : Keyed a) (hs : Keyed b) (ht : Keyed e) (alike : Alike a b) (hu : Alike b e) :
    Alike a e := by
  obtain ⟨uuids, versions⟩ := Bool.and_eq_true_iff.mp alike
  obtain ⟨uuids', versions'⟩ := Bool.and_eq_true_iff.mp hu
  apply Bool.and_eq_true_iff.mpr
  constructor
  · exact Value.same_trans ht.uuidKey ht.uuidNormal hs.uuidNormal hf.uuidNormal uuids' uuids
  · exact Value.same_trans ht.versionKey ht.versionNormal hs.versionNormal hf.versionNormal
      versions' versions

theorem latest_subset (h : e ∈ latest checks) : e ∈ checks := List.pwFilter_subset checks h

theorem latest_distinct (checks : List Entry) : (latest checks).Pairwise fun a b => ¬ Alike a b :=
  List.pairwise_pwFilter checks

theorem latest_cons (e : Entry) (rest : List Entry) :
    latest (e :: rest) = if ∀ b ∈ latest rest, ¬ Alike e b then e :: latest rest else latest rest := by
  split
  · rename_i new
    exact List.pwFilter_cons_of_pos new
  · rename_i known
    exact List.pwFilter_cons_of_neg known

/-- An entry has a version of its own after one more was put in if it had one before, and the new entry has another. -/
theorem new_among_concat (hh : Keyed e) (hi : ∀ b ∈ kept, Keyed b) (hn : Keyed x) :
    (∀ b ∈ kept.filter (!isFor x.1.1 x.1.2 ·) ++ [x], ¬ Alike e b) ↔ (∀ b ∈ kept, ¬ Alike e b) ∧ ¬ Alike x e := by
  rw [List.forall_mem_append, List.forall_mem_singleton]
  constructor
  · intro ⟨others, last⟩
    refine ⟨fun b within alike => ?_, fun again => last (again.symm hn hh)⟩
    by_cases also : Alike x b
    · exact last (alike.trans hh (hi b within) hn (also.symm hn (hi b within)))
    · exact others b (List.mem_filter.mpr ⟨within, by simpa [Alike] using also⟩) alike
  · intro ⟨others, last⟩
    exact ⟨fun b within => others b (List.mem_filter.mp within).1, fun alike => last (alike.symm hh hn)⟩

/-- One more entry takes the place of the one about the same version, by induction on the entries before it. -/
theorem latest_concat (hk : ∀ e ∈ checks, Keyed e) (hn : Keyed x) :
    latest (checks ++ [x]) = (latest checks).filter (!isFor x.1.1 x.1.2 ·) ++ [x] := by
  induction checks with
  | nil => rfl
  | cons e rest ih =>
      obtain ⟨here, hk⟩ := List.forall_mem_cons.mp hk
      have inside : ∀ b ∈ latest rest, Keyed b := fun b within => hk b (latest_subset within)
      rw [List.cons_append, latest_cons, latest_cons, ih hk]
      simp only [new_among_concat here inside hn]
      by_cases apart : ∀ b ∈ latest rest, ¬ Alike e b
      · rw [if_pos apart]
        by_cases again : Alike x e
        · rw [if_neg fun both => both.2 again, List.filter_cons_of_neg (by simpa [Alike] using again)]
        · rw [if_pos ⟨apart, again⟩, List.filter_cons_of_pos (by simpa [Alike] using again), List.cons_append]
      · rw [if_neg apart, if_neg fun both => apart both.1]

/-! ### The entries that there is room for -/

section Room

variable {about : Entry → Bool}

theorem rtake_append (front : List Entry) (h : n ≤ kept.length) : (front ++ kept).rtake n = kept.rtake n := by
  have start : (front ++ kept).length - n = front.length + (kept.length - n) := by
    rw [List.length_append]
    omega
  rw [List.rtake, start, List.drop_length_add_append, List.rtake]

theorem rtake_of_length_le (h : kept.length ≤ n) : kept.rtake n = kept := by
  rw [List.rtake, Nat.sub_eq_zero_of_le h, List.drop_zero]

/-- Behind what is in front of it, the end is as long as there is room, unless there is nothing in front of it. -/
theorem rtake_split (kept : List Entry) (n : Nat) : ∃ front, kept = front ++ kept.rtake n ∧
    (kept.rtake n).length ≤ n ∧ (front = [] ∨ (kept.rtake n).length = n) := by
  refine ⟨kept.take (kept.length - n), (List.take_append_drop _ _).symm, ?_⟩
  have length : (kept.rtake n).length = kept.length - (kept.length - n) := List.length_drop
  by_cases room : kept.length ≤ n
  · have all : kept.length - n = 0 := by omega
    exact ⟨by omega, .inl (by rw [all, List.take_zero])⟩
  · exact ⟨by omega, .inr (by omega)⟩

/-- Where entries of one sort are alone, the others are those in front of it and those behind it. -/
theorem filter_once {before after : List Entry}
    (ho : (before ++ e :: after).Pairwise fun a b => about a = true → about b = false) (hs : about e = true) :
    (before ++ e :: after).filter (!about ·) = before ++ after ∧ (before ++ e :: after).filter about = [e] := by
  obtain ⟨-, tail, across⟩ := List.pairwise_append.mp ho
  have earlier : ∀ a ∈ before, about a = false := by
    intro a within
    by_contra also
    have clash := across a within e List.mem_cons_self (eq_true_of_ne_false also)
    exact Bool.false_ne_true (clash.symm.trans hs)
  have later : ∀ a ∈ after, about a = false := by
    intro a within
    exact (List.pairwise_cons.mp tail).1 a within hs
  have stay {rest : List Entry} (other : ∀ a ∈ rest, about a = false) : rest.filter (!about ·) = rest :=
    List.filter_eq_self.mpr (by simpa using other)
  have gone {rest : List Entry} (other : ∀ a ∈ rest, about a = false) : rest.filter about = [] :=
    List.filter_eq_nil_iff.mpr (by simpa using other)
  constructor
  · rw [List.filter_append, List.filter_cons_of_neg (by simpa using hs), stay earlier, stay later]
  · rw [List.filter_append, List.filter_cons_of_pos hs, gone earlier, gone later, List.nil_append]

/-- An entry that there is room for comes to the end, and the others stay. -/
theorem rtake_again (ho : kept.Pairwise fun a b => about a = true → about b = false)
    (hw : e ∈ kept.rtake n) (hs : about e = true) :
    (kept.filter (!about ·) ++ [e]).rtake n = (kept.rtake n).filter (!about ·) ++ (kept.rtake n).filter about := by
  obtain ⟨front, split, small, full⟩ := rtake_split kept n
  obtain ⟨before, after, there⟩ := List.append_of_mem hw
  rw [there] at split small full ⊢
  have behind : (before ++ e :: after).Pairwise fun a b => about a = true → about b = false := by
    rw [split] at ho
    exact (List.pairwise_append.mp ho).2.1
  rw [split, ← List.append_assoc] at ho ⊢
  have length : (before ++ after ++ [e]).length = (before ++ e :: after).length := by
    simp only [List.length_append, List.length_cons, List.length_nil]
    omega
  rw [(filter_once ho hs).1, (filter_once behind hs).1, (filter_once behind hs).2, List.append_assoc front,
    List.append_assoc front]
  rcases full with rfl | full
  · exact rtake_of_length_le (length.trans_le small)
  · rw [rtake_append front (full.symm.trans length.symm).le]
    exact rtake_of_length_le (length.trans_le small)

/-- Another entry comes to the end, and the first one goes if there is no room for it. -/
theorem rtake_new (h : ∀ a ∈ kept.rtake n, about a = false) : (kept.filter (!about ·) ++ [x]).rtake n =
    if n < (kept.rtake n ++ [x]).length then (kept.rtake n ++ [x]).drop 1 else kept.rtake n ++ [x] := by
  obtain ⟨front, split, small, full⟩ := rtake_split kept n
  generalize kept.rtake n = held at split small full h ⊢
  have stay : held.filter (!about ·) = held := List.filter_eq_self.mpr (by simpa using h)
  have length : (held ++ [x]).length = held.length + 1 := List.length_append
  rw [split, List.filter_append, stay, List.append_assoc]
  by_cases tight : held.length = n
  · rw [rtake_append _ (by omega), if_pos (by omega), List.rtake, length, tight, Nat.add_sub_cancel_left]
  · obtain rfl := full.resolve_right tight
    rw [if_neg (by omega), List.filter_nil, List.nil_append]
    exact rtake_of_length_le (by omega)

end Room

/-! ### One call -/

/-- The memo holds what was checked last, and has evaluated as often as the ledger says. -/
structure Mirrors (m : Memo) (l : Ledger) : Prop where
  capacity : m.capacity = l.capacity
  entries : m.entries = l.held
  evaluations : m.evaluations = l.evaluations
  keyed : ∀ e ∈ l.checks, Keyed e

/-- Versions are given by data that can be looked up, with numbers in their normal form. -/
def Call.Normal : Call → Prop
  | .check uuid version _ => uuid.Normal ∧ version.Normal
  | _ => True

theorem held_of_checks_nil (h : l.checks = []) : l.held = [] := by
  rw [Ledger.held, h]
  exact List.rtake_nil l.capacity

theorem mirrors_start (capacity : Nat) : Mirrors (empty capacity) (Ledger.start capacity) :=
  ⟨rfl, (held_of_checks_nil rfl).symm, rfl, nofun⟩

theorem Mirrors.lookup (h : Mirrors m l) (uuid version : Value) :
    m.lookup uuid version = (l.find uuid version).map (Option.map (·.2)) := by
  rw [Memo.lookup, Ledger.find, h.entries]
  split <;> rfl

theorem mem_of_held (h : e ∈ l.held) : e ∈ l.checks :=
  latest_subset (List.mem_of_mem_drop h)

/-- What is found is held, and it is about the version that was asked for. -/
theorem Ledger.find_eq_some (h : l.find uuid version = .ok (some e)) :
    uuid.isKey = true ∧ version.isKey = true ∧ e ∈ l.held ∧ isFor uuid version e = true := by
  unfold Ledger.find at h
  split at h
  case isTrue keys =>
    obtain ⟨uuidKey, versionKey⟩ := Bool.and_eq_true_iff.mp keys
    have first := Except.ok.inj h
    exact ⟨uuidKey, versionKey, List.mem_of_find?_eq_some first, List.find?_some first⟩
  case isFalse => cases h

/-- A version that was not found can be looked up, and nothing that is held is about it. -/
theorem Ledger.find_eq_none (h : l.find uuid version = .ok none) :
    uuid.isKey = true ∧ version.isKey = true ∧ ∀ e ∈ l.held, isFor uuid version e = false := by
  unfold Ledger.find at h
  split at h
  case isTrue keys =>
    obtain ⟨uuidKey, versionKey⟩ := Bool.and_eq_true_iff.mp keys
    refine ⟨uuidKey, versionKey, ?_⟩
    intro e within
    simpa using List.find?_eq_none.mp (Except.ok.inj h) e within
  case isFalse => cases h

/-- Of the versions that the ledger has, no two are the one that was asked for. -/
theorem asked_once (hk : ∀ a ∈ checks, Keyed a) (ha : Keyed x) :
    (latest checks).Pairwise fun a b => isFor x.1.1 x.1.2 a = true → isFor x.1.1 x.1.2 b = false := by
  apply (latest_distinct checks).imp_of_mem
  intro a b within within' apart first
  have known : Keyed a := hk a (latest_subset within)
  have known' : Keyed b := hk b (latest_subset within')
  have first : Alike x a := first
  by_contra second
  have second : Alike x b := eq_true_of_ne_false second
  exact apart ((first.symm ha known).trans known ha known' second)

/-- Entries are about the version of an entry where they are about the version that found it. -/
theorem isFor_found (ha : Keyed x) (hk : Keyed e) (alike : Alike x e) (ho : Keyed a) :
    isFor e.1.1 e.1.2 a = isFor x.1.1 x.1.2 a := by
  apply Bool.eq_iff_iff.mpr
  constructor
  · intro there
    exact alike.trans ha hk ho there
  · intro there
    exact (alike.symm ha hk).trans hk ha ho there

/-- A version that is held comes to the end of the memo as of the ledger. -/
theorem Mirrors.touch (h : Mirrors m l) (hn : uuid.Normal ∧ version.Normal)
    (hf : l.find uuid version = .ok (some e)) :
    Mirrors (m.touch uuid version) { l with checks := l.checks ++ [e] } := by
  obtain ⟨uuidKey, versionKey, within, alike⟩ := Ledger.find_eq_some hf
  have known : Keyed e := h.keyed e (mem_of_held within)
  have asked : Keyed ((uuid, version), e.2) := ⟨uuidKey, versionKey, hn.1, hn.2⟩
  have added : ∀ e' ∈ l.checks ++ [e], Keyed e' :=
    List.forall_mem_append.mpr ⟨h.keyed, List.forall_mem_singleton.mpr known⟩
  have others :
      (latest l.checks).filter (!isFor e.1.1 e.1.2 ·) = (latest l.checks).filter (!isFor uuid version ·) := by
    apply List.filter_congr
    intro a within
    rw [isFor_found asked known alike (h.keyed a (latest_subset within))]
  refine ⟨h.capacity, ?_, h.evaluations, added⟩
  show _ = (latest (l.checks ++ [e])).rtake l.capacity
  rw [latest_concat h.keyed known, others, rtake_again (asked_once h.keyed asked) within alike, Memo.touch, h.entries]
  rfl

/-- A version that was not held comes to the end of the memo as of the ledger, and the oldest one may go. -/
theorem Mirrors.record {f : Finding} (h : Mirrors m l) (hn : uuid.Normal ∧ version.Normal)
    (hf : l.find uuid version = .ok none) : Mirrors (m.record uuid version f)
      { l with checks := l.checks ++ [((uuid, version), f)], evaluations := l.evaluations + 1 } := by
  obtain ⟨uuidKey, versionKey, other⟩ := Ledger.find_eq_none hf
  have own : Keyed ((uuid, version), f) := ⟨uuidKey, versionKey, hn.1, hn.2⟩
  have added : ∀ e ∈ l.checks ++ [((uuid, version), f)], Keyed e :=
    List.forall_mem_append.mpr ⟨h.keyed, List.forall_mem_singleton.mpr own⟩
  refine ⟨h.capacity, ?_, congrArg (· + 1) h.evaluations, added⟩
  show _ = (latest (l.checks ++ [((uuid, version), f)])).rtake l.capacity
  rw [latest_concat h.keyed own, rtake_new other]
  simp only [Memo.record, h.capacity, h.entries, Int.ofNat_lt]
  rfl

/-- Each call is answered as the ledger says, and leaves the memo as the ledger says. -/
theorem Mirrors.answer (h : Mirrors m l) {call : Call} (normal : call.Normal) :
    (m.answer call).1 = (l.answer call).1 ∧ Mirrors (m.answer call).2 (l.answer call).2 := by
  cases call with
  | look uuid version => exact ⟨h.lookup uuid version, h⟩
  | clear => exact ⟨rfl, h.capacity, (held_of_checks_nil rfl).symm, h.evaluations, nofun⟩
  | check uuid version rule =>
      have looked := h.lookup uuid version
      simp only [Memo.answer, Ledger.answer, review, looked]
      cases found : l.find uuid version with
      | error fault => exact ⟨rfl, h⟩
      | ok found? =>
          cases found? with
          | some e => exact ⟨rfl, h.touch normal found⟩
          | none =>
              cases Subject.check rule with
              | error fault => exact ⟨rfl, h⟩
              | ok f => exact ⟨rfl, h.record normal found⟩

/-! ### Calls one after the other -/

variable {calls all : List Call}

theorem Ledger.answer_capacity (l : Ledger) (call : Call) : (l.answer call).2.capacity = l.capacity := by
  unfold Ledger.answer
  cases call <;> repeat' split
  all_goals rfl

theorem serve_capacity (l : Ledger) (calls : List Call) : (serve Ledger.answer l calls).2.capacity = l.capacity := by
  induction calls generalizing l with
  | nil => rfl
  | cons call calls ih => exact (ih (l.answer call).2).trans (l.answer_capacity call)

theorem Mirrors.serve (h : Mirrors m l) (hn : ∀ call ∈ calls, call.Normal) :
    (serve Memo.answer m calls).1 = (serve Ledger.answer l calls).1 ∧
      Mirrors (serve Memo.answer m calls).2 (serve Ledger.answer l calls).2 := by
  induction calls generalizing m l with
  | nil => exact ⟨rfl, h⟩
  | cons call calls ih =>
      obtain ⟨first, rest⟩ := List.forall_mem_cons.mp hn
      obtain ⟨reply, mirrors⟩ := h.answer first
      obtain ⟨replies, last⟩ := ih mirrors rest
      exact ⟨List.cons_eq_cons.mpr ⟨reply, replies⟩, last⟩

/-! ### Rules that do not change -/

/-- A version is always checked with the same rule. -/
def Settled (calls : List Call) : Prop :=
  ∀ uuid version rule uuid' version' rule', Call.check uuid version rule ∈ calls →
    Call.check uuid' version' rule' ∈ calls → uuid.same uuid' = true → version.same version' = true →
      rule = rule'

/-- A check of a version that can be looked up answers what its rule is found to be. -/
def Call.Faithful : Call → Reply → Prop
  | .check uuid version rule, reply =>
    uuid.isKey = true → version.isKey = true → reply = (Subject.check rule).map some
  | _, _ => True

/-- Every finding is about the rule of one of the calls. -/
def Ledger.Backed (calls : List Call) (l : Ledger) : Prop :=
  ∀ e ∈ l.checks, ∃ rule, Call.check e.1.1 e.1.2 rule ∈ calls ∧ Subject.check rule = .ok e.2

theorem Ledger.Backed.answer {call : Call} (backed : l.Backed all) (settled : Settled all) (ha : call ∈ all) :
    call.Faithful (l.answer call).1 ∧ (l.answer call).2.Backed all := by
  cases call with
  | look uuid version => exact ⟨trivial, backed⟩
  | clear => exact ⟨trivial, nofun⟩
  | check uuid version rule =>
      cases found : l.find uuid version with
      | error fault =>
          rw [Ledger.answer_refused found]
          refine ⟨?_, backed⟩
          intro uuidKey versionKey
          rw [Ledger.find, uuidKey, versionKey] at found
          cases found
      | ok found? =>
          cases found? with
          | some e =>
              obtain ⟨-, -, within, alike⟩ := Ledger.find_eq_some found
              obtain ⟨rule', known, checked⟩ := backed e (mem_of_held within)
              obtain ⟨uuids, versions⟩ := Bool.and_eq_true_iff.mp alike
              have same : rule' = rule := settled _ _ _ _ _ _ known ha uuids versions
              rw [Ledger.answer_held found, ← same]
              constructor
              · exact fun _ _ => congrArg (Except.map some) checked.symm
              · apply List.forall_mem_append.mpr ⟨backed, List.forall_mem_singleton.mpr ?_⟩
                exact ⟨rule', known, checked⟩
          | none =>
              cases checked : Subject.check rule with
              | error fault =>
                  rw [Ledger.answer_failed found checked]
                  exact ⟨fun _ _ => congrArg (Except.map some) checked.symm, backed⟩
              | ok f =>
                  rw [Ledger.answer_new found checked]
                  constructor
                  · exact fun _ _ => congrArg (Except.map some) checked.symm
                  · apply List.forall_mem_append.mpr ⟨backed, List.forall_mem_singleton.mpr ?_⟩
                    exact ⟨rule, ha, checked⟩

theorem Ledger.Backed.serve (backed : l.Backed all) (settled : Settled all) (ha : calls ⊆ all) :
    List.Forall₂ Call.Faithful calls (serve Ledger.answer l calls).1 := by
  induction calls generalizing l with
  | nil => exact .nil
  | cons call calls ih =>
      obtain ⟨here, rest⟩ := List.cons_subset.mp ha
      obtain ⟨faithful, backed⟩ := backed.answer settled here
      exact .cons faithful (ih backed rest)

/-! ### As many versions as there is room for -/

/-- Only a version that is checked for the first time is one more. -/
theorem length_latest_concat (hk : ∀ e ∈ checks, Keyed e) (hn : Keyed x) :
    (latest (checks ++ [x])).length =
      (latest checks).length + if (latest checks).any (isFor x.1.1 x.1.2) then 0 else 1 := by
  have once := asked_once hk hn
  rw [latest_concat hk hn, List.length_append, List.length_singleton]
  generalize latest checks = kept at once
  cases found : kept.any (isFor x.1.1 x.1.2) with
  | false =>
      have stay : kept.filter (!isFor x.1.1 x.1.2 ·) = kept :=
        List.filter_eq_self.mpr (by simpa using List.any_eq_false.mp found)
      rw [stay, if_neg Bool.false_ne_true]
  | true =>
      obtain ⟨e, within, alike⟩ := List.any_eq_true.mp found
      obtain ⟨before, after, rfl⟩ := List.append_of_mem within
      rw [(filter_once once alike).1, if_pos rfl]
      simp only [List.length_append, List.length_cons]
      omega

/-- The last entry about the version of an entry. -/
theorem exists_latest (h : e ∈ checks) : ∃ b ∈ latest checks, e = b ∨ Alike e b := by
  induction checks with
  | nil => cases h
  | cons c rest ih =>
      rw [latest_cons]
      split
      · rcases List.mem_cons.mp h with rfl | h
        · exact ⟨e, List.mem_cons_self, .inl rfl⟩
        · obtain ⟨b, there, alike⟩ := ih h
          exact ⟨b, List.mem_cons_of_mem _ there, alike⟩
      · rename_i known
        rcases List.mem_cons.mp h with rfl | h
        · by_contra none
          exact known fun b there alike => none ⟨b, there, .inr alike⟩
        · exact ih h

/-- The rule of each version has been evaluated once, if there is room for all versions. -/
def Ledger.Thrifty (l : Ledger) : Prop :=
  (latest l.checks).length ≤ l.capacity → l.evaluations = (latest l.checks).length

theorem held_of_room (h : (latest l.checks).length ≤ l.capacity) : l.held = latest l.checks :=
  rtake_of_length_le h

/-- While nothing is forgotten, a rule is evaluated for each version that is one more. -/
theorem Mirrors.thrifty (h : Mirrors m l) {call : Call} (normal : call.Normal) (hk : call ≠ .clear)
    (thrifty : l.Thrifty) : (l.answer call).2.Thrifty := by
  cases call with
  | look uuid version => exact thrifty
  | clear => exact absurd rfl hk
  | check uuid version rule =>
      cases found : l.find uuid version with
      | error fault =>
          rw [Ledger.answer_refused found]
          exact thrifty
      | ok found? =>
          cases found? with
          | some e =>
              obtain ⟨uuidKey, versionKey, within, alike⟩ := Ledger.find_eq_some found
              have known : Keyed e := h.keyed e (mem_of_held within)
              have asked : Keyed ((uuid, version), e.2) := ⟨uuidKey, versionKey, normal.1, normal.2⟩
              have self : Alike e e := (Alike.symm asked known alike).trans known asked known alike
              have again : (latest l.checks).any (isFor e.1.1 e.1.2) = true :=
                List.any_eq_true.mpr ⟨e, List.mem_of_mem_drop within, self⟩
              have length := length_latest_concat h.keyed known
              rw [again, if_pos rfl, Nat.add_zero] at length
              rw [Ledger.answer_held found]
              intro room
              exact (thrifty (length.symm.trans_le room)).trans length.symm
          | none =>
              cases checked : Subject.check rule with
              | error fault =>
                  rw [Ledger.answer_failed found checked]
                  exact thrifty
              | ok f =>
                  obtain ⟨uuidKey, versionKey, other⟩ := Ledger.find_eq_none found
                  have own : Keyed ((uuid, version), f) := ⟨uuidKey, versionKey, normal.1, normal.2⟩
                  have length := length_latest_concat h.keyed own
                  rw [Ledger.answer_new found checked]
                  intro room
                  have before : (latest l.checks).length ≤ l.capacity :=
                    (Nat.le_add_right _ _).trans (length.symm.trans_le room)
                  rw [held_of_room before] at other
                  have first : (latest l.checks).any (isFor uuid version) = false :=
                    List.any_eq_false.mpr (by simpa using other)
                  rw [first, if_neg Bool.false_ne_true] at length
                  exact (congrArg (· + 1) (thrifty before)).trans length.symm

theorem Mirrors.thrifty_serve (h : Mirrors m l) (hn : ∀ call ∈ calls, call.Normal) (hk : Call.clear ∉ calls)
    (thrifty : l.Thrifty) : (Memo.serve Ledger.answer l calls).2.Thrifty := by
  induction calls generalizing m l with
  | nil => exact thrifty
  | cons call calls ih =>
      obtain ⟨first, rest⟩ := List.forall_mem_cons.mp hn
      obtain ⟨other, hk⟩ := List.ne_and_not_mem_of_not_mem_cons hk
      exact ih (h.answer first).2 rest hk (h.thrifty first other.symm thrifty)

/-- A version that has been checked before is still held while there is room for all, so its rule is not evaluated. -/
theorem Mirrors.checked_again (h : Mirrors m l) (hr : (latest l.checks).length ≤ l.capacity)
    (hn : uuid.Normal ∧ version.Normal) (hw : e ∈ l.checks) (ha : isFor uuid version e = true)
    (rule : Option Subject) : (m.answer (.check uuid version rule)).2.evaluations = m.evaluations := by
  rw [(h.answer (show (Call.check uuid version rule).Normal from hn)).2.evaluations, h.evaluations]
  cases found : l.find uuid version with
  | error fault => rw [Ledger.answer_refused found]
  | ok found? =>
      cases found? with
      | some e => rw [Ledger.answer_held found]
      | none =>
          obtain ⟨uuidKey, versionKey, other⟩ := Ledger.find_eq_none found
          have own : Keyed ((uuid, version), e.2) := ⟨uuidKey, versionKey, hn.1, hn.2⟩
          rw [held_of_room hr] at other
          obtain ⟨b, there, alike⟩ := exists_latest hw
          have held : isFor uuid version b = true := by
            rcases alike with rfl | alike
            · exact ha
            · exact Alike.trans own (h.keyed e hw) (h.keyed b (latest_subset there)) ha alike
          exact absurd ((other b there).symm.trans held) Bool.false_ne_true

/-- A memo answers as the ledger does that forgets nothing but holds only the versions checked last, as many as there is
room for, each with what was found about it and in the order of the last checks. Where a version always comes with the
same rule, each check answers what a check of this rule answers. Where there is room for all versions and nothing is
cleared, the rule of each version is evaluated once. -/
theorem serves_recency (capacity : Nat) {calls : List Call} (h : ∀ call ∈ calls, call.Normal) :
    let served := serve Memo.answer (empty capacity) calls
    let ledger := serve Ledger.answer (Ledger.start capacity) calls
    served.1 = ledger.1 ∧
      served.2.entries = (latest ledger.2.checks).rtake capacity ∧
      served.2.evaluations = ledger.2.evaluations ∧
      (Settled calls → List.Forall₂ Call.Faithful calls served.1) ∧
      (.clear ∉ calls → (latest ledger.2.checks).length ≤ capacity →
        served.2.evaluations = (latest ledger.2.checks).length ∧
        ∀ uuid version rule, uuid.Normal → version.Normal →
          (∃ e ∈ ledger.2.checks, isFor uuid version e = true) →
          (served.2.answer (.check uuid version rule)).2.evaluations = served.2.evaluations) := by
  intro served ledger
  obtain ⟨replies, last⟩ := (mirrors_start capacity).serve h
  have same : ledger.2.capacity = capacity := serve_capacity (Ledger.start capacity) calls
  have entries : served.2.entries = (latest ledger.2.checks).rtake capacity := by
    have held := last.entries
    rwa [Ledger.held, same] at held
  refine ⟨replies, entries, last.evaluations, ?_, ?_⟩
  · intro settled
    rw [show served.1 = ledger.1 from replies]
    exact Ledger.Backed.serve (l := Ledger.start capacity) nofun settled (List.Subset.refl calls)
  · intro kept room
    rw [← same] at room
    have thrifty : ledger.2.Thrifty := (mirrors_start capacity).thrifty_serve h kept fun _ => rfl
    refine ⟨last.evaluations.trans (thrifty room), ?_⟩
    intro uuid version rule uuidNormal versionNormal ⟨e, within, asked⟩
    exact last.checked_again room ⟨uuidNormal, versionNormal⟩ within asked rule

/-- Two rules that are checked in turn. -/
def inTurn : List Call :=
  let age : Subject := ⟨some .expression, .text "number", .field (.text "number") (.text "T.AGE")⟩
  let name : Subject := ⟨some .expression, .text "number", .field (.text "text") (.text "T.NAME")⟩
  [.check (.text "u-age") (.int 1) (some age), .check (.text "u-name") (.int 1) (some name),
    .look (.text "u-age") (.int 1), .check (.text "u-age") (.int 1) (some age)]

/-- Rules that take turns are evaluated each time with room for one of them, and once with room for both. -/
theorem serves_recency_inTurn : (∀ call ∈ inTurn, call.Normal) ∧ .clear ∉ inTurn ∧
    (serve Memo.answer (empty 1) inTurn).2.evaluations = 3 ∧
    (serve Memo.answer (empty 1) inTurn).2.entries.map (·.1) = [(.text "u-age", .int 1)] ∧
    (serve Memo.answer (empty 2) inTurn).2.evaluations = 2 ∧
    (serve Memo.answer (empty 2) inTurn).2.entries.map (·.1) =
      [(.text "u-name", .int 1), (.text "u-age", .int 1)] := by
  have normal : ∀ call ∈ inTurn, call.Normal := by
    simp [inTurn, Call.Normal, Value.Normal]
  have kept : Call.clear ∉ inTurn := by
    simp [inTurn]
  obtain ⟨-, entries, evaluations, -⟩ := serves_recency 1 normal
  obtain ⟨-, entries', -, -, once⟩ := serves_recency 2 normal
  have room : (latest (serve Ledger.answer (Ledger.start 2) inTurn).2.checks).length ≤ 2 := le_of_eq rfl
  refine ⟨normal, kept, evaluations.trans rfl, ?_, (once kept room).1.trans rfl, ?_⟩
  · exact (congrArg (List.map (·.1)) entries).trans rfl
  · exact (congrArg (List.map (·.1)) entries').trans rfl

end Memo

end RuleEditor
