import RuleEditor.Proofs.Address.Segments
import RuleEditor.Proofs.Edit.Shapes

/-!
# Labels that have been issued

New conditions and groups are labelled by a word and a number. A ledger keeps the labels that were issued since the
numbers were last reset. Among the labels under one parent and one word none is issued twice, since each has a greater
number than the ones before; no label is one of the siblings it was issued for; and what is issued under another parent
or another word makes no difference.
-/
namespace RuleEditor

namespace Numbering

variable {n : Numbering} {parent word parent' word' : String} {number : Nat}

/-- Giving out a number makes no difference under another parent or another word. -/
theorem last_give_other (h : ¬ (parent' = parent ∧ word' = word)) :
    (n.give parent word number).last parent' word' = n.last parent' word' := by
  have differ : ((parent', word') == (parent, word)) = false := by
    rw [beq_eq_false_iff_ne]
    exact fun same => h ⟨congrArg Prod.fst same, congrArg Prod.snd same⟩
  simp only [last, give, List.lookup_cons, differ]

/-- No number is taken back. -/
structure Advances (n n' : Numbering) : Prop where
  le : ∀ parent word, n.last parent word ≤ n'.last parent word

theorem Advances.refl : n.Advances n := ⟨fun _ _ => le_rfl⟩

theorem Advances.trans {n' n'' : Numbering} (h : n.Advances n') (h' : n'.Advances n'') : n.Advances n'' :=
  ⟨fun parent word => (h.le parent word).trans (h'.le parent word)⟩

theorem advances_give (h : n.last parent word < number) : n.Advances (n.give parent word number) := by
  refine ⟨fun parent' word' => ?_⟩
  by_cases same : parent' = parent ∧ word' = word
  · obtain ⟨rfl, rfl⟩ := same
    rw [last_give]
    exact h.le
  · rw [last_give_other same]

end Numbering

namespace Label

variable {parent word label : String} {kind : Kind} {siblings : List Value} {n n' : Numbering} {fault : Fault}
  {labels : List String} {count : Nat}

/-! ### Labels and their numbers -/

/-- The label of a word and a number. -/
def spelled (word : String) (number : Nat) : String := s!"{word} {number}"

theorem toList_spelled (word : String) (number : Nat) :
    (spelled word number).toList = word.toList ++ ' ' :: (toString number).toList := by
  have text : spelled word number = word ++ " " ++ toString number := rfl
  rw [text, String.toList_append, String.toList_append, List.append_assoc]
  rfl

theorem spelled_inj {i j : Nat} (h : spelled word i = spelled word j) : i = j := by
  have digits := congrArg String.toList h
  rw [toList_spelled, toList_spelled, List.append_cancel_left_eq, List.cons.injEq] at digits
  have read := Text.decimal?_toString i
  rw [digits.2, Text.decimal?_toString] at read
  exact (Option.some.inj read).symm

theorem letters_word (kind : Kind) : kind.word.toList ≠ [] ∧ ∀ c ∈ kind.word.toList, isLetter c = true := by
  cases kind <;> simp [Kind.word, isLetter]

/-- The word and the digits of a label are found in it again. -/
theorem numbered?_spelled (kind : Kind) (number : Nat) :
    numbered? (spelled kind.word number) = some (kind.word, (toString number).toList) := by
  obtain ⟨lettered, letters⟩ := letters_word kind
  have digit {c : Char} (within : c ∈ (toString number).toList) : Text.isDecimal c = true := by
    simp [Text.isDecimal, Text.decimalValue?_of_isDigit (Text.isDigit_of_mem_toString within)]
  have unbroken : (toString number).toList.getLast? ≠ some '\n' := by
    intro ends
    have decimal := digit (List.mem_of_getLast? ends)
    exact absurd decimal (by decide)
  have all : (toString number).toList.all Text.isDecimal = true := List.all_eq_true.mpr fun _ => digit
  have front : (spelled kind.word number).toList.takeWhile isLetter = kind.word.toList := by
    rw [toList_spelled, List.takeWhile_append_of_pos letters]
    simp [show isLetter ' ' = false by decide]
  have back : (spelled kind.word number).toList.dropWhile isLetter = ' ' :: (toString number).toList := by
    rw [toList_spelled, List.dropWhile_append_of_pos letters]
    simp [show isLetter ' ' = false by decide]
  simp only [numbered?, front, back, List.isEmpty_eq_false_iff.mpr lettered, if_neg unbroken, all,
    List.isEmpty_eq_false_iff.mpr (Text.toString_ne_nil number), Bool.not_true, Bool.or_false, Bool.false_eq_true,
    if_false, String.ofList_toList]

/-- A label that was issued takes up its number among siblings. -/
theorem number_of_spelled {kind : Kind} {number m : Nat}
    (h : numberUnder kind.word (.text (spelled kind.word number)) = .ok m) : m = number := by
  have present : (Value.text (spelled kind.word number)).isMissing = false := by
    rw [Value.isMissing, beq_eq_false_iff_ne]
    intro empty
    have none := congrArg String.toList empty
    rw [toList_spelled] at none
    simp at none
  simp only [numberUnder, present, Bool.false_eq_true, if_false, numbered?_spelled, ne_eq, not_true_eq_false,
    Text.decimal?_toString, Option.getD_some] at h
  split at h
  · cases h
  · exact (Except.ok.inj h).symm

theorem le_highest {v : Value} {h : Nat} (hk : highest word siblings = .ok h) (hw : v ∈ siblings) :
    ∃ m, numberUnder word v = .ok m ∧ m ≤ h := by
  induction siblings generalizing h with
  | nil => cases hw
  | cons first rest ih =>
      obtain ⟨here, read, hk⟩ := bind_eq_ok.mp hk
      obtain ⟨others, below, hk⟩ := bind_eq_ok.mp hk
      cases hk
      rcases List.mem_cons.mp hw with rfl | hw
      · exact ⟨here, read, le_max_left _ _⟩
      · obtain ⟨m, read, le⟩ := ih below hw
        exact ⟨m, read, le.trans (le_max_right _ _)⟩

/-! ### One label -/

/-- The number of the next label. -/
def upcoming (n : Numbering) (parent word : String) (highest : Nat) : Nat := max (n.last parent word) highest + 1

theorem last_lt_upcoming (n : Numbering) (parent word : String) (highest : Nat) :
    n.last parent word < upcoming n parent word highest := Nat.lt_succ_of_le (le_max_left _ _)

theorem next_run (parent : String) (kind : Kind) (siblings : List Value) (n : Numbering) :
    (next parent kind siblings).run n =
      match highest kind.word siblings with
      | .error fault => (.error fault, n)
      | .ok h => ((numeral (upcoming n parent kind.word h)).map fun digits => s!"{kind.word} {digits}",
          n.give parent kind.word (upcoming n parent kind.word h)) := by
  -- whether the number can be written makes no difference to the number that is given out
  have ends (x : Except Fault String) (n' : Numbering) :
      (do let digits ← x; return s!"{kind.word} {digits}" : Labelling String).run n' =
        (x.map fun digits => s!"{kind.word} {digits}", n') := by
    cases x <;> rfl
  unfold next
  cases highest kind.word siblings with
  | error fault => rfl
  | ok h => exact ends (numeral (upcoming n parent kind.word h)) (n.give parent kind.word _)

theorem numeral_eq_ok {number : Nat} {digits : String} (h : numeral number = .ok digits) :
    digits = toString number := by
  unfold numeral at h
  split at h
  · cases h
  · exact (Except.ok.inj h).symm

theorem next_eq_upcoming (hi : (next parent kind siblings).run n = (.ok label, n')) :
    ∃ h, highest kind.word siblings = .ok h ∧ label = spelled kind.word (upcoming n parent kind.word h) ∧
      n' = n.give parent kind.word (upcoming n parent kind.word h) := by
  rw [next_run] at hi
  cases known : highest kind.word siblings with
  | error fault =>
      rw [known] at hi
      cases hi
  | ok h =>
      rw [known] at hi
      obtain ⟨made, rfl⟩ := Prod.mk.inj hi
      obtain ⟨digits, written, rfl⟩ := map_eq_ok.mp made
      exact ⟨h, rfl, by rw [numeral_eq_ok written]; rfl, rfl⟩

/-- A label has a number that is greater than the last one under its parent and word, and none of the siblings has the
label already. -/
theorem next_eq_ok (hi : (next parent kind siblings).run n = (.ok label, n')) :
    ∃ number, label = spelled kind.word number ∧ n.last parent kind.word < number ∧
      n' = n.give parent kind.word number ∧ .text label ∉ siblings := by
  obtain ⟨h, known, rfl, rfl⟩ := next_eq_upcoming hi
  refine ⟨_, rfl, last_lt_upcoming n parent kind.word h, rfl, fun within => ?_⟩
  obtain ⟨m, read, le⟩ := le_highest known within
  have same : m = upcoming n parent kind.word h := number_of_spelled read
  have greater : h < upcoming n parent kind.word h := Nat.lt_succ_of_le (le_max_right _ _)
  omega

theorem next_advances (parent : String) (kind : Kind) (siblings : List Value) (n : Numbering) :
    n.Advances ((next parent kind siblings).run n).2 := by
  rw [next_run]
  split
  · exact .refl
  · exact Numbering.advances_give (last_lt_upcoming n parent kind.word _)

/-- Only the numbers under the same word and parent count, and only they are changed, whatever the parent is. -/
theorem next_congr {m : Numbering} {parent' : String} (hs : m.last parent' kind.word = n.last parent kind.word)
    (siblings : List Value) :
    ((next parent' kind siblings).run m).1 = ((next parent kind siblings).run n).1 ∧
      ((next parent' kind siblings).run m).2.last parent' kind.word =
        ((next parent kind siblings).run n).2.last parent kind.word := by
  have number (h : Nat) : upcoming m parent' kind.word h = upcoming n parent kind.word h := by
    rw [upcoming, upcoming, hs]
  rw [next_run, next_run]
  cases highest kind.word siblings with
  | error fault => exact ⟨rfl, hs⟩
  | ok h => simp only [number, Numbering.last_give, and_self]

theorem next_other {parent' word' : String} (other : ¬ (parent' = parent ∧ word' = kind.word))
    (siblings : List Value) (n : Numbering) :
    ((next parent kind siblings).run n).2.last parent' word' = n.last parent' word' := by
  rw [next_run]
  split
  · rfl
  · exact Numbering.last_give_other other

/-! ### Labels of several children -/

theorem forChildrenAfter_run (parent : String) (kind : Kind) (siblings : List Value) (count : Nat) (n : Numbering) :
    (forChildrenAfter parent kind siblings (count + 1)).run n =
      match (next parent kind siblings).run n with
      | (.error fault, n') => (.error fault, n')
      | (.ok label, n') =>
        let rest := (forChildrenAfter parent kind (siblings ++ [.text label]) count).run n'
        (rest.1.map (label :: ·), rest.2) := by
  rw [forChildrenAfter, Labelling.run_bind_eq]
  cases first : (next parent kind siblings).run n with
  | mk result n' =>
      cases result with
      | error fault => rfl
      | ok label =>
          simp only [Labelling.run_bind_eq]
          cases (forChildrenAfter parent kind (siblings ++ [.text label]) count).run n' with
          | mk others n'' => cases others <;> rfl

theorem forChildrenAfter_advances (parent : String) (kind : Kind) (siblings : List Value) (count : Nat)
    (n : Numbering) : n.Advances ((forChildrenAfter parent kind siblings count).run n).2 := by
  induction count generalizing siblings n with
  | zero => exact .refl
  | succ count ih =>
      have first := next_advances parent kind siblings n
      rw [forChildrenAfter_run]
      split <;> rename_i same <;> rw [same] at first
      · exact first
      · exact first.trans (ih _ _)

theorem forChildrenAfter_other {parent' word' : String} (h : ¬ (parent' = parent ∧ word' = kind.word))
    (siblings : List Value) (count : Nat) (n : Numbering) :
    ((forChildrenAfter parent kind siblings count).run n).2.last parent' word' = n.last parent' word' := by
  induction count generalizing siblings n with
  | zero => rfl
  | succ count ih =>
      have first := next_other h siblings n
      rw [forChildrenAfter_run]
      split <;> rename_i same <;> rw [same] at first
      · exact first
      · exact (ih _ _).trans first

theorem forChildrenAfter_congr {m : Numbering} {parent' : String}
    (h : m.last parent' kind.word = n.last parent kind.word) (siblings : List Value) (count : Nat) :
    ((forChildrenAfter parent' kind siblings count).run m).1 = ((forChildrenAfter parent kind siblings count).run n).1 ∧
      ((forChildrenAfter parent' kind siblings count).run m).2.last parent' kind.word =
        ((forChildrenAfter parent kind siblings count).run n).2.last parent kind.word := by
  induction count generalizing siblings m n with
  | zero => exact ⟨rfl, h⟩
  | succ count ih =>
      obtain ⟨result, last⟩ := next_congr h siblings
      rw [forChildrenAfter_run, forChildrenAfter_run]
      cases here : (next parent' kind siblings).run m with
      | mk label m' =>
          cases there : (next parent kind siblings).run n with
          | mk label' n' =>
              rw [here, there] at result last
              cases result
              cases label with
              | error fault => exact ⟨rfl, last⟩
              | ok label =>
                  obtain ⟨others, rest⟩ := ih last (siblings ++ [.text label])
                  exact ⟨congrArg (Except.map (label :: ·)) others, rest⟩

end Label

/-! ### The ledger -/

/-- A label that was issued under a parent and a word, and the labels that its siblings had. -/
structure Issue where
  parent : String
  word : String
  siblings : List Value
  label : String

namespace Issue

def isUnder (parent word : String) (i : Issue) : Bool := i.parent == parent && i.word == word

/-- The second label has a greater number. -/
def Below (a b : Issue) : Prop :=
  ∃ j k, a.label = Label.spelled a.word j ∧ b.label = Label.spelled b.word k ∧ j < k

/-- Labels issued one after the other: those before are siblings of those after. -/
def each (parent word : String) (siblings : List Value) : List String → List Issue
  | [] => []
  | label :: labels => ⟨parent, word, siblings, label⟩ :: each parent word (siblings ++ [.text label]) labels

variable {parent word : String} {a b i : Issue}

theorem isUnder_iff : i.isUnder parent word = true ↔ i.parent = parent ∧ i.word = word := by
  simp [isUnder]

theorem Below.ne (below : a.Below b) (hs : a.word = b.word) : a.label ≠ b.label := by
  obtain ⟨j, k, first, second, less⟩ := below
  rw [first, second, hs]
  exact fun equal => less.ne (Label.spelled_inj equal)

theorem of_mem_each {siblings : List Value} {labels : List String} (h : i ∈ each parent word siblings labels) :
    i.parent = parent ∧ i.word = word := by
  induction labels generalizing siblings with
  | nil => cases h
  | cons label labels ih =>
      rcases List.mem_cons.mp h with rfl | h
      · exact ⟨rfl, rfl⟩
      · exact ih h

end Issue

/-- What labels are asked for. -/
inductive LabelRequest where
  /-- For a new child whose siblings have some labels. -/
  | child (parent : String) (kind : Kind) (siblings : List Value)
  /-- For some new children of a parent that has none. -/
  | children (parent : String) (kind : Kind) (count : Nat)
  /-- No label: the numbers are forgotten. -/
  | reset

/-- The request is for labels under a parent and a word, or a reset. -/
def LabelRequest.concerns (parent word : String) : LabelRequest → Bool
  | .child parent' kind _ | .children parent' kind _ => parent' == parent && kind.word == word
  | .reset => true

/-- The numbers that were given out and the labels that were issued since they were last reset. -/
structure Ledger where
  numbering : Numbering
  issued : List Issue

namespace Ledger

def blank : Ledger := ⟨.fresh, []⟩

/-- The ledger with the labels of an answer, if there are any. -/
def enter (l : Ledger) (parent word : String) (siblings : List Value)
    (answer : Except Fault (List String) × Numbering) : Ledger where
  numbering := answer.2
  issued :=
    match answer.1 with
    | .ok labels => l.issued ++ Issue.each parent word siblings labels
    | .error _ => l.issued

def next (l : Ledger) : LabelRequest → Ledger
  | .child parent kind siblings =>
    l.enter parent kind.word siblings
      ((return [← Label.next parent kind siblings] : Labelling (List String)).run l.numbering)
  | .children parent kind count =>
    l.enter parent kind.word [] ((Label.forChildren parent kind count).run l.numbering)
  | .reset => blank

def run (l : Ledger) (requests : List LabelRequest) : Ledger := requests.foldl next l

variable {l l' : Ledger} {parent word label : String} {kind : Kind} {siblings : List Value} {n' : Numbering}
  {labels : List String} {count : Nat} {r : LabelRequest} {requests : List LabelRequest}

/-- A child is labelled like the first of several. -/
theorem next_child (l : Ledger) (parent : String) (kind : Kind) (siblings : List Value) :
    l.next (.child parent kind siblings) =
      l.enter parent kind.word siblings ((Label.forChildrenAfter parent kind siblings 1).run l.numbering) := rfl

theorem next_children (l : Ledger) (parent : String) (kind : Kind) (count : Nat) :
    l.next (.children parent kind count) =
      l.enter parent kind.word [] ((Label.forChildrenAfter parent kind [] count).run l.numbering) := rfl

/-! ### Labels are issued once -/

/-- Each label has a number that was given out, later labels under the same parent and word have greater ones, and no
label was issued beside a sibling that has it. -/
structure Sound (l : Ledger) : Prop where
  numbered : ∀ i ∈ l.issued, ∃ k, i.label = Label.spelled i.word k ∧ k ≤ l.numbering.last i.parent i.word
  ordered : l.issued.Pairwise fun a b => a.parent = b.parent → a.word = b.word → a.Below b
  unlike : ∀ i ∈ l.issued, .text i.label ∉ i.siblings

theorem sound_blank : blank.Sound := ⟨nofun, .nil, nofun⟩

theorem Sound.advance (h : l.Sound) (advances : l.numbering.Advances n') : Sound ⟨n', l.issued⟩ := by
  refine ⟨fun i within => ?_, h.ordered, h.unlike⟩
  obtain ⟨k, same, le⟩ := h.numbered i within
  exact ⟨k, same, le.trans (advances.le _ _)⟩

theorem Sound.issue (h : l.Sound) (hi : (Label.next parent kind siblings).run l.numbering = (.ok label, n')) :
    Sound ⟨n', l.issued ++ [⟨parent, kind.word, siblings, label⟩]⟩ := by
  obtain ⟨number, rfl, greater, rfl, other⟩ := Label.next_eq_ok hi
  have before := (h.advance (Numbering.advances_give greater)).numbered
  constructor
  · intro i within
    rcases List.mem_append.mp within with there | here
    · exact before i there
    · cases List.mem_singleton.mp here
      exact ⟨number, rfl, (Numbering.last_give ..).ge⟩
  · refine List.pairwise_append.mpr ⟨h.ordered, List.pairwise_singleton _ _, ?_⟩
    rintro a there b here sameParent sameWord
    cases List.mem_singleton.mp here
    obtain ⟨k, same, le⟩ := h.numbered a there
    rw [sameParent, sameWord] at le
    exact ⟨k, number, same, rfl, Nat.lt_of_le_of_lt le greater⟩
  · intro i within
    rcases List.mem_append.mp within with there | here
    · exact h.unlike i there
    · cases List.mem_singleton.mp here
      exact other

theorem Sound.each (h : l.Sound)
    (hi : (Label.forChildrenAfter parent kind siblings count).run l.numbering = (.ok labels, n')) :
    Sound ⟨n', l.issued ++ Issue.each parent kind.word siblings labels⟩ := by
  induction count generalizing l siblings labels with
  | zero =>
      cases hi
      rwa [Issue.each, List.append_nil]
  | succ count ih =>
      obtain ⟨label, n₁, first, hi⟩ := Labelling.run_bind hi
      obtain ⟨others, n₂, below, hi⟩ := Labelling.run_bind hi
      cases hi
      have rest := ih (h.issue first) below
      rwa [List.append_assoc, List.singleton_append] at rest

theorem Sound.enter (h : l.Sound) (parent : String) (kind : Kind) (siblings : List Value) (count : Nat) :
    (l.enter parent kind.word siblings
      ((Label.forChildrenAfter parent kind siblings count).run l.numbering)).Sound := by
  have advances := Label.forChildrenAfter_advances parent kind siblings count l.numbering
  cases answer : (Label.forChildrenAfter parent kind siblings count).run l.numbering with
  | mk result n' =>
      cases result with
      | ok labels => exact h.each answer
      | error fault =>
          rw [answer] at advances
          exact h.advance advances

theorem Sound.next (h : l.Sound) (r : LabelRequest) : (l.next r).Sound := by
  cases r with
  | child parent kind siblings =>
      rw [next_child]
      exact h.enter parent kind siblings 1
  | children parent kind count =>
      rw [next_children]
      exact h.enter parent kind [] count
  | reset => exact sound_blank

theorem Sound.run (h : l.Sound) (requests : List LabelRequest) : (l.run requests).Sound := by
  induction requests generalizing l with
  | nil => exact h
  | cons r rest ih => exact ih (h.next r)

/-! ### Labels under other parents and words -/

/-- The second ledger shows what the first one shows under a parent and a word, and nothing else. -/
structure Shows (parent word : String) (l l' : Ledger) : Prop where
  last : l'.numbering.last parent word = l.numbering.last parent word
  issued : l.issued.filter (·.isUnder parent word) = l'.issued

theorem Shows.enter (h : l.Shows parent kind.word l') (siblings : List Value) (count : Nat) :
    Shows parent kind.word
      (l.enter parent kind.word siblings ((Label.forChildrenAfter parent kind siblings count).run l.numbering))
      (l'.enter parent kind.word siblings ((Label.forChildrenAfter parent kind siblings count).run l'.numbering)) := by
  obtain ⟨result, last⟩ := Label.forChildrenAfter_congr h.last siblings count
  refine ⟨last, ?_⟩
  simp only [Ledger.enter, result]
  split
  · rename_i labels _
    have all : (Issue.each parent kind.word siblings labels).filter (·.isUnder parent kind.word) =
        Issue.each parent kind.word siblings labels :=
      List.filter_eq_self.mpr fun i within => Issue.isUnder_iff.mpr (Issue.of_mem_each within)
    rw [List.filter_append, h.issued, all]
  · exact h.issued

theorem Shows.enter_other {parent' : String} (h : l.Shows parent word l')
    (ho : ¬ (parent = parent' ∧ word = kind.word)) (siblings : List Value) (count : Nat) :
    Shows parent word (l.enter parent' kind.word siblings
      ((Label.forChildrenAfter parent' kind siblings count).run l.numbering)) l' := by
  refine ⟨h.last.trans (Label.forChildrenAfter_other ho siblings count l.numbering).symm, ?_⟩
  simp only [Ledger.enter]
  split
  · rename_i labels _
    have none : (Issue.each parent' kind.word siblings labels).filter (·.isUnder parent word) = [] := by
      refine List.filter_eq_nil_iff.mpr fun i within under => ho ?_
      obtain ⟨sameParent, sameWord⟩ := Issue.of_mem_each within
      obtain ⟨rfl, rfl⟩ := Issue.isUnder_iff.mp under
      exact ⟨sameParent, sameWord⟩
    rw [List.filter_append, none, List.append_nil, h.issued]
  · exact h.issued

theorem shows_blank (parent word : String) : Shows parent word blank blank := ⟨rfl, rfl⟩

theorem Shows.next (h : l.Shows parent word l') (hc : r.concerns parent word = true) :
    Shows parent word (l.next r) (l'.next r) := by
  cases r with
  | child parent' kind siblings =>
      simp only [LabelRequest.concerns, Bool.and_eq_true, beq_iff_eq] at hc
      obtain ⟨rfl, rfl⟩ := hc
      rw [next_child, next_child]
      exact h.enter siblings 1
  | children parent' kind count =>
      simp only [LabelRequest.concerns, Bool.and_eq_true, beq_iff_eq] at hc
      obtain ⟨rfl, rfl⟩ := hc
      rw [next_children, next_children]
      exact h.enter [] count
  | reset => exact shows_blank parent word

theorem Shows.next_other (h : l.Shows parent word l') (ho : r.concerns parent word = false) :
    Shows parent word (l.next r) l' := by
  have apart {parent' : String} {kind : Kind} (differ : (parent' == parent && kind.word == word) = false) :
      ¬ (parent = parent' ∧ word = kind.word) := by
    rintro ⟨rfl, rfl⟩
    simp at differ
  cases r with
  | child parent' kind siblings =>
      rw [next_child]
      exact h.enter_other (apart ho) siblings 1
  | children parent' kind count =>
      rw [next_children]
      exact h.enter_other (apart ho) [] count
  | reset => cases ho

theorem Shows.run (h : l.Shows parent word l') (requests : List LabelRequest) :
    Shows parent word (l.run requests) (l'.run (requests.filter (·.concerns parent word))) := by
  induction requests generalizing l l' with
  | nil => exact h
  | cons r rest ih =>
      cases concerns : r.concerns parent word with
      | true =>
          rw [List.filter_cons_of_pos concerns]
          exact ih (h.next concerns)
      | false =>
          rw [List.filter_cons_of_neg (by simp [concerns])]
          exact ih (h.next_other concerns)

/-- Whatever labels are asked for: since the last reset, no label is issued twice under one parent and one word, and
their numbers increase; no label is one of the siblings it is issued for; requests under other parents or words make no
difference; and a child gets the number after all others, if its siblings can be read and the number can be written. -/
theorem labels_never_repeated (requests : List LabelRequest) :
    let l := blank.run requests
    (l.issued.Pairwise fun a b => a.parent = b.parent → a.word = b.word → a.label ≠ b.label ∧ a.Below b) ∧
      (∀ i ∈ l.issued, .text i.label ∉ i.siblings) ∧
      (∀ parent word, l.issued.filter (·.isUnder parent word) =
        (blank.run (requests.filter (·.concerns parent word))).issued) ∧
      ∀ parent kind siblings highest, Label.highest kind.word siblings = .ok highest →
        let number := max (l.numbering.last parent kind.word) highest + 1
        (Nat.toDigits 10 number).length ≤ Text.maxDigits →
          (blank.run (requests ++ [.child parent kind siblings])).issued =
            l.issued ++ [⟨parent, kind.word, siblings, s!"{kind.word} {number}"⟩] := by
  intro l
  have sound : l.Sound := sound_blank.run requests
  refine ⟨sound.ordered.imp ?_, sound.unlike, ?_, ?_⟩
  · intro a b below sameParent sameWord
    have less := below sameParent sameWord
    exact ⟨less.ne sameWord, less⟩
  · intro parent word
    exact ((shows_blank parent word).run requests).issued
  · intro parent kind siblings highest known number short
    have written : Label.numeral number = .ok (toString number) := if_neg (Nat.not_lt.mpr short)
    have answer : (Label.next parent kind siblings).run l.numbering =
        (.ok s!"{kind.word} {number}", l.numbering.give parent kind.word number) := by
      rw [Label.next_run, known]
      show ((Label.numeral number).map _, _) = _
      rw [written]
      rfl
    have last : blank.run (requests ++ [.child parent kind siblings]) = l.next (.child parent kind siblings) := by
      rw [run, List.foldl_append]
      rfl
    rw [last, next_child, Label.forChildrenAfter_run, answer]
    rfl

/-- Siblings with digits of another script, leading zeros, a line break, the other word and no label at all. -/
def namesakes : List Value :=
  [.text "Condition \u0663", .text "Condition 007\n", .null, .text "Group 9", .text "Condition"]

def asking : List LabelRequest :=
  [.child "root" .group [], .reset, .child "root" .comparison namesakes, .children "root-condition-0" .comparison 2,
    .child "root" .group namesakes, .children "root" .reference 2]

theorem asking_labelled :
    "Condition 8" ≠ "Condition 9" ∧
      (∃ i ∈ (blank.run asking).issued, i.label = "Condition 8" ∧ .text i.label ∉ i.siblings) ∧
      (blank.run (asking ++ [.child "root" .comparison namesakes])).issued =
        (blank.run asking).issued ++ [⟨"root", "Condition", namesakes, "Condition 11"⟩] := by
  obtain ⟨distinct, unlike, -, counted⟩ := labels_never_repeated asking
  have labels : (blank.run asking).issued.map (fun i => (i.parent, i.word, i.label)) =
      [("root", "Condition", "Condition 8"), ("root-condition-0", "Condition", "Condition 1"),
        ("root-condition-0", "Condition", "Condition 2"), ("root", "Group", "Group 10"),
        ("root", "Condition", "Condition 9"), ("root", "Condition", "Condition 10")] := by
    decide +kernel
  refine ⟨?_, ?_, ?_⟩
  · have apart : ((blank.run asking).issued.map fun i => (i.parent, i.word, i.label)).Pairwise
        fun a b => a.1 = b.1 → a.2.1 = b.2.1 → a.2.2 ≠ b.2.2 :=
      List.pairwise_map.mpr (distinct.imp fun differ parent word => (differ parent word).1)
    rw [labels] at apart
    exact List.pairwise_iff_getElem.mp apart 0 4 (by decide) (by decide) (by decide) rfl rfl
  · have first : ("root", "Condition", "Condition 8") ∈
        (blank.run asking).issued.map fun i => (i.parent, i.word, i.label) := by
      rw [labels]
      exact List.mem_cons_self
    obtain ⟨i, within, same⟩ := List.mem_map.mp first
    exact ⟨i, within, congrArg (·.2.2) same, unlike i within⟩
  · have last_root : (blank.run asking).numbering.last "root" Kind.comparison.word = 10 := by decide +kernel
    have label : (s!"{Kind.comparison.word} {max 10 7 + 1}" : String) = "Condition 11" := by decide +kernel
    have next := counted "root" .comparison namesakes 7 rfl (by rw [last_root]; decide +kernel)
    rw [last_root, label] at next
    exact next

end Ledger

end RuleEditor
