import RuleEditor.Proofs.Address.Numbered
import RuleEditor.Proofs.Edit.Shapes

/-!
# Labels of results over time

A label that was typed is shown until the result has taken up another rule twice. Otherwise a result is named after its
rule, or after its position if it has none. That holds for the results of branches and for the final one alike.
-/
namespace RuleEditor

/-- A place for a result in a choice. -/
inductive ResultSlot where
  | branch (i : Nat)
  | otherwise
deriving DecidableEq

namespace ResultSlot

def path : ResultSlot → String
  | .branch i => Choice.resultPath i
  | .otherwise => Choice.otherwisePath

/-- What a result is named after as long as no label is typed: the selected rule, or else the position. -/
def named (slot : ResultSlot) (result : Node) : Except Fault Value :=
  match result.selected? with
  | some target => .ok target.id
  | none => (Label.positional slot.path .expression).map .text

/-- The results that some edits put at the place, in order. -/
def resultsAmong (slot : ResultSlot) (edits : List (ResultSlot × Node)) : List Node :=
  edits.filterMap fun e => if e.1 = slot then some e.2 else none

theorem resultsAmong_here {e : ResultSlot × Node} {edits : List (ResultSlot × Node)} :
    e.1.resultsAmong (e :: edits) = e.2 :: e.1.resultsAmong edits := by
  simp [resultsAmong]

theorem resultsAmong_other {slot : ResultSlot} {e : ResultSlot × Node} {edits : List (ResultSlot × Node)}
    (h : e.1 ≠ slot) : slot.resultsAmong (e :: edits) = slot.resultsAmong edits := by
  simp [resultsAmong, h]

/-- The place that a result had before the `i`-th branch was removed. -/
def beforeRemoval (i : Nat) : ResultSlot → ResultSlot
  | .branch j => .branch (if j < i then j else j + 1)
  | .otherwise => .otherwise

theorem named_positional {slot : ResultSlot} {result : Node} (h : result.selected? = none) :
    (∀ i, slot = .branch i → i < 10 ^ Text.maxDigits → slot.named result = .ok (.text s!"Result {i + 1}")) ∧
      (slot = .otherwise → slot.named result = .ok (.text "Default")) := by
  unfold named
  rw [h]
  constructor
  · rintro i rfl small
    rw [path, Label.positional_result small]
    rfl
  · rintro rfl
    rfl

end ResultSlot

namespace Node

/-- The new result has a selected rule, and the old one has none or another one. -/
def retargets (old new : Node) : Bool :=
  match new.selected?, old.selected? with
  | none, _ => false
  | some _, none => true
  | some target, some previous => !target.sameTarget previous

/-- How often one of the results takes up another rule than the one before it had. -/
def retargetings (old : Node) : List Node → Nat
  | [] => 0
  | new :: rest => (if old.retargets new then 1 else 0) + new.retargetings rest

end Node

namespace Choice

/-- The result at a place and its label. -/
def slot? (slot : ResultSlot) (c : Choice) : Option (Node × ResultLabel) :=
  match slot with
  | .branch i => c.branches[i]?.map fun b => (b.result, b.label)
  | .otherwise => some (c.otherwise, c.label)

def fill (slot : ResultSlot) (result : Node) (c : Choice) : Except Fault Choice :=
  match slot with
  | .branch i => c.setResult i result
  | .otherwise => .ok (c.setOtherwise result)

def caption (slot : ResultSlot) (text : Value) (c : Choice) : Except Fault Choice :=
  match slot with
  | .branch i => c.setResultLabel i text
  | .otherwise => .ok (c.setOtherwiseLabel text)

/-- The label that is shown for the result at a place. -/
def labelAt (slot : ResultSlot) (c : Choice) : Except Fault Value :=
  match slot with
  | .branch i => c.resultLabel i
  | .otherwise => c.otherwiseLabel

/-- The choice with another result and label at a place. -/
def editAt (slot : ResultSlot) (change : Node × ResultLabel → Node × ResultLabel) (c : Choice) : Except Fault Choice :=
  match slot with
  | .branch i =>
    match c.branches[i]? with
    | some b =>
      let (result, label) := change (b.result, b.label)
      .ok { c with branches := c.branches.set i { b with result, label } }
    | none => .error .noItem
  | .otherwise =>
    let (otherwise, label) := change (c.otherwise, c.label)
    .ok { c with otherwise, label }

def fillAll (edits : List (ResultSlot × Node)) (c : Choice) : Except Fault Choice :=
  edits.foldlM (fun c e => c.fill e.1 e.2) c

/-- Since the choice was made, or a missing label was entered for the result at the place, no label has been typed for
it. The choice may have been edited in any other way. -/
inductive Untitled (catalogue : Catalogue) : ResultSlot → Choice → Prop where
  | made {slot : ResultSlot} {type : Value} {c : Choice} :
      Fresh.choice catalogue type = .ok c.node → Untitled catalogue slot c
  | cleared {slot : ResultSlot} {text : Value} {c c' : Choice} :
      text.isMissing = true → c.caption slot text = .ok c' → Untitled catalogue slot c'
  | filled {slot other : ResultSlot} {result : Node} {c c' : Choice} :
      Untitled catalogue slot c → c.fill other result = .ok c' → Untitled catalogue slot c'
  | captioned {slot other : ResultSlot} {text : Value} {c c' : Choice} :
      Untitled catalogue slot c → other ≠ slot → c.caption other text = .ok c' → Untitled catalogue slot c'
  | added {slot : ResultSlot} {c c' : Choice} {n n' : Numbering} :
      (slot ≠ .branch c.branches.length → Untitled catalogue slot c) → (c.addBranch catalogue).run n = (.ok c', n') →
      Untitled catalogue slot c'
  | removed {slot : ResultSlot} {index : Int} {i : Nat} {c c' : Choice} :
      Untitled catalogue (slot.beforeRemoval i) c → Index.place? c.branches.length index = some i →
      c.removeBranch index = .ok c' → Untitled catalogue slot c'
  | conditioned {slot : ResultSlot} {index : Int} {condition : Node} {c c' : Choice} :
      Untitled catalogue slot c → c.setCondition index condition = .ok c' → Untitled catalogue slot c'
  | recast {slot : ResultSlot} {index : Int} {kind : Kind} {c c' : Choice} {n n' : Numbering} :
      Untitled catalogue slot c → (c.changeConditionKind catalogue index kind).run n = (.ok c', n') →
      Untitled catalogue slot c'

end Choice

/-! ### One label -/

namespace ResultLabel

variable {text : Value} {old new result : Node} {l : ResultLabel} {slot : ResultSlot}

/-- The label that was typed as `text` some changes of the rule ago: with the second one it is given up. -/
def Aged (text : Value) : (changes : Nat) → ResultLabel → Prop
  | 0, l => l = ⟨text, .typed, true⟩
  | 1, l => l = ⟨text, .typed, false⟩
  | _ + 2, l => l.source ≠ .typed

theorem afterResult_kept (hs : old.retargets new = false) (hu : l.source ≠ .target) :
    l.afterResult old new = l := by
  unfold Node.retargets at hs
  unfold afterResult
  split
  · exact if_neg hu
  · rename_i target previous selected held
    rw [selected, held] at hs
    exact if_pos (by simpa using hs)
  · rename_i target selected none
    rw [selected, none] at hs
    cases hs

theorem afterResult_retargeted (h : old.retargets new = true) :
    ∃ target, new.selected? = some target ∧ l.afterResult old new = l.forNewTarget target := by
  unfold Node.retargets at h
  unfold afterResult
  split
  · rename_i none
    rw [none] at h
    cases h
  · rename_i target previous selected held
    rw [selected, held] at h
    exact ⟨target, selected, if_neg (by simpa using h)⟩
  · rename_i target selected none
    exact ⟨target, selected, rfl⟩

theorem untyped_derived (result : Node) : (derived result).source ≠ .typed := by
  unfold derived
  split <;> exact nofun

theorem untyped_forNewTarget (h : l.source ≠ .typed) (target : Reference) :
    (l.forNewTarget target).source ≠ .typed := by
  rw [forNewTarget, if_neg fun both => h both.1]
  exact nofun

theorem untyped_afterResult (h : l.source ≠ .typed) (old new : Node) : (l.afterResult old new).source ≠ .typed := by
  unfold afterResult
  split
  · split
    · exact nofun
    · exact h
  · split
    · exact h
    · exact untyped_forNewTarget h _
  · exact untyped_forNewTarget h _

/-- A label ages by the changes of the rule alone. -/
theorem Aged.afterResult {k : Nat} (h : l.Aged text k) (old new : Node) :
    (l.afterResult old new).Aged text (k + if old.retargets new then 1 else 0) := by
  cases changes : old.retargets new with
  | true =>
      obtain ⟨target, -, same⟩ := afterResult_retargeted (l := l) changes
      rw [if_pos rfl, same]
      match k with
      | 0 =>
          cases h
          rfl
      | 1 =>
          cases h
          exact nofun
      | k + 2 => exact untyped_forNewTarget (l := l) h target
  | false =>
      rw [if_neg Bool.false_ne_true, Nat.add_zero]
      match k with
      | 0 | 1 =>
          cases h
          exact afterResult_kept changes nofun
      | k + 2 => exact untyped_afterResult (l := l) h old new

theorem shown_untyped (h : l.source ≠ .typed) : l.shown slot.path result = slot.named result := by
  rw [shown, if_neg fun both => h both.1]
  rfl

theorem Aged.shown {k : Nat} (h : l.Aged text k) (hp : text.isPresent = true) (slot : ResultSlot) (result : Node) :
    l.shown slot.path result = if k ≤ 1 then .ok text else slot.named result := by
  match k with
  | 0 | 1 =>
      cases h
      simp [ResultLabel.shown, hp]
  | k + 2 => exact (shown_untyped h).trans (if_neg (by omega)).symm

end ResultLabel

/-! ### One place -/

namespace Choice

variable {catalogue : Catalogue} {c c' : Choice} {slot other : ResultSlot} {result new : Node} {l : ResultLabel}
  {text : Value} {p : Node × ResultLabel} {change : Node × ResultLabel → Node × ResultLabel}

theorem editAt_of_slot (h : c.slot? slot = some p) (change : Node × ResultLabel → Node × ResultLabel) :
    ∃ c', c.editAt slot change = .ok c' := by
  cases slot with
  | branch i =>
      obtain ⟨b, here, -⟩ := Option.map_eq_some_iff.mp h
      simp only [editAt, here]
      exact ⟨_, rfl⟩
  | otherwise => exact ⟨_, rfl⟩

/-- An edit at a place changes what is there and nothing at any other place. -/
theorem slot?_editAt (h : c.editAt slot change = .ok c') :
    ∃ p, c.slot? slot = some p ∧ c'.slot? slot = some (change p) ∧ ∀ other ≠ slot, c'.slot? other = c.slot? other := by
  cases slot with
  | branch i =>
      simp only [editAt] at h
      split at h
      · rename_i b here
        cases h
        refine ⟨(b.result, b.label), by simp [slot?, here], ?_, fun other differs => ?_⟩
        · have inside := (List.getElem?_eq_some_iff.mp here).1
          simp [slot?, List.getElem?_set_self inside]
        · cases other with
          | branch j =>
              have apart : i ≠ j := fun same => differs (congrArg ResultSlot.branch same.symm)
              simp [slot?, List.getElem?_set_ne apart]
          | otherwise => rfl
      · cases h
  | otherwise =>
      cases h
      refine ⟨_, rfl, rfl, fun other differs => ?_⟩
      cases other with
      | branch j => rfl
      | otherwise => exact absurd rfl differs

theorem isSome_editAt (he : c.editAt slot change = .ok c') (ht : (c.slot? other).isSome) :
    (c'.slot? other).isSome := by
  obtain ⟨p, -, is, stays⟩ := slot?_editAt he
  by_cases same : other = slot
  · rw [same, is]
    rfl
  · rwa [stays other same]

theorem edit_branch (change : Branch Node → Branch Node) (i : Nat) (c : Choice) :
    (do withBranch i (change (← Choice.branch i c)) c) =
      match c.branches[i]? with
      | some b => .ok { c with branches := c.branches.set i (change b) }
      | none => .error .noItem := by
  by_cases inside : i < c.branches.length
  · simp [Choice.branch, withBranch, Index.item?, Index.replace?, Index.place?_ofNat, inside]
  · simp [Choice.branch, withBranch, Index.item?, Index.replace?, Index.place?_ofNat, inside]

theorem fill_eq : c.fill slot new = c.editAt slot fun p => (new, p.2.afterResult p.1 new) := by
  cases slot with
  | branch i => exact edit_branch (fun b => { b with result := new, label := b.label.afterResult b.result new }) i c
  | otherwise => rfl

theorem caption_eq : c.caption slot text = c.editAt slot fun p => (p.1, .typed text p.1) := by
  cases slot with
  | branch i => exact edit_branch (fun b => { b with label := .typed text b.result }) i c
  | otherwise => rfl

theorem labelAt_eq (h : c.slot? slot = some (result, l)) : c.labelAt slot = l.shown slot.path result := by
  cases slot with
  | branch i =>
      obtain ⟨b, here, same⟩ := Option.map_eq_some_iff.mp h
      cases same
      have inside := (List.getElem?_eq_some_iff.mp here).1
      simp only [labelAt, resultLabel, Choice.branch, Index.item?, Index.place?_ofNat, inside, if_true,
        Option.bind_some, here, ok_bind]
      rfl
  | otherwise =>
      cases h
      rfl

/-! ### Several edits -/

/-- What stands at a place after some edits is the last result that was put there, and its label has aged by the
changes of the rule on the way. -/
theorem fillAll_aged {edits : List (ResultSlot × Node)} {k : Nat} (hf : c.slot? slot = some (result, l))
    (aged : l.Aged text k) (ht : ∀ e ∈ edits, (c.slot? e.1).isSome) :
    ∃ c' l', c.fillAll edits = .ok c' ∧
      c'.slot? slot = some ((slot.resultsAmong edits).getLastD result, l') ∧
      l'.Aged text (k + result.retargetings (slot.resultsAmong edits)) := by
  induction edits generalizing c result l k with
  | nil => exact ⟨c, l, rfl, hf, aged⟩
  | cons e rest ih =>
      obtain ⟨first, others⟩ := List.forall_mem_cons.mp ht
      obtain ⟨old, stands⟩ := Option.isSome_iff_exists.mp first
      obtain ⟨c₁, filled⟩ := editAt_of_slot stands fun p => (e.2, p.2.afterResult p.1 e.2)
      obtain ⟨p, was, is, stays⟩ := slot?_editAt filled
      have there₁ : ∀ e ∈ rest, (c₁.slot? e.1).isSome := fun e' within => isSome_editAt filled (others e' within)
      have ran : c.fillAll (e :: rest) = c₁.fillAll rest := by
        rw [fillAll, List.foldlM_cons, fill_eq, filled, ok_bind, fillAll]
      by_cases here : e.1 = slot
      · subst here
        cases hf.symm.trans was
        obtain ⟨c', l', done, ends, aged'⟩ := ih is (aged.afterResult result e.2) there₁
        refine ⟨c', l', ran.trans done, ?_, ?_⟩
        · rwa [ResultSlot.resultsAmong_here, List.getLastD_cons]
        · rwa [ResultSlot.resultsAmong_here, Node.retargetings, ← Nat.add_assoc]
      · have found₁ := (stays slot (Ne.symm here)).trans hf
        obtain ⟨c', l', done, ends, aged'⟩ := ih found₁ aged there₁
        rw [ResultSlot.resultsAmong_other here]
        exact ⟨c', l', ran.trans done, ends, aged'⟩

/-! ### Results without a typed label -/

/-- The label of the result at the place, if there is one, is not a typed one. -/
def Plain (slot : ResultSlot) (c : Choice) : Prop := ∀ result l, c.slot? slot = some (result, l) → l.source ≠ .typed

theorem Plain.edited (h : c.Plain slot) (he : c.editAt other change = .ok c')
    (hk : ∀ p, p.2.source ≠ .typed → (change p).2.source ≠ .typed) : c'.Plain slot := by
  obtain ⟨p, was, is, stays⟩ := slot?_editAt he
  intro result l found
  by_cases same : slot = other
  · subst same
    have changed : change p = (result, l) := Option.some.inj (is.symm.trans found)
    have plain := hk p (h p.1 p.2 was)
    rwa [changed] at plain
  · rw [stays slot same] at found
    exact h result l found

/-- Where the results and labels are as they were, they stay plain. -/
theorem Plain.of_slot? (h : c.Plain other) (hs : c'.slot? slot = c.slot? other) : c'.Plain slot :=
  fun result l found => h result l (hs ▸ found)

theorem slot?_conditioned {i : Nat} {b : Branch Node} (h : c.branches[i]? = some b) (condition : Node)
    (slot : ResultSlot) : slot? slot { c with branches := c.branches.set i { b with condition } } = c.slot? slot := by
  cases slot with
  | branch j =>
      by_cases same : i = j
      · subst same
        have inside := (List.getElem?_eq_some_iff.mp h).1
        simp [slot?, List.getElem?_set_self inside, h]
      · simp [slot?, List.getElem?_set_ne same]
  | otherwise => rfl

theorem slot?_removed {i : Nat} (slot : ResultSlot) :
    slot? slot { c with branches := c.branches.eraseIdx i } = c.slot? (slot.beforeRemoval i) := by
  cases slot with
  | branch j =>
      simp only [slot?, ResultSlot.beforeRemoval, List.getElem?_eraseIdx]
      split <;> rfl
  | otherwise => rfl

theorem slot?_added (b : Branch Node) (h : slot ≠ .branch c.branches.length) :
    slot? slot { c with branches := c.branches ++ [b] } = c.slot? slot := by
  cases slot with
  | branch j =>
      have apart : j ≠ c.branches.length := fun same => h (congrArg ResultSlot.branch same)
      simp only [slot?, List.getElem?_append]
      split
      · rfl
      · rw [List.getElem?_eq_none (by simp only [List.length_singleton]; omega), List.getElem?_eq_none (by omega)]
  | otherwise => rfl

/-- The labels of a new choice are all positional. -/
theorem plain_of_fresh {type : Value} (h : Fresh.choice catalogue type = .ok c.node) (slot : ResultSlot) :
    c.Plain slot := by
  obtain ⟨branch, first, h⟩ := bind_eq_ok.mp h
  obtain ⟨last, -, h⟩ := bind_eq_ok.mp h
  obtain ⟨condition, -, first⟩ := bind_eq_ok.mp first
  obtain ⟨start, -, first⟩ := bind_eq_ok.mp first
  cases first
  obtain ⟨branches, otherwise, label⟩ := c
  cases h
  intro result l found
  cases slot with
  | branch j =>
      obtain ⟨b, here, same⟩ := Option.map_eq_some_iff.mp found
      cases List.mem_singleton.mp (List.mem_of_getElem? here)
      cases same
      exact nofun
  | otherwise =>
      cases found
      exact nofun

/-- No result has a typed label if none has been typed for it, by induction on the history. -/
theorem plain_of_untitled (untitled : Untitled catalogue slot c) : c.Plain slot := by
  induction untitled with
  | made fresh => exact plain_of_fresh fresh _
  | @cleared slot text c c' missing cleared =>
      rw [caption_eq] at cleared
      obtain ⟨p, -, is, -⟩ := slot?_editAt cleared
      intro result l found
      have same : (p.1, ResultLabel.typed text p.1) = (result, l) := Option.some.inj (is.symm.trans found)
      cases same
      rw [ResultLabel.typed, if_neg (by simp [Value.isPresent, missing])]
      exact ResultLabel.untyped_derived p.1
  | filled _ filled ih =>
      rw [fill_eq] at filled
      exact ih.edited filled fun p plain => ResultLabel.untyped_afterResult plain p.1 _
  | captioned _ differs captioned ih =>
      rw [caption_eq] at captioned
      obtain ⟨p, -, -, stays⟩ := slot?_editAt captioned
      exact ih.of_slot? (stays _ differs.symm)
  | @added slot c c' n n' _ added ih =>
      obtain ⟨name, condition, t, v, -, rfl⟩ := addBranch_eq added
      by_cases new : slot = .branch c.branches.length
      · subst new
        intro result l found
        simp only [slot?, List.getElem?_concat_length, Option.map_some, Option.some.injEq, Prod.mk.injEq] at found
        obtain ⟨-, rfl⟩ := found
        exact nofun
      · exact (ih new).of_slot? (slot?_added _ new)
  | removed _ place removed ih =>
      simp only [removeBranch, Index.erase?, place, Option.map_some, Except.ok.injEq] at removed
      subst removed
      exact ih.of_slot? (slot?_removed _)
  | conditioned _ conditioned ih =>
      obtain ⟨i, b, -, here, rfl⟩ := edit_eq (fun branch => { branch with condition := _ }) conditioned
      exact ih.of_slot? (slot?_conditioned here _ _)
  | recast _ recast ih =>
      obtain ⟨i, b, condition, _, _, -, here, -, rfl⟩ := changeConditionKind_eq recast
      exact ih.of_slot? (slot?_conditioned here _ _)

theorem Untitled.fillAll {edits : List (ResultSlot × Node)} (h : Untitled catalogue slot c)
    (hd : c.fillAll edits = .ok c') : Untitled catalogue slot c' := by
  induction edits generalizing c with
  | nil =>
      cases hd
      exact h
  | cons e rest ih =>
      obtain ⟨c₁, first, hd⟩ := bind_eq_ok.mp hd
      exact ih (.filled h first) hd

/-- After a label has been entered for a result, and any results have been put there and elsewhere, the label is shown
if it was not missing and the rule has changed at most once. Else, and as long as no label has been typed, the result is
named after its rule or its position. -/
theorem label_of_history (catalogue : Catalogue) (slot : ResultSlot) :
    (∀ c result l text, slot? slot c = some (result, l) → ∃ c₁, c.caption slot text = .ok c₁ ∧
      ∀ edits, (∀ e ∈ edits, (c.slot? e.1).isSome) → ∃ c₂, c₁.fillAll edits = .ok c₂ ∧
        c₂.labelAt slot =
          if text.isPresent ∧ result.retargetings (slot.resultsAmong edits) ≤ 1 then .ok text
          else slot.named ((slot.resultsAmong edits).getLastD result)) ∧
    ∀ c, Untitled catalogue slot c → ∀ result l, c.slot? slot = some (result, l) →
      c.labelAt slot = slot.named result := by
  constructor
  · intro c result l text found
    obtain ⟨c₁, captioned⟩ := editAt_of_slot found fun p => (p.1, .typed text p.1)
    refine ⟨c₁, caption_eq.trans captioned, fun edits there => ?_⟩
    obtain ⟨p, was, is, -⟩ := slot?_editAt captioned
    cases found.symm.trans was
    have there₁ : ∀ e ∈ edits, (c₁.slot? e.1).isSome := fun e within => isSome_editAt captioned (there e within)
    by_cases present : text.isPresent = true
    · have typed : (ResultLabel.typed text result).Aged text 0 := if_pos present
      obtain ⟨c₂, l', done, ends, aged⟩ := fillAll_aged is typed there₁
      refine ⟨c₂, done, ?_⟩
      rw [labelAt_eq ends, aged.shown present, Nat.zero_add]
      simp only [present, true_and]
    · -- a missing text leaves a label that is as old as one that has been given up
      have derived : (ResultLabel.typed text result).Aged text 2 := by
        rw [ResultLabel.typed, if_neg present]
        exact ResultLabel.untyped_derived result
      obtain ⟨c₂, l', done, ends, aged⟩ := fillAll_aged is derived there₁
      refine ⟨c₂, done, ?_⟩
      rw [if_neg fun both => present both.1, labelAt_eq ends]
      rw [Nat.add_comm] at aged
      exact ResultLabel.shown_untyped aged
  · intro c untitled result l found
    rw [labelAt_eq found, ResultLabel.shown_untyped (plain_of_untitled untitled result l found)]

def premiums : Catalogue where
  comparisons := []
  joinings := []
  types := [("number", ⟨some "equal", none, []⟩)]
  functions := []
  ruleTypes := []
  defaultField := "AGE"

def free : Node := .literal (.text "number") (.int 0)

def banded (id : String) : Node := .reference (.unchecked (.text "number") (.text id) (.text id) (.int 1) .null)

/-- A choice as it is made. -/
def premium : Choice where
  branches := [⟨.comparison (.text "Condition 1") (.field (.text "number") (.text "AGE")) (.text "equal") free, free,
    .positional⟩]
  otherwise := free
  label := .positional

/-- The rule is selected, dropped, and selected again. -/
def reselected : List (ResultSlot × Node) :=
  [(.branch 0, banded "AGE_BAND"), (.otherwise, banded "FALLBACK"), (.branch 0, free), (.branch 0, banded "AGE_BAND")]

theorem premium_labels :
    ∃ c₁ c₂ c₃, premium.caption (.branch 0) (.text "High") = .ok c₁ ∧
      c₁.fillAll (reselected.take 3) = .ok c₂ ∧ c₂.labelAt (.branch 0) = .ok (.text "High") ∧
      c₁.fillAll reselected = .ok c₃ ∧ c₃.labelAt (.branch 0) = .ok (.text "AGE_BAND") ∧
      Untitled premiums .otherwise c₃ ∧ c₃.labelAt .otherwise = .ok (.text "FALLBACK") := by
  have there : ∀ e ∈ reselected, (premium.slot? e.1).isSome := by decide
  obtain ⟨survives, -⟩ := label_of_history premiums (.branch 0)
  obtain ⟨-, untitled⟩ := label_of_history premiums .otherwise
  obtain ⟨c₁, captioned, history⟩ := survives premium free .positional (.text "High") rfl
  obtain ⟨c₂, first, once⟩ := history (reselected.take 3) fun e within => there e (List.mem_of_mem_take within)
  obtain ⟨c₃, second, twice⟩ := history reselected there
  have made : Fresh.choice premiums (.text "number") = .ok premium.node := rfl
  have other : ResultSlot.branch 0 ≠ .otherwise := by decide
  have plain : Untitled premiums .otherwise c₃ := (Untitled.captioned (.made made) other captioned).fillAll second
  have label := untitled c₃ plain
  cases captioned
  cases second
  exact ⟨_, c₂, _, rfl, first, once, rfl, twice, plain, label _ _ rfl⟩

end Choice

end RuleEditor
