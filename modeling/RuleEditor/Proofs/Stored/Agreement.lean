import RuleEditor.Proofs.Stored.RoundTrip
import RuleEditor.Proofs.Tree.Reviewed
import RuleEditor.Proofs.Tree.Typed
import RuleEditor.Session.Basic
import Mathlib.Data.List.Forall2

/-!
# Inferred types and stored expressions

A session infers the types of chains with the operators that its catalogue marks as numeric; reading a stored
expression and checking a rule infer them with the arithmetic operators. The three agree on an expression exactly if
the two sets of operators give every chain of it the same type.
-/
namespace RuleEditor

open Node Stored

namespace Node

/-- A name of a type, as every leaf has to declare one. -/
def NamesType (type : Value) : Prop := type.Textual ∧ type.isPresent

/-- The node itself, without what is further inside, is a leaf that declares a type, or a chain of two operands or
more under one operator fewer, with the type that follows from them. -/
def TypedUnder (numeric : List String) : Node → Prop
  | .literal type _ | .field type _ | .call type _ _ => NamesType type
  | .reference target => NamesType target.type
  | .chain type operands operators =>
    2 ≤ operands.length ∧ operators.length + 1 = operands.length ∧
      (∀ operator ∈ operators, operator.isKey = true) ∧ Typing.infer numeric operands operators = .ok type
  | _ => False

/-- Each chain of the first tree stands in the second one too, with the same type. -/
def SameChains (tree other : Node) : Prop :=
  ∀ ⦃steps type operands operators⦄, tree.find steps = .ok (.chain type operands operators) →
    ∃ operands', other.find steps = .ok (.chain type operands' operators)

/-- Some operator is one of the numeric ones. -/
def Counts (numeric : List String) (operators : List Value) : Prop := ∃ s ∈ numeric, .text s ∈ operators

/-- Each chain holds a numeric operator exactly if it holds an arithmetic one, or its first operand is a number
anyway. -/
def CountsAlike (numeric : List String) (tree : Node) : Prop :=
  ∀ ⦃steps type first rest operators⦄, tree.find steps = .ok (.chain type (first :: rest) operators) →
    (Counts numeric operators ↔ Counts Typing.arithmetic operators) ∨ first.type = .ok (.text "number")

variable {numeric : List String} {operators : List Value} {operands : List Node} {tree node part : Node} {type : Value}

/-! ### Two sets of numeric operators -/

theorem anyNumeric_iff (numeric : List String) (h : ∀ operator ∈ operators, operator.isKey = true) :
    Typing.anyNumeric numeric operators = .ok true ↔ Counts numeric operators := by
  induction operators with
  | nil => simp [Typing.anyNumeric, Counts]
  | cons operator rest ih =>
      obtain ⟨key, others⟩ := List.forall_mem_cons.mp h
      have below := ih others
      simp only [Counts] at below
      cases operator with
      | text s =>
          by_cases known : s ∈ numeric
          · simp only [Typing.anyNumeric, known, if_true, Counts, true_iff]
            exact ⟨s, known, List.mem_cons_self⟩
          · simp only [Typing.anyNumeric, known, if_false, below, Counts, List.mem_cons, Value.text.injEq]
            constructor
            · rintro ⟨t, there, within⟩
              exact ⟨t, there, .inr within⟩
            · rintro ⟨t, there, rfl | within⟩
              · exact absurd there known
              · exact ⟨t, there, within⟩
      | list _ => cases key
      | record _ => cases key
      | _ => simpa [Typing.anyNumeric, Counts] using below

/-- What is inferred for a chain whose first operand declares a type. -/
theorem infer_cons (numeric : List String) {first : Node} (rest : List Node)
    (hk : ∀ operator ∈ operators, operator.isKey = true)
    (hd : first.type = .ok type) (hp : type.isPresent) :
    (Counts numeric operators → Typing.infer numeric (first :: rest) operators = .ok (.text "number")) ∧
      (¬ Counts numeric operators → Typing.infer numeric (first :: rest) operators = .ok type) := by
  obtain ⟨b, known⟩ := anyNumeric_eq_ok numeric hk
  have iff := anyNumeric_iff numeric hk
  unfold Typing.infer
  rw [known] at iff ⊢
  cases b with
  | true => exact ⟨fun _ => rfl, fun no => absurd (iff.mp rfl) no⟩
  | false =>
      refine ⟨fun yes => ?_, fun _ => ?_⟩
      · cases iff.mpr yes
      simp only [ok_bind, Bool.false_eq_true, if_false, hd, pure_eq_ok, orElse_of_present hp]

/-- Both sets of operators give a chain the same type exactly if they count alike, or it does not matter. -/
theorem infer_eq_iff {first : Node} {rest : List Node} (hk : ∀ operator ∈ operators, operator.isKey = true)
    (hd : first.type = .ok type) (hp : type.isPresent) :
    Typing.infer numeric (first :: rest) operators = Typing.infer Typing.arithmetic (first :: rest) operators ↔
      (Counts numeric operators ↔ Counts Typing.arithmetic operators) ∨ first.type = .ok (.text "number") := by
  obtain ⟨counted, uncounted⟩ := infer_cons numeric rest hk hd hp
  obtain ⟨counted', uncounted'⟩ := infer_cons Typing.arithmetic rest hk hd hp
  rw [hd]
  by_cases here : Counts numeric operators <;> by_cases there : Counts Typing.arithmetic operators
  · simp [counted here, counted' there, here, there]
  · simp [counted here, uncounted' there, here, there, eq_comm]
  · simp [uncounted here, counted' there, here, there]
  · simp [uncounted here, uncounted' there, here, there]

/-! ### Typed expressions -/

theorem NamesType.same {a : Value} (h : NamesType a) : a.same a = true := by
  obtain ⟨textual, present⟩ := h
  cases a with
  | null => cases present
  | text s => simp [Value.same]
  | _ => exact textual.elim

/-- The inferred type of a chain is the name of a type if its first operand declares one. -/
theorem namesType_infer (ht : ∀ operand ∈ operands, ∃ type, operand.type = .ok type ∧ NamesType type)
    (hi : Typing.infer numeric operands operators = .ok type) : NamesType type := by
  refine ⟨?_, infer_present hi⟩
  obtain ⟨b, -, hi⟩ := bind_eq_ok.mp hi
  cases b with
  | true =>
      cases hi
      trivial
  | false =>
      cases operands with
      | nil =>
          cases hi
          trivial
      | cons first rest =>
          obtain ⟨declared, named, textual, -⟩ := ht first List.mem_cons_self
          simp only [Bool.false_eq_true, if_false, named, ok_bind, pure_eq_ok, Except.ok.injEq] at hi
          rw [← hi]
          exact textual.orElse trivial

theorem type_of_typedUnder (h : Everywhere (TypedUnder numeric) tree) :
    ∃ type, tree.type = .ok type ∧ NamesType type := by
  induction h with
  | @intro node here inside ih =>
      cases node with
      | literal | field | call | reference => exact ⟨_, rfl, here⟩
      | chain type operands operators => exact ⟨type, rfl, namesType_infer ih here.2.2.2⟩
      | _ => exact here.elim

/-- A typed expression is read as it is written, before its chains are normalized. -/
theorem restorable_of_typedUnder (h : Everywhere (TypedUnder numeric) tree) : Everywhere Restorable tree := by
  induction h with
  | @intro node here inside ih =>
      refine .intro ?_ ih
      cases node with
      | literal | field | call | reference => exact here.2
      | chain type operands operators =>
          obtain ⟨two, -, keys, inferred⟩ := here
          have declared : ∀ operand ∈ operands, operand.Typed := by
            intro operand there
            obtain ⟨type, known, textual, -⟩ := type_of_typedUnder (inside operand there)
            exact ⟨type, known, textual⟩
          obtain ⟨other, infers, -⟩ := infer_eq_ok Typing.arithmetic declared keys
          refine ⟨infer_present inferred, ?_, other, infers⟩
          rintro rfl
          cases two
      | _ => exact here.elim

/-- What stands directly inside an expression can be gone to by one step. -/
theorem child_of_inner (he : node.TypedUnder numeric) (ht : part ∈ node.inner) :
    ∃ step, node.child step = .ok part := by
  cases node with
  | chain type operands operators =>
      obtain ⟨i, found⟩ := List.mem_iff_getElem?.mp ht
      exact ⟨.operand i, item_eq_ok.mpr found⟩
  | call type name arguments =>
      obtain ⟨a, within, rfl⟩ := List.mem_map.mp ht
      obtain ⟨i, found⟩ := List.mem_iff_getElem?.mp within
      exact ⟨.argument i, map_eq_ok.mpr ⟨a, item_eq_ok.mpr found, rfl⟩⟩
  | literal | field | reference => cases ht
  | _ => exact he.elim

theorem find_of_child {step : Step} {steps : List Step} (h : node.child step = .ok part) :
    node.find (step :: steps) = part.find steps := by
  simp only [find, h, ok_bind]

theorem normalExpressions_iff {nodes : List Node} : NormalExpressions nodes ↔ ∀ node ∈ nodes, node.NormalExpression := by
  induction nodes with
  | nil => exact ⟨fun _ _ within => absurd within List.not_mem_nil, fun _ => trivial⟩
  | cons node rest ih => simp only [NormalExpressions, ih, List.forall_mem_cons]

theorem normalArguments_iff {arguments : List (Argument Node)} :
    NormalArguments arguments ↔ ∀ a ∈ arguments, a.value.NormalExpression := by
  induction arguments with
  | nil => exact ⟨fun _ _ within => absurd within List.not_mem_nil, fun _ => trivial⟩
  | cons a rest ih => simp only [NormalArguments, ih, List.forall_mem_cons]

/-- A typed expression all of whose chains count alike is in normal form. -/
theorem normal_of_countsAlike (ht : Everywhere (TypedUnder numeric) tree) (ha : tree.CountsAlike numeric) :
    tree.NormalExpression := by
  induction ht with
  | @intro node here inside ih =>
      have below : ∀ part ∈ node.inner, part.NormalExpression := by
        intro part there
        refine ih part there ?_
        intro steps type first rest operators found
        obtain ⟨step, stands⟩ := child_of_inner here there
        exact ha ((find_of_child stands).trans found)
      cases node with
      | literal | field | reference => exact here.2
      | call type name arguments =>
          exact ⟨here.2, normalArguments_iff.mpr fun a there => below _ (List.mem_map_of_mem there)⟩
      | chain type operands operators =>
          obtain ⟨two, count, keys, inferred⟩ := here
          refine ⟨two, count, ?_, normalExpressions_iff.mpr below⟩
          cases operands with
          | nil => cases two
          | cons first rest =>
              obtain ⟨declared, known, -, present⟩ := type_of_typedUnder (inside first List.mem_cons_self)
              have root : (Node.chain type (first :: rest) operators).find [] = .ok (.chain type (first :: rest) operators) :=
                rfl
              rw [← (infer_eq_iff keys known present).mpr (ha root), inferred]
      | _ => exact here.elim

/-- An expression in normal form counts alike, whatever operators it has been typed under. -/
theorem countsAlike_of_normal (ht : Everywhere (TypedUnder numeric) tree) (hn : tree.NormalExpression) :
    tree.CountsAlike numeric := by
  intro steps type first rest operators found
  induction steps generalizing tree with
  | nil =>
      cases found
      obtain ⟨-, -, keys, inferred⟩ := ht.here
      obtain ⟨-, -, again, -⟩ := hn
      obtain ⟨declared, known, -, present⟩ := type_of_typedUnder (ht.inside first List.mem_cons_self)
      exact (infer_eq_iff keys known present).mp (inferred.trans again.symm)
  | cons step steps ih =>
      obtain ⟨child, stands, found⟩ := bind_eq_ok.mp found
      obtain ⟨_, slot⟩ := slot_of_child stands child
      refine ih (ht.slot_old slot) ?_ found
      cases slot with
      | operand there => exact normalExpressions_iff.mp hn.2.2.2 _ (List.mem_of_getElem? there)
      | argument there => exact normalArguments_iff.mp hn.2 _ (List.mem_of_getElem? there)
      | _ => exact hn.elim

/-! ### Reading back -/

/-- Chains of a tree are chains of the tree without findings. -/
theorem sameChains_unreviewed (tree : Node) : SameChains tree tree.unreviewed :=
  fun _ _ _ _ found => ⟨_, find_unreviewed found⟩

/-- A chain with the same chains in it has them in each of its operands. -/
theorem SameChains.child {other part part' : Node} (hs : SameChains tree other) (step : Step)
    (ht : tree.child step = .ok part) (hh : other.child step = .ok part') : SameChains part part' := by
  intro steps type operands operators found
  obtain ⟨operands', found'⟩ := hs ((find_of_child ht).trans found)
  exact ⟨operands', (find_of_child hh).symm.trans found'⟩

variable {joining : Option Joining}

/-- How a part of a typed expression is normalized once it has been written and read: it declares a type, and where it
comes back with the same chains it is in normal form. -/
def Renews (joining : Option Joining) (node back : Node) : Prop :=
  node.unreviewed.normalized Typing.arithmetic joining = .ok back ∧ (∃ type, back.type = .ok type ∧ type.Textual) ∧
    (SameChains node back → node.NormalExpression)

theorem normalizedOperands_renew {nodes : List Node} (h : ∀ node ∈ nodes, ∃ back, Renews joining node back) :
    ∃ backs, normalizedOperands Typing.arithmetic joining (unreviewedItems nodes) = .ok backs ∧
      List.Forall₂ (Renews joining) nodes backs := by
  induction nodes with
  | nil => exact ⟨[], rfl, .nil⟩
  | cons node rest ih =>
      obtain ⟨⟨back, renews⟩, others⟩ := List.forall_mem_cons.mp h
      obtain ⟨backs, normal, all⟩ := ih others
      exact ⟨back :: backs, by simp [unreviewedItems, normalizedOperands, renews.1, normal], .cons renews all⟩

theorem normalizedArguments_renew {arguments : List (Argument Node)}
    (h : ∀ a ∈ arguments, ∃ back, Renews joining a.value back) :
    ∃ backs, normalizedArguments Typing.arithmetic joining (unreviewedArguments arguments) = .ok backs ∧
      List.Forall₂ (fun a b : Argument Node => Renews joining a.value b.value) arguments backs := by
  induction arguments with
  | nil => exact ⟨[], rfl, .nil⟩
  | cons a rest ih =>
      obtain ⟨⟨back, renews⟩, others⟩ := List.forall_mem_cons.mp h
      obtain ⟨backs, normal, all⟩ := ih others
      exact ⟨⟨a.name, back⟩ :: backs, by simp [unreviewedArguments, normalizedArguments, renews.1, normal],
        .cons renews all⟩

/-- A typed expression that has been written and read has a type, under operators that count alike in every chain the
same one. -/
theorem renews_of_typedUnder (joining : Option Joining) (h : Everywhere (TypedUnder numeric) tree) :
    ∃ back, Renews joining tree back := by
  induction h with
  | @intro node here inside ih =>
      cases node with
      | literal type value => exact ⟨.literal type value, rfl, ⟨_, rfl, here.1⟩, fun _ => here.2⟩
      | field type path => exact ⟨.field type path, rfl, ⟨_, rfl, here.1⟩, fun _ => here.2⟩
      | reference target => exact ⟨.reference target.unreviewed, rfl, ⟨_, rfl, here.1⟩, fun _ => here.2⟩
      | call type name arguments =>
          have each : ∀ a ∈ arguments, ∃ back, Renews joining a.value back :=
            fun a there => ih _ (List.mem_map_of_mem there)
          obtain ⟨backs, normal, all⟩ := normalizedArguments_renew each
          refine ⟨.call type name backs, by simp [unreviewed, normalized, normal], ⟨_, rfl, here.1⟩, fun same => ?_⟩
          refine ⟨here.2, normalArguments_iff.mpr fun a there => ?_⟩
          obtain ⟨i, within, rfl⟩ := List.mem_iff_getElem.mp there
          have within' : i < backs.length := all.length_eq ▸ within
          refine (all.get within within').2.2 (same.child (.argument i) ?_ ?_)
          · exact map_eq_ok.mpr ⟨_, item_eq_ok.mpr (List.getElem?_eq_getElem within), rfl⟩
          · exact map_eq_ok.mpr ⟨_, item_eq_ok.mpr (List.getElem?_eq_getElem within'), rfl⟩
      | chain type operands operators =>
          obtain ⟨two, count, keys, -⟩ := here
          have each : ∀ operand ∈ operands, ∃ back, Renews joining operand back := ih
          obtain ⟨backs, normal, all⟩ := normalizedOperands_renew each
          have length : operands.length = backs.length := all.length_eq
          have declared : ∀ back ∈ backs, back.Typed := by
            intro back there
            obtain ⟨i, within, rfl⟩ := List.mem_iff_getElem.mp there
            exact (all.get (length ▸ within) within).2.1
          obtain ⟨again, inferred, textual⟩ := infer_eq_ok Typing.arithmetic declared keys
          refine ⟨.chain again backs operators, ?_, ⟨_, rfl, textual⟩, fun same => ?_⟩
          · simp only [unreviewed, normalized, normal, ok_bind]
            exact ofNormal_of_fits (length ▸ two) (length ▸ count) inferred
          · have parts : NormalExpressions operands := normalExpressions_iff.mpr fun operand there => by
              obtain ⟨i, within, rfl⟩ := List.mem_iff_getElem.mp there
              have within' : i < backs.length := length ▸ within
              refine (all.get within within').2.2 (same.child (.operand i) ?_ ?_)
              · exact item_eq_ok.mpr (List.getElem?_eq_getElem within)
              · exact item_eq_ok.mpr (List.getElem?_eq_getElem within')
            have kept : backs = unreviewedItems operands := by
              have left := normalizedOperands_normal joining _ (normalExpressions_unreviewed operands parts)
              exact Except.ok.inj (normal.symm.trans left)
            have root : (Node.chain type operands operators).find [] = .ok (.chain type operands operators) := rfl
            obtain ⟨_, again⟩ := same root
            cases again
            rw [kept, infer_unreviewed] at inferred
            exact ⟨two, count, inferred, parts⟩
      | _ => exact here.elim

/-- A typed expression is written and read, and comes back with the same chains exactly if they all count alike. -/
theorem reads_typedUnder (joining : Option Joining) (h : Everywhere (TypedUnder numeric) tree) :
    ∃ v back, writeExpression tree = .ok v ∧ readExpression joining v = .ok back ∧
      (SameChains tree back ↔ tree.CountsAlike numeric) ∧
      (tree.CountsAlike numeric → back = tree.unreviewed) := by
  obtain ⟨v, written, raw⟩ := readRaw_written (restorable_of_typedUnder h)
  obtain ⟨back, normal, -, renews⟩ := renews_of_typedUnder joining h
  have kept (alike : tree.CountsAlike numeric) : back = tree.unreviewed := by
    have left := normalized_normal joining _ (normalExpression_unreviewed tree (normal_of_countsAlike h alike))
    exact Except.ok.inj (normal.symm.trans left)
  refine ⟨v, back, written, ?_, ⟨fun same => ?_, fun alike => ?_⟩, kept⟩
  · simp only [readExpression, raw, ok_bind, normal]
  · exact countsAlike_of_normal h (renews same)
  · rw [kept alike]
    exact sameChains_unreviewed tree

/-- An expression in normal form evaluates to the type it declares. -/
theorem ofDefinition_of_normal (h : tree.NormalExpression) :
    Typing.ofDefinition (some .expression) tree = tree.type := by
  cases tree with
  | literal | field | call | reference => rfl
  | chain type operands operators => exact h.2.2.1
  | _ => exact h.elim

end Node

namespace Document

variable {d : Document} {catalogue : Catalogue} {v : Value} {back : Node}

/-- What a rule that is an expression is stored as is read as a rule of the same type, with what its expression is
read as. -/
theorem read_written (hf : d.form = .expression) (hp : d.type.isPresent)
    (hw : writeDefinition d.definition = .ok v)
    (hr : readExpression (some catalogue.defaultJoining) v = .ok back) :
    ∃ stored, d.write = .ok stored ∧ ∃ d', Document.read (some catalogue) stored = .ok d' ∧ d'.form = .expression ∧
      d'.type = d.type ∧ d'.definition = back := by
  have reads : readDefinition (some catalogue.defaultJoining) (.text "expression") v = .ok back := hr
  have typed : d.type.isMissing = false := isMissing_of_present hp
  simp only [write, hw, hf, Form.text, ok_bind, pure_eq_ok, Except.ok.injEq, exists_eq_left']
  simp only [Document.read, Option.map_some, part_cons, part_nil, if_true, if_false, String.reduceEq, reads, ok_bind,
    metadata, make, Form.ofValue?, Form.ofText?, typed, Bool.false_eq_true]
  exact ⟨_, rfl, rfl, rfl, rfl⟩

end Document

/-- Under the operators that a session takes from its catalogue, a typed expression is read back with the same type in
every chain and evaluates to the type it declares exactly if each chain holds an operator that is numeric for the
session just when it holds an arithmetic one, or its first operand is a number anyway. Where this is so, a rule that
was saved with the type of the expression has no mismatch once it is loaded. -/
theorem types_agree_iff (catalogue : Catalogue) (settings : Settings) (id : String) (connected : Bool) {g : Node}
    (h : Everywhere (TypedUnder (Session.start catalogue settings id connected).numeric) g) :
    ∃ v back, writeExpression g = .ok v ∧ readExpression (some catalogue.defaultJoining) v = .ok back ∧
      (SameChains g back ∧ Typing.ofDefinition (some .expression) g = g.type ↔
        g.CountsAlike (Session.start catalogue settings id connected).numeric) ∧
      (g.CountsAlike (Session.start catalogue settings id connected).numeric →
        ∀ d : Document, d.form = .expression → d.definition = g → g.type = .ok d.type →
          ∃ stored loaded found, d.write = .ok stored ∧ Document.read (some catalogue) stored = .ok loaded ∧
            loaded.definition = back ∧ Finding.ofDocument loaded = .ok found ∧ found.mismatch = false) := by
  obtain ⟨v, back, written, read, same, kept⟩ := reads_typedUnder (some catalogue.defaultJoining) h
  refine ⟨v, back, written, read, ⟨fun both => same.mp both.1, fun alike => ⟨same.mpr alike, ?_⟩⟩, ?_⟩
  · exact ofDefinition_of_normal (normal_of_countsAlike h alike)
  · rintro alike d form rfl declared
    obtain ⟨type, known, names⟩ := type_of_typedUnder h
    obtain rfl : d.type = type := Except.ok.inj (declared.symm.trans known)
    have writes : writeDefinition d.definition = .ok v := by
      rw [← written]
      cases definition : d.definition <;> first | rfl | (rw [definition] at h; exact h.here.elim)
    obtain ⟨stored, stores, loaded, loads, form', type', definition⟩ :=
      Document.read_written form names.2 writes read
    refine ⟨stored, loaded, ⟨false, d.type, d.type⟩, stores, loads, definition, ?_, rfl⟩
    have evaluates : Typing.ofDefinition (some .expression) back = .ok d.type := by
      have normal := normalExpression_unreviewed _ (normal_of_countsAlike h alike)
      rw [kept alike, ofDefinition_of_normal normal, type_unreviewed, declared]
    simp only [Finding.ofDocument, Finding.ofRule, form', type', definition, evaluates, ok_bind, pure_eq_ok,
      Finding.ofTypes, Finding.differ, names.same, Bool.not_true, Bool.and_false]

/-- A catalogue whose one numeric operator is no arithmetic one. -/
def minimizing : Catalogue where
  comparisons := []
  joinings := [("min", ⟨"MIN", none, true⟩)]
  types := []
  functions := []
  ruleTypes := []
  defaultField := "AGE"

/-- A session with that catalogue, before a rule is opened. -/
def counting : Session :=
  .start minimizing ⟨"", "", "testing", "", .ofInt 10, "AGE", "number", ["+"], [], 8, "INFO", "json"⟩ "es" false

/-- The lesser one of two numbers, in front of a name. -/
def ranked : Node :=
  .chain (.text "number")
    [.chain (.text "number") [.field (.text "number") (.text "AGE"), .literal (.text "number") (.int 18)] [.text "MIN"],
      .field (.text "text") (.text "NAME")] [.text "&"]

theorem ranked_reads_back :
    Everywhere (TypedUnder counting.numeric) ranked ∧
      ∃ v back, writeExpression ranked = .ok v ∧ readExpression (some minimizing.defaultJoining) v = .ok back ∧
        SameChains ranked back ∧ Typing.ofDefinition (some .expression) ranked = .ok (.text "number") := by
  have named (name : String) (some : name ≠ "") : NamesType (.text name) :=
    ⟨trivial, by simpa [Value.isPresent, Value.isMissing] using some⟩
  have typed : Everywhere (TypedUnder counting.numeric) ranked := by
    refine .intro ⟨by decide, rfl, by decide, rfl⟩ (List.forall_mem_cons.mpr ⟨?_, List.forall_mem_singleton.mpr ?_⟩)
    · refine .intro ⟨by decide, rfl, by decide, rfl⟩ (List.forall_mem_cons.mpr ⟨?_, List.forall_mem_singleton.mpr ?_⟩)
      · exact .intro (named "number" (by decide)) nofun
      · exact .intro (named "number" (by decide)) nofun
    · exact .intro (named "text" (by decide)) nofun
  have normal : ranked.NormalExpression :=
    ⟨by decide, rfl, rfl, ⟨by decide, rfl, rfl, rfl, rfl, trivial⟩, rfl, trivial⟩
  obtain ⟨v, back, written, read, agree, -⟩ := types_agree_iff minimizing counting.settings "es" false typed
  obtain ⟨same, evaluates⟩ := agree.mpr (countsAlike_of_normal typed normal)
  exact ⟨typed, v, back, written, read, same, evaluates⟩

/-- The lesser one of two texts. -/
def least : Node :=
  .chain (.text "number") [.field (.text "text") (.text "NAME"), .literal (.text "text") (.text "")] [.text "MIN"]

/-- What is a number for the session comes back as a text. -/
theorem least_changes_type :
    Everywhere (TypedUnder counting.numeric) least ∧ least.type = .ok (.text "number") ∧
      Typing.ofDefinition (some .expression) least = .ok (.text "text") ∧
      ∃ v back, writeExpression least = .ok v ∧ readExpression (some minimizing.defaultJoining) v = .ok back ∧
        back.type = .ok (.text "text") ∧ ¬ SameChains least back := by
  have named : NamesType (.text "text") := ⟨trivial, rfl⟩
  let back : Node :=
    .chain (.text "text") [.field (.text "text") (.text "NAME"), .literal (.text "text") (.text "")] [.text "MIN"]
  refine ⟨.intro ⟨by decide, rfl, by decide, rfl⟩ ?_, rfl, rfl, _, back, rfl, rfl, rfl, fun same => ?_⟩
  · exact List.forall_mem_cons.mpr ⟨.intro named nofun, List.forall_mem_singleton.mpr (.intro named nofun)⟩
  · obtain ⟨_, found⟩ := same (show least.find [] = .ok least from rfl)
    simp [back, find] at found

end RuleEditor
