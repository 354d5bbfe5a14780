import RuleEditor.ArgumentEditor
import RuleEditor.Proofs.Tree.Normalizing

/-!
# Arguments under an editor of their own

An editor sees the arguments of a call as a table, and the call takes its arguments from the table that comes back:
one for each entry, in the order of the entries. An expression stays as it is, and all else becomes a literal. Where
the arguments have names of their own, and the catalogue declares no other types for literals than theirs, the table
that the editor has seen gives back the call.
-/
namespace RuleEditor

variable {α β : Type}

/-- Steps that all succeed give results one by one. -/
theorem mapM_ok_of_forall {f : α → Except Fault β} {R : α → β → Prop} {xs : List α}
    (h : ∀ x ∈ xs, ∃ y, f x = .ok y ∧ R x y) : ∃ ys, xs.mapM f = .ok ys ∧ List.Forall₂ R xs ys := by
  induction xs with
  | nil => exact ⟨[], rfl, .nil⟩
  | cons x xs ih =>
      obtain ⟨y, first, related⟩ := h x List.mem_cons_self
      obtain ⟨ys, rest, others⟩ := ih fun z within => h z (List.mem_cons_of_mem x within)
      refine ⟨y :: ys, ?_, .cons related others⟩
      rw [List.mapM_cons, first, ok_bind, rest, ok_bind, pure_eq_ok]

namespace ArgumentTable

/-- A name that is not in the table yet goes to its end. -/
theorem set_new {name : Value} {table : ArgumentTable} (h : ∀ m ∈ table, m.1.same name = false) (entry : Entry) :
    table.set name entry = table ++ [(name, entry)] := by
  induction table with
  | nil => rfl
  | cons m rest ih =>
      obtain ⟨other, value⟩ := m
      have apart : other.same name = false := h _ List.mem_cons_self
      rw [set, if_neg (by simp [apart]), ih fun m within => h m (List.mem_cons_of_mem _ within), List.cons_append]

end ArgumentTable

namespace Call

variable {c : Call} {catalogue : Option Catalogue} {parameters : List Parameter} {table : ArgumentTable}

/-- The entry that an argument has in the table. -/
def entry (a : Argument Node) : Value × Entry := (a.name, .ofNode a.value)

/-- Each argument is found by its name, and it alone. -/
structure ToldApart (c : Call) : Prop where
  found : ∀ a ∈ c.arguments, a.name.same a.name = true
  apart : c.arguments.Pairwise fun a b => a.name.same b.name = false ∧ b.name.same a.name = false

/-- Texts that are different tell arguments apart. -/
theorem toldApart_of_texts {names : List String} (ht : c.arguments.map (·.name) = names.map .text)
    (hd : names.Nodup) : c.ToldApart := by
  have same (s t : String) : (Value.text s).same (.text t) = (s == t) := by simp [Value.same]
  constructor
  case found =>
    intro a within
    have named : a.name ∈ names.map Value.text := ht ▸ List.mem_map_of_mem within
    obtain ⟨s, -, is⟩ := List.mem_map.mp named
    rw [← is, same, beq_self_eq_true]
  case apart =>
    have pairs : (c.arguments.map (·.name)).Pairwise fun v w => v.same w = false ∧ w.same v = false := by
      rw [ht, List.pairwise_map]
      refine hd.imp fun {s t} other => ?_
      rw [same, same]
      exact ⟨beq_false_of_ne other, beq_false_of_ne (Ne.symm other)⟩
    exact List.pairwise_map.mp pairs

/-- The type that a plain value takes on under a name: the one that is declared; else the one of the argument that has
the name, and of several the last; else it is a text. -/
inductive TakesOn (parameters : List Parameter) (c : Call) (name : Value) : Value → Prop where
  | declared {type} : declaredType? parameters name = some type → TakesOn parameters c name (.text type)
  | current {before a after type} : declaredType? parameters name = none → c.arguments = before ++ a :: after →
      a.name.same name = true → (∀ b ∈ after, b.name.same name = false) → a.value.type = .ok type →
      TakesOn parameters c name type
  | text : declaredType? parameters name = none → (∀ a ∈ c.arguments, a.name.same name = false) →
      TakesOn parameters c name (.text "text")

/-- The argument that an entry of a table gives. -/
inductive Written (parameters : List Parameter) (c : Call) : Value × Entry → Argument Node → Prop where
  | kept {name node} : node.isExpression = true → Written parameters c (name, .tree node) ⟨name, node⟩
  | plain {name value type} : TakesOn parameters c name type →
      Written parameters c (name, .plain value) ⟨name, .literal type value⟩
  | data {name node type} : node.isExpression = false → TakesOn parameters c name type →
      Written parameters c (name, .tree node) ⟨name, .literal type node.record⟩

/-! ### The table of a call -/

theorem tableFrom_eq_ok (h : ∀ a ∈ c.arguments, a.name.isKey = true) : ∃ table, c.argumentTable = .ok table := by
  have from_ (arguments : List (Argument Node)) (h : ∀ a ∈ arguments, a.name.isKey = true) (table : ArgumentTable) :
      ∃ table', tableFrom table arguments = .ok table' := by
    induction arguments generalizing table with
    | nil => exact ⟨table, rfl⟩
    | cons a rest ih =>
        obtain ⟨name, value⟩ := a
        have key : name.isKey = true := h _ List.mem_cons_self
        rw [tableFrom, if_pos key]
        exact ih (fun b within => h b (List.mem_cons_of_mem _ within)) _
  exact from_ c.arguments h []

/-- Arguments that are told apart have an entry each, in their order. -/
theorem argumentTable_of_toldApart (hk : ∀ a ∈ c.arguments, a.name.isKey = true) (hn : c.ToldApart) :
    c.argumentTable = .ok (c.arguments.map entry) := by
  have from_ (arguments : List (Argument Node)) (hk : ∀ a ∈ arguments, a.name.isKey = true)
      (apart : arguments.Pairwise fun a b => a.name.same b.name = false ∧ b.name.same a.name = false)
      (table : ArgumentTable) (new : ∀ a ∈ arguments, ∀ m ∈ table, m.1.same a.name = false) :
      tableFrom table arguments = .ok (table ++ arguments.map entry) := by
    induction arguments generalizing table with
    | nil => rw [tableFrom, List.map_nil, List.append_nil]
    | cons a rest ih =>
        obtain ⟨name, value⟩ := a
        have key : name.isKey = true := hk _ List.mem_cons_self
        obtain ⟨first, others⟩ := List.pairwise_cons.mp apart
        rw [tableFrom, if_pos key, ArgumentTable.set_new (new _ List.mem_cons_self), ih, List.append_assoc]
        · rfl
        · exact fun b within => hk b (List.mem_cons_of_mem _ within)
        · exact others
        · intro b within m there
          rcases List.mem_append.mp there with there | there
          · exact new b (List.mem_cons_of_mem _ within) m there
          · obtain rfl := List.mem_singleton.mp there
            exact (first b within).1
  exact from_ c.arguments hk hn.apart [] fun _ _ _ none => absurd none List.not_mem_nil

/-! ### The arguments of a table -/

theorem parameters_eq_ok (h : c.name.isKey = true) (catalogue : Option Catalogue) :
    ∃ parameters, c.parameters catalogue = .ok parameters := by
  unfold Call.parameters
  cases catalogue with
  | none => exact ⟨[], rfl⟩
  | some catalogue =>
      obtain ⟨found, known⟩ : ∃ found, Catalogue.entry? catalogue.functions c.name = .ok found := by
        cases named : c.name with
        | list | record =>
            rw [named] at h
            cases h
        | _ => exact ⟨_, rfl⟩
      dsimp only
      rw [known, ok_bind]
      cases found with
      | none => exact ⟨[], rfl⟩
      | some function => exact ⟨function.parameters, rfl⟩

/-- A plain value can be given a type where all arguments are expressions, which declare one. -/
theorem literal_takesOn (h : ∀ a ∈ c.arguments, a.value.isExpression = true) (parameters : List Parameter)
    (name value : Value) :
    ∃ type, TakesOn parameters c name type ∧ c.literal parameters name value = .ok (.literal type value) := by
  unfold literal
  cases declared : declaredType? parameters name with
  | some type => exact ⟨.text type, .declared declared, rfl⟩
  | none =>
      suffices typed : ∃ type, TakesOn parameters c name type ∧ c.currentType name = .ok type by
        obtain ⟨type, takes, known⟩ := typed
        exact ⟨type, takes, by rw [known]; rfl⟩
      unfold currentType
      cases found : c.arguments.reverse.find? (·.name.same name) with
      | none =>
          have others : ∀ a ∈ c.arguments, a.name.same name = false := by
            intro a within
            exact eq_false_of_ne_true (List.find?_eq_none.mp found a (List.mem_reverse.mpr within))
          exact ⟨_, .text declared others, rfl⟩
      | some a =>
          obtain ⟨same, after, before, split, others⟩ := List.find?_eq_some_iff_append.mp found
          have parts : c.arguments = before.reverse ++ a :: after.reverse := by
            rw [← List.reverse_reverse c.arguments, split]
            simp
          have expression := h a (parts ▸ List.mem_append_right _ List.mem_cons_self)
          obtain ⟨type, known⟩ := Node.type_of_isExpression expression
          refine ⟨type, .current declared parts same (fun b within => ?_) known, ?_⟩
          · simpa using others b (List.mem_reverse.mp within)
          · obtain ⟨own, node⟩ := a
            cases node with
            | absent => cases expression
            | _ => exact known

theorem argument_written (h : ∀ a ∈ c.arguments, a.value.isExpression = true) (parameters : List Parameter)
    (m : Value × Entry) : ∃ a, c.argument parameters m = .ok a ∧ Written parameters c m a := by
  obtain ⟨name, plain | node⟩ := m
  · obtain ⟨type, takes, made⟩ := literal_takesOn h parameters name plain
    refine ⟨⟨name, .literal type plain⟩, ?_, .plain takes⟩
    rw [argument, made]
    rfl
  · cases sort : node.isExpression with
    | true =>
        refine ⟨⟨name, node⟩, ?_, .kept sort⟩
        rw [argument, if_pos sort]
        rfl
    | false =>
        obtain ⟨type, takes, made⟩ := literal_takesOn h parameters name node.record
        refine ⟨⟨name, .literal type node.record⟩, ?_, .data sort takes⟩
        rw [argument, if_neg (by simp [sort]), made]
        rfl

/-! ### The table that the editor has seen -/

/-- Of the arguments of a call that is told apart, an argument is the last one that has its name. -/
theorem ToldApart.eq_last (hn : c.ToldApart) {before after : List (Argument Node)} {a b : Argument Node}
    (hp : c.arguments = before ++ b :: after) (hs : b.name.same a.name = true) (hw : a ∈ c.arguments) :
    b = a := by
  have apart := hn.apart
  rw [hp] at hw apart
  obtain ⟨-, others, across⟩ := List.pairwise_append.mp apart
  rcases List.mem_append.mp hw with early | late
  · rw [(across a early b List.mem_cons_self).2] at hs
    cases hs
  · rcases List.mem_cons.mp late with rfl | late
    · rfl
    · rw [((List.pairwise_cons.mp others).1 a late).1] at hs
      cases hs

/-- The value of a literal takes on the type that the literal has, unless another one is declared. -/
theorem takesOn_own (hn : c.ToldApart) {a : Argument Node} {type own : Value} (hw : a ∈ c.arguments)
    (hd : ∀ known, declaredType? parameters a.name = some known → own = .text known)
    (ht : a.value.type = .ok own) (ha : TakesOn parameters c a.name type) : type = own := by
  cases ha with
  | declared known => exact (hd _ known).symm
  | current _ parts same _ known =>
      obtain rfl := hn.eq_last parts same hw
      exact Except.ok.inj (known.symm.trans ht)
  | text _ others =>
      have none := others a hw
      rw [hn.found a hw] at none
      cases none

/-- An expression comes back from its entry as it was. -/
theorem written_entry (hn : c.ToldApart) (hd : ∀ a ∈ c.arguments, ∀ type value, a.value = .literal type value →
      ∀ known, declaredType? parameters a.name = some known → type = .text known)
    {a b : Argument Node} (hw : a ∈ c.arguments) (he : a.value.isExpression = true)
    (written : Written parameters c (entry a) b) : b = a := by
  obtain ⟨name, node⟩ := a
  cases node with
  | literal own value =>
      obtain ⟨type, takes, rfl⟩ : ∃ type, TakesOn parameters c name type ∧ b = ⟨name, .literal type value⟩ := by
        cases written with
        | plain takes => exact ⟨_, takes, rfl⟩
      rw [takesOn_own hn hw (hd _ hw own value rfl) rfl takes]
  | field | call | reference | chain =>
      cases written with
      | kept => rfl
      | data other => cases other
  | _ => cases he

/-- The call after its editor has run: its arguments are those of the table that came back, one for each entry, and
nothing else has changed. If this is the table that the editor has seen, the call is as it was. -/
theorem edit_by_table (registry : EditorRegistry) (name : String) (editor : ArgumentEditor)
    (hr : Members.get? name registry = some editor) (catalogue : Option Catalogue) (c : Call)
    (hc : c.name.isKey = true) (hk : ∀ a ∈ c.arguments, a.name.isKey = true)
    (he : ∀ a ∈ c.arguments, a.value.isExpression = true) :
    ∃ table parameters edited, c.argumentTable = .ok table ∧ c.parameters catalogue = .ok parameters ∧
      registry.edit name catalogue c.node = .ok edited ∧
      edited.name = c.name ∧ edited.type = c.type ∧
      List.Forall₂ (Written parameters c) (editor table) edited.arguments ∧
      (c.ToldApart →
        (∀ a ∈ c.arguments, ∀ type value, a.value = .literal type value →
          ∀ known, declaredType? parameters a.name = some known → type = .text known) →
        editor table = table → edited = c) := by
  obtain ⟨table, seen⟩ := tableFrom_eq_ok hk
  obtain ⟨parameters, known⟩ := c.parameters_eq_ok hc catalogue
  obtain ⟨arguments, made, written⟩ := mapM_ok_of_forall fun m (_ : m ∈ editor table) =>
    c.argument_written he parameters m
  refine ⟨table, parameters, { c with arguments }, seen, known, ?_, rfl, rfl, written, ?_⟩
  · have looked : EditorRegistry.editor name registry = .ok editor := by
      rw [EditorRegistry.editor, hr]
    have called : c.node.asCall = .ok c := rfl
    rw [EditorRegistry.edit, looked, ok_bind, called, ok_bind, edit, seen, ok_bind, withTable, known, ok_bind, made]
    rfl
  · intro names declared same
    rw [same, Except.ok.inj (seen.symm.trans (c.argumentTable_of_toldApart hk names)),
      List.forall₂_map_left_iff] at written
    have kept : List.Forall₂ Eq c.arguments arguments := by
      refine forall₂_imp_of_mem written fun a within b made => ?_
      exact (written_entry names declared within (he a within) made).symm
    rw [List.forall₂_eq_eq_eq] at kept
    rw [← kept]

/-- A call with a date and a field. -/
def period : Call where
  type := .text "boolean"
  name := .text "DATE.IN_RANGE"
  arguments := [⟨.text "from", .literal (.text "date") (.text "2024-01-01")⟩,
    ⟨.text "to", .field (.text "date") (.text "T.END")⟩]

/-- Its function, with the types that it declares. -/
def dates : Catalogue where
  comparisons := []
  joinings := []
  types := []
  functions := [("DATE.IN_RANGE",
    ⟨"boolean", none, [⟨"from", some "date", none, none, none⟩, ⟨"to", some "date", none, none, none⟩], some "asIs"⟩)]
  ruleTypes := []
  defaultField := "AGE"

/-- A condition, which cannot be an argument. -/
def adult : Node :=
  .comparison (.text "Adult") (.field (.text "number") (.text "AGE")) (.text "equal")
    (.literal (.text "number") (.int 18))

/-- Editors that change nothing, that set a date, and that put a condition in the place of an argument. -/
def editors : EditorRegistry :=
  [("asIs", id), ("close", fun table => table.set (.text "to") (.plain (.text "2024-12-31"))),
    ("compare", fun table => table.set (.text "to") (.tree adult))]

theorem period_toldApart : period.ToldApart :=
  toldApart_of_texts (show _ = ["from", "to"].map Value.text from rfl) (by decide)

/-- An editor that gives back what it has seen leaves the call as it was. -/
theorem period_kept :
    Members.get? "asIs" editors = some id ∧ period.ToldApart ∧
      editors.edit "asIs" (some dates) period.node = .ok period := by
  have keys : ∀ a ∈ period.arguments, a.name.isKey = true := by decide
  have expressions : ∀ a ∈ period.arguments, a.value.isExpression = true := by decide
  obtain ⟨table, parameters, edited, -, known, ran, -, -, -, kept⟩ :=
    edit_by_table editors "asIs" id rfl (some dates) period rfl keys expressions
  refine ⟨rfl, period_toldApart, ?_⟩
  have declared : ∀ a ∈ period.arguments, ∀ type value, a.value = .literal type value →
      ∀ known, declaredType? parameters a.name = some known → type = .text known := by
    cases known
    intro a within type value is type' given
    rcases List.mem_cons.mp within with rfl | within
    · cases is
      exact congrArg Value.text (Option.some.inj given)
    · obtain rfl := List.mem_singleton.mp within
      cases is
  rwa [kept period_toldApart declared rfl] at ran

example : (editors.edit "close" (some dates) period.node).map (·.node.record) =
    .ok (Call.node { period with
      arguments := [⟨.text "from", .literal (.text "date") (.text "2024-01-01")⟩,
        ⟨.text "to", .literal (.text "date") (.text "2024-12-31")⟩] }).record := by rfl

/-- A condition in the table does not come into the call: it is the value of a literal there. -/
theorem condition_not_kept :
    ∃ table edited, period.argumentTable = .ok table ∧
      (.text "to", .tree adult) ∈ ArgumentTable.set (.text "to") (.tree adult) table ∧
      editors.edit "compare" none period.node = .ok edited ∧
      edited.arguments[1]? = some ⟨.text "to", .literal (.text "date") adult.record⟩ ∧
      ∀ a ∈ edited.arguments, a.value ≠ adult := by
  refine ⟨_, _, rfl, by simp [ArgumentTable.set, Value.same], rfl, rfl, ?_⟩
  intro a within same
  rcases List.mem_cons.mp within with rfl | within
  · cases same
  · obtain rfl := List.mem_singleton.mp within
    cases same

end Call

end RuleEditor
