import RuleEditor.Proofs.Session.Selections

/-!
# Selections in any order

The rule that is edited and its warnings are the same in the end in whichever order the loads of selected rules come
to their ends: of all requests for a path, the last one counts, and requests for different paths stand apart. What is
remembered about versions has to come from rules that carry them, as it is recalled in one order and forgotten in
another.
-/
namespace RuleEditor

open Session Editing

namespace Conversation

variable {lib : Library} {c : Conversation} {requests : List Selection} {e : Selection × Nat}
  {graft : Selection × Nat → Option Graft} {d : Document}

/-- The conversation after the requests, and after they have been completed in some order. -/
def completing (c : Conversation) (requests : List Selection) (order : List (Selection × Nat)) : Conversation :=
  (c.requesting requests).run (order.map c.completion)

/-- Paths that are spelled differently and hold references lead to places apart. -/
theorem apart_of_paths {s : Session} {d : Document} {path path' : String} {p q : List Step} {a b : Node}
    (ho : s.document = some d) (canonical : s.Canonical path) (canonical' : s.Canonical path')
    (hr : Address.steps path = .ok p) (hr' : Address.steps path' = .ok q) (hf : d.definition.find p = .ok a)
    (hf' : d.definition.find q = .ok b) (hh : a.target?.isSome) (ht : b.target?.isSome)
    (hd : path ≠ path') : Apart p q := by
  refine Node.apart_of_targets (fun same => hd ?_) hf hf' hh ht
  have spelled := (canonical d ho).eq_render (Node.isRoot_root _) hr
  have spelled' := (canonical' d ho).eq_render (Node.isRoot_root _) hr'
  rw [spelled, spelled', same]

/-- Whether a request is the one that its path waits for when all of them have been made. -/
def awaits (c : Conversation) (requests : List Selection) (e : Selection × Nat) : Bool :=
  (c.requesting requests).session.isCurrent e.1.path (c.session.generation + e.2 + 1) c.session.epoch

theorem awaits_iff (hc : c.session.connected = true) (hw : e ∈ requests.zipIdx) :
    c.awaits requests e = true ↔ Selection.Last requests e := by
  obtain ⟨-, ⟨tokens, journal, session⟩, -, token⟩ := requested hc requests
  rw [awaits, isCurrent_iff, token e hw, session]
  exact ⟨And.right, fun latest => ⟨rfl, latest⟩⟩

/-- Rules have been selected for references of the open rule, and each request is going to settle with its graft. -/
structure Planned (lib : Library) (c : Conversation) (requests : List Selection) (d : Document)
    (graft : Selection × Nat → Option Graft) : Prop where
  connected : c.session.connected = true
  opened : c.session.document = some d
  well : d.definition.WellTyped
  named : ∀ e ∈ requests.zipIdx, c.session.Canonical e.1.path
  drawn : ∀ e ∈ requests.zipIdx, e.1.Drawn lib
  settles : ∀ e ∈ requests.zipIdx, e.1.Settles d.definition (c.awaits requests e) (graft e)

theorem settles_request {r : Selection} (ho : c.session.document = some d)
    (hh : c.session.HoldsReference r.path) (drawn : r.Drawn lib) (current : Bool) :
    ∃ graft?, r.Settles d.definition current graft? := by
  obtain ⟨key, textual, missing | ⟨rule, loads, keeps, version, well⟩⟩ := drawn
  · exact ⟨none, .missed (.inl missing)⟩
  · cases current with
    | false => exact ⟨none, .missed (.inr ⟨⟨rule, loads⟩, rfl⟩)⟩
    | true =>
        obtain ⟨old, ⟨d', steps, opened', read, found⟩, target⟩ := hh
        cases ho.symm.trans opened'
        obtain ⟨f, checked⟩ := Finding.ofDocument_eq_ok well
        obtain ⟨new, chosen⟩ := Chosen.exists_of_target (referenceTo r.summary rule rule.version f) read target
        exact ⟨_, .met rfl loads checked read found chosen⟩

theorem exists_planned (hc : c.session.connected = true) (ho : c.session.document = some d)
    (hw : d.definition.WellTyped)
    (hn : ∀ r ∈ requests, c.session.Canonical r.path ∧ c.session.HoldsReference r.path)
    (hd : ∀ r ∈ requests, r.Drawn lib) : ∃ graft, Planned lib c requests d graft := by
  have each (e : Selection × Nat) :
      ∃ graft?, e ∈ requests.zipIdx → e.1.Settles d.definition (c.awaits requests e) graft? := by
    by_cases within : e ∈ requests.zipIdx
    · have among := List.fst_mem_of_mem_zipIdx within
      obtain ⟨graft?, settles⟩ := settles_request ho (hn _ among).2 (hd _ among) (c.awaits requests e)
      exact ⟨graft?, fun _ => settles⟩
    · exact ⟨none, fun there => absurd there within⟩
  obtain ⟨graft, settles⟩ := Classical.skolem.mp each
  exact ⟨graft, hc, ho, hw, fun e within => (hn _ (List.fst_mem_of_mem_zipIdx within)).1,
    fun e within => hd _ (List.fst_mem_of_mem_zipIdx within), settles⟩

namespace Planned

variable {order : List (Selection × Nat)}

theorem isSome_iff (h : Planned lib c requests d graft) (hw : e ∈ requests.zipIdx) :
    (graft e).isSome = true ↔ Selection.Last requests e ∧ ∃ d, e.1.loaded = .ok d := by
  rw [(h.settles e hw).isSome_iff, awaits_iff h.connected hw]

/-- A graft is that of a request for a reference, and puts the rule in place that was loaded for it. -/
theorem graft_eq_some (h : Planned lib c requests d graft) (hw : e ∈ requests.zipIdx) {g : Graft}
    (hs : graft e = some g) :
    ∃ rule f old, e.1.loaded = .ok rule ∧ Finding.ofDocument rule = .ok f ∧ Address.steps e.1.path = .ok g.steps ∧
      d.definition.find g.steps = .ok old ∧
      Chosen e.1.path (referenceTo e.1.summary rule rule.version f) old g.new := by
  have settled := h.settles e hw
  rw [hs] at settled
  cases settled with
  | met now loaded checked read found chosen => exact ⟨_, _, _, loaded, checked, read, found, chosen⟩

/-- The grafts of requests stand in places apart, as only the last one for a path has one. -/
theorem ready (h : Planned lib c requests d graft) : Graft.Ready d.definition (requests.zipIdx.filterMap graft) := by
  refine ⟨h.well, fun g among => ?_, ?_⟩
  · obtain ⟨e, within, same⟩ := List.mem_filterMap.mp among
    obtain ⟨rule, f, old, loaded, -, -, found, chosen⟩ := h.graft_eq_some within same
    refine chosen.fits found ?_
    obtain ⟨-, textual, ⟨_, _, _, missing⟩ | ⟨_, loads, -, -, well⟩⟩ := h.drawn e within
    · cases missing.symm.trans loaded
    · cases loads.symm.trans loaded
      exact well.textual.orElse textual
  · rw [List.pairwise_filterMap]
    refine (Selection.zipIdx_ordered requests).imp_of_mem fun {e e'} within within' less g is g' is' => ?_
    obtain ⟨rule, f, old, -, -, read, found, chosen⟩ := h.graft_eq_some within is
    obtain ⟨rule', f', old', -, -, read', found', chosen'⟩ := h.graft_eq_some within' is'
    refine apart_of_paths h.opened (h.named e within) (h.named e' within') read read' found found' chosen.target_old
      chosen'.target_old fun same => ?_
    -- of two requests for one path the earlier one has no graft
    obtain ⟨last, -⟩ := (h.isSome_iff within).mp (Option.isSome_iff_exists.mpr ⟨g, is⟩)
    exact absurd (last e' within' same.symm) (Nat.not_le.mpr less)

theorem completing (h : Planned lib c requests d graft) (recalls : c.Recalls lib)
    (perm : order.Perm requests.zipIdx) : Completing lib c graft order d (c.requesting requests) := by
  obtain ⟨-, ⟨tokens, journal, session⟩, waits, -⟩ := requested h.connected requests
  have opened : (c.requesting requests).session.document = some d := by
    rw [session]
    exact h.opened
  have memo : (c.requesting requests).session.memo.Remembers lib.Recalled := by
    rw [session]
    exact recalls.memo
  exact ⟨opened, memo, fun e within => h.drawn e (perm.mem_iff.mp within),
    fun e within => waits e (perm.mem_iff.mp within), fun e within => h.settles e (perm.mem_iff.mp within),
    h.ready.perm (perm.symm.filterMap graft),
    (perm.pairwise_iff Ne.symm).mpr ((Selection.zipIdx_ordered requests).imp Nat.ne_of_lt)⟩

end Planned

/-- At the end, the last request for each path has put its rule in place if it was loaded. -/
structure Settled (requests : List Selection) (s : Session) (path : String) (old new : Node) : Prop where
  leads : s.LeadsTo path new
  put : ∀ e ∈ requests.zipIdx, e.1.path = path → Selection.Last requests e → ∀ d, e.1.loaded = .ok d →
    ∃ f, Finding.ofDocument d = .ok f ∧ Chosen path (referenceTo e.1.summary d d.version f) old new
  kept : (∀ e ∈ requests.zipIdx, e.1.path = path → Selection.Last requests e → ∀ d, e.1.loaded ≠ .ok d) → new = old

theorem eq_of_last {e e' : Selection × Nat} (hw : e ∈ requests.zipIdx) (hw' : e' ∈ requests.zipIdx)
    (last : Selection.Last requests e) (last' : Selection.Last requests e') (hs : e.1.path = e'.1.path) : e = e' := by
  have index : e.2 = e'.2 := Nat.le_antisymm (last' e hw hs) (last e' hw' hs.symm)
  have here := List.mem_zipIdx_iff_getElem?.mp hw
  have there := List.mem_zipIdx_iff_getElem?.mp hw'
  rw [index, there] at here
  exact Prod.ext (Option.some.inj here).symm index

theorem Planned.settled {tree old : Node} {s : Session} {path : String} (h : Planned lib c requests d graft)
    (ho : s.document = some { d with definition := tree })
    (stand : ∀ g ∈ requests.zipIdx.filterMap graft, tree.find g.steps = .ok g.new)
    (stays : ∀ q, (∀ g ∈ requests.zipIdx.filterMap graft, Apart g.steps q) → tree.find q = d.definition.find q)
    (canonical : c.session.Canonical path) (leads : c.session.LeadsTo path old) (target : old.target?.isSome) :
    ∃ new, Settled requests s path old new := by
  obtain ⟨d', steps, opened', read, found⟩ := leads
  cases h.opened.symm.trans opened'
  by_cases put : ∃ e ∈ requests.zipIdx, e.1.path = path ∧ (graft e).isSome = true
  · obtain ⟨e, within, rfl, isSome⟩ := put
    obtain ⟨latest, -⟩ := (h.isSome_iff within).mp isSome
    obtain ⟨g, same⟩ := Option.isSome_iff_exists.mp isSome
    obtain ⟨rule, f, old', loaded, checked, read', found', chosen⟩ := h.graft_eq_some within same
    cases read.symm.trans read'
    cases found.symm.trans found'
    have stands := stand g (List.mem_filterMap.mpr ⟨e, within, same⟩)
    refine ⟨g.new, ⟨_, g.steps, ho, read, stands⟩, fun e' within' path' latest' rule' loaded' => ?_, fun none => ?_⟩
    · cases eq_of_last within within' latest latest' path'.symm
      cases loaded.symm.trans loaded'
      exact ⟨f, checked, chosen⟩
    · exact absurd loaded (none e within rfl latest rule)
  · refine ⟨old, ⟨_, steps, ho, read, ?_⟩, fun e within here latest rule loaded => ?_, fun _ => rfl⟩
    · rw [stays steps fun g among => ?_, found]
      obtain ⟨e, within, same⟩ := List.mem_filterMap.mp among
      obtain ⟨rule, f, old', -, -, read', found', chosen⟩ := h.graft_eq_some within same
      refine apart_of_paths h.opened (h.named e within) canonical read' read found' found chosen.target_old target ?_
      exact fun here => put ⟨e, within, here, Option.isSome_iff_exists.mpr ⟨g, same⟩⟩
    · exact absurd ⟨e, within, here, (h.isSome_iff within).mpr ⟨latest, rule, loaded⟩⟩ put

/-- When rules are selected for references at canonical paths of a well-typed rule, several of them at a time, the
rule and its warnings are the same in the end in whichever order the loads come to their ends. Only the last request
for a path tells that it was carried out, and only if its rule was loaded; the path then holds that rule, and
otherwise what it held before. Earlier loads may have been answered with any rules of the library, but for the checks
of versions, which remember their findings under the version that they ask for. -/
theorem selections_in_any_order (lib : Library) (catalogue : Catalogue) (settings : Settings) (id : String)
    (before : List Turn) {c : Conversation} (hc : c = (opening (.start catalogue settings id true)).run before)
    (hl : Throughout (Loads lib) (opening (.start catalogue settings id true)) before)
    (hm : Throughout Matches (opening (.start catalogue settings id true)) before)
    (hw : ∀ d, c.session.document = some d → d.definition.WellTyped) (requests : List Selection)
    (hn : ∀ r ∈ requests, c.session.Canonical r.path ∧ c.session.HoldsReference r.path)
    (hd : ∀ r ∈ requests, r.Drawn lib) :
    ∃ document warnings, ∀ order, order.Perm requests.zipIdx →
      (c.completing requests order).session.document = document ∧
        (c.completing requests order).session.warnings = warnings ∧
        (∀ path old, c.session.Canonical path → c.session.LeadsTo path old → old.target?.isSome →
          ∃ new, Settled requests (c.completing requests order).session path old new) ∧
        ∀ sofar e, sofar ++ [e] <+: order →
          ∃ applied, (c.completing requests sofar).outcome? (c.completion e) = some (.ok (.resolved applied)) ∧
            (applied = true ↔ Selection.Last requests e ∧ ∃ d, e.1.loaded = .ok d) := by
  have recalls : c.Recalls lib := hc ▸ (recalls_opening _ rfl).run hl hm
  have connected : c.session.connected = true := by
    rw [hc, connected_run]
    rfl
  cases opened : c.session.document with
  | none =>
      cases requests with
      | nil =>
          refine ⟨none, c.session.warnings, fun order perm => ?_⟩
          cases List.Perm.eq_nil perm
          refine ⟨opened, rfl, ?_, fun sofar e within => ?_⟩
          · rintro path old - ⟨d, steps, opened', -⟩
            cases opened.symm.trans opened'
          · simpa using within.length_le
      | cons r rest =>
          obtain ⟨node, ⟨d, steps, opened', -⟩, -⟩ := (hn r List.mem_cons_self).2
          cases opened.symm.trans opened'
  | some d =>
      obtain ⟨graft, planned⟩ := exists_planned connected opened (hw d opened) hn hd
      obtain ⟨tree, grafted, wellTree, stand, stays⟩ := planned.ready.all c.session.numeric
      obtain ⟨warnings, told⟩ := Document.warnings_eq_ok (d := { d with definition := tree }) wellTree.leftsDeclared
      -- the warnings are told anew with each graft, so without any they stay as they are
      refine ⟨some { d with definition := tree },
        if requests.zipIdx.filterMap graft = [] then c.session.warnings else warnings, fun order perm => ?_⟩
      obtain ⟨⟨_, ⟨_, all, rfl⟩, -, opened', kept, tells⟩, outcomes⟩ := (planned.completing recalls perm).run
      obtain ⟨-, ⟨tokens, journal, session⟩, -, -⟩ := requested connected requests
      have grafts := perm.filterMap graft
      have numeric : (c.requesting requests).session.numeric = c.session.numeric := by
        rw [session]
      rw [numeric, Graft.all_perm grafts (planned.ready.perm grafts.symm)] at all
      cases grafted.symm.trans all
      refine ⟨opened', ?_, fun path old => planned.settled opened' stand stays, fun sofar e within => ?_⟩
      · split
        · rename_i none
          rw [completing, kept (List.Perm.eq_nil (none ▸ grafts)), session]
        · rename_i some
          exact Except.ok.inj ((tells fun none => some (List.Perm.eq_nil (none ▸ grafts.symm))).symm.trans told)
      · have within' : e ∈ requests.zipIdx :=
          perm.mem_iff.mp (within.subset (List.mem_append_right sofar List.mem_cons_self))
        exact ⟨_, outcomes sofar e within, planned.isSome_iff within'⟩

/-- A sum of two references, neither with a rule selected. -/
def pricing : Document :=
  { total with
    definition := .chain (.text "number")
      [.reference (.unselected (.text "number") .null), .reference (.unselected (.text "number") .null)]
      [.text "+"] }

def priced : Conversation := serviced.run [.edit (.loadRule pricing)]

def picked : Summary := ⟨discount.id, discount.uuid, .null, discount.type, .null, .null⟩

/-- The rule is selected for both references, and then for the first one again, where it is not available any more. -/
def picks : List Selection :=
  [⟨"root-operand-0", picked, .ok discount⟩, ⟨"root-operand-1", picked, .ok discount⟩,
    ⟨"root-operand-0", picked, .error (.unavailable "Rule d-1 unavailable" discount.uuid .null)⟩]

/-- A path that is spelled from the root of the open rule names a reference if its steps lead to one. -/
theorem named_at {node : Node} (root : String) (steps : List Step) (ho : c.session.document = some d)
    (hr : d.definition.root = root) (he : Address.steps (Address.render root steps) = .ok steps)
    (hf : d.definition.find steps = .ok node) (ht : node.target?.isSome) :
    c.session.Canonical (Address.render root steps) ∧ c.session.HoldsReference (Address.render root steps) := by
  refine ⟨canonical_of_root root ?_ ⟨steps, rfl⟩, node, ⟨d, steps, ho, he, hf⟩, ht⟩
  rw [ho, Option.map_some, hr]

theorem priced_named : ∀ r ∈ picks, priced.session.Canonical r.path ∧ priced.session.HoldsReference r.path := by
  have first := named_at (c := priced) "root" [.operand 0] rfl rfl (by rfl) rfl rfl
  have second := named_at (c := priced) "root" [.operand 1] rfl rfl (by rfl) rfl rfl
  simp only [picks, List.forall_mem_cons]
  exact ⟨first, second, first, fun _ => nofun⟩

theorem wellTyped_of_references {r r' : Reference} (h : r.type.Textual) (h' : r'.type.Textual) :
    (Node.chain (.text "number") [.reference r, .reference r'] [.text "+"]).WellTyped := by
  have operand (r : Reference) : (Node.reference r).WellTyped := .intro trivial fun _ => nofun
  have typed {r : Reference} (h : r.type.Textual) : (Node.reference r).Typed := ⟨_, rfl, h⟩
  exact .intro
    ⟨trivial, List.forall_mem_cons.mpr ⟨typed h, List.forall_mem_singleton.mpr (typed h')⟩,
      List.forall_mem_singleton.mpr rfl⟩
    (List.forall_mem_cons.mpr ⟨operand _, List.forall_mem_singleton.mpr (operand _)⟩)

/-- A load is going to give a rule of the library that is a field. -/
theorem drawn_of_field {path : String} {summary : Summary} {d : Document} {type field : Value}
    (hu : summary.uuid.isKey = true) (ht : summary.type.Textual) (hk : lib.Keeps summary.uuid d)
    (hv : d.version.isKey = true) (hd : d.type.Textual) (hf : d.definition = .field type field) (hx : type.Textual) :
    Selection.Drawn lib ⟨path, summary, .ok d⟩ := by
  refine ⟨hu, ht, .inr ⟨d, rfl, hk, hv, hd, ?_, ?_⟩⟩
  · rw [hf]
    exact ⟨type, rfl, hx⟩
  · rw [hf]
    exact .intro trivial fun _ => nofun

theorem picks_drawn : ∀ r ∈ picks, r.Drawn discounts := by
  have drawn (path : String) : Selection.Drawn discounts ⟨path, picked, .ok discount⟩ :=
    drawn_of_field rfl trivial rfl rfl trivial rfl trivial
  simp only [picks, List.forall_mem_cons]
  exact ⟨drawn _, drawn _, ⟨rfl, trivial, .inl ⟨_, _, _, rfl⟩⟩, fun _ => nofun⟩

/-- Only the second reference is changed, in whichever order the loads come to their ends. -/
theorem picks_in_any_order :
    Throughout (Loads discounts) serviced [.edit (.loadRule pricing)] ∧
      Throughout Matches serviced [.edit (.loadRule pricing)] ∧
      (∀ d, priced.session.document = some d → d.definition.WellTyped) ∧
      (∀ r ∈ picks, priced.session.Canonical r.path ∧ priced.session.HoldsReference r.path) ∧
      (∀ r ∈ picks, r.Drawn discounts) ∧
      ∀ order, order.Perm picks.zipIdx →
        (priced.completing picks order).session.document = (priced.completing picks picks.zipIdx).session.document ∧
          (priced.completing picks order).session.warnings = (priced.completing picks picks.zipIdx).session.warnings ∧
          ∃ d r, (priced.completing picks order).session.document = some d ∧
            d.definition = .chain (.text "number") [.reference (.unselected (.text "number") .null), .reference r]
              [.text "+"] ∧
            r.id = discount.id ∧ r.type = .text "text" ∧ r.mismatch = some true := by
  have loads : Throughout (Loads discounts) serviced [.edit (.loadRule pricing)] := ⟨trivial, trivial⟩
  have fits : Throughout Matches serviced [.edit (.loadRule pricing)] := ⟨trivial, trivial⟩
  have well : ∀ d, priced.session.document = some d → d.definition.WellTyped := by
    rintro d ⟨⟩
    exact wellTyped_of_references trivial trivial
  obtain ⟨document, warnings, same⟩ :=
    selections_in_any_order (c := priced) discounts _ _ _ _ rfl loads fits well picks priced_named picks_drawn
  obtain ⟨first, told, -⟩ := same picks.zipIdx (.refl _)
  refine ⟨loads, fits, well, priced_named, picks_drawn, fun order perm => ?_⟩
  obtain ⟨document', warnings', -⟩ := same order perm
  refine ⟨document'.trans first.symm, warnings'.trans told.symm, ?_⟩
  rw [document'.trans first.symm]
  exact ⟨_, _, rfl, rfl, rfl, rfl, rfl⟩

/-! ### Orders that count -/

/-- The rule with its definition changed, so that it declares the type that it has. -/
def revised : Document := { discount with definition := .field (.text "text") (.text "DISCOUNT"), version := .int 3 }

def surcharge : Document := { discount with uuid := .text "s-1", version := .int 1, id := .text "SURCHARGE" }

def revisions : Library := .of [("d-1", 2, discount), ("d-1", 3, revised), ("s-1", 1, surcharge)]

/-- A sum of a reference to the rule before the change and of a reference without a rule. -/
def charging : Document :=
  { total with
    definition := .chain (.text "number")
      [.reference (.unchecked (.text "number") (.text "DISCOUNT") (.text "d-1") (.int 2) .null),
        .reference (.unselected (.text "number") .null)]
      [.text "+"] }

/-- Only one finding is remembered. -/
def forgetful : Conversation := opening (.start plain.catalogue { plain.settings with memoSize := 1 } "es" true)

/-- The check of the rule before the change is answered with the rule after it. -/
def mistaken : List Turn := [.edit (.loadRule charging), .start .refreshReferences, .answer 0 (.rule (.ok revised))]

/-- The rule before the change is selected again, and another rule. -/
def repicks : List Selection :=
  [⟨"root-operand-0", ⟨discount.id, discount.uuid, discount.version, discount.type, .null, .null⟩, .ok discount⟩,
    ⟨"root-operand-1", ⟨surcharge.id, surcharge.uuid, .null, surcharge.type, .null, .null⟩, .ok surcharge⟩]

/-- Two comparisons of a number with a reference. -/
def weighing : Document where
  form := .condition
  type := .text "boolean"
  definition := .group (.text "Main Condition")
    [.comparison (.text "Condition 1") (.field (.text "number") (.text "AGE")) (.text "equal")
        (.reference (.unselected (.text "number") .null)),
      .comparison (.text "Condition 2") (.field (.text "number") (.text "AGE")) (.text "equal")
        (.reference (.unselected (.text "number") .null))]
    .all false
  ruleType := .null
  uuid := .null
  version := .null
  id := .null
  description := .null

/-- The second comparison is left without an expression on its left side. -/
def misplaced : List Turn := [.edit (.loadRule weighing), .edit (.setExpression "root-condition-1-left" .absent)]

def weighed : List Selection :=
  [⟨"root-condition-0-right", picked, .ok discount⟩, ⟨"root-condition-1-right", picked, .ok discount⟩]

/-- Rules are selected for references at canonical paths, and the reverse order leaves other warnings. -/
structure SensitiveToOrder (lib : Library) (c : Conversation) (requests : List Selection) : Prop where
  named : ∀ r ∈ requests, c.session.Canonical r.path ∧ c.session.HoldsReference r.path
  drawn : ∀ r ∈ requests, r.Drawn lib
  differ : (c.completing requests requests.zipIdx).session.warnings ≠
    (c.completing requests requests.zipIdx.reverse).session.warnings

theorem repicks_sensitive : SensitiveToOrder revisions (forgetful.run mistaken) repicks where
  named := by
    simp only [repicks, List.forall_mem_cons]
    exact ⟨named_at "root" [.operand 0] rfl rfl (by rfl) rfl rfl, named_at "root" [.operand 1] rfl rfl (by rfl) rfl rfl,
      fun _ => nofun⟩
  drawn := by
    simp only [repicks, List.forall_mem_cons]
    exact ⟨drawn_of_field rfl trivial rfl rfl trivial rfl trivial,
      drawn_of_field rfl trivial rfl rfl trivial rfl trivial, fun _ => nofun⟩
  differ same := by
    -- the other rule is warned of in both orders
    have forgiven : ((forgetful.run mistaken).completing repicks repicks.zipIdx).session.warnings.length = 1 := by rfl
    have found : ((forgetful.run mistaken).completing repicks repicks.zipIdx.reverse).session.warnings.length = 2 := by
      rfl
    rw [same, found] at forgiven
    exact absurd forgiven (by decide)

theorem weighed_sensitive : SensitiveToOrder discounts (serviced.run misplaced) weighed where
  named := by
    simp only [weighed, List.forall_mem_cons]
    exact ⟨named_at "root" [.child 0, .right] rfl rfl (by rfl) rfl rfl,
      named_at "root" [.child 1, .right] rfl rfl (by rfl) rfl rfl, fun _ => nofun⟩
  drawn := by
    simp only [weighed, List.forall_mem_cons]
    exact ⟨drawn_of_field rfl trivial rfl rfl trivial rfl trivial,
      drawn_of_field rfl trivial rfl rfl trivial rfl trivial, fun _ => nofun⟩
  differ same := by
    have told : ((serviced.run misplaced).completing weighed weighed.zipIdx).session.warnings.length = 1 := by rfl
    have untold : ((serviced.run misplaced).completing weighed weighed.zipIdx.reverse).session.warnings.length = 0 := by
      rfl
    rw [same, untold] at told
    exact absurd told (by decide)

/-- A finding that came in place of another one is recalled for as long as it is remembered, and how long that is
depends on the order. And no warnings are told any more once the type of a left side has been asked for in vain. -/
theorem orders_differ :
    (Throughout (Loads revisions) forgetful mistaken ∧
      (∀ d, (forgetful.run mistaken).session.document = some d → d.definition.WellTyped) ∧
      SensitiveToOrder revisions (forgetful.run mistaken) repicks) ∧
    Throughout (Loads discounts) serviced misplaced ∧ Throughout Matches serviced misplaced ∧
      SensitiveToOrder discounts (serviced.run misplaced) weighed := by
  have loads : Throughout (Loads revisions) forgetful mistaken := by
    refine ⟨trivial, trivial, ?_, trivial⟩
    rintro uuid version next ⟨⟩
    rfl
  have well : ∀ d, (forgetful.run mistaken).session.document = some d → d.definition.WellTyped := by
    rintro d ⟨⟩
    exact wellTyped_of_references trivial trivial
  exact ⟨⟨loads, well, repicks_sensitive⟩, ⟨trivial, trivial, trivial⟩, ⟨trivial, trivial, trivial⟩, weighed_sensitive⟩

end Conversation

end RuleEditor
