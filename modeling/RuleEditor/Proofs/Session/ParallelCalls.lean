import RuleEditor.Proofs.Session.Respelled
import RuleEditor.Session.Conversation

/-!
# Calls under other spellings

A call for the reference at a path waits with the text of the path and with a token, and a check of all references with
a token for each of them. Under two spellings of the path the calls ask the same questions; whether a call is current
when it is answered is all that the text and the tokens decide then.
-/
namespace RuleEditor

open Session Editing

namespace Refresh

/-- The request that the check has made for a path. -/
def ticket (r : Refresh) (path : String) : Ticket := ⟨path, (r.tokens.get? path).getD 0, r.epoch⟩

/-- The paths of the references that are checked. -/
def paths (r : Refresh) : List String := r.checked.map (·.1) ++ r.remaining.map (·.1)

/-- Two checks of the same references that have come equally far. -/
structure Alike (r r' : Refresh) : Prop where
  remaining : r'.remaining = r.remaining
  checked : r'.checked = r.checked
  epoch : r'.epoch = r.epoch

theorem Alike.paths {r r' : Refresh} (alike : r.Alike r') : r'.paths = r.paths := by
  rw [Refresh.paths, alike.checked, alike.remaining, Refresh.paths]

theorem Alike.forall₂_tickets {r r' : Refresh} {related : Ticket → Ticket → Prop} (alike : r.Alike r') :
    List.Forall₂ related (r.paths.map r.ticket) (r'.paths.map r'.ticket) ↔
      ∀ path ∈ r.paths, related (r.ticket path) (r'.ticket path) := by
  rw [alike.paths, List.forall₂_map_left_iff, List.forall₂_map_right_iff, List.forall₂_same]

end Refresh

namespace Progress

/-- The requests that a call waits with. -/
def tickets : Progress → List Ticket
  | .loading _ _ (.resolving path _ token epoch) => [⟨path, token, epoch⟩]
  | .loading _ _ (.refreshing r _) => r.paths.map r.ticket
  | _ => []

/-- The same question, after which the calls go on alike. They differ in the spelling of a path and in tokens. -/
inductive Alike : Progress → Progress → Prop where
  | same {p : Progress} : p.tickets = [] → Alike p p
  | resolving {uuid version : Value} {path path' : String} {summary : Summary} {token token' epoch : Nat} :
      Address.steps path' = Address.steps path →
      Alike (.loading uuid version (.resolving path summary token epoch))
        (.loading uuid version (.resolving path' summary token' epoch))
  | refreshing {uuid version : Value} {r r' : Refresh} {opening : Bool} : r.Alike r' →
      Alike (.loading uuid version (.refreshing r opening)) (.loading uuid version (.refreshing r' opening))

/-- Alike, and the requests that the calls wait with are for paths of which the texts belong together, and are current
in both sessions or in neither. References that are going to be checked have the same paths. -/
structure Level (texts : String → String → Prop) (s s' : Session) (p p' : Progress) : Prop where
  alike : p.Alike p'
  tickets : List.Forall₂ (fun t t' => texts t.path t'.path ∧ t.Level s s' t') p.tickets p'.tickets
  opening : ∀ uuid version, p = .loading uuid version .opening → ∀ path, texts path path

theorem Level.mono {texts texts' : String → String → Prop} {s s' : Session} {p p' : Progress}
    (h : Level texts s s' p p') (hw : ∀ path path', texts path path' → texts' path path') :
    Level texts' s s' p p' where
  alike := h.alike
  tickets := h.tickets.imp fun _ _ t => ⟨hw _ _ t.1, t.2⟩
  opening uuid version is path := hw _ _ (h.opening uuid version is path)

end Progress

namespace Session

variable {b b' : Bond} {s s' : Session} {t t' : Ticket} {path path' : String}

/-- The session with a token for a path, which stays the same if there is one. -/
def tokened (path : String) (s : Session) : Session := if (s.tokens.get? path).isSome then s else s.issued path

theorem tokened_keeps {other : String} {token : Nat} (has : s.tokens.get? other = some token) :
    (s.tokened path).tokens.get? other = some token := by
  unfold tokened
  split
  · exact has
  · rename_i none
    refine (Members.get?_set_of_ne (fun same => none ?_) _ _).trans has
    rw [← same, has]
    rfl

/-- A first token for a path makes no request stale. -/
theorem current_first (hn : s.tokens.get? path = none) (hk : t.token ≤ s.generation) :
    t.Current (s.issued path) ↔ t.Current s := by
  rw [current_issued hk]
  refine and_iff_left_of_imp fun current => beq_eq_false_iff_ne.mpr fun same => ?_
  have has := (isCurrent_iff.mp current).2
  rw [same, hn] at has
  cases has

namespace Twin

theorem tokened_left (twin : Twin b s s') (path : String) : Twin b (s.tokened path) s' := by
  unfold Session.tokened
  split
  · exact twin
  · rename_i none
    refine { twin with booked := twin.booked.issued path, level := fun t t' kept => ?_ }
    have level := twin.level t t' kept
    refine ⟨Nat.le_succ_of_le level.token, level.token', level.epoch, level.epoch', ?_⟩
    rw [current_first (Option.not_isSome_iff_eq_none.mp none) level.token, level.current]

theorem tokened_right (twin : Twin b s s') (path : String) : Twin b s (s'.tokened path) := by
  unfold Session.tokened
  split
  · exact twin
  · rename_i none
    refine { twin with booked' := twin.booked'.issued path, level := fun t t' kept => ?_ }
    have level := twin.level t t' kept
    refine ⟨level.token, Nat.le_succ_of_le level.token', level.epoch, level.epoch', ?_⟩
    rw [current_first (Option.not_isSome_iff_eq_none.mp none) level.token', level.current]

theorem tokenedAll (twin : Twin b s s') (paths : List String) :
    Twin b (paths.foldl (fun s path => s.tokened path) s) (paths.foldl (fun s path => s.tokened path) s') := by
  induction paths generalizing s s' with
  | nil => exact twin
  | cons path rest ih => exact ih ((twin.tokened_left path).tokened_right path)

/-- Fewer requests and labels are easier to keep. -/
theorem weaken (twin : Twin b' s s') (hk : ∀ t t', b.kept t t' → b'.kept t t') (hc : b.counted = b'.counted) :
    Twin b s s' := by
  refine twin.rebind (fun t t' known => twin.level t t' (hk t t' known)) fun word parent parent' known => ?_
  exact twin.counts word parent parent' (hc ▸ known)

end Twin

end Session

namespace Editing

variable {α : Type} {b : Bond} {texts : String → String → Prop} {s s' : Session} {path path' : String}

/-- Two calls end alike or go on with the same question. -/
def Proceeds (b : Bond) (texts : String → String → Prop) (op op' : Editing Progress) (s s' : Session) : Prop :=
  Paired b op op' s s' fun p p' t t' => Progress.Level texts t t' p p' ∧ Twin b t t'

theorem Proceeds.twin {op op' : Editing Progress} (h : Proceeds b texts op op' s s') :
    Twin b (op.run s).2 (op'.run s').2 := Paired.twin h fun _ _ _ _ good => good.2

theorem proceeds_pure {p : Progress} (twin : Twin b s s') (hf : p.tickets = [])
    (ho : ∀ uuid version, p = .loading uuid version .opening → ∀ path, texts path path) :
    Proceeds b texts (pure p) (pure p) s s' := by
  refine ⟨⟨.same hf, ?_, ho⟩, twin⟩
  rw [hf]
  exact .nil

theorem paired_ends {β : Type} {op op' : Editing α} {f f' : α → Editing β} {Q Q' : α → Session → Prop}
    {R : β → β → Session → Session → Prop} (ends : Ends op s Q fun _ _ => False)
    (ends' : Ends op' s' Q' fun _ _ => False)
    (hn : ∀ a a' t t', Q a t → Q' a' t' → Paired b (f a) (f' a') t t' R) :
    Paired b (op >>= f) (op' >>= f') s s' R := by
  refine Paired.bind ?_
  cases result : (op.run s).1 with
  | error fault => exact (ends.error result).elim
  | ok a =>
      cases result' : (op'.run s').1 with
      | error fault => exact (ends'.error result').elim
      | ok a' => exact paired_ok result result' (hn a a' _ _ (ends.ok result) (ends'.ok result'))

/-! ### Searching, storing and opening -/

theorem parallel_requireService : Parallel b requireService requireService := by
  intro s s' twin
  unfold requireService
  refine paired_get ?_
  rw [twin.connected]
  split
  · exact parallel_pure _ s s' twin
  · exact ⟨.same _, twin⟩

theorem parallel_referenceTypes : Parallel b referenceTypes referenceTypes := by
  intro s s' twin
  unfold referenceTypes
  refine paired_get ?_
  rw [twin.catalogue, twin.settings]
  split
  · exact parallel_pure _ s s' twin
  · split
    · exact parallel_pure _ s s' twin
    · exact (parallel_note _ _).bind twin fun _ t t' twin => parallel_pure _ t t' twin

theorem proceeds_searchReferences (query : Value) (twin : Twin b s s') :
    Proceeds b texts (searchReferences query) (searchReferences query) s s' := by
  unfold searchReferences
  refine parallel_referenceTypes.bind twin fun types t t' twin => ?_
  split
  · exact proceeds_pure twin rfl nofun
  · exact parallel_requireService.bind twin fun _ t t' twin => proceeds_pure twin rfl nofun

theorem proceeds_found (answer : Except Fault (List Summary)) (twin : Twin b s s') :
    Proceeds b texts (found answer) (found answer) s s' := by
  unfold found
  split
  · exact proceeds_pure twin rfl nofun
  · exact (parallel_note _ _).bind twin fun _ t t' twin => proceeds_pure twin rfl nofun
  · exact ⟨.same _, twin⟩

theorem proceeds_openRule (h : ∀ path, texts path path) (uuid version : Value) (twin : Twin b s s') :
    Proceeds b texts (openRule uuid version) (openRule uuid version) s s' := by
  unfold openRule
  exact parallel_requireService.bind twin fun _ t t' twin => proceeds_pure twin rfl fun _ _ _ => h

theorem proceeds_save (twin : Twin b s s') : Proceeds b texts save save s s' := by
  unfold save
  refine paired_definition twin fun d opened => paired_lift twin fun _ formed => ?_
  exact paired_openDocument twin fun d opened => proceeds_pure twin rfl nofun

theorem proceeds_restore (version : Int) (twin : Twin b s s') :
    Proceeds b texts (restore version) (restore version) s s' := by
  unfold restore
  refine paired_get ?_
  rw [twin.document]
  split
  · split
    · exact proceeds_pure twin rfl nofun
    · exact ⟨.same _, twin⟩
  · exact ⟨.same _, twin⟩

theorem proceeds_written (next : AfterWrite) (answer : Except Fault Saved) (twin : Twin b s s') :
    Proceeds b texts (written next answer) (written next answer) s s' := by
  unfold written
  refine paired_lift twin fun saved answered => ?_
  split
  · refine paired_openDocument twin fun d opened => ?_
    refine Parallel.bind (parallel_modify fun _ _ twin => ?_) twin fun _ t t' twin => ?_
    · exact { twin with document := rfl, isNew := rfl, level := twin.level_elsewhere rfl rfl rfl rfl rfl rfl }
    · exact (parallel_noteHere _ _).bind twin fun _ t t' twin => proceeds_pure twin rfl nofun
  · exact (parallel_noteHere _ _).bind twin fun _ t t' twin => proceeds_pure twin rfl nofun

theorem proceeds_reread (saved : Saved) (answer : Except Fault Document) (twin : Twin b s s') :
    Proceeds b texts (reread saved answer) (reread saved answer) s s' := by
  unfold reread
  refine paired_lift twin fun d answered => ?_
  exact (parallel_loadRule d).bind twin fun _ t t' twin => proceeds_pure twin rfl nofun

/-! ### References -/

theorem proceeds_resolveReference (hs : Address.steps path' = Address.steps path) (h : texts path path')
    (ha : b.Agrees (.only path) (.only path')) (summary : Summary) (twin : Twin b s s') :
    Proceeds b texts (resolveReference path summary) (resolveReference path' summary) s s' := by
  unfold resolveReference
  refine parallel_requireService.bind twin fun _ s s' twin => paired_issueToken twin ha fun twin => ?_
  refine paired_modify (paired_get ?_)
  have epoch : (s'.issued path').epoch = (s.issued path).epoch := twin.epoch
  have current (path : String) (s : Session) (events : List Event) : Ticket.Current
      ⟨path, s.generation + 1, (s.issued path).epoch⟩ { s.issued path with journal := events } :=
    isCurrent_iff.mpr ⟨rfl, Members.get?_set_self _ _ _⟩
  show Progress.Level _ _ _ _ _ ∧ _
  refine ⟨⟨epoch ▸ .resolving hs, List.forall₂_cons.mpr ⟨⟨h, ?_⟩, .nil⟩, nofun⟩, twin.noted _ _⟩
  exact ⟨Nat.le_refl _, Nat.le_refl _, Nat.le_refl _, Nat.le_refl _, iff_of_true (current _ _ _) (current _ _ _)⟩

theorem parallel_review {report report' : Event → Editing Unit} (h : ∀ e, Parallel b (report e) (report' e))
    (uuid version : Value) (d : Document) :
    Parallel b (review report uuid version d) (review report' uuid version d) := by
  have told (events : List Event) : Parallel b (events.forM report) (events.forM report') := by
    induction events with
    | nil => exact parallel_pure _
    | cons e rest ih => exact (h e).then fun _ => ih
  intro s s' twin
  unfold review
  refine paired_get ?_
  rw [twin.memo]
  refine paired_lift twin fun reviewed found => ?_
  refine Parallel.bind (parallel_modify fun _ _ twin => ?_) twin fun _ t t' twin => ?_
  · exact { twin with memo := rfl, level := twin.level_elsewhere rfl rfl rfl rfl rfl rfl }
  · exact (told _).bind twin fun _ t t' twin => parallel_pure _ t t' twin

theorem atPath?_respelled (h : Address.steps path' = Address.steps path) (tree : Node) :
    tree.atPath? path' = tree.atPath? path := by
  unfold Node.atPath?
  rw [atPath_respelled h]

theorem parallel_applyReference (h : Address.steps path' = Address.steps path) (target : Reference) :
    Parallel b (applyReference path target) (applyReference path' target) := by
  intro s s' twin
  unfold applyReference
  refine paired_definition twin fun d opened => ?_
  rw [atPath?_respelled h]
  refine paired_lift twin fun node there => ?_
  split
  · obtain ⟨steps, read, -⟩ := Node.atPath?_eq_some there
    unfold Node.selectRule
    rw [Label.afterChange_respelled read (h.trans read)]
    refine paired_lift twin fun new made => (parallel_put h new).bind twin fun _ t t' twin => ?_
    exact parallel_pure _ t t' twin
  · exact (parallel_putExpression h _).bind twin fun _ t t' twin => parallel_pure _ t t' twin
  · exact parallel_pure _ s s' twin

/-- Whether the rule that was loaded is put in place depends on whether the request is current. -/
theorem parallel_resolved {token token' epoch epoch' : Nat} (hs : Address.steps path' = Address.steps path)
    (kept : b.kept ⟨path, token, epoch⟩ ⟨path', token', epoch'⟩) (summary : Summary) (answer : Except Fault Document) :
    Parallel b (resolved path summary token epoch answer) (resolved path' summary token' epoch' answer) := by
  have discards (e e' : Event) : Parallel b (do noteHere e; return false) (do noteHere e'; return false) :=
    (parallel_noteHere e e').then fun _ => parallel_pure _
  intro s s' twin
  unfold resolved
  split
  · exact discards _ _ s s' twin
  · exact ⟨.same _, twin⟩
  · refine paired_get ?_
    have current : s'.isCurrent path' token' epoch' = s.isCurrent path token epoch :=
      Bool.eq_iff_iff.mpr (twin.level _ _ kept).current.symm
    rw [current]
    split
    · refine (parallel_review (fun e => parallel_noteHere e e) _ _ _).bind twin fun f t t' twin => ?_
      refine (parallel_applyReference hs _).bind twin fun applied t t' twin => ?_
      split
      · exact (parallel_noteHere _ _).bind twin fun _ t t' twin => parallel_pure _ t t' twin
      · exact discards _ _ t t' twin
    · exact discards _ _ s s' twin

/-! ### Checks of all references -/

theorem parallel_writeFinding {r r' : Refresh} (kept : b.kept (r.ticket path) (r'.ticket path)) (target : Reference)
    (f : Finding) (tree : Node) :
    Parallel b (writeFinding r path target f tree) (writeFinding r' path target f tree) := by
  intro s s' twin
  unfold writeFinding
  refine paired_get ?_
  have current : s'.isCurrent path ((r'.tokens.get? path).getD 0) r'.epoch =
      s.isCurrent path ((r.tokens.get? path).getD 0) r.epoch :=
    Bool.eq_iff_iff.mpr (twin.level _ _ kept).current.symm
  rw [current]
  split
  · exact (parallel_note _ _).bind twin fun _ t t' twin => parallel_pure _ t t' twin
  · refine paired_lift twin fun written known => ?_
    split
    · exact parallel_pure _ s s' twin
    · exact (parallel_note _ _).bind twin fun _ t t' twin => parallel_pure _ t t' twin

theorem parallel_writeFindings {r r' : Refresh} {checks : List (String × Reference × Finding)}
    (h : ∀ check ∈ checks, b.kept (r.ticket check.1) (r'.ticket check.1)) (tree : Node) :
    Parallel b (writeFindings r checks tree) (writeFindings r' checks tree) := by
  induction checks generalizing tree with
  | nil => exact parallel_pure _
  | cons check rest ih =>
      obtain ⟨here, below⟩ := List.forall_mem_cons.mp h
      unfold writeFindings
      refine (parallel_writeFinding here _ _ _).then fun written => ?_
      split
      · exact (ih below _).then fun _ => parallel_pure _
      · exact ih below _

theorem parallel_finishRefresh {r r' : Refresh} (alike : r.Alike r')
    (hk : ∀ path ∈ r.paths, b.kept (r.ticket path) (r'.ticket path)) :
    Parallel b (finishRefresh r) (finishRefresh r') := by
  intro s s' twin
  unfold finishRefresh
  rw [alike.checked]
  refine paired_definition twin fun d opened => ?_
  refine (parallel_writeFindings (fun check within => hk _ ?_) _).bind twin fun out t t' twin => ?_
  · exact List.mem_append_left _ (List.mem_map_of_mem within)
  · show Paired b (if 0 < out.2 then _ else _) (if 0 < out.2 then _ else _) t t' _
    split
    · exact (parallel_commit _).bind twin fun _ t t' twin => parallel_pure _ t t' twin
    · exact parallel_pure _ t t' twin

theorem proceeds_advance {r r' : Refresh} {opening : Bool} {rest : List (String × Reference)} (alike : r.Alike r')
    (hk : ∀ path ∈ ({ r with remaining := rest } : Refresh).paths,
      texts path path ∧ b.kept (r.ticket path) (r'.ticket path))
    (twin : Twin b s s') : Proceeds b texts (advance opening r rest) (advance opening r' rest) s s' := by
  induction rest generalizing r r' with
  | nil =>
      unfold advance
      have finish : Parallel b (finishRefresh { r with remaining := [] }) (finishRefresh { r' with remaining := [] }) :=
        parallel_finishRefresh ⟨rfl, alike.checked, alike.epoch⟩ fun path within => (hk path within).2
      refine finish.bind twin fun count t t' twin => ?_
      refine proceeds_pure twin ?_ ?_
      · cases opening <;> rfl
      · cases opening <;> nofun
  | cons reference rest ih =>
      obtain ⟨path, target⟩ := reference
      unfold advance
      refine paired_get ?_
      rw [twin.memo]
      refine paired_lift twin fun found known => ?_
      split
      · rename_i f
        refine ih ⟨alike.remaining, by rw [alike.checked], alike.epoch⟩ fun place within => hk place ?_
        simpa [Refresh.paths] using within
      · refine parallel_requireService.bind twin fun _ t t' twin => ?_
        have asked : ({ r with remaining := (path, target) :: rest } : Refresh).Alike
            { r' with remaining := (path, target) :: rest } := ⟨rfl, alike.checked, alike.epoch⟩
        refine ⟨⟨.refreshing asked, asked.forall₂_tickets.mpr fun place within => ?_, nofun⟩, twin⟩
        exact ⟨(hk place within).1, twin.level _ _ (hk place within).2⟩

theorem proceeds_refreshed {r r' : Refresh} (opening : Bool) (alike : r.Alike r')
    (hk : ∀ path ∈ r.paths, texts path path ∧ b.kept (r.ticket path) (r'.ticket path))
    (answer : Except Fault Document) (twin : Twin b s s') :
    Proceeds b texts (refreshed opening r answer) (refreshed opening r' answer) s s' := by
  have same := alike.remaining
  unfold refreshed
  rw [same]
  split
  · rename_i none
    refine proceeds_advance alike (fun path within => hk path ?_) twin
    simpa [Refresh.paths, none] using within
  · rename_i path target rest d remaining
    refine (parallel_review (fun e => parallel_note e e) _ _ _).bind twin fun f t t' twin => ?_
    refine proceeds_advance ⟨rfl, by rw [alike.checked], alike.epoch⟩ (fun place within => hk place ?_) twin
    simpa [Refresh.paths, remaining] using within
  · rename_i path target rest _ _ _ remaining
    refine (parallel_note _ _).bind twin fun _ t t' twin => ?_
    refine proceeds_advance alike (fun place within => hk place ?_) twin
    refine List.mem_append.mpr ((List.mem_append.mp within).imp_right fun later => ?_)
    rw [remaining]
    exact List.mem_cons_of_mem _ later
  · exact ⟨.same _, twin⟩

theorem ends_currentToken (path : String) (s : Session) :
    Ends (currentToken path) s (fun token t => t = s.tokened path ∧ t.tokens.get? path = some token)
      fun _ _ => False := by
  unfold currentToken
  refine bind_get ?_
  unfold Session.tokened
  cases has : s.tokens.get? path with
  | some token => exact ⟨rfl, has⟩
  | none => exact ⟨rfl, Members.get?_set_self _ _ _⟩

theorem tokens_keep {token : Nat} (has : s.tokens.get? path = some token) (paths : List String) :
    (paths.foldl (fun s path => s.tokened path) s).tokens.get? path = some token := by
  induction paths generalizing s with
  | nil => exact has
  | cons first rest ih => exact ih (tokened_keeps has)

/-- Every path gets a token, and none is superseded by one for another path. -/
theorem ends_tokensOf (paths : List String) (s : Session) :
    Ends (tokensOf paths) s (fun tokens t => t = paths.foldl (fun s path => s.tokened path) s ∧
      ∀ path ∈ paths, ∃ token, tokens.get? path = some token ∧ t.tokens.get? path = some token) fun _ _ => False := by
  induction paths generalizing s with
  | nil => exact ⟨rfl, nofun⟩
  | cons path rest ih =>
      unfold tokensOf
      refine ends_bind ((ends_currentToken path s).mono ?_ fun _ _ absurd => absurd)
      rintro token _ ⟨rfl, has⟩
      refine ends_bind ((ih (s.tokened path)).mono ?_ fun _ _ absurd => absurd)
      rintro tokens t ⟨rfl, found⟩
      refine ⟨rfl, fun place within => ?_⟩
      by_cases here : path = place
      · subst here
        exact ⟨token, by rw [Members.get?, if_pos rfl], tokens_keep has rest⟩
      · rw [Members.get?, if_neg here]
        exact found place ((List.mem_cons.mp within).resolve_left (Ne.symm here))

/-- What is level in a session can be kept from then on. -/
theorem Proceeds.forget {b' : Bond} {op op' : Editing Progress} (h : Proceeds b' texts op op' s s')
    (hk : ∀ t t', b.kept t t' → b'.kept t t') (hc : b.counted = b'.counted) :
    Proceeds b texts op op' s s' := by
  unfold Proceeds Paired at h ⊢
  cases result : (op.run s).1 <;> cases result' : (op'.run s').1 <;> simp only [result, result'] at h ⊢
  · exact ⟨h.1, h.2.weaken hk hc⟩
  · exact ⟨h.1, h.2.weaken hk hc⟩

/-- All requests of a check are current when it starts. -/
theorem proceeds_refresh (h : ∀ path, texts path path) (opening : Bool) (twin : Twin b s s') :
    Proceeds b texts (refresh opening) (refresh opening) s s' := by
  unfold refresh
  refine paired_definition twin fun d opened => ?_
  refine paired_ends (ends_tokensOf _ s) (ends_tokensOf _ s') fun tokens tokens' t t' => ?_
  rintro ⟨rfl, found⟩ ⟨rfl, found'⟩
  have twin := twin.tokenedAll (d.definition.selectedReferences.map (·.1))
  generalize (d.definition.selectedReferences.map (·.1)).foldl (fun s path => s.tokened path) s = t at *
  generalize (d.definition.selectedReferences.map (·.1)).foldl (fun s path => s.tokened path) s' = t' at *
  refine paired_get ?_
  let r : Refresh := ⟨d.definition.selectedReferences, tokens, t.epoch, []⟩
  let r' : Refresh := ⟨d.definition.selectedReferences, tokens', t'.epoch, []⟩
  let b' : Bond :=
    b.keeping fun q q' => b.kept q q' ∨ ∃ path ∈ r.paths, q = r.ticket path ∧ q' = r'.ticket path
  have current {tokens : Members Nat} {t : Session} {path : String} (booked : t.Booked)
      (found : ∃ token, tokens.get? path = some token ∧ t.tokens.get? path = some token) :
      ((tokens.get? path).getD 0 ≤ t.generation) ∧
        Ticket.Current ⟨path, (tokens.get? path).getD 0, t.epoch⟩ t := by
    obtain ⟨token, listed, has⟩ := found
    rw [listed]
    exact ⟨booked _ (Members.mem_of_get? has), isCurrent_iff.mpr ⟨rfl, has⟩⟩
  have twins : Twin b' t t' :=
    { twin with
      level := by
        rintro q q' (kept | ⟨path, within, rfl, rfl⟩)
        · exact twin.level q q' kept
        · have first := current twin.booked (found path within)
          have second := current twin.booked' (found' path within)
          exact ⟨first.1, second.1, Nat.le_refl _, Nat.le_refl _, iff_of_true first.2 second.2⟩ }
  have advances : Proceeds b' texts (advance opening r d.definition.selectedReferences)
      (advance opening r' d.definition.selectedReferences) t t' :=
    proceeds_advance ⟨rfl, rfl, twin.epoch⟩ (fun path within => ⟨h path, .inr ⟨path, within, rfl, rfl⟩⟩) twins
  exact advances.forget (fun _ _ => .inl) rfl

/-! ### Answers -/

theorem proceeds_opened (h : ∀ path, texts path path) (answer : Except Fault Document) (twin : Twin b s s') :
    Proceeds b texts (loaded .opening answer) (loaded .opening answer) s s' := by
  unfold loaded
  refine paired_lift twin fun d answered => ?_
  exact (parallel_loadRule d).bind twin fun _ t t' twin => proceeds_refresh h true twin

end Editing

namespace Progress

variable {b : Bond} {texts : String → String → Prop} {s s' : Session} {p p' : Progress} {a : Answer}

/-- A call that waits without requests goes on with the same answer as in the other session. -/
theorem proceeds_resumed {op : Editing Progress} (hf : p.tickets = [])
    (ho : ∀ uuid version, p = .loading uuid version .opening → ∀ path, texts path path)
    (hr : p.resume a = some op) (twin : Twin b s s') : Proceeds b texts op op s s' := by
  cases p with
  | finished => cases hr
  | loading uuid version next =>
      cases a with
      | rule answer =>
          cases hr
          cases next with
          | opening => exact proceeds_opened (ho _ _ rfl) answer twin
          | resolving => cases hf
          | refreshing r opening =>
              have none : r.paths = [] := List.map_eq_nil_iff.mp hf
              refine proceeds_refreshed opening ⟨rfl, rfl, rfl⟩ (fun path within => ?_) answer twin
              rw [none] at within
              cases within
      | _ => cases hr
  | searching =>
      cases a with
      | rules answer =>
          cases hr
          exact proceeds_found answer twin
      | _ => cases hr
  | writing write next =>
      cases a with
      | version answer =>
          cases hr
          exact proceeds_written next answer twin
      | _ => cases hr
  | reading uuid version saved =>
      cases a with
      | rule answer =>
          cases hr
          exact proceeds_reread saved answer twin
      | _ => cases hr

/-- A call goes on alike with the same answer, if its requests are current in both sessions or in neither. -/
theorem Alike.resume (alike : p.Alike p')
    (hk : List.Forall₂ (fun t t' => texts t.path t'.path ∧ b.kept t t') p.tickets p'.tickets)
    (ho : ∀ uuid version, p = .loading uuid version .opening → ∀ path, texts path path) (twin : Twin b s s')
    (a : Answer) : Option.Rel (fun op op' => Proceeds b texts op op' s s') (p.resume a) (p'.resume a) := by
  cases alike with
  | same free =>
      cases resumed : p.resume a with
      | none => exact .none
      | some op => exact .some (proceeds_resumed free ho resumed twin)
  | resolving same =>
      cases a with
      | rule answer =>
          obtain ⟨hk, -⟩ := List.forall₂_cons.mp hk
          refine .some ((parallel_resolved same hk.2 _ answer).bind twin fun applied t t' twin => ?_)
          exact proceeds_pure twin rfl nofun
      | _ => exact .none
  | refreshing alike =>
      cases a with
      | rule answer =>
          refine .some (proceeds_refreshed _ alike (fun path within => ?_) answer twin)
          exact alike.forall₂_tickets.mp hk path within
      | _ => exact .none

end Progress

namespace Errand

variable {b : Bond} {texts : String → String → Prop} {s s' : Session} {spelling : String → String}

/-- The errand with its path spelled in another way. -/
def spelled (spelling : String → String) : Errand → Errand
  | .resolveReference path summary => .resolveReference (spelling path) summary
  | errand => errand

/-- The requests that an errand makes stale, by the texts of their paths. -/
def marks : Errand → List Mark
  | .resolveReference path _ => [.only path]
  | _ => []

/-- The requests that an errand may make belong together, by the texts of their paths: those for the path that it
names, and those for the paths of references that it finds in a rule. -/
inductive Asks : Errand → Errand → String → String → Prop where
  | named {path path' : String} {summary summary' : Summary} :
      Asks (.resolveReference path summary) (.resolveReference path' summary') path path'
  | opened {uuid version : Value} {errand' : Errand} {path : String} : Asks (.openRule uuid version) errand' path path
  | checked {errand' : Errand} {path : String} : Asks .refreshReferences errand' path path

/-- An errand asks the same under two spellings of its path. -/
theorem proceeds (errand : Errand) (hs : ∀ path, Address.steps (spelling path) = Address.steps path)
    (hm : List.Forall₂ b.Agrees errand.marks (errand.spelled spelling).marks)
    (ha : ∀ path path', errand.Asks (errand.spelled spelling) path path' → texts path path') (twin : Twin b s s') :
    Proceeds b texts errand.start (errand.spelled spelling).start s s' := by
  cases errand with
  | openRule uuid version => exact proceeds_openRule (fun _ => ha _ _ .opened) uuid version twin
  | searchReferences query => exact proceeds_searchReferences query twin
  | resolveReference path summary =>
      exact proceeds_resolveReference (hs path) (ha _ _ .named) (List.forall₂_cons.mp hm).1 summary twin
  | refreshReferences => exact proceeds_refresh (fun _ => ha _ _ .checked) false twin
  | save => exact proceeds_save twin
  | restore version => exact proceeds_restore version twin

end Errand

end RuleEditor
