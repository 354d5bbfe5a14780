import Mathlib
import RuleEditor.Proofs.Address.Canonical
import RuleEditor.Proofs.Service.Pages

/-!
# Searching for rules

A search asks for the pages of one type of rules after the other. Whatever the service answers, it stops after a
bounded number of requests: with the first summary of each rule on the pages, with the report of the request that
brought none, or at a query that does not fit into a URL. Where the service serves a bounded number of pages for each
type, the search asks for every page once.
-/
namespace RuleEditor

/-! ### Each rule once -/

namespace Summary

/-- Some summary has the uuid of another one. -/
def isAmong (s : Summary) (served : List Summary) : Bool := served.any (·.uuid.same s.uuid)

/-- The summaries in front of which no other has their uuid: the first one of each rule. -/
def firsts (served : List Summary) : List Summary :=
  (served.zipIdx.filter fun p => !p.1.isAmong (served.take p.2)).map (·.1)

variable {s : Summary} {seen served : List Summary}

theorem isAmong_iff (hs : s.Named) (hn : ∀ t ∈ served, t.Named) :
    s.isAmong served ↔ s.uuid ∈ served.map (·.uuid) := by
  rw [isAmong, List.any_eq_true, List.mem_map]
  refine exists_congr fun t => and_congr_right fun within => ?_
  obtain ⟨u, known⟩ := hs
  obtain ⟨v, also⟩ := hn t within
  rw [known, also, Value.text.injEq, Value.same, beq_iff_eq]

theorem distinct_cons (seen rest : List Summary) (s : Summary) :
    distinct seen (s :: rest) = if s.isAmong seen then distinct seen rest else s :: distinct (s :: seen) rest := by
  rw [distinct, isAmong, List.any_map]
  rfl

theorem isAmong_append (s : Summary) (front rest : List Summary) :
    s.isAmong (front ++ rest) = (s.isAmong front || s.isAmong rest) := List.any_append

/-- One more summary of a rule that was seen before makes no difference. -/
theorem isAmong_insert {s t : Summary} (hs : s.Named) (ht : t.Named) (hn : ∀ x ∈ seen, x.Named)
    (hk : s.isAmong seen) (rest : List Summary) : t.isAmong (seen ++ s :: rest) = t.isAmong (seen ++ rest) := by
  have cons : t.isAmong (s :: rest) = (s.uuid.same t.uuid || t.isAmong rest) := List.any_cons
  rw [isAmong_append, isAmong_append, cons]
  cases same : s.uuid.same t.uuid with
  | false => rw [Bool.false_or]
  | true =>
      obtain ⟨u, hu⟩ := hs
      obtain ⟨v, hv⟩ := ht
      have equal : s.uuid = t.uuid := by
        rw [hu, hv, Value.same, beq_iff_eq] at same
        rw [hu, hv, same]
      have already : t.isAmong seen := by
        rw [isAmong_iff ⟨u, hu⟩ hn] at hk
        rw [isAmong_iff ⟨v, hv⟩ hn, ← equal]
        exact hk
      rw [already, Bool.true_or, Bool.true_or]

theorem filter_later (seen rest : List Summary) (s : Summary) :
    (((rest.zipIdx 1).filter fun p => !p.1.isAmong (seen ++ (s :: rest).take p.2)).map (·.1)) =
      (rest.zipIdx.filter fun p => !p.1.isAmong (seen ++ s :: rest.take p.2)).map (·.1) := by
  rw [List.zipIdx_succ, List.filter_map, List.map_map]
  rfl

/-- A summary is kept if it is neither among those seen before nor among those in front of it. -/
theorem distinct_eq (hb : ∀ s ∈ seen, s.Named) (hn : ∀ s ∈ served, s.Named) :
    distinct seen served =
      (served.zipIdx.filter fun p => !p.1.isAmong (seen ++ served.take p.2)).map (·.1) := by
  induction served generalizing seen with
  | nil => rfl
  | cons s rest ih =>
      obtain ⟨hs, after⟩ := List.forall_mem_cons.mp hn
      rw [distinct_cons, List.zipIdx_cons, List.filter_cons, List.take_zero, List.append_nil]
      cases known : s.isAmong seen with
      | true =>
          simp only [if_true, Bool.not_true, Bool.false_eq_true, if_false]
          rw [filter_later, ih hb after]
          congr 1
          refine List.filter_congr fun p within => ?_
          rw [isAmong_insert hs (after p.1 (List.fst_mem_of_mem_zipIdx within)) hb known]
      | false =>
          simp only [Bool.false_eq_true, if_false, Bool.not_false, if_true, List.map_cons]
          rw [filter_later, ih (List.forall_mem_cons.mpr ⟨hs, hb⟩) after]
          congr 2
          refine List.filter_congr fun p _ => ?_
          simp only [isAmong, List.any_append, List.any_cons, Bool.or_left_comm, Bool.or_assoc]

theorem distinct_firsts (h : ∀ s ∈ served, s.Named) : distinct [] served = firsts served :=
  distinct_eq (List.forall_mem_nil _) h

theorem distinct_apart (hb : ∀ s ∈ seen, s.Named) (hn : ∀ s ∈ served, s.Named) :
    ((distinct seen served).map (·.uuid)).Nodup ∧ ∀ s ∈ distinct seen served, s.uuid ∉ seen.map (·.uuid) := by
  induction served generalizing seen with
  | nil => exact ⟨List.nodup_nil, List.forall_mem_nil _⟩
  | cons s rest ih =>
      obtain ⟨hs, after⟩ := List.forall_mem_cons.mp hn
      rw [distinct_cons]
      split
      · exact ih hb after
      · rename_i new
        obtain ⟨nodup, apart⟩ := ih (List.forall_mem_cons.mpr ⟨hs, hb⟩) after
        rw [isAmong_iff hs hb] at new
        constructor
        · rw [List.map_cons, List.nodup_cons]
          refine ⟨fun within => ?_, nodup⟩
          obtain ⟨t, kept, same⟩ := List.mem_map.mp within
          exact apart t kept (same ▸ List.mem_cons_self)
        · refine List.forall_mem_cons.mpr ⟨new, fun t kept within => ?_⟩
          exact apart t kept (List.mem_cons_of_mem _ within)

/-- No two of the first summaries are of one rule. -/
theorem firsts_nodup (h : ∀ s ∈ served, s.Named) : ((firsts served).map (·.uuid)).Nodup := by
  rw [← distinct_firsts h]
  exact (distinct_apart (List.forall_mem_nil _) h).1

theorem distinct_covers (hb : ∀ s ∈ seen, s.Named) (hn : ∀ s ∈ served, s.Named) :
    ∀ s ∈ served, s.uuid ∈ seen.map (·.uuid) ∨ s.uuid ∈ (distinct seen served).map (·.uuid) := by
  induction served generalizing seen with
  | nil => exact List.forall_mem_nil _
  | cons s rest ih =>
      obtain ⟨hs, after⟩ := List.forall_mem_cons.mp hn
      rw [distinct_cons]
      split
      · rename_i known
        exact List.forall_mem_cons.mpr ⟨.inl ((isAmong_iff hs hb).mp known), ih hb after⟩
      · rw [List.map_cons]
        refine List.forall_mem_cons.mpr ⟨.inr List.mem_cons_self, fun t within => ?_⟩
        rcases ih (List.forall_mem_cons.mpr ⟨hs, hb⟩) after t within with known | kept
        · rcases List.mem_cons.mp known with same | known
          · exact .inr (List.mem_cons.mpr (.inl same))
          · exact .inl known
        · exact .inr (List.mem_cons_of_mem _ kept)

/-- Every rule is among the first summaries. -/
theorem firsts_cover (h : ∀ s ∈ served, s.Named) : ∀ s ∈ served, s.uuid ∈ (firsts served).map (·.uuid) := by
  intro s within
  rw [← distinct_firsts h]
  rcases distinct_covers (List.forall_mem_nil _) h s within with none | kept
  · exact absurd none List.not_mem_nil
  · exact kept

end Summary

namespace Client

variable {α β : Type} {service : Service} {c : Client} {url : Url} {op : Exchange α} {asked more : List Request}
  {fault : Fault} {ruleType query : Option String} {page : Page}

/-! ### All pages -/

/-- The pages that a service brings in reply to some requests in a row, if it brings one for each. -/
def pages? (service : Service) : (earlier asked : List Request) → Option (List Page)
  | _, [] => some []
  | earlier, r :: rest => do
    let page ← pageOf? (service earlier r)
    let others ← pages? service (earlier ++ [r]) rest
    return page :: others

/-- A search fails by the report of its last request, the only one that brought no page, or because of a query that
does not fit into a URL. -/
def Stops (service : Service) (earlier asked : List Request) (long : Prop) (fault : Fault) : Prop :=
  (∃ before last, asked = before ++ [last] ∧ (pages? service earlier before).isSome ∧
    pageOf? (service (earlier ++ before) last) = none ∧ ∃ text, fault = .unavailable text .null .null) ∨
  (pages? service earlier asked).isSome ∧ long ∧ fault = .invalidUrl

/-- Asking for pages comes to the summaries on all of them, or it fails. -/
def Concludes (service : Service) (earlier asked : List Request) (long : Prop) : Except Fault (List Summary) → Prop
  | .ok rules => ∃ pages, pages? service earlier asked = some pages ∧ rules = pages.flatMap (·.content)
  | .error fault => Stops service earlier asked long fault

section

variable {earlier : List Request} {pages : List Page} {long : Prop}

theorem pages?_append (h : pages? service earlier asked = some pages) (more : List Request) :
    pages? service earlier (asked ++ more) = (pages? service (earlier ++ asked) more).map (pages ++ ·) := by
  induction asked generalizing earlier pages with
  | nil =>
      cases h
      rw [List.nil_append, List.append_nil]
      exact Option.map_id'.symm
  | cons r rest ih =>
      obtain ⟨page, first, h⟩ := Option.bind_eq_some_iff.mp h
      obtain ⟨others, below, h⟩ := Option.bind_eq_some_iff.mp h
      cases h
      have more := ih below
      rw [List.append_assoc, List.singleton_append] at more
      rw [List.cons_append, pages?, first, more]
      cases pages? service (earlier ++ r :: rest) _ <;> rfl

theorem Stops.after (hf : pages? service earlier asked = some pages)
    (hl : Stops service (earlier ++ asked) more long fault) : Stops service earlier (asked ++ more) long fault := by
  rcases hl with ⟨before, last, rfl, brought, failed, reported⟩ | ⟨brought, tooLong, known⟩
  · left
    refine ⟨asked ++ before, last, (List.append_assoc _ _ _).symm, ?_, ?_, reported⟩
    · rw [pages?_append hf, Option.isSome_map]
      exact brought
    · rw [← List.append_assoc]
      exact failed
  · right
    rw [pages?_append hf, Option.isSome_map]
    exact ⟨brought, tooLong, known⟩

/-- What is asked for after some pages comes to what is on all of them. -/
theorem Concludes.after {outcome : Except Fault (List Summary)} (hf : pages? service earlier asked = some pages)
    (hl : Concludes service (earlier ++ asked) more long outcome) :
    Concludes service earlier (asked ++ more) long (outcome.map (pages.flatMap (·.content) ++ ·)) := by
  cases outcome with
  | ok rules =>
      obtain ⟨others, brought, rfl⟩ := hl
      refine ⟨pages ++ others, ?_, List.flatMap_append.symm⟩
      rw [pages?_append hf, brought, Option.map_some]
  | error fault => exact Stops.after hf hl

theorem SearchesAt.kept {outcome : Except Fault α} (hw : SearchesAt c.base url) (hr : Asks op c asked outcome) :
    SearchesAt (op.run c).2.base url := hr.keeps ▸ hw

/-- The pages of one type are asked for in turn, from one on, and no more of them than permitted. -/
theorem searchPages_concludes (service : Service) (hw : SearchesAt c.base url) (pages number : Nat)
    (hk : ∀ k < number + pages, TooLong ruleType query k → long) :
    ∃ n outcome, n ≤ pages ∧
      Asks (searchPages service ruleType query pages number) c
        ((List.range' number n).map (pageRequest url query ruleType)) outcome ∧
      Concludes service c.sent ((List.range' number n).map (pageRequest url query ruleType)) long outcome := by
  induction pages generalizing number c with
  | zero => exact ⟨0, .ok [], Nat.le_refl 0, Asks.pure [] c, [], rfl, rfl⟩
  | succ pages ih =>
      by_cases tooLong : TooLong ruleType query number
      · have stopped := searchPage_tooLong service hw tooLong
        exact ⟨0, .error .invalidUrl, Nat.zero_le _, stopped.fail, .inr ⟨rfl, hk number (by omega) tooLong, rfl⟩⟩
      cases brought : pageOf? (service c.sent (pageRequest url query ruleType number)) with
      | none =>
          obtain ⟨text, failed⟩ := searchPage_failed hw tooLong brought
          refine ⟨1, .error (.unavailable text .null .null), by omega, failed.fail, .inl ⟨[], _, rfl, rfl, ?_⟩⟩
          rw [List.append_nil]
          exact ⟨brought, text, rfl⟩
      | some page =>
          have first := searchPage_page hw tooLong brought
          have front : pages? service c.sent [pageRequest url query ruleType number] = some [page] := by
            rw [pages?, brought]
            rfl
          by_cases final : page.isLast ∨ page.totalPages ≤ number + 1
          · refine ⟨1, .ok page.content, by omega, first.followed fun c' => ?_, [page], front, ?_⟩
            · rw [if_pos final]
              exact Asks.pure _ c'
            · simp only [List.flatMap_cons, List.flatMap_nil, List.append_nil]
          · obtain ⟨n, outcome, bound, rest, concludes⟩ :=
              ih (hw.kept first) (number + 1) fun k below => hk k (by omega)
            rw [first.sends] at concludes
            refine ⟨n + 1, outcome.map (page.content ++ ·), by omega, ?_, ?_⟩
            · refine first.bind ?_
              rw [if_neg final]
              exact rest.map _
            · have whole := concludes.after front
              rw [List.flatMap_singleton] at whole
              exact whole

/-- The requests for the pages of some types, for each type as many as are counted. -/
def requests (url : Url) (query : Option String) (types : List (Option String)) (counts : List Nat) : List Request :=
  (types.zip counts).flatMap fun p => (List.range p.2).map (pageRequest url query p.1)

/-- The types are gone through in turn. -/
theorem searchTypes_concludes (service : Service) (hw : SearchesAt c.base url) (types : List (Option String))
    (hk : ∀ type ∈ types, ∀ k < maxPages, TooLong type query k → long) :
    ∃ counts outcome, counts.length ≤ types.length ∧ (∀ n ∈ counts, n ≤ maxPages) ∧
      Asks (searchTypes service query types) c (requests url query types counts) outcome ∧
      Concludes service c.sent (requests url query types counts) long outcome := by
  induction types generalizing c with
  | nil =>
      exact ⟨[], .ok [], Nat.le_refl 0, List.forall_mem_nil _, Asks.pure [] c, [], rfl, rfl⟩
  | cons type types ih =>
      obtain ⟨first, others⟩ := List.forall_mem_cons.mp hk
      obtain ⟨n, outcome, bound, here, concludes⟩ :=
        searchPages_concludes service hw maxPages 0 fun k below => first k (by omega)
      rw [← List.range_eq_range'] at here concludes
      cases outcome with
      | error fault =>
          have alone : requests url query (type :: types) [n] = (List.range n).map (pageRequest url query type) := by
            rw [requests, List.zip_cons_cons, List.zip_nil_right, List.flatMap_singleton]
          refine ⟨[n], .error fault, Nat.succ_le_succ (Nat.zero_le _), ?_, ?_, ?_⟩
          · intro m within
            rw [List.mem_singleton.mp within]
            exact bound
          · rw [alone]
            exact here.fail
          · rw [alone]
            exact concludes
      | ok rules =>
          obtain ⟨pages, front, rfl⟩ := concludes
          obtain ⟨counts, outcome, fewer, bounds, rest, concludes⟩ := ih (hw.kept here) others
          rw [here.sends] at concludes
          refine ⟨n :: counts, outcome.map (pages.flatMap (·.content) ++ ·), Nat.succ_le_succ fewer,
            List.forall_mem_cons.mpr ⟨bound, bounds⟩, here.bind (rest.map _), concludes.after front⟩

theorem named_of_pages? (h : pages? service earlier asked = some pages) :
    ∀ s ∈ pages.flatMap (·.content), s.Named := by
  induction asked generalizing earlier pages with
  | nil =>
      cases h
      exact List.forall_mem_nil _
  | cons r rest ih =>
      obtain ⟨page, first, h⟩ := Option.bind_eq_some_iff.mp h
      obtain ⟨others, below, h⟩ := Option.bind_eq_some_iff.mp h
      cases h
      intro s within
      rw [List.flatMap_cons] at within
      rcases List.mem_append.mp within with within | within
      · exact named_of_pageOf? first s within
      · exact ih below s within

/-- What all types come to is reduced to the first summary of each rule. -/
theorem asks_search {ruleTypes : Option (List String)} {outcome : Except Fault (List Summary)}
    (h : Asks (searchTypes service query (typesOf ruleTypes)) c asked outcome) :
    Asks (search service ruleTypes query) c asked (outcome.map (Summary.distinct [])) := by
  unfold search
  cases outcome with
  | error fault => exact h.fail
  | ok rules =>
      apply h.followed
      intro c'
      exact (Asks.note _ c').followed fun c'' => Asks.pure _ c''

end

/-! ### Pages that are served -/

/-- From some requests on, the service serves so many pages of one type: it brings each of them when it is first asked
for it, tells how many there are, and marks the last one. -/
def Serves (service : Service) (earlier : List Request) (url : Url) (query ruleType : Option String) (count : Nat)
    (content : Nat → List Summary) : Prop :=
  1 ≤ count ∧ count ≤ maxPages ∧
    ∀ number < count, ∀ asked, pageRequest url query ruleType number ∉ asked →
      pageOf? (service (earlier ++ asked) (pageRequest url query ruleType number)) =
        some ⟨content number, count, decide (number + 1 = count)⟩

theorem given?_injective {s t : String} (h : Catalogue.given? (some s) = Catalogue.given? (some t)) : s = t := by
  simp only [Catalogue.given?, Option.filter] at h
  split at h <;> split at h <;> simp_all

theorem parameter_injective {name : String} {v w : Option String} (h : parameter name v = parameter name w) :
    Catalogue.given? v = Catalogue.given? w := by
  unfold parameter at h
  split at h <;> split at h <;> simp_all

theorem typesOf_cases (ruleTypes : Option (List String)) :
    typesOf ruleTypes = [none] ∨ ∀ type ∈ typesOf ruleTypes, ∃ s, type = some s := by
  unfold typesOf
  split
  · exact .inl rfl
  · exact .inl rfl
  · right
    intro type listed
    obtain ⟨s, -, known⟩ := List.mem_map.mp listed
    exact ⟨s, known.symm⟩

/-- The requests for two pages of listed types differ, unless the types and the pages are the same. -/
theorem pageRequest_injective {ruleTypes : Option (List String)} {type type' : Option String} {k k' : Nat}
    (hl : type ∈ typesOf ruleTypes) (hl' : type' ∈ typesOf ruleTypes)
    (h : pageRequest url query type k = pageRequest url query type' k') : type = type' ∧ k = k' := by
  have queries : pageQuery type query k = pageQuery type' query k' := congrArg Request.query h
  unfold pageQuery at queries
  obtain ⟨front, last⟩ := List.append_inj' queries rfl
  have named : parameter "ruleType" type = parameter "ruleType" type' :=
    List.append_cancel_left (List.append_cancel_right front)
  constructor
  · rcases typesOf_cases ruleTypes with none | some
    · rw [none, List.mem_singleton] at hl hl'
      rw [hl, hl']
    · obtain ⟨s, rfl⟩ := some type hl
      obtain ⟨t, rfl⟩ := some type' hl'
      rw [given?_injective (parameter_injective named)]
  · rw [List.singleton_inj, Prod.mk.injEq] at last
    exact Address.toString_inj last.2

section

variable {earlier : List Request} {type : Option String} {count : Nat} {content : Nat → List Summary}

/-- Pages that are served are asked for one after the other, up to the last one. -/
theorem searchPages_served (hw : SearchesAt c.base url) (hf : ∀ k < count, ¬TooLong type query k)
    (hs : Serves service earlier url query type count content)
    (ha : ∀ k k', pageRequest url query type k = pageRequest url query type k' → k = k')
    (pages number : Nat) (hh : number < count) (hp : count ≤ number + pages) (asked : List Request)
    (he : c.sent = earlier ++ asked) (hr : ∀ k, number ≤ k → pageRequest url query type k ∉ asked) :
    Asks (searchPages service type query pages number) c
      ((List.range' number (count - number)).map (pageRequest url query type))
      (.ok ((List.range' number (count - number)).flatMap content)) := by
  induction pages generalizing number c asked with
  | zero => omega
  | succ pages ih =>
      have brought := hs.2.2 number hh asked (hr number (Nat.le_refl number))
      rw [← he] at brought
      have first := searchPage_page hw (hf number hh) brought
      have left : count - number = (count - (number + 1)) + 1 := by omega
      rw [left, List.range'_succ, List.map_cons, List.flatMap_cons]
      by_cases last : number + 1 = count
      · have final : decide (number + 1 = count) = true ∨ (count : Int) ≤ number + 1 := .inl (decide_eq_true last)
        rw [show count - (number + 1) = 0 by omega, List.range'_zero, List.map_nil, List.flatMap_nil, List.append_nil]
        apply first.followed
        intro c'
        rw [if_pos final]
        exact Asks.pure _ c'
      · have goesOn : ¬(decide (number + 1 = count) = true ∨ (count : Int) ≤ number + 1) := by
          rw [decide_eq_true_iff]
          omega
        have later : ∀ k, number + 1 ≤ k →
            pageRequest url query type k ∉ asked ++ [pageRequest url query type number] := by
          intro k later within
          rcases List.mem_append.mp within with within | within
          · exact hr k (by omega) within
          · have := ha k number (List.mem_singleton.mp within)
            omega
        have rest := ih (hw.kept first) (number + 1) (by omega) (by omega) _
          (by rw [first.sends, he, List.append_assoc]) later
        rw [← List.singleton_append]
        refine first.bind ?_
        rw [if_neg goesOn]
        exact rest.map _

/-- Types whose pages are served are gone through in turn, each up to its last page. -/
theorem searchTypes_served {count : Option String → Nat} {content : Option String → Nat → List Summary}
    (types : List (Option String)) (nodup : types.Nodup)
    (ha : ∀ type ∈ types, ∀ type' ∈ types, ∀ k k',
      pageRequest url query type k = pageRequest url query type' k' → type = type' ∧ k = k')
    (hf : ∀ type ∈ types, ∀ k < count type, ¬TooLong type query k)
    (hs : ∀ type ∈ types, Serves service earlier url query type (count type) (content type))
    (hw : SearchesAt c.base url) (asked : List Request) (he : c.sent = earlier ++ asked)
    (hr : ∀ type ∈ types, ∀ k, pageRequest url query type k ∉ asked) :
    Asks (searchTypes service query types) c
      (types.flatMap fun type => (List.range (count type)).map (pageRequest url query type))
      (.ok (types.flatMap fun type => (List.range (count type)).flatMap (content type))) := by
  induction types generalizing c asked with
  | nil => exact Asks.pure [] c
  | cons type types ih =>
      obtain ⟨new, nodup⟩ := List.nodup_cons.mp nodup
      have later : ∀ type' ∈ types, type' ∈ type :: types := fun _ => List.mem_cons_of_mem type
      have listed : type ∈ type :: types := List.mem_cons_self
      have here := searchPages_served hw (hf type listed) (hs type listed)
        (fun k k' same => (ha type listed type listed k k' same).2) maxPages 0 (hs type listed).1
        ((Nat.zero_add maxPages).symm ▸ (hs type listed).2.1) asked he fun k _ => hr type listed k
      rw [Nat.sub_zero, ← List.range_eq_range'] at here
      have others : ∀ type' ∈ types, ∀ k, pageRequest url query type' k ∉
          asked ++ (List.range (count type)).map (pageRequest url query type) := by
        intro type' listed' k within
        rcases List.mem_append.mp within with within | within
        · exact hr type' (later type' listed') k within
        · obtain ⟨k', -, same⟩ := List.mem_map.mp within
          exact new ((ha type listed type' (later type' listed') k' k same).1 ▸ listed')
      have rest := ih nodup (fun t ht t' ht' => ha t (later t ht) t' (later t' ht'))
        (fun t ht => hf t (later t ht)) (fun t ht => hs t (later t ht)) (hw.kept here) _
        (by rw [here.sends, he, List.append_assoc]) others
      exact here.bind (rest.map _)

end

/-- A text as long as a query may be is not searched for: the first request cannot be sent, and this is not reported
as the failure of a request. -/
theorem search_long {ruleTypes : Option (List String)} {searched : String} (hw : SearchesAt c.base url)
    (hl : Url.maxLength ≤ searched.toList.length) :
    Asks (search service ruleTypes (some searched)) c [] (.error .invalidUrl) := by
  have stopped : ∀ types, types ≠ [] → Asks (searchTypes service (some searched) types) c [] (.error .invalidUrl) := by
    intro types filled
    cases types with
    | nil => exact absurd rfl filled
    | cons type types => exact (searchPage_tooLong service hw (tooLong_of_length hl type 0)).fail.fail
  have filled : typesOf ruleTypes ≠ [] := by
    unfold typesOf
    split
    · exact List.cons_ne_nil _ _
    · exact List.cons_ne_nil _ _
    · rename_i types _ some
      exact fun empty => some (List.map_eq_nil_iff.mp empty)
  exact asks_search (stopped _ filled)

end Client

/-- A search asks for the pages of each listed type in turn, from the first one on, and for no more than 50 of a type.
If every request brings a page, it comes to the first summary of each rule on the pages: no two have one uuid, and no
rule is missing. It fails by the report of its last request if this one brings no page, or because of a query that does
not fit into a URL, and in no other way. Where the types are distinct, the queries fit and the service serves a
permitted number of pages for each type, exactly these pages are asked for, each once, and the search comes to the
first summary of each rule on them. -/
theorem Client.rules_found_once (service : Service) (c : Client) (url : Url) (ruleTypes : Option (List String))
    (query : Option String) (h : SearchesAt c.base url) :
    (∃ counts asked outcome, counts.length ≤ (typesOf ruleTypes).length ∧ (∀ n ∈ counts, n ≤ maxPages) ∧
      asked = requests url query (typesOf ruleTypes) counts ∧ Asks (search service ruleTypes query) c asked outcome ∧
      match outcome with
      | .ok summaries =>
        ∃ pages, pages? service c.sent asked = some pages ∧
          summaries = Summary.firsts (pages.flatMap (·.content)) ∧ (summaries.map (·.uuid)).Nodup ∧
          ∀ s ∈ pages.flatMap (·.content), s.uuid ∈ summaries.map (·.uuid)
      | .error fault =>
        Stops service c.sent asked
          (∃ type ∈ typesOf ruleTypes, ∃ number < maxPages, TooLong type query number) fault) ∧
    ∀ (count : Option String → Nat) (content : Option String → Nat → List Summary),
      (typesOf ruleTypes).Nodup →
      (∀ type ∈ typesOf ruleTypes, ∀ number < count type, ¬TooLong type query number) →
      (∀ type ∈ typesOf ruleTypes, Serves service c.sent url query type (count type) (content type)) →
      Asks (search service ruleTypes query) c
        ((typesOf ruleTypes).flatMap fun type => (List.range (count type)).map (pageRequest url query type))
        (.ok (Summary.firsts ((typesOf ruleTypes).flatMap fun type =>
          (List.range (count type)).flatMap (content type)))) := by
  constructor
  · have known : ∀ type ∈ typesOf ruleTypes, ∀ number < maxPages, TooLong type query number →
        ∃ type ∈ typesOf ruleTypes, ∃ number < maxPages, TooLong type query number :=
      fun type listed number below tooLong => ⟨type, listed, number, below, tooLong⟩
    obtain ⟨counts, outcome, fewer, bounds, ran, concludes⟩ :=
      searchTypes_concludes service h (typesOf ruleTypes) known
    refine ⟨counts, _, _, fewer, bounds, rfl, asks_search ran, ?_⟩
    cases outcome with
    | error fault => exact concludes
    | ok rules =>
        obtain ⟨pages, brought, rfl⟩ := concludes
        have named := named_of_pages? brought
        refine ⟨pages, brought, Summary.distinct_firsts named, ?_, ?_⟩
        · rw [Summary.distinct_firsts named]
          exact Summary.firsts_nodup named
        · rw [Summary.distinct_firsts named]
          exact Summary.firsts_cover named
  · intro count content nodup fits served
    have ran := asks_search <| searchTypes_served (typesOf ruleTypes) nodup
      (fun type listed type' listed' k k' same => pageRequest_injective listed listed' same) fits served h []
      (List.append_nil _).symm fun _ _ _ => List.not_mem_nil
    have named : ∀ s ∈ (typesOf ruleTypes).flatMap fun type => (List.range (count type)).flatMap (content type),
        s.Named := by
      intro s within
      obtain ⟨type, listed, within⟩ := List.mem_flatMap.mp within
      obtain ⟨number, below, within⟩ := List.mem_flatMap.mp within
      have brought := (served type listed).2.2 number (List.mem_range.mp below) [] List.not_mem_nil
      exact named_of_pageOf? brought s within
    rw [Except.map, Summary.distinct_firsts named] at ran
    exact ran

/-! ### A library of two pages -/

/-- The URL of the rules of a service at its default address. -/
def rulesUrl : Url := ⟨"http", "rules", "/rules", some "size=100&page=0", none⟩

/-- What a service answers that has two rules of each type, one on a page. -/
def libraryText (number : Nat) : List Char :=
  if number = 0 then
    "\x7b\"content\":[\x7b\"ruleId\":\"AGE\",\"uuid\":\"u-1\"\x7d],\"totalPages\":2,\"last\":false\x7d".toList
  else "\x7b\"content\":[\x7b\"ruleId\":\"BMI\",\"uuid\":\"u-2\"\x7d],\"totalPages\":2\x7d".toList

def library : Service := fun _ r =>
  .response 200 (Text.Utf8.encode (libraryText (if ("page", "0") ∈ r.query then 0 else 1)))

/-- The rule on a page of the library. -/
def libraryRule (number : Nat) : Summary :=
  if number = 0 then ⟨.text "AGE", .text "u-1", .null, .null, .null, .null⟩
  else ⟨.text "BMI", .text "u-2", .null, .null, .null, .null⟩

theorem searchesAt_rulesUrl : Client.SearchesAt newClient.base rulesUrl := ⟨by decide +kernel, .inl rfl, by decide⟩

theorem Client.pageOf?_spelled {text : List Char}
    (h : Text.Encoding.detect (Text.Utf8.encode text) = (.utf8, Text.Utf8.encode text)) :
    pageOf? (.response 200 (Text.Utf8.encode text)) = (Json.readChars text).bind fun v => (Page.read v).toOption := by
  have decoded : Json.readBytes (Text.Utf8.encode text) = Json.readChars text := by
    rw [Json.readBytes, h]
    simp only [Text.Encoding.decode?, Text.Utf8.decode?_encode, Option.bind_eq_bind, Option.bind_some]
  rw [pageOf?, decoded]
  rfl

theorem library_first :
    Client.pageOf? (.response 200 (Text.Utf8.encode (libraryText 0))) = some ⟨[libraryRule 0], 2, false⟩ := by
  rw [Client.pageOf?_spelled (by cbv)]
  cbv

theorem library_last :
    Client.pageOf? (.response 200 (Text.Utf8.encode (libraryText 1))) = some ⟨[libraryRule 1], 2, true⟩ := by
  rw [Client.pageOf?_spelled (by cbv)]
  cbv

theorem library_serves : ∀ type ∈ Client.typesOf (some ["Reporting", "Scoring"]),
    Client.Serves library newClient.sent rulesUrl none type 2 fun number => [libraryRule number] := by
  intro type listed
  refine ⟨by decide, by decide, fun number below asked _ => ?_⟩
  have answered : library (newClient.sent ++ asked) (Client.pageRequest rulesUrl none type number) =
      .response 200 (Text.Utf8.encode (libraryText number)) := by
    rcases List.mem_cons.mp listed with rfl | listed
    · match number, below with
      | 0, _ => rfl
      | 1, _ => rfl
    · rw [List.mem_singleton.mp listed]
      match number, below with
      | 0, _ => rfl
      | 1, _ => rfl
  rw [answered]
  match number, below with
  | 0, _ => exact library_first
  | 1, _ => exact library_last

/-- The two pages are asked for with each of two types, and each of the two rules is found once. -/
theorem library_rules_found :
    Client.SearchesAt newClient.base rulesUrl ∧ (Client.typesOf (some ["Reporting", "Scoring"])).Nodup ∧
      (∀ type ∈ Client.typesOf (some ["Reporting", "Scoring"]), ∀ number < 2, ¬Client.TooLong type none number) ∧
      (∀ type ∈ Client.typesOf (some ["Reporting", "Scoring"]),
        Client.Serves library newClient.sent rulesUrl none type 2 fun number => [libraryRule number]) ∧
      Client.Asks (Client.search library (some ["Reporting", "Scoring"]) none) newClient
        [Client.pageRequest rulesUrl none (some "Reporting") 0, Client.pageRequest rulesUrl none (some "Reporting") 1,
          Client.pageRequest rulesUrl none (some "Scoring") 0, Client.pageRequest rulesUrl none (some "Scoring") 1]
        (.ok [libraryRule 0, libraryRule 1]) := by
  have nodup : (Client.typesOf (some ["Reporting", "Scoring"])).Nodup := by decide
  have fits : ∀ type ∈ Client.typesOf (some ["Reporting", "Scoring"]), ∀ number < 2,
      ¬Client.TooLong type none number := by decide
  exact ⟨searchesAt_rulesUrl, nodup, fits, library_serves,
    (Client.rules_found_once library newClient rulesUrl (some ["Reporting", "Scoring"]) none searchesAt_rulesUrl).2
      (fun _ => 2) (fun _ number => [libraryRule number]) nodup fits library_serves⟩

/-- A text of 70000 characters is searched for in vain: the search neither comes to summaries nor reports a failure. -/
theorem long_search_unreported :
    ((Client.search library none (some (String.ofList (List.replicate 70000 'a')))).run newClient).1 =
        .error .invalidUrl ∧
      ¬((∃ summaries, ((Client.search library none (some (String.ofList (List.replicate 70000 'a')))).run newClient).1 =
          .ok summaries) ∨
        ∃ text uuid version,
          ((Client.search library none (some (String.ofList (List.replicate 70000 'a')))).run newClient).1 =
            .error (.unavailable text uuid version)) := by
  have long : Url.maxLength ≤ (String.ofList (List.replicate 70000 'a')).toList.length := by
    rw [String.toList_ofList, List.length_replicate]
    decide
  have stopped : Client.Asks (Client.search library none (some (String.ofList (List.replicate 70000 'a')))) newClient []
      (.error .invalidUrl) := Client.search_long searchesAt_rulesUrl long
  have ended := stopped.ends
  refine ⟨ended, ?_⟩
  rw [ended]
  rintro (⟨_, found⟩ | ⟨_, _, _, reported⟩)
  · cases found
  · cases reported

end RuleEditor
