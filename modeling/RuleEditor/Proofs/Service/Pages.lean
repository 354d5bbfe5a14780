import RuleEditor.Proofs.Service.Loading
import RuleEditor.Proofs.Service.Queries
import RuleEditor.Service.Rules

/-!
# Pages of rules

The request for a page of a search is sent if its query fits into a URL. The reply brings a page, or it is reported
why it does not.
-/
namespace RuleEditor

/-! ### Addresses of the web -/

namespace Url

/-- A URL of the web, with a host. -/
def OnWeb (u : Url) : Prop := (u.scheme = "http" ∨ u.scheme = "https") ∧ u.authority ≠ ""

theorem splitLast?_joins {c : Char} {cs before after : List Char} (h : splitLast? c cs = some (before, after)) :
    cs = before ++ c :: after := by
  unfold splitLast? at h
  split at h
  · cases h
  · rename_i d behind found
    cases h
    have first : d = c := by
      have := List.head?_dropWhile_not (fun x => decide (x ≠ c)) cs.reverse
      rw [found] at this
      simpa using this
    subst first
    have whole := List.takeWhile_append_dropWhile (p := fun x => decide (x ≠ d)) (l := cs.reverse)
    rw [found] at whole
    have := congrArg List.reverse whole
    simpa using this.symm

/-- What stands before a character and holds it nowhere is kept where a text is cut at its last place. -/
theorem splitLast?_keeps {c : Char} {front rest before after : List Char} (ha : c ∉ front)
    (h : splitLast? c (front ++ rest) = some (before, after)) : ∃ more, before = front ++ more := by
  rcases List.append_eq_append_iff.mp (splitLast?_joins h) with ⟨more, known, -⟩ | ⟨more, known, cut⟩
  · exact ⟨more, known⟩
  · cases more with
    | nil => exact ⟨[], by rw [known, List.append_nil, List.append_nil]⟩
    | cons d more =>
        rw [List.cons_append, List.cons_eq_cons] at cut
        exact absurd (known ▸ List.mem_append_right before (cut.1 ▸ List.mem_cons_self)) ha

theorem isTyped_of_word {u : Url} (word rest : List Char) (hs : u.text.toList = word ++ ':' :: rest)
    (hf : word ≠ []) (hp : '/' ∉ word ∧ ':' ∉ word ∧ '#' ∉ word) : u.isTyped := by
  have starts : ∃ more, ((splitLast? '#' u.text.toList).map (·.1)).getD u.text.toList = word ++ ':' :: more := by
    cases cut : splitLast? '#' u.text.toList with
    | none => exact ⟨rest, hs⟩
    | some parts =>
        have apart : '#' ∉ word ++ [':'] := by
          intro within
          rcases List.mem_append.mp within with within | within
          · exact hp.2.2 within
          · exact absurd within (by decide)
        rw [hs, show word ++ ':' :: rest = (word ++ [':']) ++ rest by simp] at cut
        obtain ⟨more, known⟩ := splitLast?_keeps apart cut
        exact ⟨more, by rw [Option.map_some, Option.getD_some, known, List.append_assoc, List.singleton_append]⟩
  obtain ⟨more, known⟩ := starts
  have kept : ∀ c ∈ word, (!(c == '/' || c == ':')) = true := by
    intro c within
    have slash : c ≠ '/' := fun same => hp.1 (same ▸ within)
    have colon : c ≠ ':' := fun same => hp.2.1 (same ▸ within)
    simp [slash, colon]
  unfold isTyped
  rw [known]
  simp only [List.takeWhile_append_of_pos kept, List.dropWhile_append_of_pos kept]
  cases word with
  | nil => exact absurd rfl hf
  | cons c word => simp

theorem OnWeb.isTyped {u : Url} (h : u.OnWeb) : u.isTyped := by
  obtain ⟨scheme | scheme, -⟩ := h
  · refine isTyped_of_word ['h', 't', 't', 'p'] ((text u).toList.drop 5) ?_ (by decide) (by decide)
    simp [text, scheme]
  · refine isTyped_of_word ['h', 't', 't', 'p', 's'] ((text u).toList.drop 6) ?_ (by decide) (by decide)
    simp [text, scheme]

theorem OnWeb.hasLoneBracket {u : Url} (h : u.OnWeb) : u.hasLoneBracket = false := by
  unfold Url.hasLoneBracket
  split
  · rename_i missing _
    exact absurd missing h.2
  · rfl

end Url

/-! ### Summaries on pages -/

namespace Summary

/-- The summary of a rule whose uuid is a text. -/
def Named (s : Summary) : Prop := ∃ uuid : String, s.uuid = .text uuid

theorem named_of_read {v : Value} {s : Summary} (h : Summary.read v = .ok s) : s.Named := by
  unfold Summary.read at h
  obtain ⟨ms, -, h⟩ := bind_eq_ok.mp h
  obtain ⟨id, -, h⟩ := bind_eq_ok.mp h
  obtain ⟨uuid, -, h⟩ := bind_eq_ok.mp h
  obtain ⟨version, -, h⟩ := bind_eq_ok.mp h
  obtain ⟨type, -, h⟩ := bind_eq_ok.mp h
  obtain ⟨ruleType, -, h⟩ := bind_eq_ok.mp h
  obtain ⟨folder, -, h⟩ := bind_eq_ok.mp h
  cases h
  exact ⟨uuid, rfl⟩

end Summary

theorem Page.named_of_read {v : Value} {page : Page} (h : Page.read v = .ok page) : ∀ s ∈ page.content, s.Named := by
  unfold Page.read at h
  obtain ⟨ms, -, h⟩ := bind_eq_ok.mp h
  obtain ⟨content, listed, h⟩ := bind_eq_ok.mp h
  obtain ⟨number, -, h⟩ := bind_eq_ok.mp h
  obtain ⟨size, -, h⟩ := bind_eq_ok.mp h
  obtain ⟨total, -, h⟩ := bind_eq_ok.mp h
  obtain ⟨totalPages, -, h⟩ := bind_eq_ok.mp h
  obtain ⟨isLast, -, h⟩ := bind_eq_ok.mp h
  cases h
  unfold Schema.defaulted at listed
  split at listed
  · rename_i items _
    cases items with
    | list items =>
        intro s within
        obtain ⟨item, -, read⟩ := (mapM_eq_ok listed).2 s within
        exact Summary.named_of_read read
    | _ => cases listed
  · cases listed
    exact fun s within => absurd within List.not_mem_nil

namespace Client

variable {α β : Type} {service : Service} {c : Client} {url : Url} {op : Exchange α} {f : α → Exchange β}
  {asked more : List Request} {outcome : Except Fault α} {fault : Fault} {a : α}

/-! ### What an operation asks for -/

/-- Run from a client, the operation sends some requests, keeps the address of the service and ends in some way. -/
structure Asks (op : Exchange α) (c : Client) (asked : List Request) (outcome : Except Fault α) : Prop where
  ends : (op.run c).1 = outcome
  sends : (op.run c).2.sent = c.sent ++ asked
  keeps : (op.run c).2.base = c.base

namespace Asks

theorem pure (a : α) (c : Client) : Asks (Pure.pure a : Exchange α) c [] (.ok a) :=
  ⟨rfl, (List.append_nil _).symm, rfl⟩

theorem throw (fault : Fault) (c : Client) : Asks (MonadExcept.throw fault : Exchange α) c [] (.error fault) :=
  ⟨rfl, (List.append_nil _).symm, rfl⟩

theorem note (e : Event) (c : Client) : Asks (Client.note e) c [] (.ok ()) :=
  ⟨rfl, (List.append_nil _).symm, rfl⟩

theorem lift (x : Except Fault α) (c : Client) : Asks (liftM x : Exchange α) c [] x := by
  cases x with
  | ok a => exact pure a c
  | error fault => exact throw fault c

/-- What the first of two operations asks for comes before what the other one does. -/
theorem bind {outcome : Except Fault β} (hf : Asks op c asked (.ok a))
    (hr : Asks (f a) (op.run c).2 more outcome) : Asks (op >>= f) c (asked ++ more) outcome := by
  obtain ⟨ends, sends, keeps⟩ := hf
  cases ended : op.run c with
  | mk result c' =>
      rw [ended] at ends sends keeps hr
      cases ends
      have whole : (op >>= f).run c = (f a).run c' := by rw [run_bind, ended]
      constructor
      · rw [whole]
        exact hr.ends
      · rw [whole, hr.sends, sends, List.append_assoc]
      · rw [whole, hr.keeps, keeps]

/-- An operation that is followed by one that asks for nothing. -/
theorem followed {outcome : Except Fault β} (hf : Asks op c asked (.ok a))
    (hr : ∀ c', Asks (f a) c' [] outcome) : Asks (op >>= f) c asked outcome :=
  List.append_nil asked ▸ hf.bind (hr (op.run c).2)

theorem fail (h : Asks op c asked (.error fault)) : Asks (op >>= f) c asked (.error fault) := by
  obtain ⟨ends, sends, keeps⟩ := h
  cases ended : op.run c with
  | mk result c' =>
      rw [ended] at ends sends keeps
      cases ends
      have whole : (op >>= f).run c = (.error fault, c') := by rw [run_bind, ended]
      constructor
      · rw [whole]
      · rw [whole, sends]
      · rw [whole, keeps]

/-- An operation whose result is taken further. -/
theorem map (h : Asks op c asked outcome) (g : α → β) :
    Asks (op >>= fun a => Pure.pure (g a)) c asked (outcome.map g) := by
  cases outcome with
  | ok a => exact h.followed fun c' => pure (g a) c'
  | error fault => exact h.fail

end Asks

/-! ### A page -/

/-- The page that a reply brings: the body of a response that reports success, if it fits the schema. -/
def pageOf? : Reply → Option Page
  | .response status bytes =>
    if isSuccess status then (Json.readBytes bytes).bind fun v => (Page.read v).toOption else none
  | .broken _ => none

/-- Searches go to a URL of the web, each with its own query. -/
def SearchesAt (base url : Url) : Prop := urlOf? base "/rules" (pageQuery none none 0) = some url ∧ url.OnWeb

/-- The query of a page is longer than the query of a URL may be. -/
def TooLong (ruleType query : Option String) (number : Nat) : Prop :=
  Url.maxLength < (Text.Percent.writeQuery (pageQuery ruleType query number)).length

instance (ruleType query : Option String) (number : Nat) : Decidable (TooLong ruleType query number) :=
  inferInstanceAs (Decidable (_ < _))

/-- The request for a page. -/
def pageRequest (url : Url) (query ruleType : Option String) (number : Nat) : Request :=
  ⟨"GET", url.plainPath, pageQuery ruleType query number, none⟩

variable {ruleType query : Option String} {number : Nat} {page : Page}

/-- A text as long as a query may be leaves no room for the rest of the query. -/
theorem tooLong_of_length {searched : String} (h : Url.maxLength ≤ searched.toList.length)
    (ruleType : Option String) (number : Nat) : TooLong ruleType (some searched) number := by
  have given : searched ≠ "" := by
    rintro rfl
    exact absurd h (by decide)
  have within : ("search", searched) ∈ pageQuery ruleType (some searched) number := by
    simp only [pageQuery, parameter, Catalogue.given?, Option.filter_some, given, ne_eq, not_false_eq_true, decide_true,
      if_true]
    simp
  exact Nat.lt_of_le_of_lt h (Text.Percent.length_lt_writeQuery within)

theorem SearchesAt.urlOf?_eq {base : Url} (h : SearchesAt base url) (ruleType query : Option String) (number : Nat) :
    urlOf? base "/rules" (pageQuery ruleType query number) =
      if TooLong ruleType query number then none else some (url.asking (pageQuery ruleType query number)) := by
  have found := h.1
  have filled : ∀ ruleType query number, (pageQuery ruleType query number).isEmpty = false := fun _ _ _ => rfl
  unfold urlOf? at found ⊢
  cases path : Url.read? "/rules" with
  | none =>
      rw [path] at found
      cases found
  | some rules =>
      rw [path, Option.bind_eq_bind, Option.bind_some] at found
      cases extended : base.extend? rules with
      | none =>
          rw [extended] at found
          cases found
      | some plain =>
          simp only [extended, filled, Option.bind_eq_bind, Option.bind_some, Bool.false_eq_true, if_false] at found ⊢
          exact Url.withParameters?_eq found _

theorem send_tooLong (hw : SearchesAt c.base url) (hl : TooLong ruleType query number) :
    (send service "GET" "/rules" (pageQuery ruleType query number) none).run c = (.error .invalidUrl, c) := by
  have nowhere := hw.urlOf?_eq ruleType query number
  rw [if_pos hl] at nowhere
  have kept : (get : Exchange Client).run c = (.ok c, c) := rfl
  unfold send
  rw [run_bind, kept]
  simp only [nowhere]
  rfl

theorem send_fits (hw : SearchesAt c.base url) (hf : ¬TooLong ruleType query number) :
    (send service "GET" "/rules" (pageQuery ruleType query number) none).run c =
      (.ok (service c.sent (pageRequest url query ruleType number)),
        { c with sent := c.sent ++ [pageRequest url query ruleType number] }) := by
  have there := hw.urlOf?_eq ruleType query number
  rw [if_neg hf] at there
  have asking : (url.asking (pageQuery ruleType query number)).OnWeb := hw.2
  have kept : (get : Exchange Client).run c = (.ok c, c) := rfl
  unfold send
  rw [run_bind, kept]
  simp only [there, Url.plainPath_asking, Url.parameters_asking]
  cases replied : service c.sent (pageRequest url query ruleType number) with
  | response status bytes =>
      rw [pageRequest] at replied
      simp only [replied, asking.isTyped, asking.hasLoneBracket, Bool.not_true, Bool.false_eq_true, if_false]
      rfl
  | broken reason =>
      rw [pageRequest] at replied
      simp only [replied]
      rfl

theorem asks_send (hw : SearchesAt c.base url) (hf : ¬TooLong ruleType query number) :
    Asks (send service "GET" "/rules" (pageQuery ruleType query number) none) c
      [pageRequest url query ruleType number] (.ok (service c.sent (pageRequest url query ruleType number))) := by
  constructor <;> rw [send_fits hw hf]

/-- A request whose query does not fit into a URL is not sent. -/
theorem searchPage_tooLong (service : Service) (hw : SearchesAt c.base url) (hl : TooLong ruleType query number) :
    Asks (searchPage service ruleType query number) c [] (.error .invalidUrl) := by
  have stopped : Asks (send service "GET" "/rules" (pageQuery ruleType query number) none) c [] (.error .invalidUrl) :=
    ⟨by rw [send_tooLong hw hl], by rw [send_tooLong hw hl, List.append_nil], by rw [send_tooLong hw hl]⟩
  unfold searchPage request
  exact stopped.fail.fail

/-- The body of a reply, or the report that there is none. -/
def bodyIn : Reply → Except Fault (List UInt8)
  | .response status bytes =>
    if isSuccess status then .ok bytes else .error (.badStatus status "GET" "/rules" .null .null)
  | .broken reason => .error (.unreachable reason .null .null)

/-- The page in the body of a response, or the report that there is none. -/
def pageIn (bytes : List UInt8) : Except Fault Page :=
  match Json.readBytes bytes with
  | none => .error (.notJson .null .null)
  | some v =>
    match Page.read v with
    | .ok page => .ok page
    | .error _ => .error .badSearchAnswer

theorem asks_request (service : Service) (hw : SearchesAt c.base url) (hf : ¬TooLong ruleType query number) :
    Asks (request service "GET" "/rules" (pageQuery ruleType query number) none .null .null) c
      [pageRequest url query ruleType number] (bodyIn (service c.sent (pageRequest url query ruleType number))) := by
  unfold request
  apply (asks_send hw hf).followed
  intro c'
  cases service c.sent (pageRequest url query ruleType number) with
  | broken reason => exact (Asks.note _ c').followed fun c'' => Asks.throw _ c''
  | response status bytes =>
      cases good : isSuccess status with
      | true =>
          simp only [bodyIn, good, if_true]
          exact Asks.pure bytes c'
      | false =>
          simp only [bodyIn, good, Bool.false_eq_true, if_false]
          exact (Asks.note _ c').followed fun c'' => Asks.throw _ c''

/-- A page that is asked for is taken from the body of the reply. -/
theorem asks_searchPage (service : Service) (hw : SearchesAt c.base url) (hf : ¬TooLong ruleType query number) :
    Asks (searchPage service ruleType query number) c [pageRequest url query ruleType number]
      (bodyIn (service c.sent (pageRequest url query ruleType number)) >>= pageIn) := by
  have sent := asks_request service hw hf
  unfold searchPage
  cases body : bodyIn (service c.sent (pageRequest url query ruleType number)) with
  | error fault =>
      rw [body] at sent
      exact sent.fail
  | ok bytes =>
      rw [body] at sent
      apply sent.followed
      intro c'
      simp only [ok_bind, json, pageIn]
      cases Json.readBytes bytes with
      | none => exact (Asks.lift _ c').fail
      | some v =>
          apply (Asks.lift (.ok v) c').followed
          intro c''
          cases read : Page.read v with
          | ok page =>
              simp only [read]
              exact Asks.pure page c''
          | error fault =>
              simp only [read]
              exact Asks.throw _ c''

/-- What a reply comes to: its page, or a report. -/
theorem pageIn_cases (reply : Reply) :
    (∃ page, (bodyIn reply >>= pageIn) = .ok page ∧ pageOf? reply = some page) ∨
      ∃ text, (bodyIn reply >>= pageIn) = .error (.unavailable text .null .null) ∧ pageOf? reply = none := by
  cases reply with
  | broken reason => exact .inr ⟨_, rfl, rfl⟩
  | response status bytes =>
      simp only [bodyIn, pageOf?]
      cases isSuccess status with
      | false => exact .inr ⟨_, rfl, rfl⟩
      | true =>
          simp only [if_true, ok_bind, pageIn]
          cases Json.readBytes bytes with
          | none => exact .inr ⟨_, rfl, rfl⟩
          | some v =>
              simp only [Option.bind_some]
              cases Page.read v with
              | ok page => exact .inl ⟨page, rfl, rfl⟩
              | error fault => exact .inr ⟨_, rfl, rfl⟩

theorem searchPage_page (hw : SearchesAt c.base url) (hf : ¬TooLong ruleType query number)
    (hb : pageOf? (service c.sent (pageRequest url query ruleType number)) = some page) :
    Asks (searchPage service ruleType query number) c [pageRequest url query ruleType number] (.ok page) := by
  have answered := asks_searchPage service hw hf
  rcases pageIn_cases (service c.sent (pageRequest url query ruleType number)) with ⟨_, read, same⟩ | ⟨_, _, none⟩
  · rw [read] at answered
    exact Option.some.inj (hb ▸ same) ▸ answered
  · rw [none] at hb
    cases hb

/-- Every reply without a page is reported: the status of the response, that it holds no data or data that does not
fit the schema, or that none came. -/
theorem searchPage_failed (hw : SearchesAt c.base url) (hf : ¬TooLong ruleType query number)
    (ha : pageOf? (service c.sent (pageRequest url query ruleType number)) = none) :
    ∃ text, Asks (searchPage service ruleType query number) c [pageRequest url query ruleType number]
      (.error (.unavailable text .null .null)) := by
  have answered := asks_searchPage service hw hf
  rcases pageIn_cases (service c.sent (pageRequest url query ruleType number)) with ⟨_, _, some⟩ | ⟨text, read, _⟩
  · rw [some] at ha
    cases ha
  · rw [read] at answered
    exact ⟨text, answered⟩

theorem named_of_pageOf? {reply : Reply} (h : pageOf? reply = some page) : ∀ s ∈ page.content, s.Named := by
  cases reply with
  | broken reason => cases h
  | response status bytes =>
      rw [pageOf?] at h
      split at h
      · obtain ⟨v, -, fitting⟩ := Option.bind_eq_some_iff.mp h
        cases read : Page.read v with
        | ok page' =>
            rw [read] at fitting
            cases fitting
            exact Page.named_of_read read
        | error fault =>
            rw [read] at fitting
            cases fitting
      · cases h

end Client

end RuleEditor
