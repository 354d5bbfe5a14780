import RuleEditor.Proofs.Stored.Failing

/-!
# Loading a version of a rule

Between the request for a version and the document there is a service that may answer anything. Whatever it answers,
loading either gives a document or reports that this version of this rule is unavailable.
-/
namespace RuleEditor

namespace Client

variable {α β : Type} {service : Service} {c : Client} {method url : String} {parameters : List (String × String)}
  {body : Option Value} {uuid version : Value}

theorem run_bind (op : Exchange α) (f : α → Exchange β) (c : Client) :
    (op >>= f).run c = match op.run c with
      | (.ok a, c') => (f a).run c'
      | (.error fault, c') => (.error fault, c') := by
  show ExceptT.bindCont f (op.run c).1 (op.run c).2 = _
  rcases op.run c with ⟨a | fault, c'⟩ <;> rfl

/-- The request goes out, and what comes back is a response or the report that none came. -/
def Delivers (service : Service) (c : Client) (method url : String) (parameters : List (String × String))
    (body : Option Value) : Prop :=
  ∃ reply, ((send service method url parameters body).run c).1 = .ok reply

/-- An outcome that is a result, or the report that a version of a rule is unavailable. -/
def LoadsOrReports (uuid version : Value) (outcome : Except Fault α) : Prop :=
  (∃ a, outcome = .ok a) ∨ ∃ text, outcome = .error (.unavailable text uuid version)

/-- Operations in a row load or report if the first does and the others do wherever it ends well. -/
theorem loadsOrReports_bind {op : Exchange α} {f : α → Exchange β} (hf : LoadsOrReports uuid version (op.run c).1)
    (hr : ∀ a c', LoadsOrReports uuid version ((f a).run c').1) :
    LoadsOrReports uuid version ((op >>= f).run c).1 := by
  rw [run_bind]
  cases ended : op.run c with
  | mk outcome c' =>
      rw [ended] at hf
      rcases hf with ⟨a, known⟩ | ⟨text, known⟩
      · cases known
        exact hr a c'
      · cases known
        exact .inr ⟨text, rfl⟩

/-- A request that is delivered is answered by a body, or the version is reported: for the status of the response, or
because none came. -/
theorem request_loadsOrReports (h : Delivers service c method url parameters body) :
    LoadsOrReports uuid version ((request service method url parameters body uuid version).run c).1 := by
  obtain ⟨reply, known⟩ := h
  unfold request
  rw [run_bind]
  cases ended : (send service method url parameters body).run c with
  | mk outcome c' =>
      rw [ended] at known
      cases known
      cases reply with
      | response status bytes =>
          cases good : isSuccess status with
          | true => exact .inl ⟨bytes, by simp only [good]; rfl⟩
          | false => exact .inr ⟨_, by simp only [good]; rfl⟩
      | broken reason => exact .inr ⟨_, rfl⟩

theorem json_loadsOrReports (bytes : List UInt8) (c : Client) :
    LoadsOrReports uuid version ((liftM (json bytes uuid version) : Exchange Value).run c).1 := by
  unfold json
  cases Json.readBytes bytes with
  | some v => exact .inl ⟨v, rfl⟩
  | none => exact .inr ⟨_, rfl⟩

theorem version_loadsOrReports {uuid : String}
    (h : Delivers service c "GET" s!"/rules/{uuid}/versions/{version}" [] none) :
    LoadsOrReports (.text uuid) version ((Client.version service uuid version).run c).1 := by
  refine loadsOrReports_bind (request_loadsOrReports h) fun bytes c' => ?_
  refine loadsOrReports_bind (json_loadsOrReports bytes c') fun data c'' => ?_
  have kept : (get : Exchange Client).run c'' = (.ok c'', c'') := rfl
  rw [run_bind, kept]
  cases read : Document.read c''.catalogue data with
  | ok d => exact .inl ⟨d, by simp only [read]; rfl⟩
  | error fault =>
      have expected : fault.isOfData :=
        Fault.isOfData_of_isOfReading (Document.failsInReading_read c''.catalogue data fault read)
      exact .inr ⟨_, by simp only [read, expected, if_true]; rfl⟩

end Client

/-- Loading fails in one way only. Reading any data with any catalogue gives a document or fails by a fault of reading,
never by an unknown place or an index. So for every service, whatever it answers, a delivered request for a version
of a rule gives a document or the report that this version of this rule is unavailable. -/
theorem loading_fails_by_report :
    (∀ (catalogue : Option Catalogue) (v : Value),
      (∃ d, Document.read catalogue v = .ok d) ∨
        ∃ fault, Document.read catalogue v = .error fault ∧ fault.isOfReading) ∧
    ∀ (service : Service) (c : Client) (uuid : String) (version : Value),
      c.Delivers service "GET" s!"/rules/{uuid}/versions/{version}" [] none →
      (∃ d, ((Client.version service uuid version).run c).1 = .ok d) ∨
        ∃ text, ((Client.version service uuid version).run c).1 = .error (.unavailable text (.text uuid) version) := by
  constructor
  · intro catalogue v
    cases read : Document.read catalogue v with
    | ok d => exact .inl ⟨d, rfl⟩
    | error fault => exact .inr ⟨fault, rfl, Document.failsInReading_read catalogue v fault read⟩
  · intro service c uuid version delivered
    exact Client.version_loadsOrReports delivered

/-- A client of a service at its default address, before its first request. -/
def newClient : Client := ⟨⟨"http", "rules", "/", none, none⟩, none, [], [], []⟩

/-- A service that answers every request by a list without entries. -/
def emptyLists : Service := fun _ _ => .response 200 [0x5B, 0x5D]

/-- A list is no stored rule. -/
theorem loading_list_fails :
    newClient.Delivers emptyLists "GET" "/rules/u-1/versions/3" [] none ∧
      ∃ text, ((Client.version emptyLists "u-1" (.int 3)).run newClient).1 =
        .error (.unavailable text (.text "u-1") (.int 3)) := by
  have delivered : newClient.Delivers emptyLists "GET" "/rules/u-1/versions/3" [] none :=
    ⟨.response 200 [0x5B, 0x5D], by rfl⟩
  refine ⟨delivered, ?_⟩
  rcases loading_fails_by_report.2 emptyLists newClient "u-1" (.int 3) delivered with ⟨d, loaded⟩ | reported
  · cases loaded
  · exact reported

end RuleEditor
