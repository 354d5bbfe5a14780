import RuleEditor.Session.Command

/-!
# Conversations

A session answers its user while calls of its own wait for the rule service. A conversation is the session
together with the calls that wait; its turns are the edits and queries of the user, the starts of calls, and
the answers of the service, which come in any order.
-/
namespace RuleEditor

/-- What the rule service answers. -/
inductive Answer where
  | rule (loaded : Except Fault Document)
  | rules (found : Except Fault (List Summary))
  | version (written : Except Fault Saved)

namespace Progress

/-- Goes on with an answer, if it is of the sort that was asked for. -/
def resume : Progress → Answer → Option (Editing Progress)
  | .loading _ _ next, .rule loaded => some (Session.loaded next loaded)
  | .searching .., .rules found => some (Session.found found)
  | .writing _ next, .version written => some (Session.written next written)
  | .reading _ _ saved, .rule reread => some (Session.reread saved reread)
  | _, _ => none

end Progress

/-- What the user may look up. -/
inductive Query where
  | node (path : String)
  | availableOperators (path : String)
  | resultLabel (index : Int)
  | otherwiseLabel
  | referenceTypes
  | output

namespace Query

/-- Looks something up; only what that does to the session counts here. -/
def perform : Query → Editing Unit
  | .node path => do let _ ← Session.node path
  | .availableOperators path => do let _ ← Session.availableOperators path
  | .resultLabel index => do let _ ← Session.resultLabel index
  | .otherwiseLabel => do let _ ← Session.otherwiseLabel
  | .referenceTypes => do let _ ← Session.referenceTypes
  | .output => do let _ ← Session.output

end Query

inductive Turn where
  | edit (e : Edit)
  | query (q : Query)
  | start (errand : Errand)
  /-- The service answers a call. -/
  | answer (call : Nat) (a : Answer)

structure Conversation where
  session : Session
  /-- The calls that wait for an answer, and how far they have come. -/
  waiting : List (Nat × Progress)
  /-- How many calls have been started; the next one has this number. -/
  started : Nat

namespace Conversation

/-- A conversation in which nothing has been said yet. -/
def opening (s : Session) : Conversation := ⟨s, [], 0⟩

/-- Lets a call go on until it ends, or until it has another question. -/
def proceed (call : Nat) (op : Editing Progress) (c : Conversation) :
    Conversation × Option (Except Fault Outcome) :=
  match op.run c.session with
  | (.ok (.finished outcome), session) => ({ c with session }, some (.ok outcome))
  | (.ok question, session) => ({ c with session, waiting := (call, question) :: c.waiting }, none)
  | (.error fault, session) => ({ c with session }, some (.error fault))

/-- Takes a turn. The call that comes to its end with the turn has an outcome then. An answer that no call
waits for changes nothing. -/
def take (c : Conversation) : Turn → Conversation × Option (Except Fault Outcome)
  | .edit e => ({ c with session := c.session.after e }, none)
  | .query q => ({ c with session := (q.perform.run c.session).2 }, none)
  | .start errand => proceed c.started errand.start { c with started := c.started + 1 }
  | .answer call a =>
    match (c.waiting.lookup call).bind (·.resume a) with
    | some op => proceed call op { c with waiting := c.waiting.filter (·.1 ≠ call) }
    | none => (c, none)

def next (c : Conversation) (t : Turn) : Conversation := (c.take t).1

/-- How the call ends that comes to its end with a turn. -/
def outcome? (c : Conversation) (t : Turn) : Option (Except Fault Outcome) := (c.take t).2

def run (c : Conversation) (turns : List Turn) : Conversation := turns.foldl next c

end Conversation

end RuleEditor
