import EventPipeline.Rule.Add
import EventPipeline.Rule.Delete
import EventPipeline.Rule.Parse
import EventPipeline.Rule.Shift
import EventPipeline.Rule.Store

/-!
Rules: operations that have been given their path and are ready to be applied.
-/

namespace EventPipeline

inductive Rule where
  | add (a : Add)
  | delete (d : Delete)
  | shift (s : Shift)
  | store (s : Store)
  | parse (p : Parse)
deriving DecidableEq, Repr

namespace Rule

def operation : Rule → Operation
  | .add _ => .add
  | .delete _ => .delete
  | .shift _ => .shift
  | .store _ => .store
  | .parse _ => .parse

def phase (r : Rule) : Phase := r.operation.phase

/-- The rule that applies an operation to a configured path. -/
def configure (op : Operation) (spec : PathSpec) : Except Error Rule :=
  match op with
  | .add => .add <$> Add.ofSpec spec
  | .delete => .ok (.delete (Delete.ofSpec spec))
  | .shift => .shift <$> Shift.ofSpec spec
  | .store => .store <$> Store.ofSpec spec
  | .parse => .parse <$> Parse.ofSpec spec

/-- Applies a rule to a tree of an event. -/
def transform (r : Rule) (event : String) (t : Tree) : Work (Except Error Tree) :=
  match r with
  | .add a => (a.transform event t).bind fun t => .done (.ok t)
  | .delete d => (d.transform event t).bind fun t => .done (.ok t)
  | .shift s => (s.transform event t).bind fun t => .done (.ok t)
  | .store s => (s.transform event t).bind fun t => .done (.ok t)
  | .parse p => .done (p.transform t)

/-- Applies a rule to the text of a tree. -/
def apply (r : Rule) (event : String) (data : ByteArray) : Work (Except Error ByteArray) :=
  match Json.decode data with
  | .error problem => .done (.error (.decode problem))
  | .ok t => (r.transform event t).bind fun result => .done (result.map Json.encode)

end Rule

end EventPipeline
