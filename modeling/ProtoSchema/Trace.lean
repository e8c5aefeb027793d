import ProtoSchema.Node

/-! # Traces

The trace of a run says what happened in it: how long the source is, which blocks were closed, inner
ones before outer ones, and the error if there was one. Each event has a level, a message and named
values. -/

namespace ProtoSchema

inductive Event where
  | started (bytes : Nat)
  | closed (block : Block)
  | failed (error : ParseError)
deriving DecidableEq, Repr

namespace Event

inductive Level where
  | debug
  | trace
deriving DecidableEq, Repr

def level : Event → Level
  | .closed _ => .trace
  | _ => .debug

def message : Event → String
  | .started _ => "parsing source"
  | .closed (.message _) => "parsed message"
  | .closed (.enum _) => "parsed enum"
  | .closed (.oneof _ _) => "parsed oneof"
  | .failed _ => "parse failed"

/-- The named values of an event. -/
def values : Event → List (String × String)
  | .started bytes => [("len", toString bytes)]
  | .closed (.message name) | .closed (.enum name) => [("name", name.text)]
  | .closed (.oneof name fields) => [("name", name.text), ("fields", toString fields)]
  | .failed error => [("error", error.message)]

end Event

/-- The events of a run over a source of a given length. -/
def eventsOf (bytes : Nat) : EStateM.Result ParseError Cursor α → List Event
  | .ok _ c => .started bytes :: c.closed.reverse.map .closed
  | .error e c => .started bytes :: c.closed.reverse.map .closed ++ [.failed e]

/-- The events of reading a node from the start of a source. -/
def trace (n : Node) (source : String) : List Event :=
  eventsOf source.utf8ByteSize (n.parser.run (.ofSource source))

end ProtoSchema
