import ConnectorAudit.Issue

/-!
# Outlines

The outline of a connector document: its sections and what is declared in them,
each with its name, its place and some details.
-/

namespace ConnectorAudit

/-- What a part of an outline stands for. -/
inductive Outline.Kind where
  | connector
  | connection
  | test
  | methods
  | method
  | objectDefinitions
  | objectDefinition
  | actions
  | action
  | triggers
  | trigger
  | pickLists
  | pickList
  deriving DecidableEq, Repr

namespace Outline.Kind

def all : List Kind :=
  [connector, connection, test, methods, method, objectDefinitions, objectDefinition, actions,
    action, triggers, trigger, pickLists, pickList]

def name : Kind → String
  | connector => "connector"
  | connection => "connection"
  | test => "test"
  | methods => "methods"
  | method => "method"
  | objectDefinitions => "object_definitions"
  | objectDefinition => "object_definition"
  | actions => "actions"
  | action => "action"
  | triggers => "triggers"
  | trigger => "trigger"
  | pickLists => "pick_lists"
  | pickList => "pick_list"

end Outline.Kind

/-- A part of a document and the parts it has. -/
structure Outline where
  kind : Outline.Kind
  name : String
  loc : Location := {}
  details : Details := .empty
  children : List Outline := []

namespace Outline

instance : Inhabited Outline := ⟨{ kind := .connector, name := "" }⟩

/-- The part with a text among its details. -/
def withText (o : Outline) (name value : String) : Outline :=
  { o with details := o.details.insert name (.text value) }

/-- The part with a list of texts among its details. -/
def withTexts (o : Outline) (name : String) (values : List String) : Outline :=
  { o with details := o.details.insert name (.texts values) }

/-- The first direct part of a kind. -/
def child? (o : Outline) (kind : Kind) : Option Outline := o.children.find? (·.kind == kind)

mutual
/-- All parts of a kind, the outline itself included, each before its own parts. -/
def descendants (kind : Kind) : Outline → List Outline
  | ⟨k, name, loc, details, children⟩ =>
    (if k == kind then [⟨k, name, loc, details, children⟩] else []) ++
      descendantsAll kind children
/-- The parts of a kind in a list of outlines, one outline after the other. -/
def descendantsAll (kind : Kind) : List Outline → List Outline
  | [] => []
  | o :: os => o.descendants kind ++ descendantsAll kind os
end

def namesOf (o : Outline) (kind : Kind) : List String := (o.descendants kind).map Outline.name

end Outline

end ConnectorAudit
