import ProtoSchema.Tree.Equality

/-! # Members and statements

A body and a file are written as lists of members and statements, in which all sorts are mixed and
empty statements stand among them. The tree made of such a list keeps each sort for itself and in
its order, and drops what is empty. -/

namespace ProtoSchema

/-- A member of an enum body. -/
inductive EnumMember where
  | empty
  | option (setting : OptionSetting)
  | field (field : EnumField)
deriving DecidableEq, Repr

namespace EnumMember

def option? : EnumMember → Option OptionSetting
  | .option s => some s
  | _ => none

def field? : EnumMember → Option EnumField
  | .field f => some f
  | _ => none

end EnumMember

def EnumBody.ofMembers (members : List EnumMember) : EnumBody :=
  ⟨members.filterMap EnumMember.option?, members.filterMap EnumMember.field?⟩

/-- A member of a message body. -/
inductive MessageMember where
  | empty
  | field (field : Field)
  | enum (enum : Enum)
  | message (message : Message)
  | oneof (oneof : Oneof)
  | option (setting : OptionSetting)
deriving DecidableEq

namespace MessageMember

def field? : MessageMember → Option Field
  | .field f => some f
  | _ => none

def enum? : MessageMember → Option Enum
  | .enum e => some e
  | _ => none

def message? : MessageMember → Option Message
  | .message m => some m
  | _ => none

def oneof? : MessageMember → Option Oneof
  | .oneof o => some o
  | _ => none

def option? : MessageMember → Option OptionSetting
  | .option s => some s
  | _ => none

end MessageMember

def MessageBody.ofMembers (members : List MessageMember) : MessageBody where
  fields := members.filterMap MessageMember.field?
  enums := members.filterMap MessageMember.enum?
  messages := members.filterMap MessageMember.message?
  oneofs := members.filterMap MessageMember.oneof?
  options := members.filterMap MessageMember.option?

/-- A statement of a file behind the syntax statement. A package is kept with the place of its
keyword. -/
inductive Statement where
  | empty
  | imported (file : Import)
  | package (package : Package) (keyword : Span)
  | option (setting : OptionSetting)
  | message (message : Message)
  | enum (enum : Enum)
deriving DecidableEq

namespace Statement

def import? : Statement → Option Import
  | .imported i => some i
  | _ => none

def package? : Statement → Option Package
  | .package p _ => some p
  | _ => none

def packageKeyword? : Statement → Option Span
  | .package _ s => some s
  | _ => none

def option? : Statement → Option OptionSetting
  | .option s => some s
  | _ => none

def message? : Statement → Option Message
  | .message m => some m
  | _ => none

def enum? : Statement → Option Enum
  | .enum e => some e
  | _ => none

end Statement

def File.ofStatements (syntaxDecl : SyntaxDecl) (statements : List Statement) : File where
  syntaxDecl
  package := statements.findSome? Statement.package?
  imports := statements.filterMap Statement.import?
  options := statements.filterMap Statement.option?
  messages := statements.filterMap Statement.message?
  enums := statements.filterMap Statement.enum?

end ProtoSchema
