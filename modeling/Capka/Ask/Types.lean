import Mathlib.Data.List.Basic

/-!
# Forms and answers

A form the agent, or a connector's server, asks the user to fill, and the reply.
-/

namespace Capka

/-- The kinds of a form field. -/
inductive AskFieldKind
  | text
  | choice
  | number
  | boolean
  deriving Repr, DecidableEq

/-- One option of a choice. -/
structure AskOption where
  value : String
  label : String
  deriving Repr, DecidableEq

/-- `askFieldSchema`. -/
structure AskField where
  id : String
  label : String
  kind : AskFieldKind
  options : List AskOption
  multi : Bool
  optional : Bool
  deriving Repr, DecidableEq

/-- `AskForm`. A form the agent sends has between one and ten fields (`askFormSchema`); one made of a connector's schema has as many
as the schema. -/
structure AskForm where
  title : Option String
  fields : List AskField
  deriving Repr, DecidableEq

/-- What the user did with a form. -/
inductive AskAction
  | submit
  | skip
  deriving Repr, DecidableEq

/-- The value of one field: one string, or several for a choice that takes several. -/
inductive AskValue
  | one (value : String)
  | many (values : List String)
  deriving Repr, DecidableEq

/-- `askAnswerSchema`: the action, and the values by field id. -/
structure AskAnswer where
  action : AskAction
  values : List (String × AskValue)
  deriving Repr, DecidableEq

end Capka
