/-!
# Fields

A rule names what it reads by a path, steps joined by dots. A `Field` is a path whose steps are all
there: none is empty. Which field a rule means by a path is the matter of a `Resolver`, which is
asked when a rule is compiled and never afterwards; a `FieldPolicy` is a resolver that gives each
path its own field and says which paths a rule may name.
-/

namespace WhereRules

/-! ## Paths -/

/-- The pieces of a text between its dots. There is one more piece than there are dots. -/
def splitDots : List Char → List (List Char)
  | [] => [[]]
  | c :: cs =>
    if c = '.' then [] :: splitDots cs
    else match splitDots cs with
      | [] => [[c]]
      | piece :: pieces => (c :: piece) :: pieces

/-- The steps of a path. -/
def pathSegments (path : String) : List String := (splitDots path.toList).map String.ofList

/-- A path with no empty step. -/
structure Field where
  path : String
  segments_ne : "" ∉ pathSegments path
deriving DecidableEq

/-- The steps of a field's path, from the root on. -/
def Field.segments (field : Field) : List String := pathSegments field.path

/-! ## Policies -/

/-- Why a path names no field. -/
inductive FieldError
  /-- The policy does not list the path. -/
  | unknown (path : String)
  /-- A step of the path is empty. -/
  | invalidPath (path : String)
deriving DecidableEq

def FieldError.message : FieldError → String
  | unknown path => "Unknown field: " ++ path
  | invalidPath path => "Invalid field path: '" ++ path ++ "'"

/-- The field of a path. -/
def Field.ofPath (path : String) : Except FieldError Field :=
  if h : "" ∉ pathSegments path then .ok ⟨path, h⟩ else .error (.invalidPath path)

/-- The field that a rule means by a path, or why it means none. -/
abbrev Resolver := String → Except FieldError Field

/-- Which paths a rule may name. -/
inductive FieldPolicy
  /-- Every path that names a field. -/
  | any
  /-- Only the listed paths. -/
  | only (paths : List String)

namespace FieldPolicy

/-- Lists one more path. A policy that admits every path already admits it. -/
def allow (policy : FieldPolicy) (path : String) : FieldPolicy :=
  match policy with
  | any => any
  | only paths => only (path :: paths)

/-- Whether the policy lists a path. -/
def admits : FieldPolicy → String → Bool
  | any, _ => true
  | only paths, path => paths.contains path

/-- The field that a rule means by a path. The list is asked first: a listed path must still be one
that names a field. -/
def resolve (policy : FieldPolicy) : Resolver := fun path =>
  if policy.admits path then Field.ofPath path else .error (.unknown path)

end FieldPolicy

end WhereRules
