/-! # Command-line arguments

Options are written `--name value` or `--name=value`, in any order among the positional
arguments, and none of them twice. After `--` all arguments are positional.
-/

namespace ForkLog

set_option autoImplicit false

structure Arguments where
  positional : List String
  options : List (String × String)
  deriving DecidableEq, Repr

namespace Arguments

/-- An argument that is no option and may be the value of one. -/
def isPlain (argument : String) : Bool :=
  match argument.toList with
  | '-' :: _ :: _ => false
  | _ => true

/-- The name of an option, and its value if that is part of the argument. -/
def option? (argument : String) : Option (String × Option String) :=
  match argument.toList with
  | '-' :: '-' :: text =>
    let name := text.takeWhile (· ≠ '=')
    match text.dropWhile (· ≠ '=') with
    | [] => some (String.ofList name, none)
    | _ :: value => some (String.ofList name, some (String.ofList value))
  | _ => none

def addPositional (argument : String) (a : Arguments) : Arguments :=
  { a with positional := argument :: a.positional }

def addOption? (known : List String) (name value : String) (a : Arguments) : Option Arguments :=
  if known.contains name && (a.options.lookup name).isNone then
    some { a with options := (name, value) :: a.options }
  else none

def read? (known : List String) : List String → Option Arguments
  | [] => some ⟨[], []⟩
  | "--" :: rest => some ⟨rest, []⟩
  | argument :: rest =>
    if isPlain argument then (read? known rest).map (addPositional argument)
    else
      match option? argument, rest with
      | some (name, some value), rest => (read? known rest).bind (addOption? known name value)
      | some (name, none), value :: rest =>
        if isPlain value then (read? known rest).bind (addOption? known name value) else none
      | _, _ => none

def option (a : Arguments) (name : String) : Option String := a.options.lookup name

end Arguments

end ForkLog
