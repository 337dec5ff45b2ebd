/-!
# Arguments

Arguments are flags, options with a value, and operands. An option's value follows it as the next
argument or behind an equals sign. Everything behind a lone `--` is an operand.

A value that looks like a flag is refused, unless the option takes such values. No flag and no option is
given twice, unless its values add up.
-/

namespace StreamEngine
namespace CommandLine

/-- What an option takes. -/
inductive Takes where
  | nothing
  | value
  /-- A value that may begin with a hyphen, and that adds up with others. -/
  | words
  deriving DecidableEq, Repr

/-- The flags and options that are known, by name. -/
abbrev Known := List (String × Takes)

/-- A flag or option as given; a flag has no value. -/
structure Given where
  name : String
  value : Option String
  deriving DecidableEq, Repr

/-- An argument that begins with a hyphen, other than the hyphen alone. -/
def looksLikeFlag (a : String) : Bool :=
  match a.toList with
  | '-' :: _ :: _ => true
  | _ => false

/-- The name of a long option, and its value if one follows in the same argument. -/
def longName? (a : String) : Option (String × Option String) :=
  match a.toList with
  | '-' :: '-' :: cs =>
    let name := cs.takeWhile (· != '=')
    match cs.dropWhile (· != '=') with
    | [] => some (String.ofList name, none)
    | _ :: value => some (String.ofList name, some (String.ofList value))
  | _ => none

/-- What an argument is, seen alone. -/
inductive Reading where
  | operand (text : String)
  | given (g : Given)
  /-- An option whose value is the next argument. -/
  | awaits (name : String) (takes : Takes)
  | refused
  deriving DecidableEq, Repr

def read (known : Known) (a : String) : Reading :=
  if !looksLikeFlag a then .operand a
  else
    match longName? a with
    | none => .refused
    | some (name, value) =>
      match known.lookup name, value with
      | none, _ => .refused
      | some .nothing, none => .given { name, value := none }
      | some .nothing, some _ => .refused
      | some _, some v => .given { name, value := some v }
      | some takes, none => .awaits name takes

/-- The next argument may be the value of an option. -/
def accepts (takes : Takes) (v : String) : Bool :=
  takes == .words || !looksLikeFlag v

/-- Arguments up to the first operand, that operand, and what follows it. -/
structure Head where
  given : List Given
  command : String
  rest : List String
  deriving DecidableEq, Repr

/-- Reads up to the first operand, which must be there. -/
def readHead (known : Known) : List String → Option Head
  | [] => none
  | a :: rest =>
    match read known a with
    | .operand command => some { given := [], command, rest }
    | .given g => (readHead known rest).map fun h => { h with given := g :: h.given }
    | .refused => none
    | .awaits name takes =>
      match rest with
      | [] => none
      | v :: rest =>
        if accepts takes v then
          (readHead known rest).map fun h =>
            { h with given := { name, value := some v } :: h.given }
        else none

/-- All arguments of a command: flags and options, and operands. -/
structure Tail where
  given : List Given := []
  operands : List String := []
  deriving DecidableEq, Repr

/-- Reads all arguments. -/
def readTail (known : Known) : List String → Option Tail
  | [] => some {}
  | a :: rest =>
    if a = "--" then some { operands := rest }
    else
      match read known a with
      | .operand text => (readTail known rest).map fun t => { t with operands := text :: t.operands }
      | .given g => (readTail known rest).map fun t => { t with given := g :: t.given }
      | .refused => none
      | .awaits name takes =>
        match rest with
        | [] => none
        | v :: rest =>
          if accepts takes v then
            (readTail known rest).map fun t =>
              { t with given := { name, value := some v } :: t.given }
          else none

/-! ## Looking up -/

/-- Nothing is given twice, options of words apart. -/
def eachOnce (known : Known) (given : List Given) : Bool :=
  known.all fun (name, takes) =>
    takes == .words || (given.countP fun g => g.name == name) ≤ 1

def hasFlag (given : List Given) (name : String) : Bool :=
  given.any fun g => g.name == name

/-- The values of an option, in order. -/
def values (given : List Given) (name : String) : List String :=
  (given.filter fun g => g.name == name).filterMap Given.value

/-- The value of an option, read by `item`, or none if it is not given. -/
def single? {α : Type} (item : String → Option α) (given : List Given) (name : String) :
    Option (Option α) :=
  match values given name with
  | [] => some none
  | v :: _ => (item v).map some

end CommandLine
end StreamEngine
