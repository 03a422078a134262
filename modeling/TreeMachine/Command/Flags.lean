import TreeMachine.Text.Numeral
import TreeMachine.Text.Quoted

/-!
# Options on the command line

Options stand in front of the arguments, as `-name value`, `-name=value` or, for a switch,
`-name` alone; two dashes do as well as one. They end at the first argument that does not
look like one, and after `--`.
-/

namespace TreeMachine.Command

/-- What an option takes. -/
inductive Kind where
  | switch
  | int
  | word
  | text
  deriving Repr, DecidableEq

/-- The value of an option. -/
inductive Value where
  | switch (b : Bool)
  | int (n : Int64)
  | word (n : UInt64)
  | text (s : String)
  deriving Repr, DecidableEq

/-- Why options cannot be read. -/
inductive FlagProblem where
  | badForm (arg : String)
  | undefined (name : String)
  /-- Help was asked for. -/
  | help
  | needsValue (name : String)
  | badValue (value name : String) (why : Numeral.Problem)
  | badSwitch (value name : String)
  deriving Repr, DecidableEq

/-- The wording of a problem; asking for help has none. -/
def FlagProblem.message? : FlagProblem → Option String
  | .badForm arg => some s!"bad flag syntax: {arg}"
  | .undefined name => some s!"flag provided but not defined: -{name}"
  | .help => none
  | .needsValue name => some s!"flag needs an argument: -{name}"
  | .badValue value name why =>
    some s!"invalid value {Text.quote value} for flag -{name}: {why.message}"
  | .badSwitch value name =>
    some s!"invalid boolean value {Text.quote value} for -{name}: parse error"

def switch? (s : String) : Option Bool :=
  if ["1", "t", "T", "TRUE", "true", "True"].contains s then some true
  else if ["0", "f", "F", "FALSE", "false", "False"].contains s then some false
  else none

def Kind.read (name value : String) : Kind → Except FlagProblem Value
  | .switch =>
    match switch? value with
    | some b => .ok (.switch b)
    | none => .error (.badSwitch value name)
  | .int => ((Numeral.int64 value).map Value.int).mapError (.badValue value name)
  | .word => ((Numeral.uint64 value).map Value.word).mapError (.badValue value name)
  | .text => .ok (.text value)

/-- The options that were given, the latest first, and the arguments after them. -/
structure Flags where
  given : List (String × Value) := []
  args : List String := []
  deriving Repr, DecidableEq

namespace Flags

/-- What an argument is for the reading of options. -/
inductive Shape where
  /-- An argument of its own: options have ended before it. -/
  | plain
  /-- The mark after which options have ended. -/
  | stop
  | ill
  /-- An option, with its value if it has one in the same argument. -/
  | option (name : String) (value : Option String)
  deriving Repr, DecidableEq

/-- Cuts an option at its first equals sign, which is not its first character. -/
def splitValue (cs : List Char) : String × Option String :=
  match cs with
  | [] => ("", none)
  | c :: cs =>
    let name := String.ofList (c :: cs.takeWhile (· != '='))
    match cs.dropWhile (· != '=') with
    | [] => (name, none)
    | _ :: value => (name, some (String.ofList value))

def shape (arg : String) : Shape :=
  let named (cs : List Char) : Shape :=
    match cs with
    | [] | '-' :: _ | '=' :: _ => .ill
    | cs =>
      let (name, value) := splitValue cs
      .option name value
  match arg.toList with
  | '-' :: '-' :: [] => .stop
  | '-' :: '-' :: cs => named cs
  | '-' :: [] => .plain
  | '-' :: cs => named cs
  | _ => .plain

/-- Reads options from the front of the arguments. `kinds` gives the options there are. -/
def read (kinds : List (String × Kind)) (given : List (String × Value)) :
    List String → Except FlagProblem Flags
  | [] => .ok { given }
  | arg :: args =>
    match shape arg with
    | .plain => .ok { given, args := arg :: args }
    | .stop => .ok { given, args }
    | .ill => .error (.badForm arg)
    | .option name value =>
      match kinds.lookup name, value, args with
      | none, _, _ =>
        .error (if name == "help" || name == "h" then .help else .undefined name)
      | some kind, some value, args => do
        let v ← kind.read name value
        read kinds ((name, v) :: given) args
      | some .switch, none, args => read kinds ((name, .switch true) :: given) args
      | some _, none, [] => .error (.needsValue name)
      | some kind, none, value :: args => do
        let v ← kind.read name value
        read kinds ((name, v) :: given) args

def switch? (f : Flags) (name : String) : Option Bool :=
  match f.given.lookup name with
  | some (.switch b) => some b
  | _ => none

def int? (f : Flags) (name : String) : Option Int64 :=
  match f.given.lookup name with
  | some (.int n) => some n
  | _ => none

def word? (f : Flags) (name : String) : Option UInt64 :=
  match f.given.lookup name with
  | some (.word n) => some n
  | _ => none

def text? (f : Flags) (name : String) : Option String :=
  match f.given.lookup name with
  | some (.text s) => some s
  | _ => none

end Flags

end TreeMachine.Command
