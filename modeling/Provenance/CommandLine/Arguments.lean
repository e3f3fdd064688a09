/-
Arguments of a command.

An argument is an option if it begins with a hyphen and a value otherwise, with
these corners: a lone hyphen, a negative number and anything with a space that
is no option are values; after a double hyphen everything is a value. A long
option may be cut short as long as only one option begins so, and its value may
follow after an equals sign. The double hyphen is no value itself: an option that
is given one after an equals sign is given nothing. Options that are not known
are not refused at once, since asking for help still counts after them.

Reading stops early in two ways: help is asked for, or the arguments make no
sense. Which comes first decides, except that an option that is cut too short
counts before everything else.
-/
import Provenance.Text.Basic
import Provenance.Text.Decimal

set_option autoImplicit false

namespace Provenance.Arguments

/-! ## Options -/

/-- How reading stops early. -/
inductive Stop where
  | help
  | misuse
  deriving DecidableEq, Repr

/-- An option that takes a value; if there are choices the value is one of them. -/
structure ValueOption where
  name : Text
  choices : List Text
  deriving DecidableEq, Repr

/-- The two spellings of the option that asks for help. -/
def helpNames : List Text := ["-h".toList, "--help".toList]

/-- What an argument is. -/
inductive Token where
  /-- a value, or a name that stands for itself -/
  | value (t : Text)
  /-- the double hyphen -/
  | mark
  /-- an option that takes a value, and the value after an equals sign -/
  | option (o : ValueOption) (given : Option Text)
  /-- the option that asks for help; `sound` tells whether nothing is attached to it that it cannot
  take -/
  | help (sound : Bool)
  | unknown (t : Text)
  deriving DecidableEq, Repr

/-- Whether a text is a negative number. -/
def isNegativeNumber (t : Text) : Bool :=
  let t := if t.endsWith ['\n'] then t.dropLast else t
  match t with
  | '-' :: rest =>
    match rest.dropWhile isDecimal with
    | [] => !rest.isEmpty
    | '.' :: digits => !digits.isEmpty && digits.all isDecimal
    | _ => false
  | _ => false

/-- Whether help is all that is asked for by letters that follow `-h` directly or after an equals
sign; there is at least one. -/
def isMoreHelp (letters : Text) : Bool := !letters.isEmpty && letters.all (· = 'h')

/-- A text cut at its first equals sign. -/
def cutAtEquals (t : Text) : Text × Option Text :=
  match t.dropWhile (· ≠ '=') with
  | [] => (t, none)
  | _ :: after => (t.takeWhile (· ≠ '='), some after)

/-- The token for an option known by its full name, or for help. -/
def named (options : List ValueOption) (name : Text) (given : Option Text) : Option Token :=
  if name = "-h".toList then some (.help (given.all isMoreHelp))
  else if name = "--help".toList then some (.help given.isNone)
  else (options.find? (·.name = name)).map (.option · given)

/-- The tokens for the options that a name may be cut short for. -/
def abbreviated (options : List ValueOption) (name : Text) (given : Option Text) : List Token :=
  (helpNames ++ options.map ValueOption.name).filterMap fun full =>
    if full.startsWith name then named options full given else none

/-- What an argument is that begins with a hyphen and is no option's name. -/
def otherToken (t : Text) : Token :=
  if isNegativeNumber t || t.contains ' ' then .value t else .unknown t

/-- What an argument is. -/
def tokenOf (options : List ValueOption) (t : Text) : Except Stop Token :=
  match t with
  | '-' :: c :: rest =>
    match named options t none with
    | some token => .ok token
    | none =>
      let (name, given) := cutAtEquals t
      match given.bind fun _ => named options name given with
      | some token => .ok token
      | none =>
        if c = '-' then
          match abbreviated options name given with
          | [] => .ok (otherToken t)
          | [token] => .ok token
          | _ => .error .misuse
        else if c = 'h' then .ok (.help (isMoreHelp rest))
        else .ok (otherToken t)
  | _ => .ok (.value t)

/-- What the arguments are, up to the double hyphen and after it. -/
def tokensOf (options : List ValueOption) : List Text → Except Stop (List Token)
  | [] => .ok []
  | t :: rest =>
    if t = ['-', '-'] then .ok (.mark :: rest.map .value)
    else match tokenOf options t with
      | .error e => .error e
      | .ok token => (tokensOf options rest).map (token :: ·)

/-! ## Reading -/

/-- What an option is given: a text, or nothing. -/
abbrev Value := Option Text

/-- What the options are given in the order in which they are. -/
abbrev Given := List (Text × Value)

/-- What an option was given last. -/
def lastGiven (name : Text) (given : Given) : Option Value := given.reverse.lookup name

/-- All texts given for an option. -/
def allGiven (name : Text) (given : Given) : List Text :=
  (given.filter (·.1 = name)).filterMap Prod.snd

/-- What an option is given by a text after an equals sign. -/
def valueOf (t : Text) : Value := if t = ['-', '-'] then none else some t

/-- Whether an option takes what it is given; there is no choice in nothing. -/
def ValueOption.takes (o : ValueOption) (value : Value) : Bool :=
  o.choices.isEmpty || value.all o.choices.contains

/-- Reads options, with or without unknown ones, up to the first value. The result is what they were
given, whether some were unknown, and the tokens from the first value on. -/
def readOptions : Given → Bool → List Token → Except Stop (Given × Bool × List Token)
  | given, strange, [] => .ok (given, strange, [])
  | given, strange, token :: rest =>
    match token with
    | .value _ => .ok (given, strange, token :: rest)
    | .mark => .ok (given, strange, token :: rest)
    | .unknown _ => readOptions given true rest
    | .help sound => .error (if sound then .help else .misuse)
    | .option o (some t) =>
      if o.takes (valueOf t) then readOptions (given ++ [(o.name, valueOf t)]) strange rest
      else .error .misuse
    | .option o none =>
      match rest with
      | .value t :: rest =>
        if o.takes (some t) then readOptions (given ++ [(o.name, some t)]) strange rest
        else .error .misuse
      | _ => .error .misuse

/-- Whether a token is a value or the double hyphen. -/
def Token.isPlain : Token → Bool
  | .value _ => true
  | .mark => true
  | _ => false

/-- The values of tokens; the double hyphen that ended the options is none of them. -/
def valuesOf (tokens : List Token) : List Text :=
  tokens.filterMap fun
    | .value t => some t
    | _ => none

/-- Reads options and one run of values among them. The result is what the options were given, the
values, and whether something was left that has no meaning. The number bounds how often options and
values take turns. -/
def readAll : Nat → Given → List Text → Bool → List Token → Except Stop (Given × List Text × Bool)
  | 0, given, values, strange, _ => .ok (given, values, strange)
  | turns + 1, given, values, strange, tokens =>
    match readOptions given strange tokens with
    | .error e => .error e
    | .ok (given, strange, []) => .ok (given, values, strange)
    | .ok (given, strange, rest) =>
      let found := valuesOf (rest.takeWhile Token.isPlain)
      let later := rest.dropWhile Token.isPlain
      if values.isEmpty && !found.isEmpty then readAll turns given found strange later
      else readAll turns given values true later

end Provenance.Arguments
