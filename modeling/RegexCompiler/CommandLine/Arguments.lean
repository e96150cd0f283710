namespace RegexCompiler.CommandLine

structure OptionSpec where
  name : String
  isFlag : Bool
  valid : String → Bool

namespace OptionSpec

def flag (name : String) : OptionSpec := ⟨name, true, fun _ ↦ true⟩

def text (name : String) : OptionSpec := ⟨name, false, fun _ ↦ true⟩

def restricted (name : String) (valid : String → Bool) : OptionSpec := ⟨name, false, valid⟩

end OptionSpec

structure Usage where
  options : List OptionSpec
  plainArguments : Nat := 0
  hasVersion : Bool := false

inductive UsageError where
  | unknownArgument
  | tooManyValues
  | emptyValue
  | invalidValue
  | unexpectedMultipleUsage
  | displayHelp
  | displayVersion
deriving DecidableEq

inductive Argument where
  /-- All arguments after it are plain. -/
  | separator
  | long (name : String) (value : Option String)
  | short (letter : Char)
  | plain (text : String)

namespace Argument

/-- The value of a long option follows its first equality sign. A single hyphen is plain. -/
def ofString (text : String) : Argument :=
  match text.toList with
  | ['-', '-'] => separator
  | '-' :: '-' :: body =>
    let name := String.ofList (body.takeWhile (· ≠ '='))
    match body.dropWhile (· ≠ '=') with
    | [] => long name none
    | _ :: value => long name (some (String.ofList value))
  | '-' :: letter :: _ => short letter
  | _ => plain text

end Argument

structure Arguments where
  options : List (String × Option String) := []
  plain : List String := []

namespace Arguments

def addOption (arguments : Arguments) (name : String) (value : Option String) : Arguments :=
  { arguments with options := arguments.options ++ [(name, value)] }

def addPlain (usage : Usage) (arguments : Arguments) (text : String) : Except UsageError Arguments :=
  if arguments.plain.length < usage.plainArguments then
    .ok { arguments with plain := arguments.plain ++ [text] }
  else .error .unknownArgument

def shortError (usage : Usage) (letter : Char) : UsageError :=
  if letter = 'h' then .displayHelp
  else if letter = 'V' && usage.hasVersion then .displayVersion
  else .unknownArgument

def longError (usage : Usage) (name : String) (value : Option String) : UsageError :=
  if name = "help" || (name = "version" && usage.hasVersion) then
    if value.isSome then .tooManyValues
    else if name = "help" then .displayHelp
    else .displayVersion
  else .unknownArgument

def takesNext (usage : Usage) (name : String) (value : Option String) : Except UsageError Bool :=
  match usage.options.find? fun option ↦ option.name = name with
  | none => .error (longError usage name value)
  | some option =>
    if option.isFlag then
      if value.isSome then .error .tooManyValues else .ok false
    else .ok value.isNone

def settle (arguments : Arguments) (awaiting : Option String) : Arguments :=
  match awaiting with
  | none => arguments
  | some name => arguments.addOption name none

def values (arguments : Arguments) (name : String) : List String :=
  arguments.options.filterMap fun option ↦ if option.1 = name then option.2 else none

/-- Ends the reading. An option that is still awaiting a value may have got one where it was given before. -/
def finish (arguments : Arguments) : Option String → Except UsageError Arguments
  | none => .ok arguments
  | some name =>
    if (arguments.values name).isEmpty then .error .emptyValue else .ok (arguments.addOption name none)

/-- Reads arguments from left to right. The option that is `awaiting` a value takes the next argument only
if that one is plain. -/
def read (usage : Usage) (arguments : Arguments) (awaiting : Option String) :
    List String → Except UsageError Arguments
  | [] => arguments.finish awaiting
  | text :: rest =>
    match Argument.ofString text, awaiting with
    | .plain text, some name => read usage (arguments.addOption name (some text)) none rest
    | .plain text, none =>
      match addPlain usage arguments text with
      | .error error => .error error
      | .ok arguments => read usage arguments none rest
    | .separator, awaiting =>
      if rest.isEmpty then arguments.finish awaiting
      else rest.foldlM (addPlain usage) (arguments.settle awaiting)
    | .short letter, _ => .error (shortError usage letter)
    | .long name value, awaiting =>
      match takesNext usage name value with
      | .error error => .error error
      | .ok true => read usage (arguments.settle awaiting) (some name) rest
      | .ok false => read usage ((arguments.settle awaiting).addOption name value) none rest

def isGiven (arguments : Arguments) (name : String) : Bool :=
  arguments.options.any fun option ↦ option.1 = name

def misuse? (arguments : Arguments) (option : OptionSpec) : Option UsageError :=
  let values := arguments.values option.name
  if !option.isFlag && values.isEmpty then some .emptyValue
  else if !values.all option.valid then some .invalidValue
  else if 1 < arguments.options.countP fun given ↦ given.1 = option.name then
    some .unexpectedMultipleUsage
  else none

/-- Arguments are read to the end before the use of the options is checked, in the order in which they
were given. -/
def ofStrings (usage : Usage) (texts : List String) : Except UsageError Arguments :=
  match read usage {} none texts with
  | .error error => .error error
  | .ok arguments =>
    let misuses := arguments.options.filterMap fun given ↦
      (usage.options.find? fun option ↦ option.name = given.1).bind arguments.misuse?
    match misuses with
    | error :: _ => .error error
    | [] => .ok arguments

def value (arguments : Arguments) (name default : String) : String :=
  (arguments.values name).headD default

end Arguments

def number? (text : String) : Option Nat :=
  let digits := match text.toList with
    | '+' :: digits => digits
    | digits => digits
  let value := digits.foldl (fun n c ↦ 10 * n + (c.toNat - '0'.toNat)) 0
  if !digits.isEmpty && digits.all Char.isDigit && value < 1 <<< 64 then some value else none

end RegexCompiler.CommandLine
