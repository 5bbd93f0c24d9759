import Lox.Number.Numeral
import Lox.Text.Quoted

/-!
The options of the command line. Options and the script may stand in any order; long options may
be shortened as long as one fits, short ones may be joined, and two dashes end the options.
-/
namespace Lox.Command

inductive Flag where
  | help
  | verbose
  | emitTree
  | runTree
  deriving DecidableEq

namespace Flag

/-- How flags are spelled, in the order in which they are tried. -/
def spellings : List (String × Flag) :=
  [("-h", .help), ("--help", .help), ("-v", .verbose), ("--emit-ast", .emitTree),
    ("--ast", .runTree)]

def spelled? (text : String) : Option Flag := spellings.lookup text

def name : Flag → String
  | .help => "-h/--help"
  | .verbose => "-v"
  | .emitTree => "--emit-ast"
  | .runTree => "--ast"

def takesValue : Flag → Bool
  | .help | .verbose => false
  | .emitTree | .runTree => true

end Flag

structure Options where
  verbosity : Nat := 0
  emitTree : Option String := none
  runTree : Option String := none
  script : Option String := none

inductive UsageError where
  | ambiguous (given : String) (candidates : List String)
  | expectedValue (flag : Flag)
  | ignoredValue (flag : Flag) (given : String)
  | conflict (flag earlier : Flag)
  | unrecognized (arguments : List String)

def UsageError.message : UsageError → String
  | .ambiguous given candidates =>
    "ambiguous option: " ++ given ++ " could match " ++ ", ".intercalate candidates
  | .expectedValue flag => "argument " ++ flag.name ++ ": expected one argument"
  | .ignoredValue flag given =>
    "argument " ++ flag.name ++ ": ignored explicit argument " ++ Text.quoted given
  | .conflict flag earlier =>
    "argument " ++ flag.name ++ ": not allowed with argument " ++ earlier.name
  | .unrecognized arguments => "unrecognized arguments: " ++ " ".intercalate arguments

/-- Why no options come out: help was asked for, the usage is wrong, or the value of an option
was two dashes, which cannot be taken in. -/
inductive Stop where
  | help
  | usage (e : UsageError)
  | unusableValue

inductive Item where
  | flag (flag : Flag) (short : Bool) (given : Option String)
  | unknown (text : String)
  | plain (text : String)
  | endMark

def isShort (spelling : String) : Bool := decide (spelling.length = 2)

def splitValue (text : List Char) : List Char × Option String :=
  match text.dropWhile (· ≠ '=') with
  | [] => (text, none)
  | _ :: value => (text.takeWhile (· ≠ '='), some (String.ofList value))

/-- The flags that an argument may be short for, with their spellings and values. Two letters at
the start of a joined group are a flag with the rest as its value. -/
def candidates (text : List Char) : List (String × Flag × Option String) :=
  match text with
  | '-' :: '-' :: _ =>
    let (start, value) := splitValue text
    (Flag.spellings.filter fun (s, _) => start.isPrefixOf s.toList).map
      fun (s, flag) => (s, flag, value)
  | _ =>
    Flag.spellings.filterMap fun (s, flag) =>
      if s.toList = text.take 2 then some (s, flag, some (String.ofList (text.drop 2)))
      else if text.isPrefixOf s.toList then some (s, flag, none)
      else none

def isNegativeNumber : List Char → Bool
  | '-' :: text =>
    let text := if text.getLast? = some '\n' then text.dropLast else text
    match text.dropWhile Text.isDigit with
    | [] => !text.isEmpty
    | '.' :: fraction => !fraction.isEmpty && fraction.all Text.isDigit
    | _ => false
  | _ => false

def classify (argument : String) : Except UsageError Item :=
  let text := argument.toList
  if text.head? ≠ some '-' ∨ text = ['-'] then .ok (.plain argument)
  else
    match Flag.spelled? argument with
    | some flag => .ok (.flag flag (isShort argument) none)
    | none =>
      let (start, value) := splitValue text
      match Flag.spelled? (String.ofList start), value with
      | some flag, some value => .ok (.flag flag (isShort (String.ofList start)) (some value))
      | _, _ =>
        match candidates text with
        | [(s, flag, value)] => .ok (.flag flag (isShort s) value)
        | [] =>
          if isNegativeNumber text ∨ text.contains ' ' then .ok (.plain argument)
          else .ok (.unknown argument)
        | several => .error (.ambiguous argument (several.map (·.1)))

def classifyAll : List String → Except UsageError (List Item)
  | [] => .ok []
  | argument :: rest =>
    if argument = "--" then .ok (.endMark :: rest.map .plain)
    else do
      let item ← classify argument
      return item :: (← classifyAll rest)

def joined (flag : Flag) : List Char → Except UsageError (List Flag)
  | [] => .ok [flag]
  | c :: r =>
    match Flag.spelled? (String.ofList ['-', c]) with
    | some next => return flag :: (← joined next r)
    | none => .error (.ignoredValue flag (String.ofList (c :: r)))

structure Reading where
  options : Options := {}
  /-- Whether the place of the script has been filled. -/
  placed : Bool := false
  extras : List String := []

namespace Reading

def skip (r : Reading) (text : String) : Reading := { r with extras := r.extras ++ [text] }

def place (r : Reading) (script : Option String) : Reading :=
  { r with options := { r.options with script := script }, placed := true }

def raise (r : Reading) : Flag → Except Stop Reading
  | .help => .error .help
  | _ => .ok { r with options := { r.options with verbosity := r.options.verbosity + 1 } }

def raiseAll (r : Reading) : List Flag → Except Stop Reading
  | [] => .ok r
  | flag :: rest => do (← r.raise flag).raiseAll rest

/-- Takes in a flag with its value. The two that name trees exclude each other. -/
def give (r : Reading) (flag : Flag) (value : String) : Except Stop Reading :=
  if value = "--" then .error .unusableValue
  else
    match flag with
    | .emitTree =>
      if r.options.runTree.isSome then .error (.usage (.conflict flag .runTree))
      else .ok { r with options := { r.options with emitTree := some value } }
    | _ =>
      if r.options.emitTree.isSome then .error (.usage (.conflict flag .emitTree))
      else .ok { r with options := { r.options with runTree := some value } }

def giveInline (r : Reading) (flag : Flag) (short : Bool) (value : String) :
    Except Stop Reading :=
  if flag.takesValue then r.give flag value
  else if short ∧ value ≠ "" then
    match joined flag value.toList with
    | .ok flags => r.raiseAll flags
    | .error e => .error (.usage e)
  else .error (.usage (.ignoredValue flag value))

end Reading

/-- Takes in the items from left to right. The first plain one is the script; the mark that ends
the options goes with it, before or behind. -/
def takeIn (r : Reading) : List Item → Except Stop Reading
  | [] => .ok r
  | .unknown text :: rest => takeIn (r.skip text) rest
  | .plain text :: .endMark :: rest =>
    if r.placed then takeIn ((r.skip text).skip "--") rest
    else takeIn (r.place (some text)) rest
  | .plain text :: rest =>
    if r.placed then takeIn (r.skip text) rest else takeIn (r.place (some text)) rest
  | .endMark :: .plain text :: rest =>
    if r.placed then takeIn ((r.skip "--").skip text) rest
    else takeIn (r.place (some text)) rest
  | .endMark :: rest =>
    if r.placed then takeIn (r.skip "--") rest else takeIn (r.place none) rest
  | .flag flag short (some value) :: rest => do takeIn (← r.giveInline flag short value) rest
  | .flag flag _ none :: rest =>
    if flag.takesValue then
      match rest with
      | .plain value :: rest => do takeIn (← r.give flag value) rest
      | _ => .error (.usage (.expectedValue flag))
    else do takeIn (← r.raise flag) rest

def parseOptions (arguments : List String) : Except Stop Options :=
  match classifyAll arguments with
  | .error e => .error (.usage e)
  | .ok items => do
    let r ← takeIn {} items
    if r.extras.isEmpty then .ok r.options else .error (.usage (.unrecognized r.extras))

end Lox.Command
