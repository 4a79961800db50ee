import GrantCache.Health
import GrantCache.Json.Writer
import GrantCache.Settings.Loading
import GrantCache.Startup

/-!
# The command line

```text
[--config FILE] status
                get-roles USER              get-permissions USER
                invalidate-role CODE...     invalidate-permission CODE...
                invalidate-user USER        flush
```

The answer is written as JSON. Exit codes: 0, 1 for settings that were not accepted, 2 for arguments
that make no sense.
-/

namespace GrantCache.CommandLine

/-! ### Commands -/

/-- What can be asked for. -/
inductive Command where
  | status
  | codesOf (kind : GrantKind) (user : String)
  | invalidate (kind : GrantKind) (codes : List String)
  | clear (user : String)
  | flush
deriving DecidableEq, Inhabited

/-- What arguments say: that help is wanted, or what is to be done with which settings. -/
inductive Wish where
  | help
  | command (settingsFile : Option String) (c : Command)
deriving DecidableEq, Inhabited

/-- What a command takes: nothing, one text, or at least one. -/
inductive Operands where
  | none (c : Command)
  | one (c : String → Command)
  | some (c : List String → Command)

/-- The commands by name. -/
def Operands.named? : String → Option Operands
  | "status" => .some (.none .status)
  | "get-roles" => .some (.one (.codesOf .role))
  | "get-permissions" => .some (.one (.codesOf .permission))
  | "invalidate-role" => .some (.some (.invalidate .role))
  | "invalidate-permission" => .some (.some (.invalidate .permission))
  | "invalidate-user" => .some (.one .clear)
  | "flush" => .some (.none .flush)
  | _ => .none

def Operands.command? : Operands → List String → Option Command
  | .none c, [] => .some c
  | .one c, [x] => .some (c x)
  | .some c, x :: rest => .some (c (x :: rest))
  | _, _ => .none

/-- Whether one more operand is one too many. -/
def Operands.isFull : Operands → List String → Bool
  | .none _, _ => true
  | .one _, given => !given.isEmpty
  | .some _, _ => false

/-! ### Arguments -/

/-- What an argument looks like before it is known what it stands for. -/
inductive Look where
  /-- Two dashes: only operands follow. -/
  | divider
  /-- An option by its long name, and the text after an equals sign. -/
  | long (name : String) (value : Option String)
  /-- An option by its letter, and the text after it. -/
  | short (letter : Char) (rest : String)
  | operand (s : String)
deriving DecidableEq

def look (arg : String) : Look :=
  match arg.toList with
  | ['-', '-'] => .divider
  | '-' :: '-' :: rest =>
    let name := String.ofList (rest.takeWhile (· ≠ '='))
    match rest.dropWhile (· ≠ '=') with
    | _ :: value => .long name (some (String.ofList value))
    | [] => .long name none
  | '-' :: letter :: rest => .short letter (String.ofList rest)
  | _ => .operand arg

/-- The operands of a command, up to the end of the arguments. Only a request for help may stand among
them. -/
def operands (o : Operands) (given : List String) (divided : Bool) : List String → Option Wish
  | [] => (o.command? given).map fun c => .command none c
  | arg :: rest =>
    let take : Option Wish :=
      if o.isFull given then none else operands o (given ++ [arg]) divided rest
    if divided then take
    else
      match look arg with
      | .divider => operands o given true rest
      | .long "help" none => some .help
      | .short 'h' _ => some .help
      | .operand _ => take
      | _ => none

def namesHelp : List String → Bool
  | [] => true
  | [name] => (Operands.named? name).isSome || name = "help"
  | _ => false

/-- Whether a file may be named: only once, and not by an empty name. -/
def mayName (settingsFile : Option String) (value : String) : Bool :=
  settingsFile.isNone && !value.isEmpty

def isOperand (arg : String) : Bool :=
  match look arg with
  | .operand _ => true
  | _ => false

/-- Arguments from the start: options, then a command with its operands. -/
def wish? (settingsFile : Option String) : List String → Option Wish
  | [] => none
  | arg :: rest =>
    let named (value : String) : Bool := mayName settingsFile value
    match look arg, rest with
    | .long "help" none, _ => some .help
    | .long "config" (some value), rest =>
      if named value then wish? (some value) rest else none
    | .long "config" none, value :: rest =>
      if isOperand value && named value then wish? (some value) rest else none
    | .short 'h' _, _ => some .help
    | .short 'c' "", value :: rest =>
      if isOperand value && named value then wish? (some value) rest else none
    | .short 'c' text, rest =>
      let value := if text.startsWith "=" then String.ofList (text.toList.drop 1) else text
      if named value then wish? (some value) rest else none
    | .operand "help", rest => if namesHelp rest then some .help else none
    | .operand name, rest =>
      match (Operands.named? name).bind fun o => operands o [] false rest with
      | some (.command _ c) => some (.command settingsFile c)
      | other => other
    | _, _ => none

/-- The file with the settings, if the arguments name one. -/
def settingsFile? (args : List String) : Option String :=
  match wish? none args with
  | some (.command file _) => file
  | _ => none

/-! ### Text for diagnosis -/

/-- Whether a character stands for itself in a text for diagnosis. -/
def isVisible (c : Char) : Bool :=
  let n := c.toNat
  let hidden : List (Nat × Nat) :=
    [(0, 0x1f), (0x7f, 0xa0), (0xad, 0xad), (0x300, 0x36f), (0x483, 0x489), (0x600, 0x605),
      (0x61c, 0x61c), (0x6dd, 0x6dd), (0x70f, 0x70f), (0x1680, 0x1680), (0x180e, 0x180e),
      (0x1ab0, 0x1ace), (0x1dc0, 0x1dff), (0x2000, 0x200f), (0x2028, 0x202f), (0x205f, 0x206f),
      (0x20d0, 0x20f0), (0x3000, 0x3000), (0x302a, 0x302f), (0x3099, 0x309a), (0xe000, 0xf8ff),
      (0xfe00, 0xfe0f), (0xfe20, 0xfe2f), (0xfeff, 0xfeff), (0xfff0, 0xfffb), (0xfffe, 0xffff),
      (0xe0000, 0x10ffff)]
  !hidden.any fun r => r.1 ≤ n && n ≤ r.2

def diagnosticChar (c : Char) : List Char :=
  if c = '"' then ['\\', '"']
  else if c = '\\' then ['\\', '\\']
  else if c = '\n' then ['\\', 'n']
  else if c = '\r' then ['\\', 'r']
  else if c = '\t' then ['\\', 't']
  else if c.toNat = 0 then ['\\', '0']
  else if isVisible c then [c]
  else ['\\', 'u', '\x7b'] ++ Nat.toDigits 16 c.toNat ++ ['\x7d']

/-- A text between quotes, such that every character can be told from every other. -/
def diagnostic (s : String) : String :=
  String.ofList ('"' :: s.toList.flatMap diagnosticChar ++ ['"'])

def defectText (d : Settings.Defect) : String :=
  "ValidationError \x7b field: " ++ diagnostic d.field ++ ", message: " ++ diagnostic d.message ++
    " \x7d"

/-- What is written about settings that were not accepted. -/
def refusalText : Settings.Refusal → String
  | .unfit defects => "Error: Validation([" ++ ", ".intercalate (defects.map defectText) ++ "])\n"
  | r => "Error: " ++ r.message ++ "\n"

/-! ### Doing it -/

structure Outcome where
  code : UInt32
  out : String := ""
  err : String := ""
  /-- The commands that reached the remote store, in order. -/
  sent : List GrantCache.Command := []
deriving Inhabited

/-- What a command is answered, as JSON. -/
def answer (c : Command) (g : Grants) : Json × Grants :=
  match c with
  | .status =>
    let (health, g) := g.health
    (health.json, g)
  | .codesOf kind user =>
    let (codes, g) := g.get kind user
    let value := ((codes.bind id).map Json.texts).getD .null
    (.object [("user_id", .str user), (kind.name ++ "s", value)], g)
  | .invalidate kind codes =>
    let (cleared, g) := g.invalidateAll kind codes
    (.object [(kind.name ++ "s", .texts codes), ("cleared_users", .int (cleared.getD 0))], g)
  | .clear user =>
    let (cleared, g) := g.deleteUser user
    (.object [("user_id", .str user), ("cleared", .bool (cleared.getD false))], g)
  | .flush =>
    let (removed, g) := g.flush
    (.object [("removed_keys", .int (removed.getD 0))], g)

/-- The commands that reached the remote store, also when the service went on without it. -/
def sentBy (s : Service) (link : Link) : List GrantCache.Command :=
  match s.grants.host.backend with
  | .remote remote => remote.link.sent.reverse
  | _ => link.sent.reverse

def perform (c : Command) (settings : Settings) (link : Link) : Outcome :=
  let (service, link) := Service.start settings link
  let (json, grants) := answer c service.grants
  let service := { service with grants }.stop
  { code := 0, out := json.pretty ++ "\n", sent := sentBy service link }

/-- What is written when arguments make no sense. -/
def usage : String :=
  "Usage: [--config FILE] status | get-roles USER | get-permissions USER | " ++
    "invalidate-role CODE... | invalidate-permission CODE... | invalidate-user USER | flush\n"

/-- Do what arguments ask for, given the bytes of the file that they name and a link to the remote
store. -/
def run (args : List String) (content : Option ByteArray) (link : Link) : Outcome :=
  match wish? none args with
  | none => { code := 2, err := usage }
  | some .help => { code := 0, out := usage }
  | some (.command file c) =>
    match if file.isSome then Settings.load content else .ok {} with
    | .ok settings => perform c settings link
    | .error refusal => { code := 1, err := refusalText refusal }

end GrantCache.CommandLine
