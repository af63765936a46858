import ChomskyNormal.Sampling

/-!
The arguments of the command line: a rule file, words, and options anywhere before a double dash.
They are taken from left to right, and the first one that is out of place makes the line unusable.
-/

set_option autoImplicit false
set_option relaxedAutoImplicit false

namespace ChomskyNormal

/-- Options that are on or off. -/
inductive Flag where
  | table
  | pretty
  | grammar
deriving DecidableEq

/-- Options that take a value. -/
inductive Setting where
  | start
  | amount
  | depth
deriving DecidableEq

/-- What a name of an option asks for. -/
inductive Choice where
  | flag (f : Flag)
  | setting (s : Setting)
  | version
deriving DecidableEq

/-- What the program is asked to do. -/
structure Invocation where
  file : Text
  words : List Text
  flags : List Flag
  start : Option Char
  amount : Nat
  depth : Nat
deriving DecidableEq

/-- What a command line comes to. -/
inductive Command where
  | run (i : Invocation)
  | version
  | misuse
deriving DecidableEq

namespace Choice

def ofLetter? : Char → Option Choice
  | 't' => some (.flag .table)
  | 'p' => some (.flag .pretty)
  | 'g' => some (.flag .grammar)
  | 's' => some (.setting .start)
  | 'n' => some (.setting .amount)
  | 'd' => some (.setting .depth)
  | 'V' => some .version
  | _ => none

def names : List (Text × Choice) :=
  [("table".toList, .flag .table), ("pretty".toList, .flag .pretty),
   ("grammar".toList, .flag .grammar), ("start".toList, .setting .start),
   ("amount".toList, .setting .amount), ("depth".toList, .setting .depth),
   ("version".toList, .version)]

def ofName? (name : Text) : Option Choice :=
  names.lookup name

end Choice

namespace CommandLine

/-- A number of decimal digits, at least one. -/
def digits? (t : Text) : Option Nat :=
  if t ≠ [] ∧ t.all Char.isDigit then
    some (t.foldl (fun n c => 10 * n + (c.toNat - '0'.toNat)) 0)
  else
    none

/-- Digits after an optional plus sign. -/
def unsigned? : Text → Option Nat
  | '+' :: t => digits? t
  | t => digits? t

/-- A number with an optional sign, as long as it is not negative. -/
def signed? : Text → Option Nat
  | '-' :: t => (digits? t).filter fun n => n == 0
  | t => unsigned? t

def maxAmount : Nat :=
  UInt32.size - 1

def maxDepth : Nat :=
  UInt64.size - 1

/-- The arguments taken so far. The values are those given; the setting that waits for the next
argument, if any, has been named but has no value yet. -/
structure Draft where
  positionals : List Text
  flags : List Flag
  start : Option Char
  amount : Option Nat
  depth : Option Nat
  waiting : Option Setting
  literal : Bool
deriving DecidableEq

def Draft.empty : Draft :=
  ⟨[], [], none, none, none, none, false⟩

/-- A draft, or the command that ends the taking of arguments. -/
abbrev Step := Except Command Draft

def misuse : Step :=
  .error .misuse

namespace Draft

/-- A flag may be raised once. -/
def raise (d : Draft) (f : Flag) : Step :=
  if f ∈ d.flags then misuse else .ok { d with flags := d.flags ++ [f] }

/-- A setting may be given once, and its value has to be of its kind. -/
def set (d : Draft) (s : Setting) (value : Text) : Step :=
  match s with
  | .start =>
      match d.start, value with
      | none, [c] => .ok { d with start := some c, waiting := none }
      | _, _ => misuse
  | .amount =>
      match d.amount, (signed? value).filter (· ≤ maxAmount) with
      | none, some n => .ok { d with amount := some n, waiting := none }
      | _, _ => misuse
  | .depth =>
      match d.depth, (unsigned? value).filter (· ≤ maxDepth) with
      | none, some n => .ok { d with depth := some n, waiting := none }
      | _, _ => misuse

/-- The first positional argument is the rule file, whose path cannot be empty. -/
def place (d : Draft) (arg : Text) : Step :=
  if d.positionals = [] ∧ arg = [] then misuse
  else .ok { d with positionals := d.positionals ++ [arg] }

/-- Letters after a single dash. A setting takes what follows it in the argument, after an equals
sign or at once; if nothing follows, it takes the next argument. -/
def letters (d : Draft) : Text → Step
  | [] => .ok d
  | c :: rest =>
      match Choice.ofLetter? c with
      | none => misuse
      | some .version => .error .version
      | some (.flag f) =>
          match d.raise f with
          | .ok d => letters d rest
          | .error e => .error e
      | some (.setting s) =>
          match rest with
          | [] => .ok { d with waiting := some s }
          | '=' :: value => d.set s value
          | value => d.set s value

/-- A full name after two dashes, with the value behind an equals sign if there is one. -/
def name (d : Draft) (key : Text) (value : Option Text) : Step :=
  match Choice.ofName? key, value with
  | some .version, none => .error .version
  | some (.flag f), none => d.raise f
  | some (.setting s), some v => d.set s v
  | some (.setting s), none => .ok { d with waiting := some s }
  | _, _ => misuse

/-- The parts of an argument before and behind its first equals sign. -/
def splitValue (t : Text) : Text × Option Text :=
  match t.dropWhile (· != '=') with
  | [] => (t, none)
  | _ :: value => (t.takeWhile (· != '='), some value)

/-- An argument that names options; none may come while a setting waits for its value. -/
def option (d : Draft) (take : Draft → Step) : Step :=
  if d.waiting = none then take d else misuse

/-- Take one argument. A lone dash and the empty argument name no options. -/
def take (d : Draft) (arg : Text) : Step :=
  if d.literal then d.place arg
  else
    match arg with
    | ['-', '-'] => d.option fun d => .ok { d with literal := true }
    | '-' :: '-' :: rest => d.option fun d => d.name (splitValue rest).1 (splitValue rest).2
    | '-' :: c :: rest => d.option fun d => d.letters (c :: rest)
    | _ =>
        match d.waiting with
        | some s => d.set s arg
        | none => d.place arg

/-- The command of a draft to which nothing is added: a rule file has to be named, and no setting
may wait for its value. -/
def finish (d : Draft) : Command :=
  match d.waiting, d.positionals with
  | none, file :: words =>
      .run ⟨file, words, d.flags, d.start, d.amount.getD 0, d.depth.getD Sampling.defaultDepth⟩
  | _, _ => .misuse

end Draft

def read (args : List Text) : Command :=
  match args.foldlM Draft.take Draft.empty with
  | .ok d => d.finish
  | .error command => command

end CommandLine

end ChomskyNormal
