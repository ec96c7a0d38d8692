/-!
# Command-line arguments

The words of a command line are settled from left to right. An option that takes a value has it
attached (`--in=src`, `-isrc`, `-i=src`) or as the next word; it is settled when the next option
starts, or at the end. The first problem decides what is wrong.
-/

namespace CustomElement.Project

structure Arguments where
  input : Option String := none
  out : Option String := none
  config : Option String := none
  watch : Bool := false
  strict : Bool := false
  silent : Bool := false
  verbose : Bool := false
  ignore : List String := []
deriving DecidableEq, Repr, Inhabited

inductive Stop where
  | unknownArgument
  /-- A value is missing, or is empty where a path is meant. -/
  | invalidValue
  /-- An option stands twice, or two options exclude each other. -/
  | conflict
  | tooManyValues
  | help
  | version
deriving DecidableEq, Repr

inductive LogLevel where
  | error
  | info
  | debug
deriving DecidableEq, Repr

def Arguments.logLevel (a : Arguments) : LogLevel :=
  if a.silent then .error else if a.verbose then .debug else .info

inductive ValueOption where
  | input
  | out
  | config
  | ignore
deriving DecidableEq, Repr

inductive Flag where
  | watch
  | strict
  | silent
  | verbose
  | help
  | version
deriving DecidableEq, Repr

inductive Switch where
  | option (o : ValueOption)
  | flag (f : Flag)
deriving DecidableEq, Repr

def Switch.ofLong? (name : String) : Option Switch :=
  match name with
  | "in" => some (.option .input)
  | "out" => some (.option .out)
  | "config" => some (.option .config)
  | "ignore" => some (.option .ignore)
  | "watch" => some (.flag .watch)
  | "strict" => some (.flag .strict)
  | "silent" => some (.flag .silent)
  | "verbose" => some (.flag .verbose)
  | "help" => some (.flag .help)
  | "version" => some (.flag .version)
  | _ => none

def Switch.ofShort? (c : Char) : Option Switch :=
  match c with
  | 'i' => some (.option .input)
  | 'o' => some (.option .out)
  | 'c' => some (.option .config)
  | 'w' => some (.flag .watch)
  | 'v' => some (.flag .verbose)
  | 'h' => some (.flag .help)
  | 'V' => some (.flag .version)
  | _ => none

namespace Arguments

def setPath (old : Option String) (value : String) : Except Stop (Option String) :=
  if old.isSome then .error .conflict
  else if value.isEmpty then .error .invalidValue
  else .ok (some value)

def setOption (a : Arguments) (o : ValueOption) (value : String) : Except Stop Arguments := do
  match o with
  | .input => return { a with input := ← setPath a.input value }
  | .out => return { a with out := ← setPath a.out value }
  | .config => return { a with config := ← setPath a.config value }
  | .ignore => return { a with ignore := a.ignore ++ [value] }

def setOnce (old : Bool) : Except Stop Bool := if old then .error .conflict else .ok true

def setFlag (a : Arguments) (f : Flag) : Except Stop Arguments := do
  match f with
  | .watch => return { a with watch := ← setOnce a.watch }
  | .strict => return { a with strict := ← setOnce a.strict }
  | .silent => return { a with silent := ← setOnce a.silent }
  | .verbose => return { a with verbose := ← setOnce a.verbose }
  | .help => throw .help
  | .version => throw .version

structure Pending where
  option : ValueOption
  value : Option String := none

structure Reading where
  given : Arguments := {}
  pending : Option Pending := none
  /-- The next word can be the value of the pending option. -/
  wantsValue : Bool := false
  /-- Only words that are no options follow. -/
  trailing : Bool := false

namespace Reading

def settle (r : Reading) : Except Stop Arguments :=
  match r.pending with
  | none => .ok r.given
  | some ⟨_, none⟩ => .error .invalidValue
  | some ⟨o, some value⟩ => r.given.setOption o value

/-- The reading after a switch with the text attached to it, if any. -/
def switch (r : Reading) (s : Switch) (attached : Option String) : Except Stop Reading :=
  match s, attached with
  | .flag _, some _ => .error .tooManyValues
  | .flag f, none => do
    let given ← (← r.settle).setFlag f
    return { given }
  | .option o, some value => do
    let given ← (← r.settle).setOption o value
    return { given }
  | .option o, none => do
    let given ← r.settle
    return { given, pending := some ⟨o, none⟩, wantsValue := true }

/-- The reading after a word that starts with two hyphens, without them. -/
def long (r : Reading) (word : List Char) : Except Stop Reading :=
  let name := word.takeWhile (· != '=')
  match Switch.ofLong? (String.ofList name), word.drop name.length with
  | some s, [] => r.switch s none
  | some s, _ :: value => r.switch s (some (String.ofList value))
  | none, _ => .error .unknownArgument

/-- The reading after a word that starts with one hyphen, without it: flags, and maybe an option with the rest of the word
attached. -/
def short (r : Reading) : List Char → Except Stop Reading
  | [] => .ok r
  | c :: rest =>
    match Switch.ofShort? c with
    | none => .error .unknownArgument
    | some (.flag f) => do
      let r ← r.switch (.flag f) none
      r.short rest
    | some (.option o) =>
      match rest with
      | [] => r.switch (.option o) none
      | '=' :: value => r.switch (.option o) (some (String.ofList value))
      | value => r.switch (.option o) (some (String.ofList value))

def plain (r : Reading) (word : List Char) : Except Stop Reading :=
  match r.pending with
  | some pending =>
    if r.wantsValue && !r.trailing then
      .ok { r with pending := some { pending with value := String.ofList word }, wantsValue := false }
    else .error .unknownArgument
  | none => .error .unknownArgument

def word (r : Reading) (w : String) : Except Stop Reading :=
  if r.trailing then r.plain w.toList
  else
    match w.toList with
    | ['-', '-'] => .ok { r with trailing := true }
    | '-' :: '-' :: rest => r.long rest
    | '-' :: c :: rest => r.short (c :: rest)
    | cs => r.plain cs

end Reading

def parse (words : List String) : Except Stop Arguments := do
  let r ← words.foldlM Reading.word {}
  let given ← r.settle
  if given.silent && given.verbose then throw .conflict
  return given

end Arguments

end CustomElement.Project
