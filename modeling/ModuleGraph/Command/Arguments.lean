import ModuleGraph.Decimal.Text
import ModuleGraph.Export.Render
import ModuleGraph.Path
import ModuleGraph.Text.Basic

namespace ModuleGraph

/-- What arguments can set; nothing may be set twice. -/
structure Arguments where
  root : Option Path := none
  format : Option Format := none
  maxNodes : Option Nat := none
  verbose : Bool := false
  deriving DecidableEq, Repr

inductive Invocation where
  | help
  | version
  | analyse (arguments : Arguments)
  deriving DecidableEq, Repr

inductive Switch where
  | format
  | maxNodes
  | verbose
  | help
  | version
  deriving DecidableEq, Repr

namespace Switch

def all : List Switch :=
  [.format, .maxNodes, .verbose, .help, .version]

def longName : Switch → String
  | .format => "format"
  | .maxNodes => "max-nodes"
  | .verbose => "verbose"
  | .help => "help"
  | .version => "version"

def letter? : Switch → Option Char
  | .format => some 'f'
  | .maxNodes => none
  | .verbose => some 'v'
  | .help => some 'h'
  | .version => some 'V'

def ofLongName? (name : String) : Option Switch :=
  all.find? (·.longName == name)

def ofLetter? (c : Char) : Option Switch :=
  all.find? (·.letter? == some c)

def takesValue : Switch → Bool
  | .format => true
  | .maxNodes => true
  | _ => false

end Switch

/-- A count as an argument: digits, before which a plus sign may stand, below 2^64. -/
def readCount? (s : String) : Option Nat :=
  let digits := match s.toList with
    | '+' :: rest => rest
    | rest => rest
  if digits.isEmpty ∨ !digits.all Char.isDigit then none
  else
    let n := Decimal.ofDigits digits
    if n < Nat.pow 2 64 then some n else none

namespace Arguments

/-- Takes the project directory, which cannot be the empty path. -/
def setRoot? (a : Arguments) (s : String) : Option Arguments :=
  if a.root.isSome ∨ s = "" then none else some { a with root := some ⟨s⟩ }

def setValue? (a : Arguments) (switch : Switch) (s : String) : Option Arguments :=
  match switch with
  | .format =>
    if a.format.isSome then none
    else (Format.ofName? s).map fun f => { a with format := some f }
  | .maxNodes =>
    if a.maxNodes.isSome then none
    else (readCount? s).map fun n => { a with maxNodes := some n }
  | _ => none

/-- What has been read when an argument ends. -/
inductive Step where
  | go (a : Arguments)
  /-- The next argument is the value of an option. -/
  | await (switch : Switch) (a : Arguments)
  | stop (i : Invocation)

def raise? (a : Arguments) : Switch → Option Step
  | .verbose => if a.verbose then none else some (.go { a with verbose := true })
  | .help => some (.stop .help)
  | .version => some (.stop .version)
  | _ => none

/-- Reads option letters. The first one that takes a value takes the rest of the argument, if there is one,
and an equals sign may stand between. -/
def readLetters? (a : Arguments) : List Char → Option Step
  | [] => some (.go a)
  | c :: cs => do
    let switch ← Switch.ofLetter? c
    if switch.takesValue then
      match cs with
      | [] => return .await switch a
      | '=' :: value => return .go (← a.setValue? switch (String.ofList value))
      | value => return .go (← a.setValue? switch (String.ofList value))
    else
      match ← a.raise? switch with
      | .go a => readLetters? a cs
      | step => return step

/-- Reads an option by its long name; its value may follow an equals sign. -/
def readLong? (a : Arguments) (s : List Char) : Option Step := do
  let name := s.takeWhile (· != '=')
  let switch ← Switch.ofLongName? (String.ofList name)
  match s.drop name.length with
  | _ :: value => return .go (← a.setValue? switch (String.ofList value))
  | [] => if switch.takesValue then return .await switch a else a.raise? switch

/-- Reads one argument. One dash alone is a path. -/
def read? (a : Arguments) (s : String) : Option Step :=
  match s.toList with
  | '-' :: '-' :: name => a.readLong? name
  | '-' :: c :: cs => a.readLetters? (c :: cs)
  | _ => (a.setRoot? s).map .go

def isOption (s : String) : Bool :=
  match s.toList with
  | '-' :: _ :: _ => true
  | _ => false

def readPaths? (a : Arguments) (rest : List String) : Option Invocation :=
  (rest.foldlM setRoot? a).map .analyse

/-- Reads the arguments that follow; an option may wait for its value. -/
def readAll? : (awaiting : Option Switch) → Arguments → List String → Option Invocation
  | none, a, [] => some (.analyse a)
  | some _, _, [] => none
  | some switch, a, s :: rest =>
    if isOption s then none else (a.setValue? switch s).bind fun a => readAll? none a rest
  | none, a, s :: rest =>
    if s = "--" then a.readPaths? rest
    else
      match a.read? s with
      | none => none
      | some (.go a) => readAll? none a rest
      | some (.await switch a) => readAll? (some switch) a rest
      | some (.stop i) => some i

end Arguments

/-- What arguments ask for, if they are in order. Help and version end the reading where they stand. -/
def Invocation.ofArguments? (args : List String) : Option Invocation :=
  Arguments.readAll? none {} args

end ModuleGraph
