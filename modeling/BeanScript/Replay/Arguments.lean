import BeanScript.Replay.Fault
import BeanScript.Replay.Datum

/-!
# Typed access to arguments

The evaluated arguments of a call, with the name of what is called for the wording of faults.

## Main definitions

* `Arguments`, with one accessor for each type that an argument can be asked to have
-/

namespace BeanScript

/-- The evaluated arguments of a call. -/
structure Arguments where
  method : String
  data : List Datum

namespace Arguments

/-- Ask for a number of arguments. -/
def expect (args : Arguments) (count : Nat) : Except Fault Unit :=
  if args.data.length = count then .ok ()
  else .error (.arityMismatch args.method count args.data.length)

/-- The argument at a position. -/
def datum (args : Arguments) (index : Nat) : Except Fault Datum :=
  match args.data[index]? with
  | some s => .ok s
  | none => .error (.arityMismatch args.method (index + 1) args.data.length)

/-- The fault that an argument is not what it has to be. -/
def mismatch (args : Arguments) (index : Nat) (expected : Expected) (got : Datum) : Fault :=
  .wrongArgument args.method index expected got.typeName

/-- A plain value. -/
def value (args : Arguments) (index : Nat) : Except Fault Value := do
  match ← args.datum index with
  | .value v => return v
  | other => throw (args.mismatch index .value other)

/-- A text. -/
def string (args : Arguments) (index : Nat) : Except Fault String := do
  match ← args.datum index with
  | .value (.atom (.literal (.string s))) => return s
  | other => throw (args.mismatch index .string other)

/-- A text or null. -/
def string? (args : Arguments) (index : Nat) : Except Fault (Option String) := do
  match ← args.datum index with
  | .value (.atom (.literal .null)) => return none
  | .value (.atom (.literal (.string s))) => return some s
  | other => throw (args.mismatch index .stringOrNull other)

/-- A truth value. -/
def bool (args : Arguments) (index : Nat) : Except Fault Bool := do
  match ← args.datum index with
  | .value (.atom (.literal (.bool b))) => return b
  | other => throw (args.mismatch index .boolean other)

/-- An integer. -/
def int (args : Arguments) (index : Nat) : Except Fault Int32 := do
  match ← args.datum index with
  | .value (.atom (.literal (.int n))) => return n
  | other => throw (args.mismatch index .int other)

/-- A class object. -/
def classObject (args : Arguments) (index : Nat) : Except Fault ClassName := do
  match ← args.datum index with
  | .value (.atom (.classObject type)) => return type
  | other => throw (args.mismatch index .classObject other)

/-- An argument with its hints, or a bare value. -/
def holder (args : Arguments) (index : Nat) : Except Fault Holder := do
  match ← args.datum index with
  | .holder h => return h
  | _ => return { value := ← args.value index }

/-- A position in a list of arguments. -/
def index (args : Arguments) (index : Nat) : Except Fault Nat := do
  let n ← args.int index
  if n.toInt < 0 then
    throw (.wrongArgument args.method index .nonNegativeIndex (toString n.toInt))
  return n.toInt.toNat

/-- A map entry. -/
def entry (args : Arguments) (index : Nat) : Except Fault (Value × Value) := do
  match ← args.datum index with
  | .entry key v => return (key, v)
  | other => throw (args.mismatch index .mapEntry other)

/-- All arguments, each of them read by the same accessor. -/
def all (args : Arguments) (read : Arguments → Nat → Except Fault α) : Except Fault (List α) :=
  (List.range args.data.length).mapM (read args)

end Arguments

end BeanScript
