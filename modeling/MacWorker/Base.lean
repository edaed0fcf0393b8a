import MacWorker.Lib.Fallible
import Mathlib.Algebra.Group.Nat.Defs

/-! # Identifiers, errors and text checks

The vocabulary shared by the queue and the batch graph: UUID-backed identifiers, process
identities, the error values that cross module boundaries, and the byte-level checks on
names. Timestamps, process ids and counters are `Nat`; where the source relies on a width
the bound is explicit. -/
namespace MacWorker
open Fallible

abbrev Uuid := BitVec 128

structure JobId where
  uuid : Uuid
  deriving DecidableEq

/-- A turn is the job that runs it. -/
abbrev TurnId := JobId

structure ClientId where
  uuid : Uuid
  deriving DecidableEq

structure TaskId where
  uuid : Uuid
  deriving DecidableEq

inductive WorkerError where
  | protocol (message : String)
  | queue (code message : String)
  | task (code message : String)
  /-- An I/O error of kind `InvalidData`: stored state that contradicts itself. -/
  | invalidState (message : String)
  /-- An I/O error of kind `NotFound`: the addressed record does not exist. -/
  | notFound
  deriving DecidableEq

/-! ## Text -/

/-- The UTF-8 bytes of a string; every length limit of the source counts these. -/
def bytes (value : String) : List UInt8 := value.toUTF8.data.toList

def isAsciiLowercase (byte : UInt8) : Bool := 97 ≤ byte && byte ≤ 122

def isAsciiUppercase (byte : UInt8) : Bool := 65 ≤ byte && byte ≤ 90

def isAsciiDigit (byte : UInt8) : Bool := 48 ≤ byte && byte ≤ 57

def isAsciiAlphanumeric (byte : UInt8) : Bool :=
  isAsciiLowercase byte || isAsciiUppercase byte || isAsciiDigit byte

/-- An ASCII blank: space, tab, line feed, form feed or carriage return. -/
def isAsciiWhitespace (byte : UInt8) : Bool :=
  byte == 32 || byte == 9 || byte == 10 || byte == 12 || byte == 13

def isLowerHex (value : String) (length : Nat) : Bool :=
  (bytes value).length == length &&
    (bytes value).all fun byte => isAsciiDigit byte || (97 ≤ byte && byte ≤ 102)

def isOpaqueByte (byte : UInt8) : Bool :=
  isAsciiLowercase byte || isAsciiDigit byte || (bytes "._-:@").contains byte

def validateHexComponent (value label : String) : Except WorkerError Unit :=
  ensure (isLowerHex value 64 = true)
    (.protocol (label ++ " must be 64 lowercase hexadecimal bytes"))

def validateOpaqueIdentifier (value label : String) : Except WorkerError Unit :=
  ensure (bytes value ≠ [] ∧ (bytes value).length ≤ 128 ∧ (bytes value).all isOpaqueByte = true ∧
      (bytes value).head?.any (fun byte => isAsciiLowercase byte || isAsciiDigit byte) = true)
    (.protocol (label ++ " is not canonical"))

def validateWorkerName (value : String) : Except WorkerError Unit :=
  ensure (bytes value ≠ [] ∧ (bytes value).length ≤ 128 ∧ (bytes value).all
        (fun byte => isAsciiAlphanumeric byte || (bytes "._-@").contains byte) = true)
    (.protocol "queue worker name is invalid")

/-- An upper case identifier of at most 128 bytes. -/
def isStablePublicCode (code : String) : Bool :=
  bytes code != [] && (bytes code).length ≤ 128 && (bytes code).head?.any isAsciiUppercase &&
    (bytes code).all fun byte => isAsciiUppercase byte || isAsciiDigit byte || byte == 95

/-! ## Processes -/

structure ProcessIdentity where
  (pid startTimeMicros : Nat)
  deriving DecidableEq

namespace ProcessIdentity

def Valid (p : ProcessIdentity) : Prop := p.pid ≠ 0 ∧ p.startTimeMicros ≠ 0

instance (p : ProcessIdentity) : Decidable p.Valid := inferInstanceAs (Decidable (_ ∧ _))

def validate (p : ProcessIdentity) : Except WorkerError Unit :=
  ensure p.Valid (.protocol "process identity is invalid")

@[simp] theorem validate_eq_ok {p : ProcessIdentity} {u : Unit} :
    p.validate = .ok u ↔ p.Valid := ensure_eq_ok

end ProcessIdentity

end MacWorker
