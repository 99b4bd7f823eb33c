import SourceWindow.Text

set_option autoImplicit false

namespace SourceWindow

inductive IntegerFault where
  | empty
  | invalidDigit
  | tooLarge
  | tooSmall
  deriving DecidableEq, Repr

def IntegerFault.message : IntegerFault → Text
  | .empty => Text.ofString "cannot parse integer from empty string"
  | .invalidDigit => Text.ofString "invalid digit found in string"
  | .tooLarge => Text.ofString "number too large to fit in target type"
  | .tooSmall => Text.ofString "number too small to fit in target type"

structure IntegerRange where
  least : Int
  greatest : Int
  deriving DecidableEq, Repr

namespace IntegerRange

def signed64 : IntegerRange := ⟨-9223372036854775808, 9223372036854775807⟩

def unsigned64 : IntegerRange := ⟨0, 18446744073709551615⟩

def digit? (c : Char) : Option Int :=
  if '0' ≤ c ∧ c ≤ '9' then some (c.toNat - '0'.toNat : Nat) else none

def readUp (r : IntegerRange) (n : Int) : Text → Except IntegerFault Int
  | [] => .ok n
  | c :: t =>
    match digit? c with
    | none => .error .invalidDigit
    | some d => if 10 * n + d ≤ r.greatest then r.readUp (10 * n + d) t else .error .tooLarge

def readDown (r : IntegerRange) (n : Int) : Text → Except IntegerFault Int
  | [] => .ok n
  | c :: t =>
    match digit? c with
    | none => .error .invalidDigit
    | some d => if r.least ≤ 10 * n - d then r.readDown (10 * n - d) t else .error .tooSmall

/-- Reads an optional sign and digits; a minus sign is none where the range has no negatives. -/
def read (r : IntegerRange) : Text → Except IntegerFault Int
  | [] => .error .empty
  | ['+'] | ['-'] => .error .invalidDigit
  | '+' :: t => r.readUp 0 t
  | '-' :: t => if r.least < 0 then r.readDown 0 t else .error .invalidDigit
  | t => r.readUp 0 t

end IntegerRange
end SourceWindow
