/-! Faults, and what answers with one. Arithmetic on counters gives the exact number or a fault: counters are
unsigned words of 64 bits, attempts are words of 32 bits, and both are kept as `Nat`, so a result that does not fit is
refused here and never wrapped. Reading a range of a byte string is refused if the range is not inside it. -/

namespace TcpStack

inductive Arithmetic where
  | addition | subtraction | multiplication
deriving DecidableEq, Repr

inductive Fault where
  | overflow (operation : Arithmetic)
  | outOfRange
  | divisionByZero
  | tooLarge
deriving DecidableEq, Repr

def Arithmetic.verb : Arithmetic → String
  | .addition => "add"
  | .subtraction => "subtract"
  | .multiplication => "multiply"

def Fault.message : Fault → String
  | .overflow operation => "attempt to " ++ operation.verb ++ " with overflow"
  | .outOfRange => "range end index out of range"
  | .divisionByZero => "attempt to calculate the remainder with a divisor of zero"
  | .tooLarge => "capacity overflow"

namespace Count

/-- The first number that is no 64-bit counter. -/
def bound : Nat := UInt64.size

def greatest : Nat := bound - 1

def add (a b : Nat) : Except Fault Nat :=
  if a + b < bound then .ok (a + b) else .error (.overflow .addition)

def sub (a b : Nat) : Except Fault Nat :=
  if b ≤ a then .ok (a - b) else .error (.overflow .subtraction)

def mul (a b : Nat) : Except Fault Nat :=
  if a * b < bound then .ok (a * b) else .error (.overflow .multiplication)

def rem (a b : Nat) : Except Fault Nat :=
  if b = 0 then .error .divisionByZero else .ok (a % b)

/-- Twice `a`, or the largest counter where that is less. -/
def double (a : Nat) : Nat := min (2 * a) greatest

def nextAttempt (a : Nat) : Except Fault Nat :=
  if a + 1 < UInt32.size then .ok (a + 1) else .error (.overflow .addition)

theorem add_eq_ok_iff {a b c : Nat} : add a b = .ok c ↔ c = a + b ∧ a + b < bound := by
  unfold add
  split <;> simp_all [eq_comm]

theorem sub_eq_ok_iff {a b c : Nat} : sub a b = .ok c ↔ c = a - b ∧ b ≤ a := by
  unfold sub
  split <;> simp_all [eq_comm]

theorem mul_eq_ok_iff {a b c : Nat} : mul a b = .ok c ↔ c = a * b ∧ a * b < bound := by
  unfold mul
  split <;> simp_all [eq_comm]

theorem nextAttempt_eq_ok_iff {a c : Nat} :
    nextAttempt a = .ok c ↔ c = a + 1 ∧ a + 1 < UInt32.size := by
  unfold nextAttempt
  split <;> simp_all [eq_comm]

end Count

abbrev Bytes := List UInt8

namespace Bytes

def slice (bytes : Bytes) (first stop : Nat) : Except Fault Bytes :=
  if first ≤ stop ∧ stop ≤ bytes.length then .ok ((bytes.take stop).drop first)
  else .error .outOfRange

theorem slice_eq_ok_iff {bytes out : Bytes} {first stop : Nat} :
    slice bytes first stop = .ok out ↔
      out = (bytes.take stop).drop first ∧ first ≤ stop ∧ stop ≤ bytes.length := by
  unfold slice
  split <;> simp_all [eq_comm]

end Bytes

end TcpStack
