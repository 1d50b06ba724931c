import BlobCache.Bytes

/-!
Arithmetic on `u64` as a build with overflow checks performs it: an operation whose
result is not in the range of the type fails, and so do a division by zero and a shift
by the width of the type. A loop that is given a number of turns fails when it needs more
of them.
-/

namespace BlobCache.Checked

inductive Fault where
  | overflow
  | underflow
  | divideByZero
  | unbounded
  deriving DecidableEq

def u32Max : Nat := 2 ^ 32 - 1

variable {m : Type → Type} [Monad m] [MonadExceptOf Fault m]

def add (a b : Nat) : m Nat :=
  if a + b ≤ u64Max then pure (a + b) else throwThe Fault .overflow

def sub (a b : Nat) : m Nat :=
  if b ≤ a then pure (a - b) else throwThe Fault .underflow

def mul (a b : Nat) : m Nat :=
  if a * b ≤ u64Max then pure (a * b) else throwThe Fault .overflow

def div (a b : Nat) : m Nat :=
  if b = 0 then throwThe Fault .divideByZero else pure (a / b)

def rem (a b : Nat) : m Nat :=
  if b = 0 then throwThe Fault .divideByZero else pure (a % b)

/-- `a << n`: bits that leave the type are dropped. -/
def shl (a n : Nat) : m Nat :=
  if n < 64 then pure (a * 2 ^ n % 2 ^ 64) else throwThe Fault .overflow

/-- `a + b` on `u32`. -/
def addU32 (a b : Nat) : m Nat :=
  if a + b ≤ u32Max then pure (a + b) else throwThe Fault .overflow

theorem add_eq {a b : Nat} (h : a + b ≤ u64Max) : (add a b : m Nat) = pure (a + b) := if_pos h

theorem sub_eq {a b : Nat} (h : b ≤ a) : (sub a b : m Nat) = pure (a - b) := if_pos h

theorem mul_eq {a b : Nat} (h : a * b ≤ u64Max) : (mul a b : m Nat) = pure (a * b) := if_pos h

theorem div_eq {a b : Nat} (h : 0 < b) : (div a b : m Nat) = pure (a / b) :=
  if_neg (Nat.pos_iff_ne_zero.mp h)

/-- The multiple of `unit` at or below `a`, as two operations. -/
def alignDown (a unit : Nat) : m Nat := do
  let quotient ← div a unit
  mul quotient unit

theorem alignDown_eq [LawfulMonad m] {a unit : Nat} (hunit : 0 < unit) (ha : a ≤ u64Max) :
    (alignDown a unit : m Nat) = pure (a / unit * unit) := by
  have hle : a / unit * unit ≤ u64Max := (Nat.div_mul_le_self a unit).trans ha
  rw [alignDown, div_eq hunit, pure_bind, mul_eq hle]

end BlobCache.Checked
