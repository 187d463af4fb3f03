import Mathlib.Algebra.Group.Nat.Defs

namespace SolanaM.Earn

inductive EarnError
  | NotAuthorized
  | InvalidParam
  | InvalidAccount
  | InvalidProof
  | MutableOwner
  | InvalidMint
  | MathOverflow
  | MathUnderflow
  deriving DecidableEq

/-- Every way an instruction can fail; a failed instruction leaves all accounts untouched. -/
inductive Failure
  | error (e : EarnError)
  /-- one of Anchor's own account checks -/
  | constraint
  /-- the Token-2022 program rejected a cross-program call -/
  | token
  /-- a try_into of a number that does not fit -/
  | numericConversion
  /-- a Rust panic, arithmetic overflow included -/
  | panic
  deriving DecidableEq

abbrev Result (α : Type) := Except Failure α

def err {α : Type} (e : EarnError) : Result α := .error (.error e)

/-- a + b on u64 under release overflow checks. -/
def addU64 (a b : Nat) : Result Nat := if a+b<2^64 then .ok (a+b) else .error .panic

/-- 2u64.pow(e as u32) for a usize e, under release overflow checks. -/
def powU64 (e : Nat) : Result Nat := if e%2^32<64 then .ok (2^(e%2^32)) else .error .panic

end SolanaM.Earn
