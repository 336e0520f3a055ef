import Tendermint.Types.Light
import Tendermint.Light.Verifier

/-!
light/verifier.go: the verification of one header against another. Both
`VerifyAdjacent` and `VerifyNonAdjacent` compare the trusting period with the
time of the untrusted header. Instants are not bounded, so adding a duration
to one does not saturate.
-/

namespace Tendermint.Light

open Types
open Merkle (Hashing)

inductive HeaderFault where
  | basic (error : SignedHeaderError)
  | headerBasic (text : String)
  | chain (given expected : ChainID)
  | height (given old : Int)
  | time (given old : Time)
  | future (given now : Time) (maxClockDrift : Int)
  | validators (given supplied : Bytes)
  | nextValidators (expected given : Bytes)
  | lastBlock (given expected : Bytes)
  | commit (error : VerifyCommitError)
  deriving DecidableEq, Repr

inductive VerifyError where
  | headersAdjacent
  | headersNotAdjacent
  | trustLevel (text : String)
  | oldHeaderExpired (expiration now : Time)
  | newValSetCantBeTrusted (got needed : Int)
  | invalidHeader (reason : HeaderFault)
  deriving DecidableEq, Repr

def headerExpired (signed : SignedHeader) (trustingPeriod : Int) (now : Time) : Bool :=
  decide (signed.header.time + trustingPeriod ≤ now)

def checkRequiredHeaderFields (signed : SignedHeader) : Panics Unit :=
  if signed.header.height = 0 then .error "height in trusted header must be set (non zero"
  else if signed.header.time = zeroTime then .error "time in trusted header must be set"
  else if signed.header.chainID = [] then .error "chain ID in trusted header must be set"
  else .ok ()

section

variable (crypto : Crypto) (hashing : Hashing)

def verifyNewHeaderAndVals (untrusted : SignedHeader) (untrustedVals : ValidatorSet)
    (trusted : SignedHeader) (now : Time) (maxClockDrift : Int) : Option HeaderFault :=
  match untrusted.validateBasic hashing trusted.header.chainID with
  | some error => some (.basic error)
  | none =>
    if untrusted.header.height ≤ trusted.header.height then
      some (.height untrusted.header.height trusted.header.height)
    else if untrusted.header.time ≤ trusted.header.time then
      some (.time untrusted.header.time trusted.header.time)
    else if now + maxClockDrift ≤ untrusted.header.time then
      some (.future untrusted.header.time now maxClockDrift)
    else if untrusted.header.validatorsHash ≠ untrustedVals.hash hashing then
      some (.validators untrusted.header.validatorsHash (untrustedVals.hash hashing))
    else none

def verifyOwnCommit (untrusted : SignedHeader) (untrustedVals : ValidatorSet)
    (trusted : SignedHeader) : Panics (Option VerifyError) := do
  match ← verifyCommitLight crypto trusted.header.chainID untrustedVals untrusted.commit.blockID
      untrusted.header.height untrusted.commit with
  | some error => pure (some (.invalidHeader (.commit error)))
  | none => pure none

def verifyNonAdjacent (trusted : SignedHeader) (trustedVals : ValidatorSet)
    (untrusted : SignedHeader) (untrustedVals : ValidatorSet) (trustingPeriod : Int) (now : Time)
    (maxClockDrift : Int) (trustLevel : Fraction) : Panics (Option VerifyError) := do
  checkRequiredHeaderFields trusted
  if untrusted.header.height = trusted.header.height + 1 then return some .headersAdjacent
  if let some text := validateTrustLevel trustLevel then return some (.trustLevel text)
  if headerExpired untrusted trustingPeriod now then
    return some (.oldHeaderExpired (untrusted.header.time + trustingPeriod) now)
  if let some fault := verifyNewHeaderAndVals hashing untrusted untrustedVals trusted now
      maxClockDrift then
    return some (.invalidHeader fault)
  match ← verifyCommitLightTrusting crypto trusted.header.chainID trustedVals untrusted.commit
      trustLevel with
  | some (.notEnoughVotingPowerSigned got needed) =>
    return some (.newValSetCantBeTrusted got needed)
  | some error => return some (.invalidHeader (.commit error))
  | none => verifyOwnCommit crypto untrusted untrustedVals trusted

def verifyAdjacent (trusted untrusted : SignedHeader) (untrustedVals : ValidatorSet)
    (trustingPeriod : Int) (now : Time) (maxClockDrift : Int) : Panics (Option VerifyError) := do
  checkRequiredHeaderFields trusted
  if trusted.header.nextValidatorsHash.length = 0 then
    throw "next validators hash in trusted header is empty"
  if untrusted.header.height ≠ trusted.header.height + 1 then return some .headersNotAdjacent
  if headerExpired untrusted trustingPeriod now then
    return some (.oldHeaderExpired (untrusted.header.time + trustingPeriod) now)
  if let some fault := verifyNewHeaderAndVals hashing untrusted untrustedVals trusted now
      maxClockDrift then
    return some (.invalidHeader fault)
  if untrusted.header.validatorsHash ≠ trusted.header.nextValidatorsHash then
    return some (.invalidHeader
      (.nextValidators trusted.header.nextValidatorsHash untrusted.header.validatorsHash))
  verifyOwnCommit crypto untrusted untrustedVals trusted

def verify (trusted : SignedHeader) (trustedVals : ValidatorSet) (untrusted : SignedHeader)
    (untrustedVals : ValidatorSet) (trustingPeriod : Int) (now : Time) (maxClockDrift : Int)
    (trustLevel : Fraction) : Panics (Option VerifyError) :=
  if untrusted.header.height ≠ trusted.header.height + 1 then
    verifyNonAdjacent crypto hashing trusted trustedVals untrusted untrustedVals trustingPeriod now
      maxClockDrift trustLevel
  else
    verifyAdjacent crypto hashing trusted untrusted untrustedVals trustingPeriod now maxClockDrift

def verifyBackwards (untrusted trusted : Header) : Option HeaderFault :=
  match untrusted.validateBasic with
  | some text => some (.headerBasic text)
  | none =>
    if untrusted.chainID ≠ trusted.chainID then some (.chain untrusted.chainID trusted.chainID)
    else if trusted.time ≤ untrusted.time then some (.time untrusted.time trusted.time)
    else if untrusted.hash hashing ≠ trusted.lastBlockID.hash then
      some (.lastBlock (untrusted.hash hashing) trusted.lastBlockID.hash)
    else none

/-- What every successful verification of a header against another establishes
besides the signatures. -/
structure Follows (untrusted trusted : SignedHeader) (trustingPeriod : Int) (now : Time) :
    Prop where
  height : trusted.header.height < untrusted.header.height
  time : trusted.header.time < untrusted.header.time
  fresh : headerExpired untrusted trustingPeriod now = false

variable {crypto hashing} {trusted untrusted : SignedHeader} {trustedVals vals : ValidatorSet}
  {trustingPeriod : Int} {now : Time} {drift : Int} {trustLevel : Fraction}

theorem new_header_ok
    (valid : verifyNewHeaderAndVals hashing untrusted vals trusted now drift = none) :
    trusted.header.height < untrusted.header.height ∧
      trusted.header.time < untrusted.header.time := by
  unfold verifyNewHeaderAndVals at valid
  split at valid
  · cases valid
  split at valid
  · cases valid
  split at valid
  · cases valid
  rename_i _ height time
  exact ⟨Int.not_le.mp height, Int.not_le.mp time⟩

theorem own_commit_ok (accepted : verifyOwnCommit crypto untrusted vals trusted = .ok none) :
    verifyCommitLight crypto trusted.header.chainID vals untrusted.commit.blockID
      untrusted.header.height untrusted.commit = .ok none := by
  simp only [verifyOwnCommit, bind_eq, pure_eq] at accepted
  split at accepted
  · cases accepted
  rename_i verified
  split at accepted
  · cases accepted
  · exact verified

theorem adjacent_checks
    (accepted : verifyAdjacent crypto hashing trusted untrusted vals trustingPeriod now drift =
      .ok none) : untrusted.header.height = trusted.header.height + 1 ∧
    headerExpired untrusted trustingPeriod now = false ∧
    verifyNewHeaderAndVals hashing untrusted vals trusted now drift = none ∧
    untrusted.header.validatorsHash = trusted.header.nextValidatorsHash ∧
    verifyOwnCommit crypto untrusted vals trusted = .ok none := by
  simp only [verifyAdjacent, bind_eq, pure_eq, throw_eq] at accepted
  split at accepted
  · cases accepted
  split at accepted
  · cases accepted
  split at accepted
  · cases accepted
  rename_i adjacent
  split at accepted
  · cases accepted
  rename_i fresh
  split at accepted
  · cases accepted
  rename_i valid
  split at accepted
  · cases accepted
  rename_i same
  exact ⟨not_not.mp adjacent, by simpa using fresh, Option.eq_none_iff_forall_ne_some.mpr valid,
    not_not.mp same, accepted⟩

theorem non_adjacent_checks
    (accepted : verifyNonAdjacent crypto hashing trusted trustedVals untrusted vals trustingPeriod
      now drift trustLevel = .ok none) :
    validateTrustLevel trustLevel = none ∧ headerExpired untrusted trustingPeriod now = false ∧
      verifyNewHeaderAndVals hashing untrusted vals trusted now drift = none ∧
      verifyCommitLightTrusting crypto trusted.header.chainID trustedVals untrusted.commit
        trustLevel = .ok none := by
  simp only [verifyNonAdjacent, bind_eq, pure_eq] at accepted
  split at accepted
  · cases accepted
  split at accepted
  · cases accepted
  split at accepted
  · cases accepted
  rename_i level
  split at accepted
  · cases accepted
  rename_i fresh
  split at accepted
  · cases accepted
  rename_i valid
  refine ⟨Option.eq_none_iff_forall_ne_some.mpr level, by simpa using fresh,
    Option.eq_none_iff_forall_ne_some.mpr valid, ?_⟩
  split at accepted
  · cases accepted
  rename_i verified
  split at accepted
  · cases accepted
  · cases accepted
  · exact verified

theorem verify_follows
    (accepted : verify crypto hashing trusted trustedVals untrusted vals trustingPeriod now drift
      trustLevel = .ok none) :
    Follows untrusted trusted trustingPeriod now := by
  have checked : headerExpired untrusted trustingPeriod now = false ∧
      verifyNewHeaderAndVals hashing untrusted vals trusted now drift = none := by
    unfold verify at accepted
    split at accepted
    · obtain ⟨_, fresh, valid, _⟩ := non_adjacent_checks accepted
      exact ⟨fresh, valid⟩
    · obtain ⟨_, fresh, valid, _⟩ := adjacent_checks accepted
      exact ⟨fresh, valid⟩
  obtain ⟨height, time⟩ := new_header_ok checked.2
  exact ⟨height, time, checked.1⟩

end

end Tendermint.Light
