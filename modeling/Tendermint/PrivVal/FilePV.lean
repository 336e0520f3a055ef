import Tendermint.Types.Canonical

/-!
The file-based private validator. `signVote` and `signProposal` differ only in
what they read of their message, which `Kind` collects. The state on disk is
written atomically by `saveSigned`; paths, the key file and the JSON text are
left out, except that an empty byte slice is omitted from the text and comes
back as nil (`reload`). The private key is the function that signs; it may
answer differently each time it is called.
-/

namespace Tendermint.PrivVal

open Types

def stepNone : Int := 0
def stepPropose : Int := 1
def stepPrevote : Int := 2
def stepPrecommit : Int := 3

def voteToStep (vote : Vote) : Panics Int :=
  match vote.type with
  | .prevote => .ok stepPrevote
  | .precommit => .ok stepPrecommit
  | _ => .error "Unknown vote type"

structure LastSignState where
  height : Int
  round : Int
  step : Int
  signature : Option Bytes
  signBytes : Option Bytes
  deriving DecidableEq, Repr

def LastSignState.initial : LastSignState := ⟨0, 0, stepNone, none, none⟩

/-- The state read back from the file that it was written to. -/
def LastSignState.reload (lss : LastSignState) : LastSignState :=
  { lss with
    signature := lss.signature.filter fun bytes => !bytes.isEmpty,
    signBytes := lss.signBytes.filter fun bytes => !bytes.isEmpty }

inductive CheckError where
  | heightRegression (got last : Int)
  | roundRegression (height got last : Int)
  | stepRegression (height round got last : Int)
  | noSignBytes
  deriving DecidableEq, Repr

def LastSignState.checkHRS (lss : LastSignState) (height round step : Int) :
    Panics (Except CheckError Bool) :=
  if height < lss.height then .ok (.error (.heightRegression height lss.height))
  else if lss.height = height then
    if round < lss.round then .ok (.error (.roundRegression height round lss.round))
    else if lss.round = round then
      if step < lss.step then .ok (.error (.stepRegression height round step lss.step))
      else if lss.step = step then
        match lss.signBytes, lss.signature with
        | some _, none => .error "pv: Signature is nil but SignBytes is not!"
        | some _, some _ => .ok (.ok true)
        | none, _ => .ok (.error .noSignBytes)
      else .ok (.ok false)
    else .ok (.ok false)
  else .ok (.ok false)

inductive SignError where
  | check (error : CheckError)
  | conflictingData
  | privKey (text : String)
  deriving DecidableEq, Repr

/-- Two signed messages decoded and compared with their times set alike; the
time of the first one if nothing else differs. -/
def onlyDifferByTimestamp {κ : Type} [DecidableEq κ] (what : String)
    (decode : Bytes → Option κ) (timestamp : κ → Time) (setTimestamp : κ → Time → κ)
    (lastSignBytes newSignBytes : Bytes) : Panics (Option Time) := do
  let some last := decode lastSignBytes
    | throw s!"LastSignBytes cannot be unmarshalled into {what}"
  let some new := decode newSignBytes
    | throw s!"signBytes cannot be unmarshalled into {what}"
  if setTimestamp new 0 = setTimestamp last 0 then pure (some (timestamp last)) else pure none

def checkVotesOnlyDifferByTimestamp : Bytes → Bytes → Panics (Option Time) :=
  onlyDifferByTimestamp "vote" CanonicalVote.unmarshalDelimited CanonicalVote.timestamp
    fun vote time => { vote with timestamp := time }

def checkProposalsOnlyDifferByTimestamp : Bytes → Bytes → Panics (Option Time) :=
  onlyDifferByTimestamp "proposal" CanonicalProposal.unmarshalDelimited
    CanonicalProposal.timestamp fun proposal time => { proposal with timestamp := time }

/-- What signing reads and writes of a kind of message. -/
structure Kind (μ : Type) where
  height : μ → Int
  round : μ → Int
  step : μ → Panics Int
  timestamp : μ → Time
  signBytes : ChainID → μ → Panics Bytes
  onlyDiffer : Bytes → Bytes → Panics (Option Time)
  answer : μ → Time → Bytes → μ

def voteKind : Kind Vote where
  height := Vote.height
  round := Vote.round
  step := voteToStep
  timestamp := Vote.timestamp
  signBytes := voteSignBytes
  onlyDiffer := checkVotesOnlyDifferByTimestamp
  answer vote time signature := { vote with timestamp := time, signature := signature }

def proposalKind : Kind Proposal where
  height := Proposal.height
  round := Proposal.round
  step _ := .ok stepPropose
  timestamp := Proposal.timestamp
  signBytes := proposalSignBytes
  onlyDiffer := checkProposalsOnlyDifferByTimestamp
  answer proposal time signature := { proposal with timestamp := time, signature := signature }

/-- The outcome of a signing call: an error, or the message as it is left and
the state that was saved, if one was. -/
inductive Outcome (μ : Type) where
  | failed (error : SignError)
  | signed (message : μ) (saved : Option LastSignState)

def signKind {μ : Type} (kind : Kind μ) (privKey : Bytes → Except String Bytes)
    (lss : LastSignState) (chainID : ChainID) (message : μ) : Panics (Outcome μ) := do
  let height := kind.height message
  let round := kind.round message
  let step ← kind.step message
  match ← lss.checkHRS height round step with
  | .error error => pure (.failed (.check error))
  | .ok sameHRS =>
    let signBytes ← kind.signBytes chainID message
    if sameHRS then
      let last := lss.signBytes.getD []
      let signature := lss.signature.getD []
      if signBytes = last then
        pure (.signed (kind.answer message (kind.timestamp message) signature) none)
      else match ← kind.onlyDiffer last signBytes with
        | some timestamp => pure (.signed (kind.answer message timestamp signature) none)
        | none => pure (.failed .conflictingData)
    else match privKey signBytes with
      | .error text => pure (.failed (.privKey text))
      | .ok sig =>
        -- saveSigned writes the state before the signature is handed out.
        pure (.signed (kind.answer message (kind.timestamp message) sig)
          (some ⟨height, round, step, some sig, some signBytes⟩))

def signVote : (Bytes → Except String Bytes) → LastSignState → ChainID → Vote →
    Panics (Outcome Vote) := signKind voteKind

def signProposal : (Bytes → Except String Bytes) → LastSignState → ChainID → Proposal →
    Panics (Outcome Proposal) := signKind proposalKind

structure HRS where
  height : Int
  round : Int
  step : Int
  deriving DecidableEq, Repr

def HRS.Before (a b : HRS) : Prop :=
  a.height < b.height ∨ (a.height = b.height ∧
    (a.round < b.round ∨ (a.round = b.round ∧ a.step < b.step)))

def LastSignState.hrs (lss : LastSignState) : HRS := ⟨lss.height, lss.round, lss.step⟩

theorem HRS.before_trans {a b c : HRS} (first : a.Before b) (second : b.Before c) :
    a.Before c := by
  unfold Before at *
  omega

theorem HRS.before_irrefl (a : HRS) : ¬ a.Before a := by
  unfold Before
  omega

/-- `CheckHRS` lets only a later step be signed anew, and reuses a signature
only for the step that it was made for. -/
theorem check_hrs_ok {lss : LastSignState} {height round step : Int} {sameHRS : Bool}
    (passed : lss.checkHRS height round step = .ok (.ok sameHRS)) :
    (sameHRS = false ∧ lss.hrs.Before ⟨height, round, step⟩) ∨
    (sameHRS = true ∧ lss.hrs = ⟨height, round, step⟩ ∧
      ∃ signBytes signature, lss.signBytes = some signBytes ∧ lss.signature = some signature) := by
  unfold LastSignState.checkHRS at passed
  unfold HRS.Before LastSignState.hrs
  split at passed
  · cases passed
  split at passed
  case isFalse =>
    cases passed
    exact Or.inl ⟨rfl, Or.inl (by simp only; omega)⟩
  case isTrue sameHeight =>
  split at passed
  · cases passed
  split at passed
  case isFalse =>
    cases passed
    exact Or.inl ⟨rfl, Or.inr ⟨sameHeight, Or.inl (by simp only; omega)⟩⟩
  case isTrue sameRound =>
  split at passed
  · cases passed
  split at passed
  case isFalse =>
    cases passed
    exact Or.inl ⟨rfl, Or.inr ⟨sameHeight, Or.inr ⟨sameRound, by simp only; omega⟩⟩⟩
  case isTrue sameStep =>
  split at passed
  case h_1 => cases passed
  case h_2 signBytes signature bytesFound signatureFound =>
    cases passed
    refine Or.inr ⟨rfl, by rw [sameHeight, sameRound, sameStep], signBytes, signature, ?_, ?_⟩ <;>
      assumption
  case h_3 => cases passed

/-- What a signing call that succeeds has done: it signed a later step, or it
answered with the last signature for bytes that are the same or differ only in
the time. -/
theorem sign_kind_cases {μ : Type} {kind : Kind μ} {privKey : Bytes → Except String Bytes}
    {lss : LastSignState} {chainID : ChainID} {message answered : μ}
    {saved : Option LastSignState}
    (signed : signKind kind privKey lss chainID message = .ok (.signed answered saved)) :
    ∃ step signBytes, kind.step message = .ok step ∧
      kind.signBytes chainID message = .ok signBytes ∧
      ((∃ sig, lss.hrs.Before ⟨kind.height message, kind.round message, step⟩ ∧
          privKey signBytes = .ok sig ∧
          answered = kind.answer message (kind.timestamp message) sig ∧
          saved = some ⟨kind.height message, kind.round message, step, some sig, some signBytes⟩) ∨
        (∃ last signature time, lss.hrs = ⟨kind.height message, kind.round message, step⟩ ∧
          lss.signBytes = some last ∧ lss.signature = some signature ∧
          answered = kind.answer message time signature ∧ saved = none ∧
          ((signBytes = last ∧ time = kind.timestamp message) ∨
            kind.onlyDiffer last signBytes = .ok (some time)))) := by
  unfold signKind at signed
  simp only [bind_eq, pure_eq] at signed
  cases stepped : kind.step message with
  | error text => simp [stepped] at signed
  | ok step =>
  simp only [stepped] at signed
  cases checked : lss.checkHRS (kind.height message) (kind.round message) step with
  | error text => simp [checked] at signed
  | ok verdict =>
  cases verdict with
  | error error => simp [checked] at signed
  | ok sameHRS =>
  simp only [checked] at signed
  cases bytes : kind.signBytes chainID message with
  | error text => simp [bytes] at signed
  | ok signBytes =>
  simp only [bytes] at signed
  refine ⟨step, signBytes, rfl, rfl, ?_⟩
  rcases check_hrs_ok checked with
    ⟨rfl, later⟩ | ⟨rfl, same, last, signature, lastFound, signatureFound⟩
  · left
    simp only [Bool.false_eq_true, if_false] at signed
    cases produced : privKey signBytes with
    | error text => simp [produced] at signed
    | ok sig =>
      simp only [produced, Except.ok.injEq, Outcome.signed.injEq] at signed
      exact ⟨sig, later, rfl, signed.1.symm, signed.2.symm⟩
  · right
    simp only [if_true, lastFound, signatureFound, Option.getD_some] at signed
    split at signed
    case isTrue equal =>
      simp only [Except.ok.injEq, Outcome.signed.injEq] at signed
      exact ⟨last, signature, _, same, lastFound, signatureFound, signed.1.symm, signed.2.symm,
        Or.inl ⟨equal, rfl⟩⟩
    case isFalse =>
      obtain ⟨found, differ, signed⟩ := bind_ok.mp signed
      cases found with
      | none => simp [differ] at signed
      | some time =>
        simp only [differ, Except.ok.injEq, Outcome.signed.injEq] at signed
        exact ⟨last, signature, time, same, lastFound, signatureFound, signed.1.symm,
          signed.2.symm, Or.inr differ⟩

end Tendermint.PrivVal
