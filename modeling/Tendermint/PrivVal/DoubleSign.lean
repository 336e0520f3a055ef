import Tendermint.PrivVal.FilePV

/-!
Runs of the private validator with crashes. A request either completes, or the
process dies before or after the new state is on disk, and a restart reads the
file again. The signatures that count as produced are those whose state was
saved: one that is lost before it is saved has left no trace anywhere.
-/

namespace Tendermint.PrivVal

open Types List

structure Form (μ κ : Type) where
  what : String
  canonicalize : ChainID → μ → Panics κ
  marshal : κ → Option Bytes
  decode : Bytes → Option κ
  timestamp : κ → Time
  setTimestamp : κ → Time → κ

def voteForm : Form Vote CanonicalVote :=
  ⟨"vote", canonicalizeVote, CanonicalVote.marshal, CanonicalVote.unmarshalDelimited,
    CanonicalVote.timestamp, fun vote time => { vote with timestamp := time }⟩

def proposalForm : Form Proposal CanonicalProposal :=
  ⟨"proposal", canonicalizeProposal, CanonicalProposal.marshal,
    CanonicalProposal.unmarshalDelimited, CanonicalProposal.timestamp,
    fun proposal time => { proposal with timestamp := time }⟩

/-- The laws by which a kind of message can be answered with an old signature. -/
structure Kind.Lawful {μ κ : Type} [DecidableEq κ] (kind : Kind μ) (form : Form μ κ)
    (Typed : μ → Prop) : Prop where
  typed : ∀ message time signature, Typed message → Typed (kind.answer message time signature)
  unsigned : ∀ chainID message signature,
    kind.signBytes chainID (kind.answer message (kind.timestamp message) signature) =
      kind.signBytes chainID message
  signBytes : ∀ chainID message, kind.signBytes chainID message =
    (form.canonicalize chainID message).bind fun canonical =>
      marshalDelimited (form.marshal canonical)
  onlyDiffer : kind.onlyDiffer =
    onlyDifferByTimestamp form.what form.decode form.timestamp form.setTimestamp
  answered : ∀ chainID message time signature,
    form.canonicalize chainID (kind.answer message time signature) =
      (form.canonicalize chainID message).map fun canonical => form.setTimestamp canonical time
  decodes : ∀ {chainID : ChainID} {message bytes}, Typed message → chainID.length < 2 ^ 32 →
    kind.signBytes chainID message = .ok bytes →
    ∃ canonical, form.canonicalize chainID message = .ok canonical ∧
      marshalDelimited (form.marshal canonical) = .ok bytes ∧ form.decode bytes = some canonical
  restored : ∀ new last, form.setTimestamp new 0 = form.setTimestamp last 0 →
    form.setTimestamp new (form.timestamp last) = last

theorem vote_kind_lawful : voteKind.Lawful voteForm Vote.Typed where
  typed _ _ _ typed := ⟨typed.height, typed.round, typed.blockID⟩
  unsigned _ _ _ := rfl
  signBytes _ _ := rfl
  onlyDiffer := rfl
  answered chainID vote time signature := by
    simp only [voteForm, canonicalizeVote, voteKind, bind_eq, pure_eq]
    cases canonicalizeBlockID vote.blockID <;> rfl
  decodes := vote_sign_bytes_ok
  restored _ last same := by
    cases last
    simpa [voteForm] using same

theorem proposal_kind_lawful : proposalKind.Lawful proposalForm Proposal.Typed where
  typed _ _ _ typed := ⟨typed.height, typed.round, typed.polRound, typed.blockID⟩
  unsigned _ _ _ := rfl
  signBytes _ _ := rfl
  onlyDiffer := rfl
  answered chainID proposal time signature := by
    simp only [proposalForm, canonicalizeProposal, proposalKind, bind_eq, pure_eq]
    cases canonicalizeBlockID proposal.blockID <;> rfl
  decodes := proposal_sign_bytes_ok
  restored _ last same := by
    cases last
    simpa [proposalForm] using same

namespace Kind.Lawful

variable {μ κ : Type} [DecidableEq κ] {kind : Kind μ} {form : Form μ κ} {Typed : μ → Prop}
  (lawful : kind.Lawful form Typed) {chainID otherChainID : ChainID} {message other : μ}
  {bytes otherBytes : Bytes} (typed : Typed message) (otherTyped : Typed other)
  (bounded : chainID.length < 2 ^ 32) (otherBounded : otherChainID.length < 2 ^ 32)
  (signed : kind.signBytes chainID message = .ok bytes)

include lawful typed otherTyped bounded otherBounded signed

/-- A message that is found to differ from an older one in its time only gets the sign
bytes of that one together with its time. -/
theorem restamped {time : Time} (signature : Bytes)
    (otherSigned : kind.signBytes otherChainID other = .ok otherBytes)
    (differ : kind.onlyDiffer otherBytes bytes = .ok (some time)) :
    kind.signBytes chainID (kind.answer message time signature) = .ok otherBytes := by
  obtain ⟨canonical, made, _, decoded⟩ := lawful.decodes typed bounded signed
  obtain ⟨last, _, marshalled, lastDecoded⟩ := lawful.decodes otherTyped otherBounded otherSigned
  simp only [lawful.onlyDiffer, onlyDifferByTimestamp, lastDecoded, decoded, pure_eq] at differ
  split at differ
  case isFalse => cases differ
  case isTrue same =>
    simp only [Except.ok.injEq, Option.some.injEq] at differ
    rw [lawful.signBytes, lawful.answered, made, ← differ]
    show marshalDelimited (form.marshal (form.setTimestamp canonical (form.timestamp last))) = _
    rw [lawful.restored canonical last same, marshalled]

theorem up_to_time (time : Time) (signature : Bytes)
    (otherSigned : kind.signBytes otherChainID other = .ok bytes) :
    kind.signBytes chainID (kind.answer message time signature) =
      kind.signBytes otherChainID (kind.answer other time signature) := by
  obtain ⟨canonical, made, _, decoded⟩ := lawful.decodes typed bounded signed
  obtain ⟨last, lastMade, _, lastDecoded⟩ := lawful.decodes otherTyped otherBounded otherSigned
  cases decoded.symm.trans lastDecoded
  rw [lawful.signBytes, lawful.signBytes, lawful.answered, lawful.answered, made, lastMade]

end Kind.Lawful

inductive Message where
  | vote (vote : Vote)
  | proposal (proposal : Proposal)
  deriving DecidableEq, Repr

namespace Message

def height : Message → Int
  | .vote given => given.height
  | .proposal given => given.height

def round : Message → Int
  | .vote given => given.round
  | .proposal given => given.round

def step : Message → Panics Int
  | .vote given => voteToStep given
  | .proposal _ => .ok stepPropose

def signature : Message → Bytes
  | .vote given => given.signature
  | .proposal given => given.signature

def signBytes (chainID : ChainID) : Message → Panics Bytes
  | .vote given => voteSignBytes chainID given
  | .proposal given => proposalSignBytes chainID given

def answer (message : Message) (time : Time) (signature : Bytes) : Message :=
  match message with
  | .vote given => .vote (voteKind.answer given time signature)
  | .proposal given => .proposal (proposalKind.answer given time signature)

def Typed : Message → Prop
  | .vote given => given.Typed
  | .proposal given => given.Typed

def At (message : Message) (hrs : HRS) : Prop :=
  message.height = hrs.height ∧ message.round = hrs.round ∧ message.step = .ok hrs.step

section

variable (message : Message) (time : Time) (signature : Bytes)

theorem answer_typed (typed : message.Typed) : (message.answer time signature).Typed := by
  cases message with
  | vote vote => exact vote_kind_lawful.typed vote time signature typed
  | proposal proposal => exact proposal_kind_lawful.typed proposal time signature typed

theorem answer_step : (message.answer time signature).step = message.step := by
  cases message <;> rfl

theorem answer_signature : (message.answer time signature).signature = signature := by
  cases message <;> rfl

end

theorem answer_again (message : Message) (time later : Time) (signature other : Bytes) :
    (message.answer time signature).answer later other = message.answer later other := by
  cases message <;> rfl

variable {message : Message}

theorem answer_at {time : Time} {signature : Bytes} {hrs : HRS} (place : message.At hrs) :
    (message.answer time signature).At hrs := by
  cases message <;> exact place

theorem vote_step_ne_propose (vote : Vote) : voteToStep vote ≠ .ok stepPropose := by
  unfold voteToStep
  split <;> simp [stepPrevote, stepPrecommit, stepPropose]

/-- Messages of one step with the same sign bytes differ in nothing signed but
the time, so they agree at every time. -/
theorem up_to_time {chainID otherChainID : ChainID} {other : Message} {bytes : Bytes} (time : Time)
    (signature : Bytes) (typed : message.Typed) (otherTyped : other.Typed)
    (bounded : chainID.length < 2 ^ 32) (otherBounded : otherChainID.length < 2 ^ 32) (step : Int)
    (stepped : message.step = .ok step) (otherStepped : other.step = .ok step)
    (signed : message.signBytes chainID = .ok bytes)
    (otherSigned : other.signBytes otherChainID = .ok bytes) :
    (message.answer time signature).signBytes chainID =
      (other.answer time signature).signBytes otherChainID := by
  cases message with
  | vote vote =>
    cases other with
    | vote otherVote =>
      exact vote_kind_lawful.up_to_time typed otherTyped bounded otherBounded signed time
        signature otherSigned
    | proposal proposal =>
      exact absurd (stepped.trans otherStepped.symm) (vote_step_ne_propose vote)
  | proposal proposal =>
    cases other with
    | vote vote =>
      exact absurd (otherStepped.trans stepped.symm) (vote_step_ne_propose vote)
    | proposal otherProposal =>
      exact proposal_kind_lawful.up_to_time typed otherTyped bounded otherBounded signed time
        signature otherSigned

end Message

def signMessage (privKey : Bytes → Except String Bytes) (lss : LastSignState)
    (chainID : ChainID) (message : Message) : Panics (Outcome Message) :=
  match message with
  | .vote vote => do
    match ← signVote privKey lss chainID vote with
    | .failed error => pure (.failed error)
    | .signed answered saved => pure (.signed (.vote answered) saved)
  | .proposal proposal => do
    match ← signProposal privKey lss chainID proposal with
    | .failed error => pure (.failed error)
    | .signed answered saved => pure (.signed (.proposal answered) saved)

/-- The remembered sign bytes are those of a message for the remembered step. -/
def LastSignState.Backed (lss : LastSignState) : Prop :=
  ∀ bytes, lss.signBytes = some bytes → ∃ (chainID : ChainID) (last : Message), last.Typed ∧
    chainID.length < 2 ^ 32 ∧ last.step = .ok lss.step ∧ last.signBytes chainID = .ok bytes

variable {privKey : Bytes → Except String Bytes} {chainID : ChainID} {lss : LastSignState}
  {saved : Option LastSignState}

/-- A request that succeeds signs a later step and saves it, or returns the
remembered signature on a message that has the remembered sign bytes. -/
theorem Kind.Lawful.sign_cases {μ κ : Type} [DecidableEq κ] {kind : Kind μ} {form : Form μ κ}
    {Typed : μ → Prop} (lawful : kind.Lawful form Typed) {message answered : μ}
    (typed : Typed message) (bounded : chainID.length < 2 ^ 32)
    (backed : ∀ bytes, lss.signBytes = some bytes → kind.step message = .ok lss.step →
      ∃ (lastChainID : ChainID) (last : μ), Typed last ∧ lastChainID.length < 2 ^ 32 ∧
        kind.signBytes lastChainID last = .ok bytes)
    (signed : signKind kind privKey lss chainID message = .ok (.signed answered saved)) :
    ∃ hrs bytes signature time, kind.height message = hrs.height ∧
      kind.round message = hrs.round ∧ kind.step message = .ok hrs.step ∧
      answered = kind.answer message time signature ∧ kind.signBytes chainID answered = .ok bytes ∧
      ((lss.hrs.Before hrs ∧ privKey bytes = .ok signature ∧
          saved = some ⟨hrs.height, hrs.round, hrs.step, some signature, some bytes⟩) ∨
        (lss.hrs = hrs ∧ lss.signBytes = some bytes ∧ lss.signature = some signature ∧
          saved = none)) := by
  obtain ⟨step, bytes, stepped, signedBytes, fresh | reused⟩ := sign_kind_cases signed
  · obtain ⟨signature, later, produced, rfl, rfl⟩ := fresh
    exact ⟨⟨kind.height message, kind.round message, step⟩, bytes, signature,
      kind.timestamp message, rfl, rfl, stepped, rfl,
      (lawful.unsigned chainID message signature).trans signedBytes, .inl ⟨later, produced, rfl⟩⟩
  · obtain ⟨last, signature, time, same, lastFound, found, rfl, rfl, agreement⟩ := reused
    refine ⟨⟨kind.height message, kind.round message, step⟩, last, signature, time, rfl, rfl,
      stepped, rfl, ?_, .inr ⟨same, lastFound, found, rfl⟩⟩
    rcases agreement with ⟨rfl, rfl⟩ | differ
    · exact (lawful.unsigned chainID message signature).trans signedBytes
    · have atStep : lss.step = step := congrArg HRS.step same
      obtain ⟨lastChainID, source, sourceTyped, lastBounded, sourceBytes⟩ :=
        backed last lastFound (atStep ▸ stepped)
      exact lawful.restamped typed sourceTyped bounded lastBounded signedBytes signature
        sourceBytes differ

theorem sign_message_cases {message answered : Message} (typed : message.Typed)
    (bounded : chainID.length < 2 ^ 32) (backed : lss.Backed)
    (signed : signMessage privKey lss chainID message = .ok (.signed answered saved)) :
    ∃ hrs bytes signature time, message.At hrs ∧ answered = message.answer time signature ∧
      answered.signBytes chainID = .ok bytes ∧
      ((lss.hrs.Before hrs ∧ privKey bytes = .ok signature ∧
          saved = some ⟨hrs.height, hrs.round, hrs.step, some signature, some bytes⟩) ∨
        (lss.hrs = hrs ∧ lss.signBytes = some bytes ∧ lss.signature = some signature ∧
          saved = none)) := by
  cases message with
  | vote vote =>
    obtain ⟨result, outcome, signed⟩ := bind_ok.mp signed
    cases result with
    | failed error => simp at signed
    | signed voteAnswered voteSaved =>
    cases signed
    obtain ⟨hrs, bytes, signature, time, height, round, step, rfl, answer, rest⟩ :=
      vote_kind_lawful.sign_cases typed bounded (fun last found here => by
        obtain ⟨lastChainID, source, sourceTyped, lastBounded, stepped, sourceBytes⟩ :=
          backed last found
        cases source with
        | vote lastVote => exact ⟨lastChainID, lastVote, sourceTyped, lastBounded, sourceBytes⟩
        | proposal lastProposal =>
          exact absurd (here.trans stepped.symm) (Message.vote_step_ne_propose vote)) outcome
    exact ⟨hrs, bytes, signature, time, ⟨height, round, step⟩, rfl, answer, rest⟩
  | proposal proposal =>
    obtain ⟨result, outcome, signed⟩ := bind_ok.mp signed
    cases result with
    | failed error => simp at signed
    | signed proposalAnswered proposalSaved =>
    cases signed
    obtain ⟨hrs, bytes, signature, time, height, round, step, rfl, answer, rest⟩ :=
      proposal_kind_lawful.sign_cases typed bounded (fun last found here => by
        obtain ⟨lastChainID, source, sourceTyped, lastBounded, stepped, sourceBytes⟩ :=
          backed last found
        cases source with
        | vote lastVote =>
          exact absurd (stepped.trans here.symm) (Message.vote_step_ne_propose lastVote)
        | proposal lastProposal =>
          exact ⟨lastChainID, lastProposal, sourceTyped, lastBounded, sourceBytes⟩) outcome
    exact ⟨hrs, bytes, signature, time, ⟨height, round, step⟩, rfl, answer, rest⟩

structure Returned where
  chainID : ChainID
  requested : Message
  answered : Message

/-- The process and its state file, with what it has produced so far. -/
structure Signer where
  memory : LastSignState
  disk : LastSignState
  saved : List HRS
  returned : List Returned

namespace Signer

def initial : Signer := ⟨.initial, .initial, [], []⟩

/-- How far a request gets before the process dies, if it does. -/
inductive Fate where
  | completes
  | crashBeforeSave
  | crashAfterSave
  deriving DecidableEq, Repr

inductive Event where
  | request (privKey : Bytes → Except String Bytes) (chainID : ChainID) (message : Message)
      (fate : Fate)
  | restart

def restart (signer : Signer) : Signer := { signer with memory := signer.disk.reload }

/-- The state after `saveSigned`, which a reused signature does not reach. -/
def save (signer : Signer) (saved : Option LastSignState) : Signer :=
  match saved with
  | none => signer
  | some lss => { signer with memory := lss, disk := lss, saved := signer.saved ++ [lss.hrs] }

def apply (signer : Signer) : Event → Signer
  | .restart => signer.restart
  | .request privKey chainID message fate =>
    match signMessage privKey signer.memory chainID message with
    -- A panic or an error comes before any change.
    | .error _ | .ok (.failed _) => signer
    | .ok (.signed answered saved) => match fate with
      | .completes => { signer.save saved with
          returned := signer.returned ++ [⟨chainID, message, answered⟩] }
      | .crashBeforeSave => signer.restart
      | .crashAfterSave => (signer.save saved).restart

def run (signer : Signer) (events : List Event) : Signer := events.foldl apply signer

/-- A request as the Go types allow it, to a key whose signatures verify. -/
def Event.Valid (crypto : Crypto) (pubKey : PubKey) : Event → Prop
  | .restart => True
  | .request privKey chainID message _ => message.Typed ∧ chainID.length < 2 ^ 32 ∧
      ∀ bytes signature, privKey bytes = .ok signature →
        crypto.verifySignature pubKey bytes signature = true

def Agree (first second : Returned) : Prop :=
  first.answered.signature = second.answered.signature ∧
    ∃ bytes, first.answered.signBytes first.chainID = .ok bytes ∧
      second.answered.signBytes second.chainID = .ok bytes

/-- An answer is the request with a time and a signature that verifies. -/
structure Answered (crypto : Crypto) (pubKey : PubKey) (entry : Returned) : Prop where
  typed : entry.requested.Typed
  bounded : entry.chainID.length < 2 ^ 32
  changed : ∃ time signature, entry.answered = entry.requested.answer time signature
  verifies : ∃ bytes, entry.answered.signBytes entry.chainID = .ok bytes ∧
    crypto.verifySignature pubKey bytes entry.answered.signature = true

/-- What a run keeps: memory and file agree, nothing was signed past them, and
an answer for the remembered step is the remembered one. -/
structure Sound (crypto : Crypto) (pubKey : PubKey) (signer : Signer) : Prop where
  sameFile : signer.memory.reload = signer.disk.reload
  backed : signer.memory.Backed
  verifies : ∀ bytes signature, signer.memory.signBytes = some bytes →
    signer.memory.signature = some signature →
    crypto.verifySignature pubKey bytes signature = true
  savedLast : ∀ bytes, signer.memory.signBytes = some bytes → signer.memory.hrs ∈ signer.saved
  savedBefore : ∀ hrs ∈ signer.saved, hrs.Before signer.memory.hrs ∨ hrs = signer.memory.hrs
  increasing : signer.saved.Pairwise HRS.Before
  answered : ∀ entry ∈ signer.returned, Answered crypto pubKey entry
  placed : ∀ entry ∈ signer.returned, ∃ hrs ∈ signer.saved, entry.requested.At hrs
  remembered : ∀ entry ∈ signer.returned, entry.requested.At signer.memory.hrs →
    (∀ bytes, signer.memory.signBytes = some bytes →
      entry.answered.signBytes entry.chainID = .ok bytes) ∧
    (∀ signature, signer.memory.signature = some signature → entry.answered.signature = signature)
  consistent : ∀ first ∈ signer.returned, ∀ second ∈ signer.returned, ∀ hrs,
    first.requested.At hrs → second.requested.At hrs → Agree first second

theorem sound_initial (crypto : Crypto) (pubKey : PubKey) : initial.Sound crypto pubKey where
  sameFile := rfl
  backed := by intro bytes found; cases found
  verifies := by intro bytes signature found; cases found
  savedLast := by intro bytes found; cases found
  savedBefore := by intro hrs member; cases member
  increasing := List.Pairwise.nil
  answered := by intro entry member; cases member
  placed := by intro entry member; cases member
  remembered := by intro entry member; cases member
  consistent := by intro first member; cases member

theorem reload_idempotent (lss : LastSignState) : lss.reload.reload = lss.reload := by
  simp [LastSignState.reload, Option.filter_filter]

variable {lss : LastSignState}

theorem reload_sign_bytes {bytes : Bytes} (found : lss.reload.signBytes = some bytes) :
    lss.signBytes = some bytes :=
  (Option.filter_eq_some_iff.mp found).1

theorem reload_signature {signature : Bytes} (found : lss.reload.signature = some signature) :
    lss.signature = some signature :=
  (Option.filter_eq_some_iff.mp found).1

theorem sound_restart {crypto : Crypto} {pubKey : PubKey} {signer : Signer}
    (sound : signer.Sound crypto pubKey) : signer.restart.Sound crypto pubKey := by
  have same : signer.disk.reload = signer.memory.reload := sound.sameFile.symm
  unfold restart
  rw [same]
  refine ⟨by simp only [reload_idempotent]; exact sound.sameFile, ?_, ?_, ?_, sound.savedBefore,
    sound.increasing, sound.answered, sound.placed, ?_, sound.consistent⟩
  · intro bytes found
    exact sound.backed bytes (reload_sign_bytes found)
  · intro bytes signature found kept
    exact sound.verifies bytes signature (reload_sign_bytes found) (reload_signature kept)
  · intro bytes found
    exact sound.savedLast bytes (reload_sign_bytes found)
  · intro entry member place
    have kept := sound.remembered entry member place
    exact ⟨fun bytes found => kept.1 bytes (reload_sign_bytes found),
      fun signature found => kept.2 signature (reload_signature found)⟩

theorem at_unique {message : Message} {first second : HRS} (atFirst : message.At first)
    (atSecond : message.At second) : first = second := by
  obtain ⟨height, round, step⟩ := atFirst
  obtain ⟨otherHeight, otherRound, otherStep⟩ := atSecond
  cases first
  simp_all

section

variable (crypto : Crypto) (pubKey : PubKey) (signer : Signer)

variable {bytes signature : Bytes}

theorem sound_save {chainID : ChainID} {message : Message} {hrs : HRS}
    (sound : signer.Sound crypto pubKey) (typed : message.Typed) (bounded : chainID.length < 2 ^ 32)
    (place : message.At hrs) (signed : message.signBytes chainID = .ok bytes)
    (later : signer.memory.hrs.Before hrs)
    (correct : crypto.verifySignature pubKey bytes signature = true) :
    (signer.save (some ⟨hrs.height, hrs.round, hrs.step, some signature, some bytes⟩)).Sound
      crypto pubKey := by
  have after : ∀ old ∈ signer.saved, old.Before hrs := by
    intro old member
    rcases sound.savedBefore old member with before | rfl
    · exact HRS.before_trans before later
    · exact later
  have notYet : ∀ entry ∈ signer.returned, ¬ entry.requested.At hrs := by
    intro entry member atNew
    obtain ⟨old, inSaved, atOld⟩ := sound.placed entry member
    have same := at_unique atOld atNew
    rw [same] at inSaved
    exact HRS.before_irrefl _ (after hrs inSaved)
  refine ⟨rfl, ?_, ?_, ?_, ?_, ?_, sound.answered, ?_, ?_, sound.consistent⟩
  · intro found same
    cases same
    exact ⟨chainID, message, typed, bounded, place.2.2, signed⟩
  · intro found kept same sameSignature
    cases same
    cases sameSignature
    exact correct
  · intro _ _
    simp [save]
  · intro old member
    rcases mem_append.mp member with before | new
    · exact Or.inl (after old before)
    · exact Or.inr (mem_singleton.mp new)
  · refine pairwise_append.mpr ⟨sound.increasing, pairwise_singleton _ _, ?_⟩
    intro old member new isNew
    rw [mem_singleton.mp isNew]
    exact after old member
  · intro entry member
    obtain ⟨old, inSaved, atOld⟩ := sound.placed entry member
    exact ⟨old, mem_append_left _ inSaved, atOld⟩
  · intro entry member atNew
    exact absurd atNew (notYet entry member)

theorem sound_return {entry : Returned} {time : Time} (sound : signer.Sound crypto pubKey)
    (typed : entry.requested.Typed) (bounded : entry.chainID.length < 2 ^ 32)
    (place : entry.requested.At signer.memory.hrs)
    (changed : entry.answered = entry.requested.answer time signature)
    (signed : entry.answered.signBytes entry.chainID = .ok bytes)
    (lastBytes : signer.memory.signBytes = some bytes)
    (lastSignature : signer.memory.signature = some signature) :
    ({ signer with returned := signer.returned ++ [entry] } : Signer).Sound crypto pubKey := by
  have mine : entry.answered.signature = signature := by
    rw [changed, Message.answer_signature]
  have agrees : ∀ old ∈ signer.returned, old.requested.At signer.memory.hrs → Agree old entry := by
    intro old member atSame
    obtain ⟨oldBytes, oldSignature⟩ := sound.remembered old member atSame
    exact ⟨(oldSignature signature lastSignature).trans mine.symm, bytes, oldBytes bytes lastBytes,
      signed⟩
  refine ⟨sound.sameFile, sound.backed, sound.verifies, sound.savedLast, sound.savedBefore,
    sound.increasing, ?_, ?_, ?_, ?_⟩
  · intro other member
    rcases mem_append.mp member with old | new
    · exact sound.answered other old
    · rw [mem_singleton.mp new]
      refine ⟨typed, bounded, ⟨time, signature, changed⟩, bytes, signed, ?_⟩
      rw [mine]
      exact sound.verifies bytes signature lastBytes lastSignature
  · intro other member
    rcases mem_append.mp member with old | new
    · exact sound.placed other old
    · rw [mem_singleton.mp new]
      exact ⟨_, sound.savedLast bytes lastBytes, place⟩
  · intro other member atSame
    rcases mem_append.mp member with old | new
    · exact sound.remembered other old atSame
    · rw [mem_singleton.mp new]
      refine ⟨?_, ?_⟩
      · intro found same
        rw [lastBytes] at same
        cases same
        exact signed
      · intro found same
        rw [lastSignature] at same
        cases same
        exact mine
  · intro first firstMember second secondMember hrs atFirst atSecond
    rcases mem_append.mp firstMember with firstOld | firstNew <;>
      rcases mem_append.mp secondMember with secondOld | secondNew
    · exact sound.consistent first firstOld second secondOld hrs atFirst atSecond
    · rw [mem_singleton.mp secondNew] at atSecond ⊢
      have same := at_unique atSecond place
      exact agrees first firstOld (same ▸ atFirst)
    · rw [mem_singleton.mp firstNew] at atFirst ⊢
      have same := at_unique atFirst place
      obtain ⟨signatures, found, secondBytes, firstBytes⟩ :=
        agrees second secondOld (same ▸ atSecond)
      exact ⟨signatures.symm, found, firstBytes, secondBytes⟩
    · rw [mem_singleton.mp firstNew, mem_singleton.mp secondNew]
      exact ⟨rfl, bytes, signed, signed⟩

theorem sound_apply (event : Event) (valid : event.Valid crypto pubKey)
    (sound : signer.Sound crypto pubKey) :
    (signer.apply event).Sound crypto pubKey := by
  cases event with
  | restart => exact sound_restart sound
  | request privKey chainID message fate =>
  obtain ⟨typed, bounded, genuine⟩ := valid
  cases outcome : signMessage privKey signer.memory chainID message with
  | error text => simpa [apply, outcome] using sound
  | ok result =>
  cases result with
  | failed error => simpa [apply, outcome] using sound
  | signed answered saved =>
  simp only [apply, outcome]
  obtain ⟨hrs, bytes, signature, time, place, changed, signed, fresh | reused⟩ :=
    sign_message_cases typed bounded sound.backed outcome
  · obtain ⟨later, produced, rfl⟩ := fresh
    have answeredTyped : answered.Typed := by
      rw [changed]
      exact Message.answer_typed _ _ _ typed
    have answeredAt : answered.At hrs := by
      rw [changed]
      exact Message.answer_at place
    have after := sound_save crypto pubKey signer sound
      answeredTyped bounded answeredAt signed later (genuine bytes signature produced)
    cases fate with
    | completes =>
      exact sound_return crypto pubKey _ after typed bounded place changed signed rfl rfl
    | crashBeforeSave => exact sound_restart sound
    | crashAfterSave => exact sound_restart after
  · obtain ⟨same, lastBytes, lastSignature, rfl⟩ := reused
    rw [← same] at place
    cases fate with
    | completes =>
      exact sound_return crypto pubKey signer
        sound typed bounded place changed signed lastBytes lastSignature
    | crashBeforeSave => exact sound_restart sound
    | crashAfterSave => exact sound_restart sound

theorem sound_run {events : List Event} (valid : ∀ event ∈ events, event.Valid crypto pubKey)
    (sound : signer.Sound crypto pubKey) :
    (signer.run events).Sound crypto pubKey := by
  induction events generalizing signer with
  | nil => exact sound
  | cons event rest ih =>
    exact ih (signer.apply event)
      (fun later member => valid later (mem_cons_of_mem event member))
      (sound_apply crypto pubKey signer event (valid event (by simp)) sound)

end

/-- Over any requests, crashes and restarts: two answers for one height, round
and step carry the same signature over the same bytes and were asked for
messages that differ at most in their time; saved signatures go strictly
forward; and every answer is the request with a time and a signature that
verifies over its sign bytes. -/
theorem file_pv_never_double_signs (crypto : Crypto) (pubKey : PubKey) (events : List Event)
    (valid : ∀ event ∈ events, event.Valid crypto pubKey) :
    (∀ first ∈ (initial.run events).returned, ∀ second ∈ (initial.run events).returned, ∀ hrs,
      first.requested.At hrs → second.requested.At hrs →
      first.answered.signature = second.answered.signature ∧
      first.answered.signBytes first.chainID = second.answered.signBytes second.chainID ∧
      ∀ time signature, (first.requested.answer time signature).signBytes first.chainID =
        (second.requested.answer time signature).signBytes second.chainID) ∧
    (initial.run events).saved.Pairwise HRS.Before ∧
    ∀ entry ∈ (initial.run events).returned,
      (∃ hrs ∈ (initial.run events).saved, entry.requested.At hrs) ∧
      (∃ time signature, entry.answered = entry.requested.answer time signature) ∧
      ∃ bytes, entry.answered.signBytes entry.chainID = .ok bytes ∧
        crypto.verifySignature pubKey bytes entry.answered.signature = true := by
  have sound := sound_run crypto pubKey initial valid (sound_initial crypto pubKey)
  refine ⟨?_, sound.increasing, ?_⟩
  · intro first firstMember second secondMember hrs atFirst atSecond
    obtain ⟨signatures, bytes, firstBytes, secondBytes⟩ :=
      sound.consistent first firstMember second secondMember hrs atFirst atSecond
    refine ⟨signatures, firstBytes.trans secondBytes.symm, ?_⟩
    intro time signature
    have firstOwn := sound.answered first firstMember
    have secondOwn := sound.answered second secondMember
    obtain ⟨firstTime, firstSignature, firstChanged⟩ := firstOwn.changed
    obtain ⟨secondTime, secondSignature, secondChanged⟩ := secondOwn.changed
    rw [firstChanged] at firstBytes
    rw [secondChanged] at secondBytes
    have upToTime := Message.up_to_time time signature
      (Message.answer_typed _ firstTime firstSignature firstOwn.typed)
      (Message.answer_typed _ secondTime secondSignature secondOwn.typed) firstOwn.bounded
      secondOwn.bounded hrs.step
      ((Message.answer_step _ _ _).trans atFirst.2.2)
      ((Message.answer_step _ _ _).trans atSecond.2.2) firstBytes secondBytes
    rwa [Message.answer_again, Message.answer_again] at upToTime
  · intro entry member
    have own := sound.answered entry member
    exact ⟨sound.placed entry member, own.changed, own.verifies⟩

def resignAfterCrash : List Event :=
  let prevote : Vote := ⟨.prevote, 1, 0, BlockID.zero, 5000000000, [], 0, []⟩
  let later : Vote := { prevote with timestamp := 9000000000 }
  [.request (fun _ => .ok [7]) [] (.vote prevote) .crashAfterSave,
   .request (fun _ => .ok [8]) [] (.vote later) .completes,
   .request (fun _ => .ok [9]) [] (.vote prevote) .completes]

theorem file_pv_resigns_after_crash :
    (initial.run resignAfterCrash).returned.map (·.answered.signature) = [[7], [7]] ∧
    (initial.run resignAfterCrash).saved.Pairwise HRS.Before := by
  refine ⟨by decide, (file_pv_never_double_signs .acceptAll ⟨.ed25519, []⟩ resignAfterCrash ?_).2.1⟩
  have typed : ∀ time, (Message.vote ⟨.prevote, 1, 0, BlockID.zero, time, [], 0, []⟩).Typed :=
    fun _ => ⟨by simp [InInt64], by simp [InInt32], by simp [BlockID.Typed, BlockID.zero,
      PartSetHeader.Typed, PartSetHeader.zero]⟩
  intro event member
  simp only [resignAfterCrash, mem_cons, not_mem_nil, or_false] at member
  rcases member with rfl | rfl | rfl <;> exact ⟨typed _, by decide, fun _ _ _ => rfl⟩

end Signer

end Tendermint.PrivVal
