import Tendermint.Types.Validation

/-!
The two loops of commit verification. Both look at the same signatures in the
same order and count the same power; the single loop then verifies each
signature with the key of its validator, and the batch loop refuses a key of
another type than the proposer's. What is accepted is stated once, over the
signatures that were looked at.
-/

namespace Tendermint.Types

open List

/-- Batch verification accepts what single verification accepts. -/
structure Crypto.BatchFaithful (crypto : Crypto) : Prop where
  wellFormed : ∀ pubKey message signature,
    crypto.verifySignature pubKey message signature = true →
    crypto.batchMalformed pubKey signature = none
  verifies : ∀ entries, crypto.batchVerify entries =
    (entries.all fun entry =>
        crypto.verifySignature entry.pubKey entry.message entry.signature,
      entries.map fun entry =>
        crypto.verifySignature entry.pubKey entry.message entry.signature)

theorem accept_all_faithful : Crypto.acceptAll.BatchFaithful :=
  ⟨fun _ _ _ _ => rfl, fun entries => by simp [Crypto.acceptAll]⟩

section Loops

variable (crypto : Crypto) (chainID : ChainID) (vals : ValidatorSet) (commit : Commit)
  (needed : Int) (mode : VerifyMode)

def BatchEntry.Verifies (entry : BatchEntry) : Prop :=
  crypto.verifySignature entry.pubKey entry.message entry.signature = true

/-- What both loops look at: the signatures up to the one that passes the
threshold, each with the key that has to verify it, and the power counted. There
is no result where the loops stop with an error or panic on the way. -/
def examine : (Nat → Option Nat) → Int → List (CommitSig × Nat) →
    Option (List (BatchEntry × Nat) × Int)
  | _, tallied, [] => some ([], tallied)
  | seen, tallied, (sig, idx) :: rest =>
    if mode.ignoreSig sig then examine seen tallied rest
    else match lookUpValidator mode vals seen sig idx, commit.voteSignBytes chainID idx with
    | .ok (.ok (none, seen)), _ => examine seen tallied rest
    | .ok (.ok (some val, seen)), .ok signBytes =>
      if !mode.countAllSignatures && decide (needed < mode.tally tallied sig val) then
        some ([(⟨val.pubKey, signBytes, sig.signature⟩, idx)], mode.tally tallied sig val)
      else (examine seen (mode.tally tallied sig val) rest).map fun later =>
        ((⟨val.pubKey, signBytes, sig.signature⟩, idx) :: later.1, later.2)
    | _, _ => none

theorem single_loop_accepts_iff (rest : List (CommitSig × Nat)) (seen : Nat → Option Nat)
    (tallied : Int) :
    singleLoop crypto chainID vals commit needed mode seen tallied rest = .ok none ↔
      ∃ entries final, examine chainID vals commit needed mode seen tallied rest =
          some (entries, final) ∧ needed < final ∧
        ∀ entry ∈ entries, BatchEntry.Verifies crypto entry.1 := by
  induction rest generalizing seen tallied with
  | nil =>
    simp only [singleLoop, examine]
    split
    case isTrue few => simpa using few
    case isFalse many => simpa using many
  | cons entry rest ih =>
    obtain ⟨sig, idx⟩ := entry
    unfold singleLoop examine
    by_cases ignored : mode.ignoreSig sig = true
    · simp only [ignored, if_true]
      exact ih seen tallied
    simp only [if_neg ignored, bind_eq, pure_eq]
    cases lookUpValidator mode vals seen sig idx with
    | error text => simp
    | ok found =>
    cases found with
    | error error => simp
    | ok pair =>
    obtain ⟨val, next⟩ := pair
    cases val with
    | none => exact ih next tallied
    | some val =>
    cases commit.voteSignBytes chainID idx with
    | error text => simp
    | ok signBytes =>
    by_cases verified : crypto.verifySignature val.pubKey signBytes sig.signature = true
    · simp only [verified, Bool.not_true, Bool.false_eq_true, if_false]
      split
      case isTrue stop =>
        have above := of_decide_eq_true (Bool.and_eq_true_iff.mp stop).2
        simp only [true_iff]
        exact ⟨_, _, rfl, above, by simpa [BatchEntry.Verifies] using verified⟩
      case isFalse =>
        rw [ih]
        constructor
        · rintro ⟨entries, final, examined, above, valid⟩
          refine ⟨_, final, by rw [examined]; rfl, above, ?_⟩
          simpa [BatchEntry.Verifies, verified] using valid
        · rintro ⟨entries, final, examined, above, valid⟩
          obtain ⟨later, found, same⟩ := Option.map_eq_some_iff.mp examined
          cases same
          exact ⟨later.1, later.2, found, above,
            fun entry member => valid entry (mem_cons_of_mem _ member)⟩
    · simp only [verified, Bool.not_false, if_true, Except.ok.injEq, reduceCtorEq, false_iff]
      rintro ⟨entries, final, examined, -, valid⟩
      apply verified
      split at examined
      · cases examined
        exact valid _ (mem_singleton_self _)
      · obtain ⟨later, -, same⟩ := Option.map_eq_some_iff.mp examined
        cases same
        exact valid _ mem_cons_self

theorem batch_loop_ok_iff (keyType : KeyType) (rest : List (CommitSig × Nat))
    (seen : Nat → Option Nat) (batch final : Batch) :
    batchLoop crypto chainID vals commit needed mode keyType seen batch rest = .ok (.ok final) ↔
      ∃ entries, examine chainID vals commit needed mode seen batch.tallied rest =
          some (entries, final.tallied) ∧ final.entries = batch.entries ++ entries ∧
        ∀ entry ∈ entries, batchAdd crypto keyType entry.1.pubKey entry.1.signature = none := by
  induction rest generalizing seen batch with
  | nil =>
    obtain ⟨gathered, tallied⟩ := batch
    obtain ⟨finalEntries, finalTally⟩ := final
    simp only [batchLoop, examine, Except.ok.injEq, Batch.mk.injEq, Option.some.injEq,
      Prod.mk.injEq]
    constructor
    · rintro ⟨rfl, rfl⟩
      exact ⟨[], ⟨rfl, rfl⟩, by simp, by simp⟩
    · rintro ⟨_, ⟨rfl, rfl⟩, same, -⟩
      exact ⟨by simpa using same.symm, rfl⟩
  | cons entry rest ih =>
    obtain ⟨sig, idx⟩ := entry
    unfold batchLoop examine
    by_cases ignored : mode.ignoreSig sig = true
    · simp only [ignored, if_true]
      exact ih seen batch
    simp only [if_neg ignored, bind_eq, pure_eq]
    cases lookUpValidator mode vals seen sig idx with
    | error text => simp
    | ok found =>
    cases found with
    | error error => simp
    | ok pair =>
    obtain ⟨val, next⟩ := pair
    cases val with
    | none => exact ih next batch
    | some val =>
    cases commit.voteSignBytes chainID idx with
    | error text => simp
    | ok signBytes =>
    cases addition : batchAdd crypto keyType val.pubKey sig.signature with
    | some text =>
      simp only [addition, Except.ok.injEq, reduceCtorEq, false_iff]
      rintro ⟨entries, examined, -, added⟩
      have first : (⟨val.pubKey, signBytes, sig.signature⟩, idx) ∈ entries := by
        split at examined
        · simp only [Option.some.injEq, Prod.mk.injEq] at examined
          rw [← examined.1]
          exact mem_singleton_self _
        · obtain ⟨later, -, same⟩ := Option.map_eq_some_iff.mp examined
          simp only [Prod.mk.injEq] at same
          rw [← same.1]
          exact mem_cons_self
      have refused := added _ first
      rw [addition] at refused
      cases refused
    | none =>
      simp only [addition]
      split
      case isTrue =>
        obtain ⟨finalEntries, finalTally⟩ := final
        simp only [Except.ok.injEq, Batch.mk.injEq, Option.some.injEq, Prod.mk.injEq]
        constructor
        · rintro ⟨rfl, rfl⟩
          exact ⟨_, ⟨rfl, rfl⟩, rfl, by simpa using addition⟩
        · rintro ⟨_, ⟨rfl, rfl⟩, rfl, -⟩
          exact ⟨rfl, rfl⟩
      case isFalse =>
        rw [ih]
        constructor
        · rintro ⟨entries, examined, gathered, added⟩
          refine ⟨_, by rw [examined]; rfl, by simpa using gathered, ?_⟩
          simpa [addition] using added
        · rintro ⟨entries, examined, gathered, added⟩
          obtain ⟨later, found, same⟩ := Option.map_eq_some_iff.mp examined
          obtain ⟨laterEntries, laterTally⟩ := later
          cases same
          exact ⟨laterEntries, found, by simpa using gathered,
            fun entry member => added entry (mem_cons_of_mem _ member)⟩

/-- The ways in which signatures are examined, one for each branch of the loops. -/
inductive Examines : (Nat → Option Nat) → Int → List (CommitSig × Nat) →
    List (BatchEntry × Nat) → Int → Prop
  | done (seen : Nat → Option Nat) (tallied : Int) : Examines seen tallied [] [] tallied
  | ignored (seen : Nat → Option Nat) (tallied : Int) (sig : CommitSig) (idx : Nat)
      (rest : List (CommitSig × Nat)) (entries : List (BatchEntry × Nat)) (final : Int)
      (skipped : mode.ignoreSig sig = true) (later : Examines seen tallied rest entries final) :
      Examines seen tallied ((sig, idx) :: rest) entries final
  | unknown (seen next : Nat → Option Nat) (tallied : Int) (sig : CommitSig) (idx : Nat)
      (rest : List (CommitSig × Nat)) (entries : List (BatchEntry × Nat)) (final : Int)
      (kept : mode.ignoreSig sig = false)
      (found : lookUpValidator mode vals seen sig idx = .ok (.ok (none, next)))
      (later : Examines next tallied rest entries final) :
      Examines seen tallied ((sig, idx) :: rest) entries final
  | last (seen next : Nat → Option Nat) (tallied : Int) (sig : CommitSig) (idx : Nat)
      (rest : List (CommitSig × Nat)) (val : Validator) (signBytes : Bytes)
      (kept : mode.ignoreSig sig = false)
      (found : lookUpValidator mode vals seen sig idx = .ok (.ok (some val, next)))
      (signed : commit.voteSignBytes chainID idx = .ok signBytes)
      (partly : mode.countAllSignatures = false) (enough : needed < mode.tally tallied sig val) :
      Examines seen tallied ((sig, idx) :: rest)
        [(⟨val.pubKey, signBytes, sig.signature⟩, idx)] (mode.tally tallied sig val)
  | counted (seen next : Nat → Option Nat) (tallied : Int) (sig : CommitSig) (idx : Nat)
      (rest : List (CommitSig × Nat)) (val : Validator) (signBytes : Bytes)
      (entries : List (BatchEntry × Nat)) (final : Int)
      (kept : mode.ignoreSig sig = false)
      (found : lookUpValidator mode vals seen sig idx = .ok (.ok (some val, next)))
      (signed : commit.voteSignBytes chainID idx = .ok signBytes)
      (later : Examines next (mode.tally tallied sig val) rest entries final) :
      Examines seen tallied ((sig, idx) :: rest)
        ((⟨val.pubKey, signBytes, sig.signature⟩, idx) :: entries) final

variable {seen : Nat → Option Nat} {tallied final : Int} {rest : List (CommitSig × Nat)}
  {entries : List (BatchEntry × Nat)}

theorem examines_of_examine
    (examined : examine chainID vals commit needed mode seen tallied rest = some (entries, final)) :
    Examines chainID vals commit needed mode seen tallied rest entries final := by
  induction rest generalizing seen tallied entries final with
  | nil =>
    cases examined
    exact .done seen tallied
  | cons entry rest ih =>
  obtain ⟨sig, idx⟩ := entry
  unfold examine at examined
  by_cases ignored : mode.ignoreSig sig = true
  · rw [if_pos ignored] at examined
    exact .ignored _ _ _ _ _ _ _ ignored (ih examined)
  · rw [if_neg ignored] at examined
    have kept : mode.ignoreSig sig = false := by simpa using ignored
    split at examined
    case h_1 next found =>
      exact .unknown _ next _ _ _ _ _ _ kept found (ih examined)
    case h_2 val next signBytes found signed =>
      split at examined
      case isTrue stop =>
        simp only [Option.some.injEq, Prod.mk.injEq] at examined
        rw [← examined.1, ← examined.2]
        have both := Bool.and_eq_true_iff.mp stop
        exact .last _ next _ _ _ _ val signBytes kept found signed (by simpa using both.1)
          (of_decide_eq_true both.2)
      case isFalse =>
        obtain ⟨later, continued, same⟩ := Option.map_eq_some_iff.mp examined
        simp only [Prod.mk.injEq] at same
        rw [← same.1]
        exact .counted _ next _ _ _ _ val signBytes _ _ kept found signed
          (ih (by rw [continued, ← same.2]))
    case h_3 => cases examined

theorem look_up_some {next : Nat → Option Nat} {sig : CommitSig} {idx : Nat} {val : Validator}
    (found : lookUpValidator mode vals seen sig idx = .ok (.ok (some val, next))) :
    ∃ index, vals.validators[index]? = some val ∧
      ((mode.lookUpByIndex = true ∧ index = idx ∧ next = seen) ∨
       (mode.lookUpByIndex = false ∧ val.address = sig.validatorAddress ∧ seen index = none ∧
         next = Function.update seen index (some idx))) := by
  unfold lookUpValidator at found
  split at found
  case isTrue byIndex =>
    split at found
    · rename_i here
      cases found
      exact ⟨idx, here, Or.inl ⟨byIndex, rfl, rfl⟩⟩
    · cases found
  case isFalse byAddress =>
    split at found
    · cases found
    · rename_i index holder searched
      obtain ⟨here, named⟩ := ValidatorSet.get_by_address_some _ searched
      split at found
      · cases found
      · rename_i fresh
        cases found
        exact ⟨index, here, Or.inr ⟨by simpa using byAddress, named, fresh, rfl⟩⟩

theorem examines_entry
    (examined : Examines chainID vals commit needed mode seen tallied rest entries final) :
    ∀ entry ∈ entries, ∃ sig val index, (sig, entry.2) ∈ rest ∧ mode.ignoreSig sig = false ∧
      vals.validators[index]? = some val ∧ (mode.lookUpByIndex = true → index = entry.2) ∧
      entry.1.pubKey = val.pubKey ∧ entry.1.signature = sig.signature ∧
      commit.voteSignBytes chainID entry.2 = .ok entry.1.message := by
  induction examined with
  | done => simp
  | ignored _ _ _ _ _ _ _ _ _ ih =>
    intro entry member
    obtain ⟨sig, val, index, present, facts⟩ := ih entry member
    exact ⟨sig, val, index, mem_cons_of_mem _ present, facts⟩
  | unknown _ _ _ _ _ _ _ _ _ _ _ ih =>
    intro entry member
    obtain ⟨sig, val, index, present, facts⟩ := ih entry member
    exact ⟨sig, val, index, mem_cons_of_mem _ present, facts⟩
  | last seen next _ sig idx _ val _ kept found signed =>
    intro entry member
    rw [mem_singleton.mp member]
    obtain ⟨index, here, cases⟩ := look_up_some vals mode found
    refine ⟨sig, val, index, by simp, kept, here, ?_, rfl, rfl, signed⟩
    intro byIndex
    rcases cases with ⟨_, same, _⟩ | ⟨byAddress, _⟩
    · exact same
    · rw [byIndex] at byAddress
      cases byAddress
  | counted seen next _ sig idx _ val _ _ _ kept found signed _ ih =>
    intro entry member
    rcases mem_cons.mp member with rfl | old
    · obtain ⟨index, here, cases⟩ := look_up_some vals mode found
      refine ⟨sig, val, index, by simp, kept, here, ?_, rfl, rfl, signed⟩
      intro byIndex
      rcases cases with ⟨_, same, _⟩ | ⟨byAddress, _⟩
      · exact same
      · rw [byIndex] at byAddress
        cases byAddress
    · obtain ⟨other, holder, index, present, facts⟩ := ih entry old
      exact ⟨other, holder, index, mem_cons_of_mem _ present, facts⟩

theorem examines_all (byIndex : mode.lookUpByIndex = true) (all : mode.countAllSignatures = true)
    (examined : Examines chainID vals commit needed mode seen tallied rest entries final) :
    ∀ sig idx, (sig, idx) ∈ rest → mode.ignoreSig sig = false →
      ∃ entry ∈ entries, entry.2 = idx := by
  induction examined with
  | done => simp
  | ignored _ _ sig idx _ _ _ skipped _ ih =>
    intro other index member kept
    rcases mem_cons.mp member with same | later
    · cases same
      rw [skipped] at kept
      cases kept
    · exact ih other index later kept
  | unknown seen next _ sig idx _ _ _ _ found =>
    unfold lookUpValidator at found
    rw [if_pos byIndex] at found
    split at found <;> cases found
  | last _ _ _ _ _ _ _ _ _ _ _ partly =>
    rw [all] at partly
    cases partly
  | counted _ _ _ sig idx _ _ _ _ _ _ _ _ _ ih =>
    intro other index member kept
    rcases mem_cons.mp member with same | later
    · cases same
      exact ⟨_, mem_cons_self, rfl⟩
    · obtain ⟨entry, present, here⟩ := ih other index later kept
      exact ⟨entry, mem_cons_of_mem _ present, here⟩

/-- The signature is that of the validator at its index over the bytes that
the commit gives. -/
def SignatureHolds (sig : CommitSig) (idx : Nat) : Prop :=
  ∃ val bytes, vals.validators[idx]? = some val ∧ commit.voteSignBytes chainID idx = .ok bytes ∧
    crypto.verifySignature val.pubKey bytes sig.signature = true

def countedPower (rest : List (CommitSig × Nat)) : Int :=
  (rest.map fun entry => if mode.ignoreSig entry.1 then 0
    else if mode.countSig entry.1 then vals.power entry.2 else 0).sum

theorem counted_power_nonneg (nonneg : ∀ index, 0 ≤ vals.power index)
    (rest : List (CommitSig × Nat)) : 0 ≤ countedPower vals mode rest := by
  apply sum_nonneg
  intro power member
  obtain ⟨entry, -, rfl⟩ := mem_map.mp member
  split
  · exact Int.le_refl 0
  split
  · exact nonneg entry.2
  · exact Int.le_refl 0

theorem examine_by_index (byIndex : mode.lookUpByIndex = true)
    (nonneg : ∀ index, 0 ≤ vals.power index) (rest : List (CommitSig × Nat))
    (seen : Nat → Option Nat) (tallied : Int)
    (present : ∀ sig idx, (sig, idx) ∈ rest → mode.ignoreSig sig = false →
      ∃ val signBytes, vals.validators[idx]? = some val ∧
        commit.voteSignBytes chainID idx = .ok signBytes)
    (start : 0 ≤ tallied) (fits : tallied + countedPower vals mode rest ≤ maxInt64) :
    ∃ entries final, examine chainID vals commit needed mode seen tallied rest =
        some (entries, final) ∧
      (needed < tallied + countedPower vals mode rest → needed < final) := by
  induction rest generalizing seen tallied with
  | nil => exact ⟨[], tallied, rfl, by simp [countedPower]⟩
  | cons entry rest ih =>
  obtain ⟨sig, idx⟩ := entry
  have later := fun other index member => present other index (mem_cons_of_mem _ member)
  have rest_nonneg := counted_power_nonneg vals mode nonneg rest
  unfold examine
  by_cases ignored : mode.ignoreSig sig = true
  · have same : countedPower vals mode ((sig, idx) :: rest) = countedPower vals mode rest := by
      simp [countedPower, ignored]
    rw [if_pos ignored]
    rw [same] at fits ⊢
    exact ih seen tallied later start fits
  · have kept : mode.ignoreSig sig = false := by simpa using ignored
    obtain ⟨val, signBytes, found, signed⟩ := present sig idx (by simp) kept
    have power : vals.power idx = val.votingPower := by simp [ValidatorSet.power, found]
    have positive := nonneg idx
    have split : tallied + countedPower vals mode ((sig, idx) :: rest) =
        mode.tally tallied sig val + countedPower vals mode rest ∧
        0 ≤ mode.tally tallied sig val := by
      by_cases counts : mode.countSig sig = true
      · have whole : countedPower vals mode ((sig, idx) :: rest) =
            val.votingPower + countedPower vals mode rest := by
          simp [countedPower, kept, counts, power]
        have exact : int64 (tallied + val.votingPower) = tallied + val.votingPower :=
          int64_exact _ (by unfold minInt64; omega) (by omega)
        rw [VerifyMode.tally, if_pos counts, whole, exact]
        omega
      · have whole : countedPower vals mode ((sig, idx) :: rest) =
            countedPower vals mode rest := by
          simp [countedPower, counts]
        rw [VerifyMode.tally, if_neg counts, whole]
        omega
    have look : lookUpValidator mode vals seen sig idx = .ok (.ok (some val, seen)) := by
      simp [lookUpValidator, byIndex, found]
    rw [if_neg ignored, look, signed]
    simp only
    by_cases stop : (!mode.countAllSignatures &&
        decide (needed < mode.tally tallied sig val)) = true
    · rw [if_pos stop]
      exact ⟨_, _, rfl, fun _ => of_decide_eq_true (Bool.and_eq_true_iff.mp stop).2⟩
    · rw [if_neg stop]
      obtain ⟨entries, final, examined, enough⟩ := ih seen (mode.tally tallied sig val) later
        split.2 (by omega)
      refine ⟨_, final, by rw [examined]; rfl, ?_⟩
      rw [split.1]
      exact enough

theorem batch_add_none_iff {keyType : KeyType} {pubKey : PubKey} {signature : Bytes} :
    batchAdd crypto keyType pubKey signature = none ↔
      pubKey.keyType = keyType ∧ crypto.batchMalformed pubKey signature = none := by
  unfold batchAdd
  split
  case isTrue other => simp [other]
  case isFalse same => simp [not_not.mp same]

def batchKeyType : Panics (Option KeyType) := do
  if ← shouldBatchVerify vals commit then pure (some (← proposerKey vals).keyType) else pure none

theorem close_batch_accepts_iff (faithful : crypto.BatchFaithful) (batch : Batch) :
    closeBatch crypto commit needed batch = none ↔ needed < batch.tallied ∧
      ∀ entry ∈ batch.entries, BatchEntry.Verifies crypto entry.1 := by
  unfold closeBatch
  by_cases few : batch.tallied ≤ needed
  · simp only [few, if_true, reduceCtorEq, false_iff, not_and]
    omega
  rw [if_neg few]
  simp only [faithful.verifies]
  have above : needed < batch.tallied := by omega
  have all : ((batch.entries.map (·.1)).all fun entry =>
      crypto.verifySignature entry.pubKey entry.message entry.signature) = true ↔
      ∀ entry ∈ batch.entries, BatchEntry.Verifies crypto entry.1 := by
    simp [all_eq_true, BatchEntry.Verifies]
  by_cases valid : ∀ entry ∈ batch.entries, BatchEntry.Verifies crypto entry.1
  · simp only [all.mpr valid, if_true, above, true_and, true_iff]
    exact fun _ _ => valid _ ‹_›
  · rw [if_neg (mt all.mp valid)]
    simp only [valid, and_false, iff_false]
    split <;> simp

theorem verify_batch_accepts_iff (faithful : crypto.BatchFaithful) {pubKey : PubKey}
    (key : proposerKey vals = .ok pubKey) (supported : supportsBatchVerifier pubKey = true)
    (many : ¬ commit.signatures.length < batchVerifyThreshold) :
    verifyCommitBatch crypto chainID vals commit needed mode = .ok none ↔
      ∃ entries final, examine chainID vals commit needed mode (fun _ => none) 0
          commit.signatures.zipIdx = some (entries, final) ∧ needed < final ∧
        (∀ entry ∈ entries, BatchEntry.Verifies crypto entry.1) ∧
        ∀ entry ∈ entries, entry.1.pubKey.keyType = pubKey.keyType := by
  have loop := batch_loop_ok_iff crypto chainID vals commit needed mode pubKey.keyType
    commit.signatures.zipIdx (fun _ => none) ⟨[], 0⟩
  simp only [verifyCommitBatch, key, supported, many, bind_eq, pure_eq,
    Bool.not_true, decide_false, Bool.or_self, Bool.false_eq_true, if_false]
  constructor
  · intro accepted
    split at accepted
    · cases accepted
    rename_i result gathered
    split at accepted
    · cases accepted
    rename_i batch
    obtain ⟨entries, examined, same, added⟩ := (loop batch).mp gathered
    obtain ⟨above, valid⟩ := (close_batch_accepts_iff crypto commit needed faithful batch).mp
      (by simpa using accepted)
    rw [same] at valid
    refine ⟨entries, batch.tallied, examined, above, valid, ?_⟩
    exact fun entry member => ((batch_add_none_iff crypto).mp (added entry member)).1
  · rintro ⟨entries, final, examined, above, valid, uniform⟩
    have gathered := (loop ⟨entries, final⟩).mpr ⟨entries, examined, rfl, fun entry member =>
      (batch_add_none_iff crypto).mpr
        ⟨uniform entry member, faithful.wellFormed _ _ _ (valid entry member)⟩⟩
    have closed := (close_batch_accepts_iff crypto commit needed faithful
      ⟨entries, final⟩).mpr ⟨above, valid⟩
    simp only [gathered, closed]

/-- A commit is accepted when the signatures looked at verify and carry enough
power and, in a batch, all have keys of the type that the batch is for. -/
theorem verify_with_accepts_iff (faithful : crypto.BatchFaithful) :
    verifyCommitWith crypto chainID vals commit needed mode = .ok none ↔
      ∃ batchType entries final, batchKeyType vals commit = .ok batchType ∧
        examine chainID vals commit needed mode (fun _ => none) 0 commit.signatures.zipIdx =
          some (entries, final) ∧ needed < final ∧
        (∀ entry ∈ entries, BatchEntry.Verifies crypto entry.1) ∧
        ∀ keyType, batchType = some keyType →
          ∀ entry ∈ entries, entry.1.pubKey.keyType = keyType := by
  have single := single_loop_accepts_iff crypto chainID vals commit needed mode
  simp only [verifyCommitWith, batchKeyType, shouldBatchVerify, bind_eq, pure_eq]
  by_cases few : commit.signatures.length < batchVerifyThreshold
  · simp only [few, if_true, Bool.false_eq_true, if_false, verifyCommitSingle, single]
    simp
  simp only [few, if_false]
  cases key : proposerKey vals with
  | error text => simp
  | ok pubKey =>
  by_cases supported : supportsBatchVerifier pubKey = true
  · simp only [supported, if_true, verify_batch_accepts_iff crypto chainID vals commit needed mode
      faithful key supported few]
    simp
  · simp only [supported, Bool.false_eq_true, if_false, verifyCommitSingle, single]
    simp

end Loops

end Tendermint.Types
