import Tendermint.Evidence.Acceptance
import Tendermint.Evidence.Agreement

/-!
The bookkeeping of the pool over whole runs. The count, the order of the store,
the list for the broadcast, the committed keys and the acceptability of what is
pending are one invariant. Each way in which evidence comes in or goes out keeps
it under a condition on the call and on the pool before it; the conditions say
where the code adds evidence twice, adds what it did not verify, or keeps what
has expired.
-/

namespace Tendermint.EvPool

open Types List
open Merkle (Hashing)

theorem key_of_eq_iff {hashing : Hashing} {evidence other : Evidence} :
    keyOf hashing evidence = keyOf hashing other ↔
      evidence.height = other.height ∧ evidence.hash hashing = other.hash hashing := by
  have injective : Function.Injective (List.map UInt8.toNat) :=
    map_injective_iff.mpr fun _ _ same => UInt8.toNat_inj.mp same
  simp only [keyOf, EmbeddingLike.apply_eq_iff_eq, Prod.mk.injEq, injective.eq_iff]

/-- The evidence in circulation: as it is decoded, of a size that can be counted,
and no two pieces of different heights with one hash. -/
structure Circulates (hashing : Hashing) (known : List Evidence) : Prop where
  few : known.length < 2 ^ 32
  valid : ∀ evidence ∈ known, evidence.isValidBasic hashing = true
  decoded : ∀ evidence ∈ known, evidence.reloaded = evidence
  height : ∀ evidence ∈ known, 0 ≤ evidence.height ∧ evidence.height ≤ maxInt64
  apart : ∀ evidence ∈ known, ∀ other ∈ known,
    evidence.hash hashing = other.hash hashing → evidence.height = other.height

/-- The invariant, with what holds of everything that is pending. -/
structure Tidy (env : Env) (known : List Evidence) (holds : Evidence → Prop) (pool : Pool) :
    Prop where
  count : pool.evidenceSize = pool.pending.length
  sorted : Keyed.Sorted (keyOf env.hashing) pool.pending
  circulating : ∀ evidence ∈ pool.pending, evidence ∈ known
  listed : ∀ evidence ∈ pool.evidenceList, isPending env pool evidence = true
  once : (pool.evidenceList.map (keyOf env.hashing)).Nodup
  disjoint : ∀ evidence ∈ pool.pending, isCommitted env pool evidence = false
  holds : ∀ evidence ∈ pool.pending, holds evidence

section

variable {env : Env} {known : List Evidence} {holds holds' : Evidence → Prop} {pool : Pool}

theorem is_pending_iff (evidence : Evidence) :
    isPending env pool evidence = true ↔
      ∃ other ∈ pool.pending, keyOf env.hashing other = keyOf env.hashing evidence := by
  simp [isPending, pendingKeys]

theorem Tidy.imp (tidy : Tidy env known holds pool)
    (imp : ∀ evidence ∈ pool.pending, holds evidence → holds' evidence) :
    Tidy env known holds' pool :=
  { tidy with holds := fun evidence member => imp evidence member (tidy.holds evidence member) }

theorem Tidy.new (state : SM.State) : Tidy env known holds (Pool.new state) where
  count := rfl
  sorted := List.Pairwise.nil
  circulating := by simp [Pool.new]
  listed := by simp [Pool.new]
  once := by simp [Pool.new]
  disjoint := by simp [Pool.new]
  holds := by simp [Pool.new]

theorem Tidy.pending_le (tidy : Tidy env known holds pool) : pool.pending.length ≤ known.length :=
  (tidy.sorted.nodup.subperm tidy.circulating).length_le

theorem count_back_add (kept gone : Nat) (few : kept + gone < 2 ^ 32) :
    countBack (kept + gone) gone = kept := by
  have less : gone < 2 ^ 32 := by omega
  have sum : kept + gone + (2 ^ 32 - gone) = kept + 2 ^ 32 := by omega
  rw [countBack, Nat.mod_eq_of_lt less, sum, Nat.add_mod_right]
  exact Nat.mod_eq_of_lt (by omega)

section

variable (tidy : Tidy env known holds pool) (circulates : Circulates env.hashing known)
  {evidence : Evidence} (member : evidence ∈ known) (absent : isPending env pool evidence = false)
  (uncommitted : isCommitted env pool evidence = false) (fits : holds evidence)

include tidy circulates member absent uncommitted fits

theorem Tidy.add : Tidy env known holds (addPendingEvidence env pool evidence) := by
  have same := circulates.decoded evidence member
  have fresh : keyOf env.hashing evidence ∉ pool.pending.map (keyOf env.hashing) := by
    simpa [isPending, pendingKeys] using absent
  have stored : ∀ other ∈ (addPendingEvidence env pool evidence).pending,
      other = evidence ∨ other ∈ pool.pending := by
    intro other later
    rw [addPendingEvidence, same] at later
    exact Keyed.mem_of_mem_put later
  have sorted : Keyed.Sorted (keyOf env.hashing) (addPendingEvidence env pool evidence).pending :=
    Keyed.sorted_put _ tidy.sorted
  have circulating : ∀ other ∈ (addPendingEvidence env pool evidence).pending, other ∈ known := by
    intro other later
    rcases stored other later with rfl | old
    · exact member
    · exact tidy.circulating other old
  have length : (addPendingEvidence env pool evidence).pending.length =
      pool.pending.length + 1 := by
    rw [addPendingEvidence, same]
    exact Keyed.length_put_of_fresh fresh
  have bound := (sorted.nodup.subperm circulating).length_le
  have few := circulates.few
  refine ⟨?_, sorted, circulating, ?_, tidy.once, ?_, ?_⟩
  · rw [length]
    simp only [addPendingEvidence, tidy.count]
    exact Nat.mod_eq_of_lt (by omega)
  · intro other inList
    have old := tidy.listed other inList
    rw [is_pending_add, old, Bool.or_true]
  · intro other later
    rcases stored other later with rfl | old
    · exact uncommitted
    · exact tidy.disjoint other old
  · intro other later
    rcases stored other later with rfl | old
    · exact fits
    · exact tidy.holds other old

theorem Tidy.push :
    Tidy env known holds (pushBack (addPendingEvidence env pool evidence) evidence) := by
  have added := tidy.add circulates member absent uncommitted fits
  refine ⟨added.count, added.sorted, added.circulating, ?_, ?_, added.disjoint, added.holds⟩
  · intro other inList
    rcases mem_append.mp inList with old | new
    · exact added.listed other old
    · cases mem_singleton.mp new
      change isPending env (addPendingEvidence env pool evidence) evidence = true
      rw [is_pending_add, decide_eq_true rfl, Bool.true_or]
  · have unlisted : keyOf env.hashing evidence ∉
        pool.evidenceList.map (keyOf env.hashing) := by
      intro inList
      obtain ⟨other, otherMember, sameKey⟩ := mem_map.mp inList
      have pending := tidy.listed other otherMember
      simp only [isPending, sameKey] at pending absent
      rw [pending] at absent
      cases absent
    change ((pool.evidenceList ++ [evidence]).map (keyOf env.hashing)).Nodup
    rw [map_append]
    exact List.Nodup.append tidy.once (nodup_singleton _) (disjoint_singleton.mpr unlisted)

end

theorem Tidy.remove (tidy : Tidy env known holds pool) (circulates : Circulates env.hashing known)
    {removed : List Evidence}
    (present : ∀ evidence ∈ removed, isPending env pool evidence = true) :
    Tidy env known holds (removeEvidence env pool removed) ∧
      ∀ evidence, evidence ∈ (removeEvidence env pool removed).pending ↔
        evidence ∈ pool.pending ∧ keyOf env.hashing evidence ∉ removed.map (keyOf env.hashing) := by
  by_cases empty : (removed.map (Evidence.hash env.hashing)).dedup = []
  · have nothing : removed = [] := by
      cases removed with
      | nil => rfl
      | cons first rest =>
      have inDedup := mem_dedup.mpr (mem_map_of_mem (f := Evidence.hash env.hashing)
        (mem_cons_self (a := first) (l := rest)))
      rw [empty] at inDedup
      cases inDedup
    have same : removeEvidence env pool removed = pool := by rw [removeEvidence, if_pos empty]
    rw [same, nothing]
    exact ⟨tidy, fun evidence => by simp⟩
  · have counted : (pool.pending.filter fun evidence =>
        keyOf env.hashing evidence ∉ removed.map (keyOf env.hashing)).length +
        (removed.map (Evidence.hash env.hashing)).dedup.length = pool.pending.length := by
      apply Keyed.length_removed tidy.sorted
      · exact fun evidence => decide_eq_true_iff
      · intro evidence member other otherMember sameHash
        exact (key_of_eq_iff).mpr ⟨circulates.apart evidence
          (tidy.circulating evidence member) other (tidy.circulating other otherMember) sameHash,
          sameHash⟩
      · intro evidence member
        obtain ⟨other, stored, sameKey⟩ := (is_pending_iff evidence).mp (present evidence member)
        exact ⟨other, stored, sameKey, ((key_of_eq_iff).mp sameKey).2⟩
    have few := tidy.pending_le.trans_lt circulates.few
    have result : removeEvidence env pool removed = { pool with
        pending := pool.pending.filter fun evidence =>
          keyOf env.hashing evidence ∉ removed.map (keyOf env.hashing)
        evidenceList := pool.evidenceList.filter fun evidence =>
          evidence.hash env.hashing ∉ (removed.map (Evidence.hash env.hashing)).dedup
        evidenceSize := countBack pool.evidenceSize
          (removed.map (Evidence.hash env.hashing)).dedup.length } := by
      rw [removeEvidence, if_neg empty]
    rw [result]
    refine ⟨⟨?_, tidy.sorted.filter _, ?_, ?_, ?_, ?_, ?_⟩, fun evidence => by simp⟩
    · simp only [tidy.count, ← counted]
      exact count_back_add _ _ (counted ▸ few)
    · exact fun evidence member => tidy.circulating evidence (mem_filter.mp member).1
    · intro evidence member
      obtain ⟨inList, kept⟩ := mem_filter.mp member
      obtain ⟨other, stored, sameKey⟩ := (is_pending_iff evidence).mp (tidy.listed evidence inList)
      refine (is_pending_iff evidence).mpr ⟨other, mem_filter.mpr ⟨stored, ?_⟩, sameKey⟩
      refine decide_eq_true fun inRemoved => ?_
      obtain ⟨source, sourceMember, sourceKey⟩ := mem_map.mp inRemoved
      have sameHash := ((key_of_eq_iff).mp (sourceKey.trans sameKey)).2
      refine of_decide_eq_true kept (mem_dedup.mpr ?_)
      exact sameHash ▸ mem_map_of_mem sourceMember
    · exact tidy.once.sublist (filter_sublist.map _)
    · exact fun evidence member => tidy.disjoint evidence (mem_filter.mp member).1
    · exact fun evidence member => tidy.holds evidence (mem_filter.mp member).1

end

/-- The invariant between the calls: what is pending is acceptable as of the state. -/
def Kept (env : Env) (known : List Evidence) (pool : Pool) : Prop :=
  Tidy env known (fun evidence => verify env pool.state evidence = .ok .accepted) pool

/-- Evidence whose ABCI part would be put right is neither pending nor committed then. -/
def RectifiedFresh (env : Env) (known : List Evidence) (pool : Pool) (evidence : Evidence) :
    Prop :=
  ∀ fault rectified, verify env pool.state evidence = .ok (.rectified fault (some rectified)) →
    rectified ∈ known ∧ isPending env pool rectified = false ∧
      isCommitted env pool rectified = false

section

variable {env : Env} {known : List Evidence} {pool : Pool}

variable {evidence : Evidence} {next : Pool}

theorem Kept.settle (kept : Kept env known pool) (circulates : Circulates env.hashing known)
    (fresh : RectifiedFresh env known pool evidence) {verdict : Verdict}
    (verified : verify env pool.state evidence = .ok verdict) :
    Kept env known (settle env pool verdict).2 := by
  rcases verdict with _ | error | ⟨fault, _ | rectified⟩
  · exact kept
  · exact kept
  · exact kept
  · obtain ⟨member, absent, uncommitted⟩ := fresh fault rectified verified
    exact kept.add circulates member absent uncommitted
      (rectified_accepted env verified (circulates.decoded rectified member))

theorem settle_none {verdict : Verdict} (passes : settle env pool verdict = (none, next)) :
    verdict = .accepted ∧ next = pool := by
  rcases verdict with _ | error | ⟨fault, _ | rectified⟩
  · exact ⟨rfl, (Prod.mk.inj passes).2.symm⟩
  · cases passes
  · cases passes
  · cases passes

theorem Kept.add_evidence (kept : Kept env known pool) (circulates : Circulates env.hashing known)
    (member : evidence ∈ known) (fresh : RectifiedFresh env known pool evidence)
    {error : Option PoolError} (added : addEvidence env pool evidence = .ok (error, next)) :
    Kept env known next := by
  rw [addEvidence] at added
  by_cases pending : isPending env pool evidence = true
  · rw [if_pos pending] at added
    cases added
    exact kept
  · rw [if_neg pending] at added
    by_cases committed : isCommitted env pool evidence = true
    · rw [if_pos committed] at added
      cases added
      exact kept
    · rw [if_neg committed] at added
      cases verified : verify env pool.state evidence with
      | error text => simp [verified] at added
      | ok verdict =>
      have settled := kept.settle circulates fresh verified
      simp only [verified, bind_eq, pure_eq] at added
      rcases result : EvPool.settle env pool verdict with ⟨_ | fault, after⟩
      · rw [result] at added
        obtain ⟨rfl, rfl⟩ := settle_none result
        cases added
        exact Tidy.push kept circulates member (Bool.eq_false_iff.mpr pending)
          (Bool.eq_false_iff.mpr committed) verified
      · rw [result] at added settled
        cases added
        exact settled

structure ListSound (env : Env) (known : List Evidence) (pool : Pool) (evList : List Evidence) :
    Prop where
  members : ∀ evidence ∈ evList, evidence ∈ known
  /-- No attack is pending already, and none is listed after evidence with its key. -/
  attacks : ∀ evidence ∈ evList, isLightEvidence evidence = true →
    isPending env pool evidence = false
  once : evList.Pairwise fun earlier later => isLightEvidence later = true →
    keyOf env.hashing later ≠ keyOf env.hashing earlier
  fresh : ∀ evidence ∈ evList, RectifiedFresh env known pool evidence
  /-- Nor is evidence listed in the form into which other evidence would be put. -/
  outside : ∀ evidence ∈ evList, ∀ fault rectified,
    verify env pool.state evidence = .ok (.rectified fault (some rectified)) →
    ∀ other ∈ evList, keyOf env.hashing rectified ≠ keyOf env.hashing other

theorem Kept.check_one (kept : Kept env known pool) (circulates : Circulates env.hashing known)
    (member : evidence ∈ known)
    (attack : isLightEvidence evidence = true → isPending env pool evidence = false)
    (fresh : RectifiedFresh env known pool evidence) {error : Option PoolError}
    (checked : checkOne env pool evidence = .ok (error, next)) : Kept env known next := by
  rw [checkOne] at checked
  by_cases asked : (isLightEvidence evidence || !isPending env pool evidence) = true
  · have absent : isPending env pool evidence = false := by
      rcases (Bool.or_eq_true _ _).mp asked with light | absent
      · exact attack light
      · simpa using absent
    rw [if_pos asked] at checked
    by_cases committed : isCommitted env pool evidence = true
    · rw [if_pos committed] at checked
      cases checked
      exact kept
    · rw [if_neg committed] at checked
      cases verified : verify env pool.state evidence with
      | error text => simp [verified] at checked
      | ok verdict =>
      have settled := kept.settle circulates fresh verified
      simp only [verified, bind_eq, pure_eq] at checked
      rcases result : EvPool.settle env pool verdict with ⟨_ | fault, after⟩
      · rw [result] at checked
        obtain ⟨rfl, rfl⟩ := settle_none result
        cases checked
        exact Tidy.add kept circulates member absent (Bool.eq_false_iff.mpr committed) verified
      · rw [result] at checked settled
        cases checked
        exact settled
  · rw [if_neg asked] at checked
    cases checked
    exact kept

theorem ListSound.tail {rest : List Evidence} (sound : ListSound env known pool (evidence :: rest))
    (passes : checkOne env pool evidence = .ok (none, next)) : ListSound env known next rest := by
  obtain ⟨alike, pending⟩ := check_one_effect passes
  have order := pairwise_cons.mp sound.once
  refine ⟨fun later inRest => sound.members later (mem_cons_of_mem _ inRest), ?_, order.2, ?_, ?_⟩
  · intro later inRest light
    rw [pending, sound.attacks later (mem_cons_of_mem _ inRest) light, Bool.or_false]
    exact decide_eq_false (order.1 later inRest light)
  · intro later inRest fault rectified verified
    rw [alike.state] at verified
    have inList := mem_cons_of_mem evidence inRest
    obtain ⟨member, absent, uncommitted⟩ := sound.fresh later inList fault rectified verified
    refine ⟨member, ?_, alike.committed_eq rectified ▸ uncommitted⟩
    rw [pending, absent, Bool.or_false]
    exact decide_eq_false
      (sound.outside later inList fault rectified verified evidence mem_cons_self)
  · intro later inRest fault rectified verified other otherInRest
    rw [alike.state] at verified
    exact sound.outside later (mem_cons_of_mem _ inRest) fault rectified verified other
      (mem_cons_of_mem _ otherInRest)

theorem Kept.check_loop (circulates : Circulates env.hashing known) (evList : List Evidence) :
    ∀ (pool : Pool) (hashes : List Bytes), Kept env known pool → ListSound env known pool evList →
      ∀ error next, checkLoop env pool hashes evList = .ok (error, next) → Kept env known next := by
  induction evList with
  | nil =>
    intro pool hashes kept _ error next checked
    cases checked
    exact kept
  | cons evidence rest ih =>
    intro pool hashes kept sound error next checked
    rw [checkLoop] at checked
    rcases first : checkOne env pool evidence with text | ⟨_ | fault, after⟩
    · simp [first] at checked
    · have keptAfter := kept.check_one circulates (sound.members evidence mem_cons_self)
        (sound.attacks evidence mem_cons_self) (sound.fresh evidence mem_cons_self)
        first
      simp only [first, bind_eq] at checked
      by_cases repeated : evidence.hash env.hashing ∈ hashes
      · rw [if_pos repeated] at checked
        cases checked
        exact keptAfter
      · rw [if_neg repeated] at checked
        exact ih after _ keptAfter (sound.tail first) error next checked
    · simp only [first, bind_eq] at checked
      cases checked
      exact kept.check_one circulates (sound.members evidence mem_cons_self)
        (sound.attacks evidence mem_cons_self) (sound.fresh evidence mem_cons_self)
        first

end

section

variable {env : Env} {known : List Evidence} {holds : Evidence → Prop} {pool : Pool}

theorem Tidy.flush (circulates : Circulates env.hashing known) (state : SM.State)
    (buffer : List (Vote × Vote)) :
    ∀ pool : Pool, Tidy env known holds pool →
      (∀ votes ∈ buffer, ∀ evidence, bufferedEvidence env state votes = .ok (some evidence) →
        Evidence.duplicateVote evidence ∈ known ∧ holds (.duplicateVote evidence)) →
      ∀ next, buffer.foldlM (flushOne env state) pool = .ok next → Tidy env known holds next := by
  induction buffer with
  | nil =>
    intro pool tidy _ next flushed
    cases flushed
    exact tidy
  | cons votes rest ih =>
    intro pool tidy genuine next flushed
    rw [foldlM_cons] at flushed
    have later := fun other inRest => genuine other (mem_cons_of_mem votes inRest)
    rcases formed : bufferedEvidence env state votes with text | _ | evidence
    · simp [flushOne, formed] at flushed
    · simp only [flushOne, formed, bind_eq, pure_eq] at flushed
      exact ih pool tidy later next flushed
    · obtain ⟨member, fits⟩ := genuine votes mem_cons_self evidence formed
      simp only [flushOne, formed, bind_eq, pure_eq] at flushed
      by_cases pending : isPending env pool (.duplicateVote evidence) = true
      · rw [if_pos pending] at flushed
        exact ih pool tidy later next flushed
      · rw [if_neg pending] at flushed
        by_cases committed : isCommitted env pool (.duplicateVote evidence) = true
        · rw [if_pos committed] at flushed
          exact ih pool tidy later next flushed
        · rw [if_neg committed] at flushed
          exact ih _ (tidy.push circulates member (Bool.eq_false_iff.mpr pending)
            (Bool.eq_false_iff.mpr committed) fits) later next flushed

theorem remove_evidence_committed (committed : List Key) (removed : List Evidence) :
    removeEvidence env { pool with committed := committed } removed =
      { removeEvidence env pool removed with committed := committed } := by
  simp only [removeEvidence]
  split <;> rfl

theorem Tidy.mark (tidy : Tidy env known holds pool) (circulates : Circulates env.hashing known)
    (evidence : List Evidence) :
    Tidy env known holds (markEvidenceAsCommitted env pool evidence) := by
  have present : ∀ item ∈ evidence.filter (isPending env pool), isPending env pool item = true :=
    fun item member => (mem_filter.mp member).2
  obtain ⟨removed, members⟩ := tidy.remove circulates present
  rw [markEvidenceAsCommitted, remove_evidence_committed]
  refine ⟨removed.count, removed.sorted, removed.circulating, removed.listed, removed.once, ?_,
    removed.holds⟩
  intro item member
  obtain ⟨inPending, kept⟩ := (members item).mp member
  have uncommitted : keyOf env.hashing item ∉ pool.committed := by
    simpa [isCommitted] using tidy.disjoint item inPending
  refine decide_eq_false fun inCommitted => ?_
  rcases mem_append.mp inCommitted with new | old
  · obtain ⟨source, inEvidence, sameKey⟩ := mem_map.mp new
    have pending : isPending env pool source = true :=
      (is_pending_iff source).mpr ⟨item, inPending, sameKey.symm⟩
    exact kept (mem_map.mpr ⟨source, mem_filter.mpr ⟨inEvidence, pending⟩, sameKey⟩)
  · exact uncommitted old

def Stores.Chronological (stores : Stores) : Prop :=
  ∀ height later header header', height ≤ later → stores.loadBlockMeta height = some header →
    stores.loadBlockMeta later = some header' → header.time ≤ header'.time

theorem batch_expired_eq (state : SM.State) (pending : List Evidence)
    (valid : ∀ evidence ∈ pending, evidence.isValidBasic env.hashing = true) :
    (batchExpired env state pending).2 =
      pending.takeWhile fun evidence => isExpired state evidence.height evidence.time := by
  induction pending with
  | nil => rfl
  | cons first rest ih =>
  have later := ih fun evidence member => valid evidence (mem_cons_of_mem _ member)
  simp only [batchExpired, valid first mem_cons_self, Bool.not_true, Bool.false_eq_true, if_false]
  cases expired : isExpired state first.height first.time with
  | true => simp [expired, later]
  | false => simp [expired]

theorem expired_before {state : SM.State} {height later : Int} {time laterTime : Time}
    (last : 0 ≤ state.lastBlockHeight ∧ state.lastBlockHeight ≤ maxInt64)
    (low : 0 ≤ height) (high : later ≤ maxInt64) (order : height ≤ later)
    (times : time ≤ laterTime) (expired : isExpired state later laterTime = true) :
    isExpired state height time = true := by
  have exact : ∀ value : Int, 0 ≤ value → value ≤ maxInt64 →
      int64 (state.lastBlockHeight - value) = state.lastBlockHeight - value := by
    intro value low high
    apply int64_exact <;> simp only [minInt64, maxInt64] at * <;> omega
  simp only [isExpired, Bool.and_eq_true, decide_eq_true_eq] at expired ⊢
  rw [exact later (low.trans order) high] at expired
  rw [exact height low (order.trans high)]
  constructor
  · omega
  · refine expired.2.trans_le ?_
    exact max_le_max le_rfl (min_le_min le_rfl (sub_le_sub_left times _))

theorem Tidy.prune_expired (tidy : Tidy env known holds pool)
    (circulates : Circulates env.hashing known)
    (backed : ∀ evidence, holds evidence → ∃ header,
      env.stores.loadBlockMeta evidence.height = some header ∧ header.time = evidence.time)
    (chronological : env.stores.Chronological)
    (last : 0 ≤ pool.state.lastBlockHeight ∧ pool.state.lastBlockHeight ≤ maxInt64) :
    Tidy env known holds (removeExpiredPendingEvidence env pool) ∧
      ∀ evidence ∈ (removeExpiredPendingEvidence env pool).pending,
        isExpired pool.state evidence.height evidence.time = false := by
  have batch := batch_expired_eq pool.state pool.pending fun evidence member =>
    circulates.valid evidence (tidy.circulating evidence member)
  have present : ∀ evidence ∈ (batchExpired env pool.state pool.pending).2,
      isPending env pool evidence = true := by
    intro evidence member
    rw [batch] at member
    exact (is_pending_iff evidence).mpr ⟨evidence, (takeWhile_sublist _).subset member, rfl⟩
  obtain ⟨removed, members⟩ := tidy.remove circulates present
  refine ⟨⟨removed.count, removed.sorted, removed.circulating, removed.listed, removed.once,
    removed.disjoint, removed.holds⟩, ?_⟩
  intro evidence member
  obtain ⟨inPending, outside⟩ := (members evidence).mp member
  have later : evidence ∉ pool.pending.takeWhile fun item =>
      isExpired pool.state item.height item.time := by
    intro inside
    rw [← batch] at inside
    exact outside (mem_map_of_mem inside)
  refine Keyed.Sorted.of_not_mem_takeWhile tidy.sorted ?_ inPending later
  -- an earlier key has no greater height, so the block is no later
  intro first firstMember second secondMember less expired
  obtain ⟨header, found, time⟩ := backed first (tidy.holds first firstMember)
  obtain ⟨header', found', time'⟩ := backed second (tidy.holds second secondMember)
  have order : first.height ≤ second.height := by
    rcases Prod.Lex.toLex_lt_toLex.mp less with lower | ⟨same, _⟩
    · exact lower.le
    · exact same.le
  have times := chronological _ _ header header' order found found'
  rw [time, time'] at times
  exact expired_before last (circulates.height first (tidy.circulating first firstMember)).1
    (circulates.height second (tidy.circulating second secondMember)).2 order times expired

end

section

variable {env : Env} {known : List Evidence}

/-- The votes that were reported are genuine, and no evidence is left that expires
before the height and the time from which on the pool prunes. -/
structure UpdateSound (env : Env) (known : List Evidence) (pool : Pool) (state : SM.State) :
    Prop where
  chainID : state.chainID = pool.state.chainID
  last : 0 ≤ state.lastBlockHeight ∧ state.lastBlockHeight ≤ maxInt64
  chronological : env.stores.Chronological
  reported : ∀ votes ∈ pool.consensusBuffer, ∀ evidence,
    bufferedEvidence env state votes = .ok (some evidence) →
    Evidence.duplicateVote evidence ∈ known ∧
      verify env state (.duplicateVote evidence) = .ok .accepted
  pruned : (pool.pruningHeight < state.lastBlockHeight ∧ pool.pruningTime < state.lastBlockTime) ∨
    ∀ evidence ∈ pool.pending, isExpired state evidence.height evidence.time = false

variable {state : SM.State}

theorem flush_one_frame {pool next : Pool} {votes : Vote × Vote}
    (flushed : flushOne env state pool votes = .ok next) :
    next.pruningHeight = pool.pruningHeight ∧ next.pruningTime = pool.pruningTime := by
  rcases formed : bufferedEvidence env state votes with text | _ | evidence
  · simp [flushOne, formed] at flushed
  · simp only [flushOne, formed, bind_eq, pure_eq] at flushed
    cases flushed
    exact ⟨rfl, rfl⟩
  · simp only [flushOne, formed, bind_eq, pure_eq] at flushed
    split at flushed
    · cases flushed
      exact ⟨rfl, rfl⟩
    · split at flushed
      · cases flushed
        exact ⟨rfl, rfl⟩
      · cases flushed
        exact ⟨rfl, rfl⟩

theorem flush_frame {buffer : List (Vote × Vote)} :
    ∀ pool next : Pool, buffer.foldlM (flushOne env state) pool = .ok next →
      next.pruningHeight = pool.pruningHeight ∧ next.pruningTime = pool.pruningTime := by
  induction buffer with
  | nil =>
    intro pool next flushed
    cases flushed
    exact ⟨rfl, rfl⟩
  | cons votes rest ih =>
    intro pool next flushed
    rw [foldlM_cons] at flushed
    obtain ⟨after, first, flushed⟩ := bind_ok.mp flushed
    obtain ⟨height, time⟩ := flush_one_frame first
    obtain ⟨height', time'⟩ := ih after next flushed
    exact ⟨height'.trans height, time'.trans time⟩

theorem mark_frame (pool : Pool) (evidence : List Evidence) :
    (markEvidenceAsCommitted env pool evidence).pruningHeight = pool.pruningHeight ∧
      (markEvidenceAsCommitted env pool evidence).pruningTime = pool.pruningTime ∧
      (markEvidenceAsCommitted env pool evidence).state = pool.state := by
  simp only [markEvidenceAsCommitted, removeEvidence]
  split
  · exact ⟨rfl, rfl, rfl⟩
  · exact ⟨rfl, rfl, rfl⟩

theorem prune_state (pool : Pool) : (prune env pool).state = pool.state := by
  simp only [prune, removeExpiredPendingEvidence, removeEvidence]
  split
  · split <;> rfl
  · rfl

theorem Kept.update {pool next : Pool} {evidence : List Evidence} (kept : Kept env known pool)
    (circulates : Circulates env.hashing known) (sound : UpdateSound env known pool state)
    (updated : update env pool state evidence = .ok next) : Kept env known next := by
  rw [EvPool.update] at updated
  split at updated
  · cases updated
  · -- until the pruning, evidence that was pending before may have expired
    have start : Tidy env known (fun item => Backed env state.chainID item ∧
        (isExpired state item.height item.time = false ∨ item ∈ pool.pending)) pool := by
      refine kept.imp fun item member accepted => ?_
      have backed := ((verify_accepted_iff env pool.state item).mp accepted).1
      exact ⟨sound.chainID ▸ backed, .inr member⟩
    simp only [processConsensusBuffer, bind_eq, pure_eq] at updated
    cases flushed : pool.consensusBuffer.foldlM (flushOne env state) pool with
    | error text => simp [flushed] at updated
    | ok after =>
    rw [flushed] at updated
    have result := Except.ok.inj updated
    have tidyFlushed := Tidy.flush circulates state pool.consensusBuffer pool start (by
      intro votes member formed same
      obtain ⟨inKnown, accepted⟩ := sound.reported votes member formed same
      obtain ⟨backed, young⟩ := (verify_accepted_iff env state _).mp accepted
      exact ⟨inKnown, backed, .inl young⟩) after flushed
    have entered : Tidy env known (fun item => Backed env state.chainID item ∧
        (isExpired state item.height item.time = false ∨ item ∈ pool.pending))
        { after with consensusBuffer := [], state := state } :=
      ⟨tidyFlushed.count, tidyFlushed.sorted, tidyFlushed.circulating, tidyFlushed.listed,
        tidyFlushed.once, tidyFlushed.disjoint, tidyFlushed.holds⟩
    have marked := entered.mark circulates evidence
    obtain ⟨markedHeight, markedTime, markedState⟩ := @mark_frame env
      { after with consensusBuffer := [], state := state } evidence
    obtain ⟨flushedHeight, flushedTime⟩ := flush_frame pool after flushed
    have finalState : next.state = state := by
      rw [← result, prune_state, markedState]
    rw [Kept, finalState, ← result, prune]
    split
    · rename_i due
      obtain ⟨tidyPruned, young⟩ := marked.prune_expired circulates
        (by rintro item ⟨⟨header, found, time, _⟩, _⟩; exact ⟨header, found, time⟩)
        sound.chronological (by rw [markedState]; exact sound.last)
      refine tidyPruned.imp fun item member holds => ?_
      have unexpired := young item member
      rw [markedState] at unexpired
      exact (verify_accepted_iff env state item).mpr ⟨holds.1, unexpired⟩
    · rename_i notDue
      refine marked.imp fun item member holds => ?_
      refine (verify_accepted_iff env state item).mpr ⟨holds.1, ?_⟩
      rcases holds.2 with young | old
      · exact young
      · rcases sound.pruned with due | young
        · have positive : 0 < (markEvidenceAsCommitted env
              { after with consensusBuffer := [], state := state } evidence).evidenceSize := by
            rw [marked.count]
            exact length_pos_of_mem member
          refine absurd ⟨positive, ?_, ?_⟩ notDue
          · rw [markedState, markedHeight]
            exact flushedHeight ▸ due.1
          · rw [markedState, markedTime]
            exact flushedTime ▸ due.2
        · exact young item old

end

section

variable {env : Env}

theorem list_from_spec (maxBytes : Int) (pending : List Evidence) :
    ∀ (taken : List Evidence) (size : Int),
      (∀ evidence ∈ pending, evidence.isValidBasic env.hashing = true) →
      size = evidenceListSize taken → (maxBytes ≠ -1 → size ≤ maxBytes) →
      (∀ evidence ∈ (listFrom env maxBytes pending taken size).1,
        evidence ∈ taken ∨ evidence ∈ pending) ∧
      (listFrom env maxBytes pending taken size).2 =
        evidenceListSize (listFrom env maxBytes pending taken size).1 ∧
      (maxBytes ≠ -1 → (listFrom env maxBytes pending taken size).2 ≤ maxBytes) := by
  induction pending with
  | nil => exact fun taken size _ same bounded => ⟨fun _ => Or.inl, same, bounded⟩
  | cons next rest ih =>
  intro taken size valid same bounded
  simp only [listFrom, valid next mem_cons_self, Bool.not_true, Bool.false_eq_true, if_false]
  split
  · exact ⟨fun _ => Or.inl, same, bounded⟩
  · rename_i fits
    obtain ⟨members, total, within⟩ := ih (taken ++ [next]) _
      (fun evidence member => valid evidence (mem_cons_of_mem _ member)) rfl (by
        intro capped
        by_contra more
        exact fits ⟨capped, not_le.mp more⟩)
    refine ⟨fun evidence member => ?_, total, within⟩
    rcases members evidence member with old | later
    · rcases mem_append.mp old with inTaken | new
      · exact .inl inTaken
      · exact .inr (mem_singleton.mp new ▸ mem_cons_self)
    · exact .inr (mem_cons_of_mem _ later)

/-- What the pool answers for: its count, its list, its two sets and what it
proposes. -/
structure Bookkept (env : Env) (pool : Pool) : Prop where
  count : pool.evidenceSize = pool.pending.length
  entries : (pendingKeys env.hashing pool).Nodup
  listed : ∀ evidence ∈ pool.evidenceList, isPending env pool evidence = true
  once : (pool.evidenceList.map (keyOf env.hashing)).Nodup
  disjoint : ∀ evidence, isPending env pool evidence = true → isCommitted env pool evidence = false
  proposed : ∀ maxBytes, maxBytes = -1 ∨ 0 ≤ maxBytes →
    (∀ evidence ∈ (pendingEvidence env pool maxBytes).1,
      verify env pool.state evidence = .ok .accepted) ∧
    (pendingEvidence env pool maxBytes).2 = evidenceListSize (pendingEvidence env pool maxBytes).1 ∧
    (maxBytes ≠ -1 → (pendingEvidence env pool maxBytes).2 ≤ maxBytes)

theorem Kept.bookkept {known : List Evidence} {pool : Pool} (kept : Kept env known pool)
    (circulates : Circulates env.hashing known) : Bookkept env pool := by
  refine ⟨kept.count, kept.sorted.nodup_keys, kept.listed, kept.once, ?_, ?_⟩
  · intro evidence pending
    obtain ⟨other, member, same⟩ := (is_pending_iff evidence).mp pending
    have uncommitted := kept.disjoint other member
    rwa [isCommitted, same] at uncommitted
  · intro maxBytes cap
    rw [pendingEvidence]
    split
    · refine ⟨by simp, rfl, ?_⟩
      intro capped
      exact cap.resolve_left capped
    · obtain ⟨members, total, within⟩ := @list_from_spec env maxBytes pool.pending [] 0
        (fun evidence member => circulates.valid evidence (kept.circulating evidence member)) rfl
        (fun capped => cap.resolve_left capped)
      refine ⟨fun evidence member => ?_, total, within⟩
      exact kept.holds evidence ((members evidence member).resolve_left not_mem_nil)

end

section

variable (crypto : Crypto) (hashing : Hashing) (known : List Evidence)

/-- What a call is asked for on the pool that it finds. -/
def Call.Sound (env : Env) (known : List Evidence) (pool : Pool) : Call → Prop
  | .addEvidence evidence => evidence ∈ known ∧ RectifiedFresh env known pool evidence
  | .checkEvidence evList => ListSound env known pool evList
  | .reportConflictingVotes _ _ => True
  | .pendingEvidence _ => True
  | .update state _ => UpdateSound env known pool state

/-- Each call of the run is sound, and the stores answer for what is pending as
they did at the call before. -/
def SoundRun : Stores → Pool → List (Stores × Call) → Prop
  | _, _, [] => True
  | before, pool, (stores, call) :: rest =>
    (∀ evidence ∈ pool.pending, before.Agree stores evidence) ∧
      call.Sound ⟨crypto, hashing, stores⟩ known pool ∧
      ∀ next, pool.step ⟨crypto, hashing, stores⟩ call = .ok next → SoundRun stores next rest

variable {crypto hashing known}

theorem Kept.step {env : Env} {pool next : Pool} {call : Call} (kept : Kept env known pool)
    (circulates : Circulates env.hashing known) (sound : call.Sound env known pool)
    (stepped : pool.step env call = .ok next) : Kept env known next := by
  cases call with
  | addEvidence evidence =>
    cases added : addEvidence env pool evidence with
    | error text => simp [Pool.step, added, Functor.map, Except.map] at stepped
    | ok result =>
      simp only [Pool.step, added, Functor.map, Except.map, Except.ok.injEq] at stepped
      exact stepped ▸ kept.add_evidence circulates sound.1 sound.2 added
  | checkEvidence evList =>
    cases checked : checkEvidence env pool evList with
    | error text => simp [Pool.step, checked, Functor.map, Except.map] at stepped
    | ok result =>
      simp only [Pool.step, checked, Functor.map, Except.map, Except.ok.injEq] at stepped
      exact stepped ▸ Kept.check_loop circulates evList pool [] kept sound _ _ checked
  | reportConflictingVotes voteA voteB =>
    cases stepped
    exact ⟨kept.count, kept.sorted, kept.circulating, kept.listed, kept.once, kept.disjoint,
      kept.holds⟩
  | pendingEvidence maxBytes =>
    cases stepped
    exact kept
  | update state evidence => exact kept.update circulates sound stepped

theorem Kept.carry {before after : Stores} {pool : Pool}
    (kept : Kept ⟨crypto, hashing, before⟩ known pool)
    (agree : ∀ evidence ∈ pool.pending, before.Agree after evidence) :
    Kept ⟨crypto, hashing, after⟩ known pool := by
  have moved := kept.imp fun evidence member accepted => by
    obtain ⟨backed, young⟩ := (verify_accepted_iff _ _ _).mp accepted
    exact (verify_accepted_iff ⟨crypto, hashing, after⟩ _ _).mpr
      ⟨backed.carry (agree evidence member), young⟩
  exact ⟨moved.count, moved.sorted, moved.circulating, moved.listed, moved.once, moved.disjoint,
    moved.holds⟩

theorem Kept.run (circulates : Circulates hashing known) (calls : List (Stores × Call)) :
    ∀ (before : Stores) (pool final : Pool), Kept ⟨crypto, hashing, before⟩ known pool →
      SoundRun crypto hashing known before pool calls →
      pool.run crypto hashing calls = .ok final →
      Kept ⟨crypto, hashing, (calls.map Prod.fst).getLastD before⟩ known final := by
  induction calls with
  | nil =>
    intro before pool final kept _ ran
    cases ran
    exact kept
  | cons entry rest ih =>
    intro before pool final kept sound ran
    obtain ⟨stores, call⟩ := entry
    obtain ⟨agree, callSound, later⟩ := sound
    rw [Pool.run] at ran
    obtain ⟨next, stepped, ran⟩ := bind_ok.mp ran
    have keptNext := (kept.carry agree).step circulates callSound stepped
    have last := ih stores next final keptNext (later next stepped) ran
    cases rest with
    | nil => exact last
    | cons second others =>
      simpa only [map_cons, getLastD_cons] using last

end

/-- In a run whose calls are all sound the books are in order in every pool that
is reached, with the stores of the last call. -/
theorem bookkept_of_sound_run (crypto : Crypto) (hashing : Hashing) (known : List Evidence)
    (circulates : Circulates hashing known) (stores : Stores) (state : SM.State)
    (calls : List (Stores × Call))
    (sound : SoundRun crypto hashing known stores (Pool.new state) calls) (pool : Pool)
    (ran : (Pool.new state).run crypto hashing calls = .ok pool) :
    Bookkept ⟨crypto, hashing, (calls.map Prod.fst).getLastD stores⟩ pool :=
  (Kept.run circulates calls stores (Pool.new state) pool (Tidy.new state) sound ran).bookkept
    circulates

/-- The evidence is pending and comes once more with another time: it is counted
twice. If it was committed in between, it is pending and committed. -/
theorem altered_evidence_drifts :
    (firstEvidence 1001).isValidBasic plainHash = true ∧
    (poolAfter [(firstStores, .addEvidence (firstEvidence 1000)),
      (firstStores, .addEvidence (firstEvidence 1001))]).evidenceSize = 2 ∧
    (poolAfter [(firstStores, .addEvidence (firstEvidence 1000)),
      (firstStores, .addEvidence (firstEvidence 1001))]).pending = [firstEvidence 1000] ∧
    (pendingEvidence firstEnv (poolAfter alteredCalls) 1000).1 = [firstEvidence 1000] ∧
    isCommitted firstEnv (poolAfter alteredCalls) (firstEvidence 1000) = true := by
  decide +kernel

theorem first_evidence_circulates : Circulates plainHash [firstEvidence 1000] where
  few := by decide
  valid := by decide +kernel
  decoded := by decide +kernel
  height := by decide +kernel
  apart := by
    intro evidence member other otherMember _
    rw [mem_singleton.mp member, mem_singleton.mp otherMember]

theorem first_stores_chronological : firstStores.Chronological := by
  intro height later header header' _ found found'
  simp only [firstStores] at found found'
  split at found
  · split at found'
    · cases found
      cases found'
      exact le_rfl
    · cases found'
  · cases found

theorem first_run_sound :
    SoundRun .acceptAll plainHash [firstEvidence 1000] firstStores (Pool.new SM.sharedState)
      (alteredCalls.take 2) := by
  refine ⟨fun evidence _ => ⟨rfl, rfl, rfl, fun _ _ _ => rfl⟩, ⟨mem_singleton_self _, ?_⟩, ?_⟩
  · intro fault rectified verified
    have accepted : verify firstEnv SM.sharedState (firstEvidence 1000) = .ok .accepted := by
      decide +kernel
    cases accepted.symm.trans verified
  · intro next stepped
    have first : (Pool.new SM.sharedState).step firstEnv (.addEvidence (firstEvidence 1000)) =
        .ok (poolAfter (alteredCalls.take 1)) := by decide +kernel
    cases first.symm.trans stepped
    refine ⟨fun evidence _ => ⟨rfl, rfl, rfl, fun _ _ _ => rfl⟩, ?_, fun _ _ => trivial⟩
    exact
      { chainID := by decide +kernel
        last := by decide +kernel
        chronological := first_stores_chronological
        reported := by
          have empty : (poolAfter (alteredCalls.take 1)).consensusBuffer = [] := by decide +kernel
          intro votes member
          rw [empty] at member
          cases member
        pruned := .inr (by decide +kernel) }

theorem first_run_bookkept :
    ∃ pool, (Pool.new SM.sharedState).run .acceptAll plainHash (alteredCalls.take 2) = .ok pool ∧
      isCommitted firstEnv pool (firstEvidence 1000) = true ∧ Bookkept firstEnv pool := by
  have ran : (Pool.new SM.sharedState).run .acceptAll plainHash (alteredCalls.take 2) =
      .ok (poolAfter (alteredCalls.take 2)) := by decide +kernel
  exact ⟨_, ran, by decide +kernel, bookkept_of_sound_run .acceptAll plainHash
    [firstEvidence 1000] first_evidence_circulates firstStores SM.sharedState
    (alteredCalls.take 2) first_run_sound _ ran⟩

end Tendermint.EvPool
