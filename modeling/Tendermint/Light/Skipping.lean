import Tendermint.Lib.Loop
import Tendermint.Light.Expiry
import Tendermint.Types.Updates

/-!
The loop of verifySkipping: that it returns, what it returns and which heights it
asks the source for. The height between is computed in int64: the difference of
the heights is multiplied before it is divided, so a difference above a ninth of
the int64s turns negative, and the source is asked for a height below.
-/

namespace Tendermint.Light

open Types List
open Types.ValidatorSet (int64_fits)

section

def scheduleStep (difference : Int) : Int := (int64 (difference * 9)).tdiv 16

/-- The differences whose multiple is an int64. -/
def scheduleLimit : Int := maxInt64 / 9

theorem schedule_limit_eq : scheduleLimit = 1024819115206086200 := by decide

theorem tdiv_sixteen (value : Int) :
    value.tdiv 16 = if 0 ≤ value then value / 16 else -(-value / 16) := by
  split
  · exact Int.tdiv_eq_ediv_of_nonneg (by omega)
  · have flipped := Int.neg_tdiv (a := -value) (b := 16)
    rw [Int.neg_neg] at flipped
    rw [flipped, Int.tdiv_eq_ediv_of_nonneg (by omega)]

theorem schedule_eq (verified failed : Int) :
    schedule verified failed = int64 (verified + scheduleStep (failed - verified)) := by
  unfold schedule scheduleStep int64
  rw [Int.bmod_mul_bmod]

theorem schedule_step_bounds (difference : Int) :
    -2 ^ 59 ≤ scheduleStep difference ∧ scheduleStep difference < 2 ^ 59 := by
  have fits := int64_fits (difference * 9)
  unfold Fits64 minInt64 maxInt64 at fits
  unfold scheduleStep
  rw [tdiv_sixteen]
  split <;> omega

theorem schedule_step_near {difference : Int} (nonneg : 0 ≤ difference)
    (near : difference ≤ scheduleLimit) : scheduleStep difference = difference * 9 / 16 := by
  rw [schedule_limit_eq] at near
  unfold scheduleStep
  rw [int64_exact _ (by unfold minInt64; omega) (by unfold maxInt64; omega)]
  exact Int.tdiv_eq_ediv_of_nonneg (by omega)

theorem schedule_step_lt (difference : Int) (gap : 1 < difference) :
    scheduleStep difference < difference := by
  by_cases near : difference ≤ scheduleLimit
  · rw [schedule_step_near (by omega) near]
    omega
  · have bounds := schedule_step_bounds difference
    rw [schedule_limit_eq] at near
    omega

theorem schedule_step_wraps {difference : Int} (far : scheduleLimit < difference)
    (below : difference * 9 < 2 ^ 64) : scheduleStep difference ≤ 0 := by
  rw [schedule_limit_eq] at far
  have wrapped : int64 (difference * 9) = difference * 9 - 2 ^ 64 := by
    unfold int64
    rw [Int.bmod_eq_iff (by decide)]
    omega
  unfold scheduleStep
  rw [wrapped, tdiv_sixteen]
  split <;> omega

theorem schedule_step_stays_far (difference : Int) (far : scheduleLimit < difference)
    (up : 0 < scheduleStep difference) : scheduleLimit < difference - scheduleStep difference := by
  have bounds := schedule_step_bounds difference
  have twice : 2 ^ 64 ≤ difference * 9 := by
    by_contra once
    have down := schedule_step_wraps far (by omega)
    omega
  rw [schedule_limit_eq]
  omega

section

variable (verified failed : Int) (typed : Fits64 verified) (failedTyped : Fits64 failed)
  (gap : verified + 1 < failed)

include typed failedTyped gap

theorem schedule_up (up : 0 < scheduleStep (failed - verified)) :
    schedule verified failed = verified + scheduleStep (failed - verified) := by
  have less := schedule_step_lt (failed - verified) (by omega)
  rw [schedule_eq]
  unfold Fits64 at typed failedTyped
  exact int64_exact _ (by omega) (by omega)

theorem schedule_between_iff :
    (verified < schedule verified failed ∧ schedule verified failed < failed) ↔
      0 < scheduleStep (failed - verified) := by
  constructor
  · rintro ⟨above, below⟩
    by_contra down
    have bounds := schedule_step_bounds (failed - verified)
    rw [schedule_eq] at above below
    unfold Fits64 minInt64 maxInt64 at typed failedTyped
    by_cases low : -2 ^ 63 ≤ verified + scheduleStep (failed - verified)
    · rw [int64_exact _ (by unfold minInt64; omega) (by unfold maxInt64; omega)] at above
      omega
    -- the sum wraps, and then to the failed height or above it
    · have wrapped : int64 (verified + scheduleStep (failed - verified)) =
          verified + scheduleStep (failed - verified) + 2 ^ 64 := by
        unfold int64
        rw [Int.bmod_eq_iff (by decide)]
        omega
      have scaled : int64 ((failed - verified) * 9) = -((2 ^ 64 - (failed - verified)) * 9) := by
        unfold int64
        rw [Int.bmod_eq_iff (by decide)]
        omega
      have step : scheduleStep (failed - verified) =
          -((2 ^ 64 - (failed - verified)) * 9 / 16) := by
        rw [scheduleStep, scaled, Int.neg_tdiv, Int.tdiv_eq_ediv_of_nonneg (by omega)]
      omega
  · intro up
    have less := schedule_step_lt (failed - verified) (by omega)
    rw [schedule_up verified failed typed failedTyped gap up]
    omega

end

end

section

/-- The outcomes of a verification that go on: the header itself is valid. -/
def Passing (outcome : Option VerifyError) : Prop :=
  outcome = none ∨ ∃ got needed, outcome = some (.newValSetCantBeTrusted got needed)

variable {env : Env} {trusted untrusted : LightBlock} {now : Time} {outcome : Option VerifyError}

variable {drift : Int} {hashing : Merkle.Hashing} {old signed : SignedHeader} {vals : ValidatorSet}

theorem new_header_height_pos
    (valid : verifyNewHeaderAndVals hashing signed vals old now drift = none) :
    0 < signed.header.height := by
  unfold verifyNewHeaderAndVals SignedHeader.validateBasic at valid
  cases basic : signed.header.validateBasic with
  | none => exact Header.height_pos basic
  | some text =>
    rw [basic] at valid
    cases valid

theorem required_fields_height (present : checkRequiredHeaderFields signed = .ok ()) :
    signed.header.height ≠ 0 := by
  intro zero
  rw [checkRequiredHeaderFields, if_pos zero] at present
  cases present

theorem adjacent_passing {crypto : Crypto} {period : Int}
    (checked : verifyAdjacent crypto hashing old signed vals period now drift = .ok outcome)
    (passing : Passing outcome) : old.header.height ≠ 0 ∧
      verifyNewHeaderAndVals hashing signed vals old now drift = none ∧ outcome = none := by
  simp only [verifyAdjacent, verifyOwnCommit, bind_eq, pure_eq, throw_eq] at checked
  split at checked
  case h_1 => cases checked
  rename_i present
  split at checked
  case isTrue => cases checked
  split at checked
  case isTrue =>
    cases checked
    simp [Passing] at passing
  split at checked
  case isTrue =>
    cases checked
    simp [Passing] at passing
  split at checked
  case h_1 =>
    cases checked
    simp [Passing] at passing
  rename_i valid
  split at checked
  case isTrue =>
    cases checked
    simp [Passing] at passing
  split at checked
  case h_1 => cases checked
  split at checked
  case h_1 =>
    cases checked
    simp [Passing] at passing
  cases checked
  exact ⟨required_fields_height present, Option.eq_none_iff_forall_ne_some.mpr valid, rfl⟩

theorem non_adjacent_passing {crypto : Crypto} {oldVals : ValidatorSet} {period : Int}
    {trustLevel : Fraction}
    (checked : verifyNonAdjacent crypto hashing old oldVals signed vals period now drift
      trustLevel = .ok outcome) (passing : Passing outcome) : old.header.height ≠ 0 ∧
      verifyNewHeaderAndVals hashing signed vals old now drift = none := by
  simp only [verifyNonAdjacent, bind_eq, pure_eq] at checked
  split at checked
  case h_1 => cases checked
  rename_i present
  split at checked
  case isTrue =>
    cases checked
    simp [Passing] at passing
  split at checked
  case h_1 =>
    cases checked
    simp [Passing] at passing
  split at checked
  case isTrue =>
    cases checked
    simp [Passing] at passing
  split at checked
  case h_1 =>
    cases checked
    simp [Passing] at passing
  rename_i valid
  exact ⟨required_fields_height present, Option.eq_none_iff_forall_ne_some.mpr valid⟩

theorem passing_link (checked : verifyLink env trusted untrusted now = .ok outcome)
    (passing : Passing outcome) :
    trusted.height ≠ 0 ∧ 0 < untrusted.height ∧ trusted.height < untrusted.height ∧
      (outcome ≠ none → untrusted.height ≠ trusted.height + 1) := by
  unfold verifyLink verify at checked
  by_cases adjacent : untrusted.signedHeader.header.height = trusted.signedHeader.header.height + 1
  · rw [if_neg (not_not.mpr adjacent)] at checked
    obtain ⟨present, valid, none⟩ := adjacent_passing checked passing
    exact ⟨present, new_header_height_pos valid, (new_header_ok valid).1,
      fun some => absurd none some⟩
  · rw [if_pos adjacent] at checked
    obtain ⟨present, valid⟩ := non_adjacent_passing checked passing
    exact ⟨present, new_header_height_pos valid, (new_header_ok valid).1, fun _ => adjacent⟩

end

structure Skipping where
  blockCache : List LightBlock
  depth : Nat
  verifiedBlock : LightBlock
  trace : List LightBlock

namespace Skipping

def start (trustedBlock newLightBlock : LightBlock) : Skipping :=
  ⟨[newLightBlock], 0, trustedBlock, [trustedBlock]⟩

inductive Round where
  | returns (trace : List LightBlock)
  | fails (error : ClientError)
  | panics (text : String)
  | verified (candidate : LightBlock)
  | deeper
  | requests (failed : LightBlock) (pivotHeight : Int)

def round (env : Env) (newLightBlock : LightBlock) (now : Time) (s : Skipping) : Round :=
  match s.blockCache[s.depth]? with
  | none => .panics outOfRange
  | some candidate =>
    match verifyLink env s.verifiedBlock candidate now with
    | .error text => .panics text
    | .ok none =>
      if s.depth = 0 then .returns (s.trace ++ [newLightBlock]) else .verified candidate
    | .ok (some (.newValSetCantBeTrusted _ _)) =>
      if s.depth = s.blockCache.length - 1 then
        .requests candidate (schedule s.verifiedBlock.height candidate.height)
      else .deeper
    | .ok (some error) =>
      .fails (.verificationFailed s.verifiedBlock.height candidate.height (.verify error))

def raise (s : Skipping) (candidate : LightBlock) : Skipping :=
  ⟨s.blockCache.take s.depth, 0, candidate, s.trace ++ [candidate]⟩

def recycle (s : Skipping) : Skipping := { s with depth := s.depth + 1 }

def answered (s : Skipping) (interimBlock : LightBlock) : Skipping :=
  { s with blockCache := s.blockCache ++ [interimBlock], depth := s.depth + 1 }

end Skipping

section

variable (env : Env) (world : World) (source : Provider) (newLightBlock : LightBlock) (now : Time)

abbrev SkippingResult := Except String (Except ClientError (List LightBlock)) × Client

def skippingBody (state : Skipping × Client) : SkippingResult ⊕ Skipping × Client :=
  match state.1.round env newLightBlock now with
  | .returns trace => .inl (.ok (.ok trace), state.2)
  | .fails error => .inl (.ok (.error error), state.2)
  | .panics text => .inl (.error text, state.2)
  | .verified candidate => .inr (state.1.raise candidate, state.2)
  | .deeper => .inr (state.1.recycle, state.2)
  | .requests _ pivotHeight =>
    match world.lightBlock state.2.asked source pivotHeight with
    | .error error =>
      .inl (.ok (.error (.verificationFailed state.1.verifiedBlock.height pivotHeight
        (.provider error))), { state.2 with asked := state.2.asked + 1 })
    | .ok interimBlock =>
      .inr (state.1.answered interimBlock, { state.2 with asked := state.2.asked + 1 })

theorem get_light_block_run (height : Int) (c : Client) :
    getLightBlock world source height c =
      (.ok (world.lightBlock c.asked source height), { c with asked := c.asked + 1 }) := rfl

theorem skipping_loop_eq (fuel : Nat) (s : Skipping) (c : Client) :
    skippingLoop env world source newLightBlock now fuel s.blockCache s.depth s.verifiedBlock
        s.trace c =
      match Loop.run (skippingBody env world source newLightBlock now) fuel (s, c) with
      | .inl result => result
      | .inr (_, last) => (.error waiting, last) := by
  induction fuel generalizing s c with
  | zero => rfl
  | succ fuel ih =>
  rw [Loop.run]
  unfold skippingLoop skippingBody Skipping.round
  cases present : s.blockCache[s.depth]? with
  | none => rfl
  | some candidate =>
  dsimp only
  cases verified : verifyLink env s.verifiedBlock candidate now with
  | error text => rfl
  | ok outcome =>
  rcases outcome with _ | error
  · by_cases top : s.depth = 0
    · simp only [top, if_true, Program.Act.lift_ok_bind]
      rfl
    · simp only [top, if_false, Program.Act.lift_ok_bind]
      exact ih (s.raise candidate) c
  · cases error with
    | newValSetCantBeTrusted got needed =>
      by_cases last : s.depth = s.blockCache.length - 1
      · simp only [if_pos last, Program.Act.lift_ok_bind]
        rw [Program.Act.bind_run, get_light_block_run]
        cases world.lightBlock c.asked source
            (schedule s.verifiedBlock.height candidate.height) with
        | error failure => rfl
        | ok interimBlock =>
          exact ih (s.answered interimBlock) { c with asked := c.asked + 1 }
      · simp only [if_neg last, Program.Act.lift_ok_bind]
        exact ih s.recycle c
    | _ => rfl

end

section

variable {env : Env} {newLightBlock : LightBlock} {now : Time} {s : Skipping}

theorem round_verified {candidate : LightBlock}
    (verified : s.round env newLightBlock now = .verified candidate) :
    s.blockCache[s.depth]? = some candidate ∧ s.depth ≠ 0 ∧
      verifyLink env s.verifiedBlock candidate now = .ok none := by
  unfold Skipping.round at verified
  cases present : s.blockCache[s.depth]? with
  | none =>
    rw [present] at verified
    cases verified
  | some block =>
  rw [present] at verified
  dsimp only at verified
  split at verified
  case h_2 checked =>
    split at verified
    case isTrue => cases verified
    case isFalse deeper =>
      cases verified
      exact ⟨rfl, deeper, checked⟩
  case h_3 => split at verified <;> cases verified
  all_goals cases verified

theorem round_requests {failed : LightBlock} {pivotHeight : Int}
    (requests : s.round env newLightBlock now = .requests failed pivotHeight) :
    s.blockCache[s.depth]? = some failed ∧ s.depth = s.blockCache.length - 1 ∧
      pivotHeight = schedule s.verifiedBlock.height failed.height ∧
      ∃ outcome, verifyLink env s.verifiedBlock failed now = .ok outcome ∧ Passing outcome ∧
        outcome ≠ none := by
  unfold Skipping.round at requests
  cases present : s.blockCache[s.depth]? with
  | none =>
    rw [present] at requests
    cases requests
  | some block =>
  rw [present] at requests
  dsimp only at requests
  split at requests
  case h_2 => split at requests <;> cases requests
  case h_3 checked =>
    split at requests
    case isFalse => cases requests
    case isTrue last =>
      cases requests
      exact ⟨rfl, last, rfl, _, checked, Or.inr ⟨_, _, rfl⟩, by simp⟩
  all_goals cases requests

theorem round_deeper (deeper : s.round env newLightBlock now = .deeper) :
    s.depth ≠ s.blockCache.length - 1 ∧ s.depth < s.blockCache.length := by
  unfold Skipping.round at deeper
  cases present : s.blockCache[s.depth]? with
  | none =>
    rw [present] at deeper
    cases deeper
  | some block =>
  rw [present] at deeper
  dsimp only at deeper
  split at deeper
  case h_2 => split at deeper <;> cases deeper
  case h_3 =>
    split at deeper
    case isTrue => cases deeper
    case isFalse inner => exact ⟨inner, (List.getElem?_eq_some_iff.mp present).1⟩
  all_goals cases deeper

end

theorem skipping_body_next {env : Env} {world : World} {source : Provider}
    {newLightBlock : LightBlock} {now : Time} {s next : Skipping} {c after : Client}
    (goes : skippingBody env world source newLightBlock now (s, c) = .inr (next, after)) :
    (∃ candidate, s.round env newLightBlock now = .verified candidate ∧ next = s.raise candidate) ∨
    (s.round env newLightBlock now = .deeper ∧ next = s.recycle) ∨
    ∃ failed pivotHeight interimBlock,
      s.round env newLightBlock now = .requests failed pivotHeight ∧
      world.lightBlock c.asked source pivotHeight = .ok interimBlock ∧
      next = s.answered interimBlock := by
  unfold skippingBody at goes
  split at goes
  case h_4 candidate verified =>
    cases goes
    exact Or.inl ⟨candidate, verified, rfl⟩
  case h_5 deeper =>
    cases goes
    exact Or.inr (Or.inl ⟨deeper, rfl⟩)
  case h_6 failed pivotHeight requests =>
    split at goes
    case h_1 => cases goes
    case h_2 interimBlock answer =>
      cases goes
      exact Or.inr (Or.inr ⟨failed, pivotHeight, interimBlock, requests, answer, rfl⟩)
  all_goals cases goes

def World.Answers (world : World) (source : Provider) : Prop :=
  ∀ number height block, world.lightBlock number source height = .ok block → block.height = height

namespace Skipping

/-- The cache goes down from the target, and the verified block is not below the
trusted one. -/
structure Ordered (trusted target : LightBlock) (s : Skipping) : Prop where
  top : s.blockCache[0]? = some target
  inside : s.depth < s.blockCache.length
  descending : s.blockCache.Pairwise fun higher lower => lower.height < higher.height
  typed : ∀ block ∈ s.blockCache, Fits64 block.height
  verified : Fits64 s.verifiedBlock.height
  above : trusted.height ≤ s.verifiedBlock.height

variable {env : Env} {trusted target : LightBlock} {now : Time} {s : Skipping}

theorem ordered_start (trustedTyped : Fits64 trusted.height) (targetTyped : Fits64 target.height) :
    Ordered trusted target (start trusted target) where
  top := rfl
  inside := by simp [start]
  descending := pairwise_singleton _ _
  typed := by simpa [start] using targetTyped
  verified := trustedTyped
  above := Int.le_refl _

theorem Ordered.below_target (ordered : Ordered trusted target s) {index : Nat} {block : LightBlock}
    (present : s.blockCache[index]? = some block) :
    block.height ≤ target.height ∧ (index ≠ 0 → block.height < target.height) := by
  have top := ordered.top
  obtain ⟨inside, rfl⟩ := List.getElem?_eq_some_iff.mp present
  obtain ⟨first, same⟩ := List.getElem?_eq_some_iff.mp top
  by_cases zero : index = 0
  · subst zero
    rw [same]
    exact ⟨Int.le_refl _, fun nonzero => absurd rfl nonzero⟩
  · have lower := pairwise_iff_getElem.mp ordered.descending 0 index first inside (by omega)
    rw [same] at lower
    exact ⟨lower.le, fun _ => lower⟩

section

variable (ordered : Ordered trusted target s)
  (near : target.height - trusted.height ≤ scheduleLimit)

include ordered near

section

variable {failed : LightBlock} {pivotHeight : Int}
  (requests : s.round env target now = .requests failed pivotHeight)

include failed requests

theorem Ordered.between : s.verifiedBlock.height < pivotHeight ∧ pivotHeight < failed.height := by
  obtain ⟨present, _, rfl, outcome, checked, passing, some⟩ := round_requests requests
  obtain ⟨_, _, higher, apart⟩ := passing_link checked passing
  have notAdjacent := apart some
  have below := (ordered.below_target present).1
  have above := ordered.above
  have typed := ordered.typed failed (mem_of_getElem? present)
  rw [schedule_between_iff _ _ ordered.verified typed (by omega),
    schedule_step_near (by omega) (by omega)]
  omega

theorem Ordered.answered (interimBlock : LightBlock) (height : interimBlock.height = pivotHeight) :
    Ordered trusted target (s.answered interimBlock) := by
  have between := ordered.between near requests
  obtain ⟨present, last, pivotIs, _⟩ := round_requests requests
  obtain ⟨inside, here⟩ := List.getElem?_eq_some_iff.mp present
  constructor
  · simp only [Skipping.answered]
    rw [getElem?_append_left (by omega)]
    exact ordered.top
  · simp only [Skipping.answered, length_append, length_singleton]
    omega
  · refine pairwise_append.mpr ⟨ordered.descending, pairwise_singleton _ _, ?_⟩
    intro higher member lower isNew
    rw [mem_singleton.mp isNew, height]
    obtain ⟨index, bound, rfl⟩ := getElem_of_mem member
    -- the failed block was the lowest so far
    by_cases same : index = s.depth
    · subst same
      rw [here]
      exact between.2
    · have order := pairwise_iff_getElem.mp ordered.descending index s.depth bound inside
        (by omega)
      rw [here] at order
      exact between.2.trans order
  · intro block member
    rcases mem_append.mp member with old | new
    · exact ordered.typed block old
    · rw [mem_singleton.mp new, height, pivotIs]
      exact int64_fits _
  · exact ordered.verified
  · exact ordered.above

end

omit near in
theorem Ordered.raise {candidate : LightBlock}
    (verified : s.round env target now = .verified candidate) :
    Ordered trusted target (s.raise candidate) := by
  obtain ⟨present, deep, checked⟩ := round_verified verified
  obtain ⟨_, _, higher, _⟩ := passing_link checked (Or.inl rfl)
  have positive := Nat.pos_of_ne_zero deep
  constructor
  · simp only [Skipping.raise]
    rw [getElem?_take_of_lt positive]
    exact ordered.top
  · have inside := ordered.inside
    simp only [Skipping.raise, length_take]
    omega
  · exact ordered.descending.sublist (take_sublist _ _)
  · intro block member
    exact ordered.typed block (mem_of_mem_take member)
  · exact ordered.typed candidate (mem_of_getElem? present)
  · exact (ordered.above.trans higher.le)

omit near in
theorem Ordered.recycle (deeper : s.round env target now = .deeper) :
    Ordered trusted target s.recycle := by
  obtain ⟨inner, inside⟩ := round_deeper deeper
  exact ⟨ordered.top, by simp only [Skipping.recycle]; omega, ordered.descending, ordered.typed,
    ordered.verified, ordered.above⟩

end

def lowest (s : Skipping) : Int := (s.blockCache.getLast?.map (·.height)).getD 0

/-- What falls from round to round: the distance to the target, with the same
verified block the distance to the lowest block, and then what is left of the cache. -/
def remaining (target : LightBlock) (s : Skipping) : ℕ ×ₗ ℕ ×ₗ ℕ :=
  toLex ((target.height - s.verifiedBlock.height).toNat,
    toLex ((s.lowest - s.verifiedBlock.height).toNat, s.blockCache.length - s.depth))

theorem raise_remaining (ordered : Ordered trusted target s) {candidate : LightBlock}
    (verified : s.round env target now = .verified candidate) :
    (s.raise candidate).remaining target < s.remaining target := by
  obtain ⟨present, deep, checked⟩ := round_verified verified
  have higher := (passing_link checked (Or.inl rfl)).2.2.1
  have below := (ordered.below_target present).2 deep
  rw [remaining, remaining, Prod.Lex.toLex_lt_toLex]
  simp only [raise]
  omega

theorem recycle_remaining (deeper : s.round env target now = .deeper) :
    s.recycle.remaining target < s.remaining target := by
  obtain ⟨_, inside⟩ := round_deeper deeper
  rw [remaining, remaining, Prod.Lex.toLex_lt_toLex]
  right
  refine ⟨rfl, ?_⟩
  rw [Prod.Lex.toLex_lt_toLex]
  right
  refine ⟨rfl, ?_⟩
  simp only [recycle]
  omega

theorem answered_remaining {failed : LightBlock} {pivotHeight : Int}
    (requests : s.round env target now = .requests failed pivotHeight)
    (between : s.verifiedBlock.height < pivotHeight ∧ pivotHeight < failed.height)
    {interimBlock : LightBlock} (height : interimBlock.height = pivotHeight) :
    (s.answered interimBlock).remaining target < s.remaining target := by
  obtain ⟨present, last, _⟩ := round_requests requests
  have lowestIs : s.lowest = failed.height := by
    rw [lowest, getLast?_eq_getElem?, ← last, present]
    rfl
  have newLowest : (s.answered interimBlock).lowest = pivotHeight := by
    simp [lowest, answered, height]
  rw [remaining, remaining, Prod.Lex.toLex_lt_toLex]
  right
  refine ⟨rfl, ?_⟩
  rw [Prod.Lex.toLex_lt_toLex]
  rw [newLowest, lowestIs]
  simp only [answered]
  omega

end Skipping

section

variable (env : Env) (world : World) (source : Provider) (c : Client)
  (trusted target : LightBlock) (now : Time)

def Skipping.Reached (s : Skipping) (after : Client) : Prop :=
  Loop.Reached (skippingBody env world source target now) (Skipping.start trusted target, c)
    (s, after)

/-- Skipping verification as it should be: it returns, with a trace of verified
links up to the target, and asks for heights between only. -/
structure SkipsSoundly : Prop where
  terminates : ∃ result,
    Loop.Returns (skippingBody env world source target now) (Skipping.start trusted target, c)
      result ∧
    ∃ enough, ∀ fuel, enough ≤ fuel →
      verifySkipping env world fuel source trusted target now c = result
  traced : ∀ fuel trace after,
    verifySkipping env world fuel source trusted target now c = (.ok (.ok trace), after) →
      Trace env now trusted target trace ∧
      trace.Pairwise fun earlier later => earlier.height < later.height ∧ earlier.time < later.time
  between : ∀ s after failed pivotHeight,
    Skipping.Reached env world source c trusted target now s after →
    s.round env target now = .requests failed pivotHeight →
      s.verifiedBlock.height < pivotHeight ∧ pivotHeight < failed.height

variable {env world source c trusted target now}

theorem trace_increasing {last : LightBlock} {trace : List LightBlock}
    (traced : Trace env now trusted last trace) :
    trace.Pairwise fun earlier later =>
      earlier.height < later.height ∧ earlier.time < later.time := by
  have steps : trace.IsChain fun earlier later =>
      earlier.height < later.height ∧ earlier.time < later.time :=
    traced.links.imp fun earlier later link =>
      ⟨(verify_follows link).height, (verify_follows link).time⟩
  have : IsTrans LightBlock fun earlier later =>
      earlier.height < later.height ∧ earlier.time < later.time :=
    ⟨fun _ _ _ first second => ⟨first.1.trans second.1, Int.lt_trans first.2 second.2⟩⟩
  exact isChain_iff_pairwise.mp steps

theorem skipping_traced (fuel : Nat) (trace : List LightBlock) (after : Client)
    (returned : verifySkipping env world fuel source trusted target now c =
      (.ok (.ok trace), after)) :
    Trace env now trusted target trace ∧ trace.Pairwise fun earlier later =>
      earlier.height < later.height ∧ earlier.time < later.time := by
  have keeps := skipping_loop_keeps env world source target trusted now fuel [target] 0 trusted
    [trusted] (Trace.single now trusted) rfl
  have found := (keeps.run c).2 (.ok trace) (congrArg Prod.fst returned)
  have traced := (found trace rfl).1
  exact ⟨traced, trace_increasing traced⟩

theorem skipping_terminates {result : SkippingResult}
    (returns : Loop.Returns (skippingBody env world source target now)
      (Skipping.start trusted target, c) result) :
    ∃ enough, ∀ fuel, enough ≤ fuel →
      verifySkipping env world fuel source trusted target now c = result := by
  obtain ⟨enough, ran⟩ := (Loop.run_iff_returns _ _).mpr returns
  refine ⟨enough, ?_⟩
  intro fuel more
  have loop := skipping_loop_eq env world source target now fuel (Skipping.start trusted target) c
  rw [Loop.run_more ran fuel more] at loop
  exact loop

theorem skips_soundly_of {α : Type} {smaller : α → α → Prop} (founded : WellFounded smaller)
    (measure : Skipping → α) (keep : Skipping → Prop)
    (begins : keep (Skipping.start trusted target))
    (between : ∀ s failed pivotHeight, keep s →
      s.round env target now = .requests failed pivotHeight →
        s.verifiedBlock.height < pivotHeight ∧ pivotHeight < failed.height)
    (step : ∀ s next before after, keep s →
      skippingBody env world source target now (s, before) = .inr (next, after) →
        keep next ∧ smaller (measure next) (measure s)) :
    SkipsSoundly env world source c trusted target now where
  terminates := by
    have falls : ∀ before after : Skipping × Client, keep before.1 →
        skippingBody env world source target now before = .inr after →
          keep after.1 ∧ smaller (measure after.1) (measure before.1) :=
      fun before after kept goes => step before.1 after.1 before.2 after.2 kept goes
    obtain ⟨result, returns⟩ := Loop.returns_of_measure founded
      (fun state => measure state.1) (fun state => keep state.1) falls
      (Skipping.start trusted target, c) begins
    exact ⟨result, returns, skipping_terminates returns⟩
  traced := skipping_traced
  between := by
    intro s after failed pivotHeight reached requests
    refine between s failed pivotHeight ?_ requests
    exact reached.keeps (fun state => keep state.1) begins fun before next kept goes =>
      (step before.1 next.1 before.2 next.2 kept goes).1

theorem skips_soundly_near (answers : world.Answers source) (trustedTyped : Fits64 trusted.height)
    (targetTyped : Fits64 target.height)
    (near : target.height - trusted.height ≤ scheduleLimit) :
    SkipsSoundly env world source c trusted target now := by
  refine skips_soundly_of wellFounded_lt (Skipping.remaining target)
    (Skipping.Ordered trusted target) (Skipping.ordered_start trustedTyped targetTyped) ?_ ?_
  · intro s failed pivotHeight ordered requests
    exact ordered.between near requests
  · intro s next before after ordered goes
    rcases skipping_body_next goes with ⟨candidate, verified, rfl⟩ | ⟨deeper, rfl⟩ |
      ⟨failed, pivotHeight, interimBlock, requests, answer, rfl⟩
    · exact ⟨ordered.raise verified, Skipping.raise_remaining ordered verified⟩
    · exact ⟨ordered.recycle deeper, Skipping.recycle_remaining deeper⟩
    · have height := answers _ _ _ answer
      exact ⟨ordered.answered near requests interimBlock height,
        Skipping.answered_remaining requests (ordered.between near requests) height⟩

/-- The heights with which every request is between: a target or trusted block that
no verification accepts, a distance whose multiple is an int64, or a first request
that no valid block has. -/
def ScheduleFits (trustedHeight targetHeight : Int) : Prop :=
  targetHeight ≤ 0 ∨ trustedHeight = 0 ∨ targetHeight - trustedHeight ≤ scheduleLimit ∨
    trustedHeight < schedule trustedHeight targetHeight ∧ schedule trustedHeight targetHeight ≤ 0

def Skipping.Early (trusted target : LightBlock) (s : Skipping) : Prop :=
  s = Skipping.start trusted target ∨
    ∃ block, block.height ≤ 0 ∧ s = (Skipping.start trusted target).answered block

theorem skips_soundly_early (answers : world.Answers source)
    (early : ∀ outcome, verifyLink env trusted target now = .ok outcome → Passing outcome →
      trusted.height < schedule trusted.height target.height ∧
        schedule trusted.height target.height ≤ 0) :
    SkipsSoundly env world source c trusted target now := by
  have asked : ∀ s failed pivotHeight, Skipping.Early trusted target s →
      s.round env target now = .requests failed pivotHeight →
      s = Skipping.start trusted target ∧ failed = target ∧
        pivotHeight = schedule trusted.height target.height ∧
        trusted.height < pivotHeight ∧ pivotHeight ≤ 0 ∧ 0 < target.height := by
    intro s failed pivotHeight kept requests
    obtain ⟨present, _, rfl, outcome, checked, passing, _⟩ := round_requests requests
    have valid := passing_link checked passing
    rcases kept with rfl | ⟨block, low, rfl⟩
    · cases present
      obtain ⟨above, below⟩ := early outcome checked passing
      exact ⟨rfl, rfl, rfl, above, below, valid.2.1⟩
    · cases present
      omega
  refine skips_soundly_of (wellFounded_lt (α := ℕ)) (fun s => 2 - s.blockCache.length)
    (Skipping.Early trusted target) (Or.inl rfl) ?_ ?_
  · intro s failed pivotHeight kept requests
    obtain ⟨rfl, rfl, _, above, below, positive⟩ := asked s failed pivotHeight kept requests
    exact ⟨above, by omega⟩
  · intro s next before after kept goes
    rcases skipping_body_next goes with ⟨candidate, verified, rfl⟩ | ⟨deeper, rfl⟩ |
      ⟨failed, pivotHeight, interimBlock, requests, answer, rfl⟩
    · obtain ⟨present, deep, checked⟩ := round_verified verified
      have valid := passing_link checked (Or.inl rfl)
      rcases kept with rfl | ⟨block, low, rfl⟩
      · exact absurd rfl deep
      · cases present
        omega
    · obtain ⟨inner, _⟩ := round_deeper deeper
      rcases kept with rfl | ⟨block, low, rfl⟩ <;> exact absurd rfl inner
    · obtain ⟨rfl, _, _, _, below, _⟩ := asked s failed pivotHeight kept requests
      refine ⟨Or.inr ⟨interimBlock, ?_, rfl⟩, by simp [Skipping.start, Skipping.answered]⟩
      rw [answers _ _ _ answer]
      exact below

theorem skips_soundly_of_fits (answers : world.Answers source)
    (trustedTyped : Fits64 trusted.height) (targetTyped : Fits64 target.height)
    (fits : ScheduleFits trusted.height target.height) :
    SkipsSoundly env world source c trusted target now := by
  rcases fits with low | zero | near | first
  · refine skips_soundly_early answers fun outcome checked passing => ?_
    have valid := passing_link checked passing
    omega
  · refine skips_soundly_early answers fun outcome checked passing => ?_
    exact absurd zero (passing_link checked passing).1
  · exact skips_soundly_near answers trustedTyped targetTyped near
  · exact skips_soundly_early answers fun _ _ _ => first

end

section

def stranger : Validator := ⟨List.replicate 20 8, ⟨.ed25519, List.replicate 20 8⟩, 10, 0⟩

def blockBy (signer : Validator) (height : Int) (time : Time) : LightBlock where
  signedHeader := ⟨soleHeader height time, ⟨height, 0, ⟨zeroHash, ⟨1, zeroHash⟩⟩,
    [⟨.commit, signer.address, 0, [1]⟩]⟩⟩
  validatorSet := ⟨[signer], some signer, 10⟩

def distantEnv (period : Int) : Env where
  crypto := .acceptAll
  hashing := ⟨fun _ => zeroHash⟩
  config := ⟨period, .skipping, ⟨1, 3⟩, 10, 1000⟩

theorem sole_header_basic {height : Int} (time : Time) (positive : 0 < height) :
    (soleHeader height time).validateBasic = none := by
  have nonneg : ¬ height < 0 := by omega
  have nonzero : ¬ height = 0 := by omega
  simp only [Header.validateBasic, soleHeader, nonneg, nonzero, if_false]
  rfl

theorem sole_header_hash (height : Int) {time : Time} {bytes : Bytes}
    (encoded : stdTimeMarshal time = some bytes) :
    (soleHeader height time).hash ⟨fun _ => zeroHash⟩ = zeroHash := by
  have present : ¬ (soleHeader height time).validatorsHash.length = 0 := by
    simp [soleHeader, zeroHash]
  have timeIs : (soleHeader height time).time = time := rfl
  rw [Header.hash, if_neg present, timeIs, encoded]
  rfl

section

variable (signer : Validator) (sized : signer.address.length = 20)

include sized

variable {height : Int}

theorem block_by_commit_basic (time : Time) (positive : 0 < height) :
    (blockBy signer height time).signedHeader.commit.validateBasic = none := by
  have nonneg : ¬ height < 0 := by omega
  have one : 1 ≤ height := by omega
  simp only [Commit.validateBasic, blockBy, nonneg, one, if_false, if_true]
  simp [CommitSig.validateBasic, sized, addressSize, maxSignatureSize, BlockID.isZero, zeroHash]

theorem block_by_basic {time : Time} (positive : 0 < height) {bytes : Bytes}
    (encoded : stdTimeMarshal time = some bytes) :
    (blockBy signer height time).signedHeader.validateBasic ⟨fun _ => zeroHash⟩ [99] = none := by
  have header : (blockBy signer height time).signedHeader.header = soleHeader height time := rfl
  rw [SignedHeader.validateBasic, header, sole_header_basic time positive]
  rw [block_by_commit_basic signer sized time positive, sole_header_hash height encoded]
  simp [blockBy, soleHeader]

theorem new_block_by (old : LightBlock) {time now : Time} (chain : old.header.chainID = [99])
    (positive : 0 < height) {bytes : Bytes} (encoded : stdTimeMarshal time = some bytes)
    (higher : old.height < height) (later : old.time < time) (known : time < now + 10) :
    verifyNewHeaderAndVals ⟨fun _ => zeroHash⟩ (blockBy signer height time).signedHeader
      (blockBy signer height time).validatorSet old.signedHeader now 10 = none := by
  have chained : old.signedHeader.header.chainID = [99] := chain
  rw [verifyNewHeaderAndVals, chained, block_by_basic signer sized positive encoded]
  have higherHeader : ¬ (blockBy signer height time).signedHeader.header.height ≤
      old.signedHeader.header.height := Int.not_le.mpr higher
  have laterHeader : ¬ (blockBy signer height time).signedHeader.header.time ≤
      old.signedHeader.header.time := Int.not_le.mpr later
  have knownHeader : ¬ now + 10 ≤ (blockBy signer height time).signedHeader.header.time :=
    Int.not_le.mpr known
  rw [if_neg higherHeader, if_neg laterHeader, if_neg knownHeader]
  rfl

end

theorem block_by_own (old : SignedHeader) (height : Int) (time : Time) :
    verifyOwnCommit .acceptAll (blockBy soleSigner height time).signedHeader
      (blockBy soleSigner height time).validatorSet old = .ok none := by
  simp [verifyOwnCommit, verifyCommitLight, verifyBasicValsAndCommit, blockBy, soleHeader]
  rfl

theorem block_by_trusting_stranger (height : Int) (time : Time) (chainID : ChainID) :
    verifyCommitLightTrusting .acceptAll chainID soleSet (blockBy stranger height time).commit
      ⟨1, 3⟩ = .ok (some (.notEnoughVotingPowerSigned 0 3)) :=
  rfl

theorem early_time_encoded {time : Int} (nonneg : 0 ≤ time) (early : time ≤ 2 ^ 65) :
    ∃ bytes, stdTimeMarshal time = some bytes := by
  have valid : validTimestamp (time / nanosPerSecond) (time % nanosPerSecond) = true := by
    unfold validTimestamp nanosPerSecond minValidSeconds maxValidSeconds
    rw [decide_eq_true_iff]
    omega
  exact ⟨_, by rw [stdTimeMarshal, if_pos valid]⟩

theorem required_fields_by {height time : Int} (nonzero : height ≠ 0) (nonneg : 0 ≤ time) :
    checkRequiredHeaderFields (blockBy soleSigner height time).signedHeader = .ok () := by
  have set : ¬ (blockBy soleSigner height time).signedHeader.header.height = 0 := nonzero
  have early : zeroTime < 0 := by decide
  have timed : ¬ (blockBy soleSigner height time).signedHeader.header.time = zeroTime := by
    change ¬ time = zeroTime
    intro same
    rw [same] at nonneg
    exact absurd nonneg (Int.not_le.mpr early)
  rw [checkRequiredHeaderFields, if_neg set, if_neg timed]
  rfl

section

variable (height next time later now period : Int) (nonzero : height ≠ 0) (nonneg : 0 ≤ time)
  (positive : 0 < next) (higher : height < next) (after : time < later) (early : later ≤ 2 ^ 65)
  (known : later < now + 10) (fresh : now < later + period)

include nonzero nonneg positive higher after early known fresh

theorem link_to_stranger (apart : next ≠ height + 1) :
    verifyLink (distantEnv period) (blockBy soleSigner height time) (blockBy stranger next later)
      now = .ok (some (.newValSetCantBeTrusted 0 3)) := by
  obtain ⟨bytes, encoded⟩ := early_time_encoded (by omega) early
  have fields := required_fields_by nonzero nonneg
  have valid := new_block_by stranger rfl (blockBy soleSigner height time) rfl
    positive encoded higher after known
  have current : headerExpired (blockBy stranger next later).signedHeader period now = false :=
    decide_eq_false (Int.not_le.mpr fresh)
  have notNext : ¬ (blockBy stranger next later).signedHeader.header.height =
      (blockBy soleSigner height time).signedHeader.header.height + 1 := apart
  have level : validateTrustLevel ⟨1, 3⟩ = none := by decide
  have refused : verifyCommitLightTrusting .acceptAll
      (blockBy soleSigner height time).signedHeader.header.chainID soleSet
      (blockBy stranger next later).signedHeader.commit ⟨1, 3⟩ =
      .ok (some (.notEnoughVotingPowerSigned 0 3)) := block_by_trusting_stranger next later [99]
  change verify .acceptAll ⟨fun _ => zeroHash⟩ (blockBy soleSigner height time).signedHeader soleSet
    (blockBy stranger next later).signedHeader (blockBy stranger next later).validatorSet period now
    10 ⟨1, 3⟩ = _
  rw [verify, if_pos notNext, verifyNonAdjacent, fields]
  simp only [bind_eq, pure_eq, if_neg notNext, level, current, valid, refused]
  rfl

theorem link_to_own :
    verifyLink (distantEnv period) (blockBy soleSigner height time) (blockBy soleSigner next later)
      now = .ok none := by
  obtain ⟨bytes, encoded⟩ := early_time_encoded (by omega) early
  have fields := required_fields_by nonzero nonneg
  have valid := new_block_by soleSigner rfl (blockBy soleSigner height time) rfl
    positive encoded higher after known
  have current : headerExpired (blockBy soleSigner next later).signedHeader period now = false :=
    decide_eq_false (Int.not_le.mpr fresh)
  have level : validateTrustLevel ⟨1, 3⟩ = none := by decide
  have own := block_by_own (blockBy soleSigner height time).signedHeader next later
  change verify .acceptAll ⟨fun _ => zeroHash⟩ (blockBy soleSigner height time).signedHeader soleSet
    (blockBy soleSigner next later).signedHeader (blockBy soleSigner next later).validatorSet period
    now 10 ⟨1, 3⟩ = _
  by_cases adjacent : next = height + 1
  · have isNext : (blockBy soleSigner next later).signedHeader.header.height =
        (blockBy soleSigner height time).signedHeader.header.height + 1 := adjacent
    rw [verify, if_neg (not_not.mpr isNext), verifyAdjacent, fields]
    simp only [bind_eq, pure_eq, if_neg (not_not.mpr isNext), current, valid, own]
    rfl
  · have notNext : ¬ (blockBy soleSigner next later).signedHeader.header.height =
        (blockBy soleSigner height time).signedHeader.header.height + 1 := adjacent
    rw [verify, if_pos notNext, verifyNonAdjacent, fields]
    simp only [bind_eq, pure_eq, if_neg notNext, level, current, valid, own]
    rfl

end

/-- The source has a block of the signer at every height, each later than the one
it gave before. -/
def distantWorld : World where
  lightBlock number _ height := .ok (blockBy soleSigner height (number + 1))
  responses _ _ := []
  comparisons _ _ := []
  conflict _ _ _ _ := none

theorem distant_world_answers (source : Provider) : distantWorld.Answers source := by
  intro number height block answer
  cases answer
  rfl

section

variable {targetHeight bound : Int} (positive : 0 < targetHeight) (typed : Fits64 targetHeight)
  (early : bound ≤ 2 ^ 65)

def distantTarget (targetHeight bound : Int) : LightBlock := blockBy stranger targetHeight bound

def distantState (targetHeight bound height : Int) (number : Nat) (trace : List LightBlock) :
    Skipping :=
  ⟨[distantTarget targetHeight bound], 0, blockBy soleSigner height number, trace⟩

include positive early

theorem distant_round (height : Int) (number : Nat) (trace : List LightBlock)
    (nonzero : height ≠ 0) (below : height + 1 < targetHeight) (room : number < bound) :
    (distantState targetHeight bound height number trace).round (distantEnv (bound + 10))
        (distantTarget targetHeight bound) bound =
      .requests (distantTarget targetHeight bound) (schedule height targetHeight) := by
  have link := link_to_stranger height targetHeight number bound bound (bound + 10) nonzero
    (by omega) positive (by omega) room early (by omega) (by omega) (by omega)
  change (match verifyLink (distantEnv (bound + 10)) (blockBy soleSigner height number)
    (blockBy stranger targetHeight bound) bound with
    | .error text => Skipping.Round.panics text
    | .ok none => _
    | .ok (some (.newValSetCantBeTrusted _ _)) => _
    | .ok (some error) => _) = _
  rw [link]
  rfl

theorem distant_next {height : Int} {number : Nat} (trace : List LightBlock) (source : Provider)
    (c : Client) (asked : c.asked = number) (nonzero : height ≠ 0) (room : number + 1 < bound)
    (above : height < schedule height targetHeight)
    (below : schedule height targetHeight < targetHeight)
    (valid : 0 < schedule height targetHeight) :
    ∃ later, later.asked = number + 1 ∧
      Loop.Reached (skippingBody (distantEnv (bound + 10)) distantWorld source
        (distantTarget targetHeight bound) bound)
        (distantState targetHeight bound height number trace, c)
        (distantState targetHeight bound (schedule height targetHeight) (number + 1)
          (trace ++ [blockBy soleSigner (schedule height targetHeight) (number + 1 : Nat)]),
            later) := by
  subst asked
  have round := distant_round positive early height c.asked trace nonzero (by omega) (by omega)
  have link := link_to_own height (schedule height targetHeight) c.asked (c.asked + 1 : Nat) bound
    (bound + 10) nonzero (by omega) valid above (by omega) (by omega) (by omega) (by omega)
  refine ⟨{ c with asked := c.asked + 1 }, rfl, ?_⟩
  have answered : skippingBody (distantEnv (bound + 10)) distantWorld source
      (distantTarget targetHeight bound) bound
      (distantState targetHeight bound height c.asked trace, c) =
      .inr ((distantState targetHeight bound height c.asked trace).answered
        (blockBy soleSigner (schedule height targetHeight) (c.asked + 1 : Nat)),
        { c with asked := c.asked + 1 }) := by
    unfold skippingBody
    rw [round]
    rfl
  refine Loop.Reached.first answered (Loop.Reached.first ?_ Relation.ReflTransGen.refl)
  · have verified : ((distantState targetHeight bound height c.asked trace).answered
        (blockBy soleSigner (schedule height targetHeight) (c.asked + 1 : Nat))).round
        (distantEnv (bound + 10)) (distantTarget targetHeight bound) bound =
        .verified (blockBy soleSigner (schedule height targetHeight) (c.asked + 1 : Nat)) := by
      change (match verifyLink (distantEnv (bound + 10)) (blockBy soleSigner height c.asked)
        (blockBy soleSigner (schedule height targetHeight) (c.asked + 1 : Nat)) bound with
        | .error text => Skipping.Round.panics text
        | .ok none => _
        | .ok (some (.newValSetCantBeTrusted _ _)) => _
        | .ok (some error) => _) = _
      rw [link]
      rfl
    unfold skippingBody
    rw [verified]
    rfl

include typed

theorem distant_run (source : Provider) (height : Int) (number : Nat) (trace : List LightBlock)
    (c : Client) (asked : c.asked = number) (heightTyped : Fits64 height) (nonzero : height ≠ 0)
    (far : scheduleLimit < targetHeight - height)
    (valid : ¬ (height < schedule height targetHeight ∧ schedule height targetHeight ≤ 0))
    (room : number + (targetHeight - height) < bound) :
    ∃ s after failed pivotHeight,
      Loop.Reached (skippingBody (distantEnv (bound + 10)) distantWorld source
        (distantTarget targetHeight bound) bound)
        (distantState targetHeight bound height number trace, c) (s, after) ∧
      s.round (distantEnv (bound + 10)) (distantTarget targetHeight bound) bound =
        .requests failed pivotHeight ∧
      ¬ (s.verifiedBlock.height < pivotHeight ∧ pivotHeight < failed.height) := by
  induction distance : (targetHeight - height).toNat using Nat.strongRecOn
    generalizing height number trace c with
  | _ distance ih =>
  have limit : 1 < scheduleLimit := by decide
  by_cases between : height < schedule height targetHeight ∧
      schedule height targetHeight < targetHeight
  · have up :=
      (schedule_between_iff height targetHeight heightTyped typed (by omega)).mp between
    have pivot := schedule_up height targetHeight heightTyped typed (by omega) up
    have stays := schedule_step_stays_far _ far up
    have highEnough : 0 < schedule height targetHeight := by
      by_contra low
      exact valid ⟨between.1, by omega⟩
    obtain ⟨later, laterAsked, reached⟩ := distant_next positive early trace source c asked
      nonzero (by omega) between.1 between.2 highEnough
    unfold Fits64 at heightTyped typed
    obtain ⟨s, after, failed, pivotHeight, rest, requests, outside⟩ :=
      ih _ (by omega) (schedule height targetHeight) (number + 1) _ later laterAsked
        (by unfold Fits64; omega) (by omega) (by omega) (by omega) (by push_cast; omega) rfl
    exact ⟨s, after, failed, pivotHeight, reached.trans rest, requests, outside⟩
  · exact ⟨_, _, _, _, Relation.ReflTransGen.refl,
      distant_round positive early height number trace nonzero (by omega) (by omega), between⟩

end

/-- Every distance that overflows has a source with which the loop asks for a height
that is not between. -/
theorem not_skips_soundly {trustedHeight targetHeight : Int} (typed : Fits64 trustedHeight)
    (targetTyped : Fits64 targetHeight) (outside : ¬ ScheduleFits trustedHeight targetHeight) :
    ∃ env world source c trusted target now, World.Answers world source ∧
      trusted.height = trustedHeight ∧ target.height = targetHeight ∧
      ¬ SkipsSoundly env world source c trusted target now := by
  unfold ScheduleFits at outside
  push Not at outside
  obtain ⟨positive, nonzero, far, valid⟩ := outside
  have early : targetHeight - trustedHeight + 1 ≤ 2 ^ 65 := by
    unfold Fits64 minInt64 maxInt64 at typed targetTyped
    omega
  refine ⟨distantEnv (targetHeight - trustedHeight + 1 + 10), distantWorld, 0,
    Client.restore 0 [] ⟨[], 0⟩, blockBy soleSigner trustedHeight 0,
    distantTarget targetHeight (targetHeight - trustedHeight + 1),
    targetHeight - trustedHeight + 1, distant_world_answers 0, rfl, rfl, ?_⟩
  intro sound
  obtain ⟨s, after, failed, pivotHeight, reached, requests, notBetween⟩ :=
    distant_run positive targetTyped early 0 trustedHeight 0
      [blockBy soleSigner trustedHeight 0] (Client.restore 0 [] ⟨[], 0⟩) rfl typed nonzero far
      (by omega) (by push_cast; omega)
  exact notBetween (sound.between s after failed pivotHeight reached requests)

end

/-- Skipping verification between two heights is sound, whatever the blocks and the
answers of the source, exactly if the distance of the heights does not overflow. -/
theorem skipping_sound_iff (trustedHeight targetHeight : Int) (typed : Fits64 trustedHeight)
    (targetTyped : Fits64 targetHeight) :
    (∀ env world source c trusted target now, World.Answers world source →
      trusted.height = trustedHeight → target.height = targetHeight →
        SkipsSoundly env world source c trusted target now) ↔
      ScheduleFits trustedHeight targetHeight := by
  constructor
  · intro sound
    by_contra outside
    obtain ⟨env, world, source, c, trusted, target, now, answers, height, otherHeight, unsound⟩ :=
      not_skips_soundly typed targetTyped outside
    exact unsound (sound env world source c trusted target now answers height otherHeight)
  · rintro fits env world source c trusted target now answers rfl rfl
    exact skips_soundly_of_fits answers typed targetTyped fits

theorem hundred_heights_sound :
    SkipsSoundly (distantEnv 1000) distantWorld 0 (Client.restore 0 [] ⟨[], 0⟩)
      (blockBy soleSigner 1 0) (blockBy stranger 100 50) 60 :=
  (skipping_sound_iff 1 100 (by decide) (by decide)).mpr (Or.inr (Or.inr (Or.inl (by decide))))
    _ _ _ _ _ _ _ (distant_world_answers 0) rfl rfl

/-- At a distance of 2^60 the first request is for a negative height. -/
theorem distant_target_asks_below :
    (Skipping.start (blockBy soleSigner 1 0) (blockBy stranger (1 + 2 ^ 60) 50)).round
        (distantEnv 60) (blockBy stranger (1 + 2 ^ 60) 50) 50 =
      .requests (blockBy stranger (1 + 2 ^ 60) 50) (-504403158265495551) ∧
    distantWorld.Answers 0 ∧
    ¬ SkipsSoundly (distantEnv 60) distantWorld 0 (Client.restore 0 [] ⟨[], 0⟩)
      (blockBy soleSigner 1 0) (blockBy stranger (1 + 2 ^ 60) 50) 50 := by
  have positive : (0 : Int) < 1 + 2 ^ 60 := by decide
  have early : (50 : Int) ≤ 2 ^ 65 := by decide
  have round := distant_round positive early 1 0 [blockBy soleSigner 1 0] (by decide) (by decide)
    (by decide)
  refine ⟨round, distant_world_answers 0, ?_⟩
  intro sound
  have between := sound.between _ _ _ _ Relation.ReflTransGen.refl round
  exact absurd between.1 (by decide)

end Tendermint.Light
