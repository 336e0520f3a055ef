import Tendermint.Light.Client

/-!
What the light client builds on. Every block that forward verification saves was
reached from a trusted block by successful verifications at one time, and all
but the first of the headers they start from are within the trusting period at
that time: the verifiers look at the header they verify and never at the one
they trust. So the first link is built on an expired header exactly when the
trusted block that the client starts from has expired.
-/

namespace Tendermint.Light

open Types List
open Program (Act Yields)
open Program.Act (get modify raise lift)
open Relation (ReflTransGen)

structure SameTrust (before after : Client) : Prop where
  store : after.trustedStore = before.trustedStore
  latest : after.latestTrustedBlock = before.latestTrustedBlock
  saved : after.saved = before.saved

theorem SameTrust.of_chain {before after : Client} (chain : ReflTransGen SameTrust before after) :
    SameTrust before after := by
  induction chain with
  | refl => exact ⟨rfl, rfl, rfl⟩
  | tail _ step ih =>
    exact ⟨step.store.trans ih.store, step.latest.trans ih.latest, step.saved.trans ih.saved⟩

/-- From every state the program leaves alone what is trusted, and what it returns
satisfies `returned`. -/
def Keeps {α : Type} (program : Act Client α) (returned : α → Prop) : Prop :=
  ∀ c, Yields SameTrust program c (fun value _ => returned value) fun _ => True

namespace Keeps

variable {α β : Type} {returned : α → Prop}

variable {program : Act Client α} {next : β → Act Client α}

theorem weaken {weaker : α → Prop} (keeps : Keeps program returned)
    (value : ∀ value, returned value → weaker value) : Keeps program weaker := fun c =>
  (keeps c).weaken (fun given _ holds => value given holds) fun _ holds => holds

theorem pure (value : α) (holds : returned value) : Keeps (Pure.pure value) returned := fun _ =>
  Yields.pure value holds

theorem raise (text : String) : Keeps (Act.raise text : Act Client α) returned := fun _ =>
  Yields.raise text trivial

theorem bind {first : Act Client β} {middle : β → Prop} (head : Keeps first middle)
    (rest : ∀ value, middle value → Keeps (next value) returned) :
    Keeps (first >>= next) returned := fun c =>
  Yields.bind (head c) fun value state _ holds => rest value holds state

theorem get {next : Client → Act Client α} (rest : ∀ c, Keeps (next c) returned) :
    Keeps (Act.get >>= next) returned := fun c =>
  Yields.get (rest c c)

theorem modify {change : Client → Client} {next : Unit → Act Client α}
    (same : ∀ c, SameTrust c (change c)) (rest : Keeps (next ()) returned) :
    Keeps (Act.modify change >>= next) returned := fun c =>
  Yields.modify_bind (.single (same c)) (rest _)

theorem lift {result : Panics β}
    (rest : ∀ value, result = .ok value → Keeps (next value) returned) :
    Keeps (Act.lift result >>= next) returned := fun c =>
  Yields.lift_bind (fun value same => rest value same c) trivial

theorem run (keeps : Keeps program returned) (c : Client) :
    SameTrust c (program c).2 ∧ ∀ value, (program c).1 = .ok value → returned value :=
  ⟨.of_chain (keeps c).chain, (keeps c).value⟩

end Keeps

theorem ask_keeps : Keeps ask fun _ => True :=
  Keeps.get fun _ => Keeps.modify (fun _ => ⟨rfl, rfl, rfl⟩) (Keeps.pure _ trivial)

theorem remove_witnesses_keeps {indexes : List Nat} :
    Keeps (removeWitnesses indexes) fun _ => True := by
  refine Keeps.get fun c => ?_
  split
  · exact Keeps.pure _ trivial
  · exact Keeps.lift fun _ _ => Keeps.modify (fun _ => ⟨rfl, rfl, rfl⟩) (Keeps.pure _ trivial)

theorem promote_keeps {remove : Bool} {witnessIndex : Nat} {witnessesToRemove : List Nat}
    {block : LightBlock} :
    Keeps (promote remove witnessIndex witnessesToRemove block) fun _ => True := by
  refine Keeps.modify (fun _ => ⟨rfl, rfl, rfl⟩) (Keeps.get fun c => ?_)
  split
  · exact Keeps.raise _
  · refine Keeps.modify (fun _ => ⟨rfl, rfl, rfl⟩) ?_
    refine Keeps.bind (remove_witnesses_keeps) fun error _ => ?_
    cases error <;> exact Keeps.pure _ trivial

theorem process_responses_keeps (remove : Bool) (left : Nat)
    (responses : List (Nat × Except ProviderError LightBlock)) (witnessesToRemove : List Nat)
    (lastError : Option ProviderError) :
    Keeps (processResponses remove left responses witnessesToRemove lastError) fun _ => True := by
  induction left generalizing responses witnessesToRemove lastError with
  | zero =>
    cases lastError with
    | none => exact Keeps.raise _
    | some _ => exact Keeps.pure _ trivial
  | succ left ih =>
    match responses with
    | [] => exact Keeps.raise _
    | (witnessIndex, answer) :: rest =>
      unfold processResponses
      split
      · exact promote_keeps
      · exact Keeps.pure _ trivial
      · exact Keeps.pure _ trivial
      all_goals exact ih _ _ _

theorem process_comparisons_keeps (conflict : LightBlock → Nat → Option ClientError) (left : Nat)
    (results : List Comparison) (headerMatched : Bool) (witnessesToRemove : List Nat) :
    Keeps (processComparisons conflict left results headerMatched witnessesToRemove)
      fun _ => True := by
  induction left generalizing results headerMatched witnessesToRemove with
  | zero =>
    refine Keeps.bind (remove_witnesses_keeps) fun error _ => ?_
    cases error <;> exact Keeps.pure _ trivial
  | succ left ih =>
  match results with
  | [] => exact Keeps.raise _
  | result :: rest =>
    unfold processComparisons
    split
    · exact ih _ _ _
    · split
      · exact Keeps.pure _ trivial
      · exact ih _ _ _
    · exact ih _ _ _
    · exact Keeps.pure _ trivial
    · exact Keeps.pure _ trivial
    · exact ih _ _ _

section Forward

variable (env : Env) (world : World)

variable {height : Int} {untrusted : LightBlock}

theorem get_light_block_keeps {source : Provider} :
    Keeps (getLightBlock world source height) fun _ => True :=
  Keeps.bind ask_keeps fun _ _ => Keeps.pure _ trivial

theorem find_new_primary_keeps {remove : Bool} :
    Keeps (findNewPrimary world height remove) fun _ => True := by
  refine Keeps.get fun c => ?_
  split
  · exact Keeps.pure _ trivial
  · exact Keeps.bind ask_keeps fun _ _ => process_responses_keeps _ _ _ _ _

theorem light_block_from_primary_keeps (height : Int) :
    Keeps (lightBlockFromPrimary world height) fun _ => True := by
  refine Keeps.get fun c => Keeps.bind (get_light_block_keeps world) fun answer _ => ?_
  split
  · exact Keeps.pure _ trivial
  · exact Keeps.pure _ trivial
  · exact Keeps.pure _ trivial
  all_goals exact find_new_primary_keeps world

theorem interim_light_block_keeps (newLightBlock : LightBlock) (height : Int) :
    Keeps (interimLightBlock world newLightBlock height)
      fun fetched => height = newLightBlock.height → fetched = .ok newLightBlock := by
  unfold interimLightBlock
  split
  · exact Keeps.pure _ fun _ => rfl
  · rename_i other
    exact (light_block_from_primary_keeps world height).weaken fun _ _ same => absurd same other

theorem detect_divergence_keeps (trace : List LightBlock) :
    Keeps (detectDivergence world trace) fun error => error = none → 2 ≤ trace.length := by
  unfold detectDivergence
  split
  · exact Keeps.pure _ (by simp)
  split
  · exact Keeps.pure _ (by simp)
  · rename_i _ long
    refine Keeps.get fun c => ?_
    split
    · exact Keeps.pure _ (by simp)
    · refine Keeps.bind ask_keeps fun _ _ => ?_
      exact (process_comparisons_keeps _ _ _ _ _).weaken fun _ _ _ => by omega

/-- A block follows another by one successful verification at this time. -/
def Link (now : Time) (trusted untrusted : LightBlock) : Prop :=
  verifyLink env trusted untrusted now = .ok none

/-- A trace of successful verifications from one block to another. -/
structure Trace (now : Time) (trusted last : LightBlock) (trace : List LightBlock) : Prop where
  start : trace.head? = some trusted
  finish : trace.getLast? = some last
  links : trace.IsChain (Link env now)

variable {env} in
theorem Trace.single (now : Time) (trusted : LightBlock) :
    Trace env now trusted trusted [trusted] :=
  ⟨rfl, rfl, .singleton _⟩

variable {env} in
theorem Trace.extend {now : Time} {trusted last : LightBlock} {trace : List LightBlock}
    (traced : Trace env now trusted last trace) (next : LightBlock)
    (link : Link env now last next) :
    Trace env now trusted next (trace ++ [next]) := by
  refine ⟨?_, by simp, ?_⟩
  · rw [head?_append, traced.start]
    rfl
  · refine isChain_append.mpr ⟨traced.links, .singleton _, ?_⟩
    intro previous isLast following isNext
    rw [traced.finish] at isLast
    cases isLast
    cases isNext
    exact link

variable {trusted : LightBlock} {now : Time} {c : Client}

theorem adjacent_link (accepted : verifyAdjacentLink env trusted untrusted now = .ok none) :
    Link env now trusted untrusted ∧ untrusted.height = trusted.height + 1 := by
  have adjacent := (adjacent_checks accepted).1
  refine ⟨?_, adjacent⟩
  unfold Link verifyLink verify
  rw [if_neg (not_not.mpr adjacent)]
  exact accepted

/-- The block was reached from the trusted one: the trace ends in a block with the
same hash and has at least one link. -/
structure Reaches (now : Time) (trusted block : LightBlock) (trace : List LightBlock) : Prop where
  traced : ∃ last, last.hash env.hashing = block.hash env.hashing ∧ Trace env now trusted last trace
  linked : 2 ≤ trace.length

-- The next height is one more than that of the verified block, which is the new
-- block as soon as the loop has reached its height.
theorem sequential_loop_keeps (newLightBlock trustedBlock : LightBlock) (now : Time) (fuel : Nat)
    (height : Int) (verifiedBlock : LightBlock) (trace : List LightBlock)
    (traced : Trace env now trustedBlock verifiedBlock trace)
    (next : height = verifiedBlock.height + 1)
    (reaches : verifiedBlock = trustedBlock ∧ trace = [trustedBlock] ∨
      verifiedBlock.height < newLightBlock.height ∨ verifiedBlock = newLightBlock) :
    Keeps (sequentialLoop env world newLightBlock now fuel height verifiedBlock trace)
      fun result => ∀ found, result = .ok found → 2 ≤ found.length →
        Trace env now trustedBlock newLightBlock found := by
  induction fuel generalizing height verifiedBlock trace with
  | zero => exact Keeps.raise _
  | succ fuel ih =>
  unfold sequentialLoop
  split
  · rename_i past
    refine Keeps.pure _ ?_
    intro found same long
    cases same
    rcases reaches with ⟨_, rfl⟩ | below | rfl
    · simp at long
    · omega
    · exact traced
  refine Keeps.bind (interim_light_block_keeps world newLightBlock height) fun answer target => ?_
  split
  · exact Keeps.pure _ (by simp)
  refine Keeps.lift fun outcome verified => ?_
  split
  · obtain ⟨link, adjacent⟩ := adjacent_link env verified
    refine ih _ _ _ (traced.extend _ link) (by omega) (Or.inr ?_)
    by_cases last : height = newLightBlock.height
    · exact Or.inr (Except.ok.inj (target last))
    · exact Or.inl (by omega)
  · split
    · split
      · exact Keeps.pure _ (by simp)
      · refine Keeps.bind (find_new_primary_keeps world) fun replaced _ => ?_
        split
        · exact Keeps.pure _ (by simp)
        · split
          · exact Keeps.pure _ (by simp)
          · exact ih _ _ _ traced next reaches
    · exact Keeps.pure _ (by simp)

theorem verify_sequential_keeps (fuel : Nat) (trustedBlock newLightBlock : LightBlock)
    (now : Time) :
    Keeps (verifySequential env world fuel trustedBlock newLightBlock now)
      fun result => ∀ trace, result = .ok trace →
        Reaches env now trustedBlock newLightBlock trace := by
  refine Keeps.bind (sequential_loop_keeps env world newLightBlock trustedBlock now fuel _ _ _
    (.single now trustedBlock) rfl (Or.inl ⟨rfl, rfl⟩)) fun outcome looped => ?_
  split
  · exact Keeps.pure _ (by simp)
  · rename_i trace
    refine Keeps.bind (detect_divergence_keeps world trace) fun error long => ?_
    split
    · exact Keeps.pure _ (by simp)
    · refine Keeps.pure _ ?_
      intro found same
      cases same
      exact ⟨⟨_, rfl, looped trace rfl (long rfl)⟩, long rfl⟩

-- The new block stays at the head of the cache, so it is what depth 0 verifies.
theorem skipping_loop_keeps (source : Provider) (newLightBlock trustedBlock : LightBlock)
    (now : Time) (fuel : Nat) (blockCache : List LightBlock) (depth : Nat)
    (verifiedBlock : LightBlock) (trace : List LightBlock)
    (traced : Trace env now trustedBlock verifiedBlock trace)
    (highest : blockCache[0]? = some newLightBlock) :
    Keeps (skippingLoop env world source newLightBlock now fuel blockCache depth verifiedBlock
      trace) fun result => ∀ found, result = .ok found →
        Trace env now trustedBlock newLightBlock found ∧ 2 ≤ found.length := by
  induction fuel generalizing blockCache depth verifiedBlock trace with
  | zero => exact Keeps.raise _
  | succ fuel ih =>
  unfold skippingLoop
  split
  · exact Keeps.raise _
  rename_i candidate present
  refine Keeps.lift fun outcome verified => ?_
  split
  · split
    · rename_i top
      refine Keeps.pure _ ?_
      intro found same
      cases same
      subst top
      cases Option.some.inj (highest.symm.trans present)
      refine ⟨traced.extend _ verified, ?_⟩
      have nonempty : trace ≠ [] := by
        intro empty
        simpa [empty] using traced.start
      have := length_pos_of_ne_nil nonempty
      simp
      omega
    · rename_i deeper
      refine ih _ _ _ _ (traced.extend _ verified) ?_
      rw [getElem?_take_of_lt (Nat.pos_of_ne_zero deeper)]
      exact highest
  · split
    · refine Keeps.bind (get_light_block_keeps world) fun answer _ => ?_
      split
      · exact Keeps.pure _ (by simp)
      · refine ih _ _ _ _ traced ?_
        rw [getElem?_append_left (List.getElem?_eq_some_iff.mp highest).1]
        exact highest
    · exact ih _ _ _ _ traced highest
  · exact Keeps.pure _ (by simp)

theorem verify_skipping_against_primary_keeps (fuel : Nat)
    (trustedBlock newLightBlock : LightBlock) (now : Time) :
    Keeps (verifySkippingAgainstPrimary env world trustedBlock now fuel newLightBlock)
      fun result => ∀ trace, result = .ok trace →
        Reaches env now trustedBlock newLightBlock trace := by
  induction fuel generalizing newLightBlock with
  | zero => exact Keeps.raise _
  | succ fuel ih =>
  refine Keeps.get fun c => Keeps.bind (skipping_loop_keeps env world c.primary newLightBlock
    trustedBlock now fuel _ 0 _ _ (.single now trustedBlock) rfl) fun outcome looped => ?_
  split
  · rename_i trace
    refine Keeps.bind (detect_divergence_keeps world trace) fun error _ => ?_
    split
    · exact Keeps.pure _ (by simp)
    · refine Keeps.pure _ ?_
      intro found same
      cases same
      exact ⟨⟨_, rfl, (looped trace rfl).1⟩, (looped trace rfl).2⟩
  · split
    · exact Keeps.pure _ (by simp)
    · refine Keeps.bind (find_new_primary_keeps world) fun replaced _ => ?_
      split
      · exact Keeps.pure _ (by simp)
      · split
        · exact Keeps.pure _ (by simp)
        · rename_i replacementBlock same
          refine (ih replacementBlock).weaken fun result reached trace found => ?_
          obtain ⟨⟨last, hash, traced⟩, linked⟩ := reached trace found
          exact ⟨⟨last, hash.trans (not_not.mp same), traced⟩, linked⟩
  · exact Keeps.pure _ (by simp)

theorem verify_func_keeps (fuel : Nat) (trustedBlock newLightBlock : LightBlock) (now : Time) :
    Keeps (verifyFunc env world fuel trustedBlock newLightBlock now)
      fun result => ∀ trace, result = .ok trace →
        Reaches env now trustedBlock newLightBlock trace := by
  unfold verifyFunc
  split
  · exact verify_sequential_keeps env world fuel trustedBlock newLightBlock now
  · exact verify_skipping_against_primary_keeps env world fuel trustedBlock newLightBlock now

theorem backwards_keeps (fuel : Nat) (verifiedHeader newHeader : Header) :
    Keeps (backwards env world fuel verifiedHeader newHeader) fun _ => True := by
  induction fuel generalizing verifiedHeader newHeader with
  | zero => exact Keeps.raise _
  | succ fuel ih =>
  unfold backwards
  split
  · exact Keeps.pure _ trivial
  refine Keeps.bind (light_block_from_primary_keeps world _) fun answer _ => ?_
  split
  · exact Keeps.pure _ trivial
  split
  · exact ih _ _
  · refine Keeps.bind (find_new_primary_keeps world) fun replaced _ => ?_
    split
    · exact Keeps.pure _ trivial
    · split
      · exact Keeps.pure _ trivial
      · exact ih _ _

/-- A block saved by forward verification was reached from one of these blocks. -/
def Justified (trusted : List LightBlock) (entry : Saved) : Prop :=
  match entry.origin with
  | .forward start trace now => start ∈ trusted ∧ Reaches env now start entry.block trace
  | .backwards _ => True

/-- Everything trusted was in the store at first or was saved, and what was saved
is justified by what was trusted before. -/
structure Built (first : List LightBlock) (c : Client) : Prop where
  stored : ∀ block ∈ c.trustedStore.blocks, block ∈ first ++ c.saved.map Saved.block
  latest : ∀ block, c.latestTrustedBlock = some block → block ∈ first ++ c.saved.map Saved.block
  history : ∀ before entry after, c.saved = before ++ entry :: after →
    Justified env (first ++ before.map Saved.block) entry

variable {env world} {first : List LightBlock}

theorem Built.same {next : Client} (built : Built env first c) (same : SameTrust c next) :
    Built env first next := by
  constructor
  · rw [same.store, same.saved]
    exact built.stored
  · rw [same.latest, same.saved]
    exact built.latest
  · rw [same.saved]
    exact built.history

theorem Built.restored (primary : Provider) (witnesses : List Provider) (store : Store) :
    Built env store.blocks (Client.restore primary witnesses store) := by
  constructor
  · intro block member
    simpa [Client.restore] using member
  · intro block last
    simpa [Client.restore] using mem_of_getLast? last
  · intro before entry after split
    simp [Client.restore] at split

theorem Built.save (built : Built env first c) (block : LightBlock) (origin : Origin)
    (justified : Justified env (first ++ c.saved.map Saved.block) ⟨block, origin⟩) :
    Built env first (updateTrustedLightBlock env block origin c).2 := by
  cases saving : c.trustedStore.saveLightBlock block with
  | error text => simpa [updateTrustedLightBlock, saving] using built
  | ok store =>
  have kept : ∀ other ∈ store.blocks,
      other ∈ first ++ (c.saved ++ [(⟨block, origin⟩ : Saved)]).map Saved.block := by
    intro other member
    rcases Store.mem_save saving member with rfl | old
    · simp
    · have := built.stored other old
      simp only [map_append, mem_append] at this ⊢
      tauto
  simp only [updateTrustedLightBlock, Act.get_bind, saving, Act.lift_ok_bind, Act.modify_run]
  constructor
  · intro other member
    split at member
    · exact kept other (Store.mem_prune member)
    · exact kept other member
  · intro other latest
    simp only at latest
    split at latest
    · cases latest
      simp
    · have := built.latest other latest
      simp only [map_append, mem_append] at this ⊢
      tauto
  · intro before entry after split
    rcases eq_nil_or_concat after with rfl | ⟨init, last, rfl⟩
    · obtain ⟨rfl, same⟩ := append_inj' split rfl
      cases same
      exact justified
    · refine built.history before entry init ?_
      rw [concat_eq_append, ← cons_append, ← append_assoc] at split
      exact (append_inj' split rfl).1

def Leaves {α : Type} (env : Env) (first : List LightBlock) (program : Act Client α) (c : Client) :
    Prop :=
  Built env first (program c).2

def Maintains {α : Type} (env : Env) (first : List LightBlock) (program : Act Client α) : Prop :=
  ∀ c, Built env first c → Leaves env first program c

theorem verify_forward_built (built : Built env first c) (fuel : Nat)
    (trustedBlock newLightBlock : LightBlock) (now : Time)
    (known : trustedBlock ∈ first ++ c.saved.map Saved.block) :
    Leaves env first (verifyForward env world fuel trustedBlock newLightBlock now) c := by
  unfold Leaves
  obtain ⟨same, reached⟩ := (verify_func_keeps env world fuel trustedBlock newLightBlock now).run c
  have after := built.same same
  cases ran : verifyFunc env world fuel trustedBlock newLightBlock now c with
  | mk outcome next =>
    simp only [ran] at same reached after
    rw [← same.saved] at known
    match outcome with
    | .error text => simpa [verifyForward, Act.bind_run, ran] using after
    | .ok (.error error) => simpa [verifyForward, Act.bind_run, ran] using after
    | .ok (.ok trace) =>
      have saved := after.save newLightBlock (.forward trustedBlock trace now)
        ⟨known, reached _ rfl trace rfl⟩
      cases updated : updateTrustedLightBlock env newLightBlock
          (.forward trustedBlock trace now) next with
      | mk result final =>
        cases result <;> simpa [verifyForward, Act.bind_run, ran, updated] using saved

namespace Maintains

variable {α β : Type}

variable {program : Act Client α}

theorem of_keeps {returned : α → Prop} (keeps : Keeps program returned) :
    Maintains env first program := fun c built =>
  built.same (keeps.run c).1

theorem bind {next : α → Act Client β} (head : Maintains env first program)
    (rest : ∀ value, Maintains env first (next value)) :
    Maintains env first (program >>= next) := by
  intro c built
  have after : Built env first (program c).2 := head c built
  cases ran : program c with
  | mk outcome final =>
    rw [ran] at after
    cases outcome with
    | ok value => simpa [Leaves, Act.bind_run, ran] using rest value final after
    | error text => simpa [Leaves, Act.bind_run, ran] using after

theorem get {next : Client → Act Client α}
    (rest : ∀ c, Built env first c → Leaves env first (next c) c) :
    Maintains env first (Act.get >>= next) := rest

theorem pure (value : α) : Maintains env first (Pure.pure value) := fun _ built => built

theorem lift (result : Panics α) : Maintains env first (Act.lift result) := fun _ built => built

end Maintains

theorem verify_light_block_maintains (fuel : Nat) {newLightBlock : LightBlock} (now : Time) :
    Maintains env first (verifyLightBlock env world fuel newLightBlock now) := by
  refine Maintains.get fun c built => ?_
  split
  · exact built
  rename_i latest isLatest
  split
  · exact verify_forward_built built fuel latest newLightBlock now (built.latest latest isLatest)
  dsimp only
  split
  · refine Maintains.bind (.lift _) (fun found => ?_) c built
    split
    · exact Maintains.pure _
    refine Maintains.bind (.of_keeps (backwards_keeps env world fuel _ _)) fun error => ?_
    split
    · exact Maintains.pure _
    · exact Maintains.bind (fun _ kept => kept.save _ _ trivial) fun _ => Maintains.pure _
  · cases found : c.trustedStore.lightBlockBefore newLightBlock.height with
    | error text => exact built
    | ok closest =>
      cases closest with
      | none => exact built
      | some closestBlock =>
        exact verify_forward_built built fuel closestBlock newLightBlock now
          (built.stored closestBlock (Store.light_block_before_mem found))

theorem update_maintains (fuel : Nat) (now : Time) :
    Maintains env first (update env world fuel now) := by
  refine Maintains.get fun c built => ?_
  dsimp only
  split
  · exact built
  refine Maintains.bind (.of_keeps (light_block_from_primary_keeps world 0)) (fun answer => ?_)
    c built
  split
  · exact Maintains.pure _
  split
  · refine Maintains.bind (verify_light_block_maintains fuel now) fun error => ?_
    cases error <;> exact Maintains.pure _
  · exact Maintains.pure _

theorem verify_light_block_at_height_maintains (fuel : Nat) (height : Int) (now : Time) :
    Maintains env first (verifyLightBlockAtHeight env world fuel height now) := by
  unfold verifyLightBlockAtHeight
  split
  · exact Maintains.pure _
  refine Maintains.get fun c built => ?_
  refine Maintains.bind (.lift _) (fun found => ?_) c built
  split
  · exact Maintains.pure _
  refine Maintains.bind (.of_keeps (light_block_from_primary_keeps world height)) fun answer => ?_
  split
  · exact Maintains.pure _
  · refine Maintains.bind (verify_light_block_maintains fuel now) fun error => ?_
    cases error <;> exact Maintains.pure _

theorem verify_header_maintains (fuel : Nat) (newHeader : Header) (now : Time) :
    Maintains env first (verifyHeader env world fuel newHeader now) := by
  unfold verifyHeader
  split
  · exact Maintains.pure _
  refine Maintains.get fun c built => ?_
  refine Maintains.bind (.lift _) (fun found => ?_) c built
  split
  · split <;> exact Maintains.pure _
  refine Maintains.bind (.of_keeps (light_block_from_primary_keeps world _)) fun answer => ?_
  split
  · exact Maintains.pure _
  split
  · exact Maintains.pure _
  · exact verify_light_block_maintains fuel now

theorem perform_maintains (fuel : Nat) (operation : Operation) :
    Maintains env first (perform env world fuel operation) := by
  cases operation with
  | update now => exact (update_maintains fuel now).bind fun _ => Maintains.pure _
  | verifyLightBlockAtHeight height now =>
    exact (verify_light_block_at_height_maintains fuel height now).bind fun _ => Maintains.pure _
  | verifyHeader newHeader now =>
    exact (verify_header_maintains fuel newHeader now).bind fun _ => Maintains.pure _
  | addProvider provider => exact fun c built => built.same ⟨rfl, rfl, rfl⟩
  | cleanup =>
    intro c built
    constructor
    · exact fun block member => built.stored block (Store.mem_prune member)
    · intro block impossible
      cases impossible
    · exact built.history

theorem run_operations_maintains (operations : List (Nat × Operation)) :
    Maintains env first (runOperations env world operations) := by
  induction operations with
  | nil => exact Maintains.pure _
  | cons head rest ih => exact (perform_maintains head.1 head.2).bind fun _ => ih

/-- The blocks that the links of a trace start from are not expired. -/
def Unexpired (env : Env) (now : Time) (trace : List LightBlock) : Prop :=
  ∀ trusted ∈ trace.dropLast,
    headerExpired trusted.signedHeader env.config.trustingPeriod now = false

theorem link_fresh (link : Link env now trusted untrusted) :
    headerExpired untrusted.signedHeader env.config.trustingPeriod now = false :=
  (verify_follows link).fresh

theorem verified_fresh {first : LightBlock} {rest : List LightBlock}
    (links : (first :: rest).IsChain (Link env now)) (block : LightBlock) (member : block ∈ rest) :
    headerExpired block.signedHeader env.config.trustingPeriod now = false := by
  induction rest generalizing first with
  | nil => simp at member
  | cons second rest ih =>
  obtain ⟨link, later⟩ := isChain_cons_cons.mp links
  rcases mem_cons.mp member with rfl | deeper
  · exact link_fresh link
  · exact ih later deeper

theorem trace_unexpired_iff {last : LightBlock} {trace : List LightBlock}
    (traced : Trace env now trusted last trace) (linked : 2 ≤ trace.length) :
    Unexpired env now trace ↔
      headerExpired trusted.signedHeader env.config.trustingPeriod now = false := by
  obtain ⟨start, _, links⟩ := traced
  match trace with
  | [] => simp at linked
  | [_] => simp at linked
  | first :: second :: rest =>
    cases start
    constructor
    · intro all
      exact all _ (mem_cons_self ..)
    · intro fresh block member
      rcases mem_cons.mp member with rfl | later
      · exact fresh
      · -- Every later block of the trace was itself verified at this time.
        exact verified_fresh links block (mem_of_mem_dropLast later)

/-- A block saved by forward verification is reached from a trusted block, and the
headers that its verification was built on were all within the trusting period
exactly when the trusted block was. -/
theorem forward_verification_unexpired_iff (env : Env) (world : World) (primary : Provider)
    (witnesses : List Provider) (store : Store) (operations : List (Nat × Operation))
    (before after : List Saved) (block trusted : LightBlock) (trace : List LightBlock) (now : Time)
    (saved : (runOperations env world operations (Client.restore primary witnesses store)).2.saved =
      before ++ ⟨block, .forward trusted trace now⟩ :: after) :
    trusted ∈ store.blocks ++ before.map Saved.block ∧
      Reaches env now trusted block trace ∧
      (Unexpired env now trace ↔
        headerExpired trusted.signedHeader env.config.trustingPeriod now = false) := by
  have built : Built env store.blocks
      (runOperations env world operations (Client.restore primary witnesses store)).2 :=
    run_operations_maintains operations _ (Built.restored primary witnesses store)
  obtain ⟨known, reached⟩ := built.history before _ after saved
  obtain ⟨last, _, traced⟩ := reached.traced
  exact ⟨known, reached, trace_unexpired_iff traced reached.linked⟩

end Forward

section Expired

def soleSigner : Validator := ⟨List.replicate 20 7, ⟨.ed25519, List.replicate 20 7⟩, 10, 0⟩

def soleSet : ValidatorSet := ⟨[soleSigner], some soleSigner, 10⟩

def zeroHash : Bytes := List.replicate 32 0

def soleHeader (height : Int) (time : Time) : Header where
  version := ⟨blockProtocol, 0⟩
  chainID := [99]
  height := height
  time := time
  lastBlockID := .zero
  lastCommitHash := zeroHash
  dataHash := zeroHash
  validatorsHash := zeroHash
  nextValidatorsHash := zeroHash
  consensusHash := zeroHash
  appHash := []
  lastResultsHash := zeroHash
  evidenceHash := zeroHash
  proposerAddress := soleSigner.address

def soleBlock (height : Int) (time : Time) : LightBlock where
  signedHeader := ⟨soleHeader height time, ⟨height, 0, ⟨zeroHash, ⟨1, zeroHash⟩⟩,
    [⟨.commit, soleSigner.address, time, [1]⟩]⟩⟩
  validatorSet := soleSet

def soleEnv : Env where
  crypto := .acceptAll
  hashing := ⟨fun _ => zeroHash⟩
  config := ⟨500, .skipping, ⟨1, 3⟩, 10, 1000⟩

def soleWorld : World where
  lightBlock _ _ _ := .ok (soleBlock 2 1900)
  responses _ _ := []
  comparisons _ _ := [.matched]
  conflict _ _ _ _ := none

def soleRun (time : Time) : Client :=
  (runOperations soleEnv soleWorld [(5, .update 2000)]
    (Client.restore 0 [1] ⟨[soleBlock 1 time], 1⟩)).2

theorem sole_run_saved_late : (soleRun 1000).saved =
    [⟨soleBlock 2 1900,
      .forward (soleBlock 1 1000) [soleBlock 1 1000, soleBlock 2 1900] 2000⟩] := by
  decide +kernel

theorem sole_run_saved : (soleRun 1800).saved =
    [⟨soleBlock 2 1900,
      .forward (soleBlock 1 1800) [soleBlock 1 1800, soleBlock 2 1900] 2000⟩] := by
  decide +kernel

/-- The trusted block expired at 1500 ns, and at 2000 ns the client builds on it. -/
theorem expired_header_is_built_on :
    (soleRun 1000).saved =
      [⟨soleBlock 2 1900, .forward (soleBlock 1 1000) [soleBlock 1 1000, soleBlock 2 1900] 2000⟩] ∧
    headerExpired (soleBlock 1 1000).signedHeader soleEnv.config.trustingPeriod 2000 = true ∧
    ¬ Unexpired soleEnv 2000 [soleBlock 1 1000, soleBlock 2 1900] := by
  refine ⟨sole_run_saved_late, by decide, ?_⟩
  intro all
  have fresh := all (soleBlock 1 1000) (by simp)
  exact absurd fresh (by decide)

theorem fresh_header_is_built_on :
    (soleRun 1800).saved =
      [⟨soleBlock 2 1900, .forward (soleBlock 1 1800) [soleBlock 1 1800, soleBlock 2 1900] 2000⟩] ∧
    Unexpired soleEnv 2000 [soleBlock 1 1800, soleBlock 2 1900] :=
  ⟨sole_run_saved,
    (forward_verification_unexpired_iff soleEnv soleWorld 0 [1] _ _ [] [] _ _ _ _
      sole_run_saved).2.2.mpr (by decide)⟩

end Expired

end Tendermint.Light
