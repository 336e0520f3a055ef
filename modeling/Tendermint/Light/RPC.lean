import Tendermint.State.Validation
import Tendermint.Types.Light

/-!
light/rpc/client.go: the RPC client that verifies what a full node answers. A response is
checked against the trusted header of the height that the response itself names. What the
client was asked for takes no part in the checks of Block, BlockByHash, HeaderByHash, Tx and
ABCIQueryWithOptions. The methods that only pass an answer on are left out.
-/

namespace Tendermint.Merkle

open List
open Types (Bytes)

/-- Aunts of any origin that lead to the root of the tree, for whatever position and total they
claim, prove one of the items: every step down meets the two halves of a node. -/
theorem aunts_member {hashing : Hashing} (sized : hashing.Sized) (leaf : Bytes)
    (aunts : List Bytes) (index total : Nat) {fuel : Nat} {items : List Bytes}
    (enough : items.length ≤ fuel)
    (binding : ∀ input ∈ hashedWithin hashing fuel items, ∀ other,
      hashing.sum other = hashing.sum input → other = input)
    (computed : Proof.computeHashFromAunts hashing (hashing.leafHash leaf) aunts index total =
      some (hashWithin hashing fuel items)) : leaf ∈ items := by
  induction aunts generalizing index total fuel items with
  | nil =>
    unfold Proof.computeHashFromAunts at computed
    split at computed
    case isFalse => cases computed
    case isTrue =>
      obtain ⟨top, hashed, root, shape⟩ := root_hashed hashing enough
      have same : 0 :: leaf = top :=
        binding top hashed (0 :: leaf) ((Option.some.inj computed).trans root.symm)
      rcases shape with ⟨_, rfl⟩ | ⟨item, rfl, rfl⟩ | ⟨_, inner⟩
      · cases same
      · cases same
        exact mem_singleton_self leaf
      · rw [← same] at inner
        cases inner
  | cons sibling lower ih =>
    obtain ⟨top, hashed, root, shape⟩ := root_hashed hashing enough
    unfold Proof.computeHashFromAunts at computed
    dsimp only at computed
    split at computed
    case isTrue => cases computed
    case isFalse =>
    -- the string hashed at the top is that of an inner node
    have node : ∀ halves : Bytes, hashing.sum (1 :: halves) = hashWithin hashing fuel items →
        ∃ below, items.length ≤ below + 1 ∧ 1 < items.length ∧
          halves = hashWithin hashing below (items.take (getSplitPoint items.length)) ++
            hashWithin hashing below (items.drop (getSplitPoint items.length)) ∧
          ∀ input ∈ hashedWithin hashing below (items.take (getSplitPoint items.length)) ++
              hashedWithin hashing below (items.drop (getSplitPoint items.length)), ∀ other,
            hashing.sum other = hashing.sum input → other = input := by
      intro halves same
      have top_eq : 1 :: halves = top := binding top hashed (1 :: halves) (same.trans root.symm)
      have many : 1 < items.length := by
        rcases shape with ⟨_, rfl⟩ | ⟨item, _, rfl⟩ | ⟨many, _⟩
        · cases top_eq
        · cases top_eq
        · exact many
      obtain ⟨below, rfl⟩ : ∃ below, fuel = below + 1 := ⟨fuel - 1, by omega⟩
      rw [hash_within_split hashing below many] at same
      rw [hashed_within_split hashing below many] at binding
      exact ⟨below, enough, many,
        (List.cons.inj (binding _ mem_cons_self (1 :: halves) same)).2,
        fun input member => binding input (mem_cons_of_mem _ member)⟩
    split at computed
    case isTrue =>
      obtain ⟨left, lower_eq, same⟩ := Option.map_eq_some_iff.mp computed
      obtain ⟨below, shorter, many, halves, bound⟩ := node _ same
      have bounds := split_point_bounds many
      have size := computed_hash_length hashing sized lower_eq
      have parts := append_inj halves (size.trans (hash_within_length sized below _).symm)
      rw [parts.1] at lower_eq
      exact mem_of_mem_take (@ih _ _ below _ (by rw [length_take]; omega)
        (fun input member => bound input (mem_append_left _ member)) lower_eq)
    case isFalse =>
      obtain ⟨right, lower_eq, same⟩ := Option.map_eq_some_iff.mp computed
      obtain ⟨below, shorter, many, halves, bound⟩ := node _ same
      have bounds := split_point_bounds many
      have size := computed_hash_length hashing sized lower_eq
      have parts := append_inj' halves (size.trans (hash_within_length sized below _).symm)
      rw [parts.2] at lower_eq
      exact mem_of_mem_drop (@ih _ _ below _ (by rw [length_drop]; omega)
        (fun input member => bound input (mem_append_right _ member)) lower_eq)

theorem verify_member (hashing : Hashing) (sized : hashing.Sized) (items : List Bytes)
    (binding : hashing.Binding items) (proof : Proof) (leaf : Bytes)
    (verified : proof.verify hashing (hashFromByteSlices hashing items) leaf = none) :
    leaf ∈ items :=
  aunts_member sized leaf _ _ _ (Nat.le_refl _) binding
    (verify_computed hashing (hash_within_nonempty hashing sized _ _) verified).2

end Tendermint.Merkle

namespace Tendermint.Types

open List
open Merkle (Hashing)

theorem Block.Decoded.data_hash {hashing : Hashing} {evidenceBasic : Bytes → Option String}
    {block : Block} (decoded : block.Decoded hashing evidenceBasic) :
    block.header.dataHash = txsHash hashing block.txs := by
  have valid := decoded.valid
  simp only [Block.validateBasic, Commit.hash_eq hashing _ decoded.signatures, bind_eq,
    pure_eq] at valid
  split at valid
  · cases valid
  split at valid
  · cases valid
  split at valid
  · cases valid
  split at valid
  · cases valid
  rename_i data
  exact (not_not.mp data).symm

theorem eq_of_hashes_eq {hashing : Hashing} {txs others : List Bytes}
    (apart : ∀ tx ∈ txs, ∀ other ∈ others, hashing.sum tx = hashing.sum other → tx = other)
    (same : txs.map hashing.sum = others.map hashing.sum) : txs = others := by
  induction txs generalizing others with
  | nil => exact (map_eq_nil_iff.mp same.symm).symm
  | cons tx txs ih =>
  cases others with
  | nil => cases same
  | cons other others =>
  have parts := List.cons.inj same
  have first := apart tx mem_cons_self other mem_cons_self parts.1
  have rest := ih (fun one member two otherMember => apart one
    (mem_cons_of_mem _ member) two (mem_cons_of_mem _ otherMember)) parts.2
  rw [first, rest]

structure TxProof where
  rootHash : Bytes
  data : Bytes
  proof : Merkle.Proof
  deriving DecidableEq, Repr

def TxProof.leaf (hashing : Hashing) (proof : TxProof) : Bytes := hashing.sum proof.data

def TxProof.validate (hashing : Hashing) (proof : TxProof) (dataHash : Bytes) : Option String :=
  if dataHash ≠ proof.rootHash then some "proof matches different data hash"
  else if proof.proof.index < 0 then some "proof index cannot be negative"
  else if proof.proof.total ≤ 0 then some "proof total must be positive"
  else if (proof.proof.verify hashing proof.rootHash (proof.leaf hashing)).isSome then
    some "proof is not internally consistent"
  else none

theorem TxProof.validate_member (hashing : Hashing) (sized : hashing.Sized) (proof : TxProof)
    (txs : List Bytes) (binding : hashing.Binding (txs.map hashing.sum))
    (injective : ∀ tx ∈ txs, hashing.sum proof.data = hashing.sum tx → proof.data = tx)
    (valid : proof.validate hashing (txsHash hashing txs) = none) : proof.data ∈ txs := by
  unfold validate at valid
  split at valid
  · cases valid
  rename_i root
  split at valid
  · cases valid
  split at valid
  · cases valid
  split at valid
  · cases valid
  rename_i verified
  rw [Option.not_isSome_iff_eq_none, ← not_not.mp root] at verified
  have member := Merkle.verify_member hashing sized _ binding _ _ verified
  obtain ⟨tx, inside, same⟩ := mem_map.mp member
  rw [injective tx inside same.symm]
  exact inside

end Tendermint.Types

namespace Tendermint.Light.RPC

open Types
open Merkle (Hashing)

structure ResultBlock where
  blockID : BlockID
  block : Option Block
  deriving DecidableEq, Repr

structure ResultTx where
  height : Int
  tx : Bytes
  proof : TxProof
  deriving DecidableEq, Repr

structure ProofOp where
  type : String
  key : Bytes
  data : Bytes
  deriving DecidableEq, Repr

structure ResponseQuery where
  code : Nat
  key : Bytes
  value : Option Bytes
  proofOps : List ProofOp
  height : Int
  deriving DecidableEq, Repr

inductive ClientError where
  | node (text : String)
  | latestHeight (text : String)
  | lightClient (text : String)
  | blockID (text : String)
  | nilBlock
  | block (error : BlockError)
  | blockIDMismatch (blockID block : Bytes)
  | untrustedBlock (block trusted : Bytes)
  | header (text : String)
  | untrustedHeader (trusted primary : Bytes)
  | zeroOrNegativeHeight
  | txProof (text : String)
  | responseCode (code : Nat)
  | emptyKey
  | noProofOps
  | noKeyPathFn
  | keyPath (text : String)
  | valueProof (text : String)
  | absenceProof (text : String)
  deriving DecidableEq, Repr

structure Node where
  latestBlockHeight : Except String Int
  abciQueryWithOptions : String → Bytes → Int → Except String ResponseQuery
  block : Option Int → Except String ResultBlock
  blockByHash : Bytes → Except String ResultBlock
  headerByHash : Bytes → Except String (Option Header)
  tx : Bytes → Bool → Except String ResultTx

/-- The proof runtime and the key path function are parameters, as in the source. -/
structure Client where
  hashing : Hashing
  evidenceBasic : Bytes → Option String
  next : Node
  verifyLightBlockAtHeight : Int → Except String LightBlock
  keyPathFn : Option (String → Bytes → Except String String)
  verifyValue : List ProofOp → Bytes → String → Bytes → Option String
  verifyAbsence : List ProofOp → Bytes → String → Option String

namespace Client

def verifyBlock (client : Client) (res : ResultBlock) : Panics (Except ClientError ResultBlock) :=
  match res.blockID.validateBasic with
  | some text => .ok (.error (.blockID text))
  | none =>
    match res.block with
    | none => .ok (.error .nilBlock)
    | some block => do
      match ← block.validateBasic client.hashing client.evidenceBasic with
      | some error => pure (.error (.block error))
      | none =>
        if res.blockID.hash ≠ block.hash client.hashing then
          pure (.error (.blockIDMismatch res.blockID.hash (block.hash client.hashing)))
        else
          match client.verifyLightBlockAtHeight block.header.height with
          | .error text => pure (.error (.lightClient text))
          | .ok light =>
            if block.hash client.hashing ≠ light.hash client.hashing then
              pure (.error (.untrustedBlock (block.hash client.hashing)
                (light.hash client.hashing)))
            else pure (.ok res)

def block (client : Client) (height : Option Int) : Panics (Except ClientError ResultBlock) :=
  match client.next.block height with
  | .error text => .ok (.error (.node text))
  | .ok res => client.verifyBlock res

def blockByHash (client : Client) (hash : Bytes) : Panics (Except ClientError ResultBlock) :=
  match client.next.blockByHash hash with
  | .error text => .ok (.error (.node text))
  | .ok res => client.verifyBlock res

/-- A nil header is dereferenced by its ValidateBasic. -/
def headerByHash (client : Client) (hash : Bytes) : Panics (Except ClientError Header) :=
  match client.next.headerByHash hash with
  | .error text => .ok (.error (.node text))
  | .ok none => .error "invalid memory address or nil pointer dereference"
  | .ok (some header) =>
    match header.validateBasic with
    | some text => .ok (.error (.header text))
    | none =>
      match client.verifyLightBlockAtHeight header.height with
      | .error text => .ok (.error (.lightClient text))
      | .ok light =>
        if light.hash client.hashing ≠ header.hash client.hashing then
          .ok (.error (.untrustedHeader (light.hash client.hashing) (header.hash client.hashing)))
        else .ok (.ok header)

def tx (client : Client) (hash : Bytes) (prove : Bool) : Except ClientError ResultTx :=
  match client.next.tx hash prove with
  | .error text => .error (.node text)
  | .ok res =>
    if !prove then .ok res
    else if res.height ≤ 0 then .error .zeroOrNegativeHeight
    else
      match client.verifyLightBlockAtHeight res.height with
      | .error text => .error (.lightClient text)
      | .ok light =>
        match res.proof.validate client.hashing light.header.dataHash with
        | some text => .error (.txProof text)
        | none => .ok res

/-- The checks of a query response. The app hash of a height is in the header of the next. -/
def verifyQuery (client : Client) (path : String) (resp : ResponseQuery) :
    Except ClientError ResponseQuery := do
  if resp.code ≠ 0 then throw (.responseCode resp.code)
  if resp.key.isEmpty then throw .emptyKey
  if resp.proofOps.isEmpty then throw .noProofOps
  if resp.height ≤ 0 then throw .zeroOrNegativeHeight
  let light ← (client.verifyLightBlockAtHeight (int64 (resp.height + 1))).mapError .lightClient
  let some keyPathFn := client.keyPathFn | throw .noKeyPathFn
  let keyPath ← (keyPathFn path resp.key).mapError .keyPath
  match resp.value with
  | some value =>
    if let some text := client.verifyValue resp.proofOps light.header.appHash keyPath value then
      throw (.valueProof text)
  | none =>
    if let some text := client.verifyAbsence resp.proofOps light.header.appHash keyPath then
      throw (.absenceProof text)
  pure resp

def abciQueryWithOptions (client : Client) (path : String) (data : Bytes) (height : Int) :
    Except ClientError ResponseQuery := do
  let height ←
    if height = 0 then
      let latest ← client.next.latestBlockHeight.mapError .latestHeight
      pure (int64 (latest - 1))
    else pure height
  let resp ← (client.next.abciQueryWithOptions path data height).mapError .node
  client.verifyQuery path resp

end Client

/-- The canonical blocks are valid, and each is at its own height. -/
structure Canonical (hashing : Hashing) (evidenceBasic : Bytes → Option String)
    (chain : Int → Option Block) : Prop where
  height : ∀ height block, chain height = some block → block.header.height = height
  decoded : ∀ height block, chain height = some block → block.Decoded hashing evidenceBasic
  present : ∀ height block, chain height = some block → block.header.validatorsHash ≠ []

def Client.Trusts (client : Client) (chain : Int → Option Block) : Prop :=
  ∀ height light, client.verifyLightBlockAtHeight height = .ok light →
    ∃ block, chain height = some block ∧ light.header = block.header

/-- A request with the answer that a method returned for it. -/
inductive Exchange where
  | block (height : Int) (res : ResultBlock)
  | blockByHash (hash : Bytes) (res : ResultBlock)
  | headerByHash (hash : Bytes) (header : Header)
  | tx (hash : Bytes) (res : ResultTx)
  | abciQuery (path : String) (data : Bytes) (height : Int) (resp : ResponseQuery)

namespace Exchange

def Succeeds (client : Client) : Exchange → Prop
  | block height res => client.block (some height) = .ok (.ok res)
  | blockByHash hash res => client.blockByHash hash = .ok (.ok res)
  | headerByHash hash header => client.headerByHash hash = .ok (.ok header)
  | tx hash res => client.tx hash true = .ok res
  | abciQuery path data height resp =>
    0 < height ∧ client.abciQueryWithOptions path data height = .ok resp

def About (hashing : Hashing) (chain : Int → Option Block) : Exchange → Prop
  | block height res => ∃ given, res.block = some given ∧ chain height = some given
  | blockByHash hash res => ∃ given, res.block = some given ∧ given.hash hashing = hash
  | headerByHash hash header => header.hash hashing = hash
  | tx hash res => hashing.sum res.tx = hash ∧
    ∃ canonical, chain res.height = some canonical ∧ res.tx ∈ canonical.txs
  | abciQuery _ data height resp => resp.height = height ∧ resp.key = data

/-- What the node sends names what was asked, and what the hashes leave open is as in the chain:
the fields of the last commit beside its signatures, and a transaction that the proof is not
for. -/
def Named (next : Node) (hashing : Hashing) (chain : Int → Option Block) : Exchange → Prop
  | block height _ => ∀ sent given, next.block (some height) = .ok sent →
    sent.block = some given → given.header.height = height ∧
      ∀ canonical, chain height = some canonical →
        given.lastCommit.height = canonical.lastCommit.height ∧
        given.lastCommit.round = canonical.lastCommit.round ∧
        given.lastCommit.blockID = canonical.lastCommit.blockID
  | blockByHash hash _ => ∀ sent, next.blockByHash hash = .ok sent → sent.blockID.hash = hash
  | headerByHash hash _ => ∀ sent canonical, next.headerByHash hash = .ok (some sent) →
    chain sent.height = some canonical → canonical.hash hashing = hash
  | tx hash _ => ∀ sent, next.tx hash true = .ok sent →
    hashing.sum sent.tx = hash ∧ (sent.tx ≠ sent.proof.data →
      ∃ canonical, chain sent.height = some canonical ∧ sent.tx ∈ canonical.txs)
  | abciQuery path data height _ => ∀ sent,
    next.abciQueryWithOptions path data height = .ok sent → sent.height = height ∧ sent.key = data

/-- The answer is a value of its Go type, and nothing in it has the hash of something else in
the canonical block. -/
def Distinct (hashing : Hashing) (chain : Int → Option Block) : Exchange → Prop
  | block _ res => ∀ given canonical, res.block = some given →
    chain given.header.height = some canonical →
      given.header.Typed ∧ (∀ sig ∈ given.lastCommit.signatures, sig.Typed) ∧
      canonical.Apart hashing given ∧
      hashing.Apart (canonical.txs.map hashing.sum) (given.txs.map hashing.sum) ∧
      ∀ tx ∈ canonical.txs, ∀ other ∈ given.txs, hashing.sum tx = hashing.sum other → tx = other
  | tx _ res => ∀ canonical, chain res.height = some canonical →
    hashing.Binding (canonical.txs.map hashing.sum) ∧
      ∀ tx ∈ canonical.txs, hashing.sum res.proof.data = hashing.sum tx → res.proof.data = tx
  | _ => True

end Exchange

section Answers

variable {client : Client}

variable {res : ResultBlock} {hash : Bytes}

theorem verify_block_ok {returned : ResultBlock}
    (verified : client.verifyBlock res = .ok (.ok returned)) :
    returned = res ∧ ∃ given light, res.block = some given ∧
      given.validateBasic client.hashing client.evidenceBasic = .ok none ∧
      res.blockID.hash = given.hash client.hashing ∧
      client.verifyLightBlockAtHeight given.header.height = .ok light ∧
      given.hash client.hashing = light.hash client.hashing := by
  unfold Client.verifyBlock at verified
  split at verified
  · cases verified
  split at verified
  · cases verified
  rename_i given found
  cases valid : given.validateBasic client.hashing client.evidenceBasic with
  | error text =>
    rw [valid] at verified
    cases verified
  | ok outcome =>
  rw [valid] at verified
  cases outcome with
  | some error => cases verified
  | none =>
  split at verified
  · cases verified
  rename_i named
  split at verified
  · cases verified
  rename_i light trusted
  split at verified
  · cases verified
  rename_i same
  cases verified
  exact ⟨rfl, given, light, found, valid, not_not.mp named, trusted, not_not.mp same⟩

theorem block_ok {height : Option Int} (succeeds : client.block height = .ok (.ok res)) :
    client.next.block height = .ok res ∧ client.verifyBlock res = .ok (.ok res) := by
  unfold Client.block at succeeds
  split at succeeds
  · cases succeeds
  · rename_i sent
    obtain ⟨rfl, _⟩ := verify_block_ok succeeds
    exact ⟨sent, succeeds⟩

theorem block_by_hash_ok (succeeds : client.blockByHash hash = .ok (.ok res)) :
    client.next.blockByHash hash = .ok res ∧ client.verifyBlock res = .ok (.ok res) := by
  unfold Client.blockByHash at succeeds
  split at succeeds
  · cases succeeds
  · rename_i sent
    obtain ⟨rfl, _⟩ := verify_block_ok succeeds
    exact ⟨sent, succeeds⟩

theorem header_by_hash_ok {header : Header}
    (succeeds : client.headerByHash hash = .ok (.ok header)) :
    client.next.headerByHash hash = .ok (some header) ∧
      ∃ light, client.verifyLightBlockAtHeight header.height = .ok light ∧
        light.hash client.hashing = header.hash client.hashing := by
  unfold Client.headerByHash at succeeds
  split at succeeds
  · cases succeeds
  · cases succeeds
  rename_i sent
  split at succeeds
  · cases succeeds
  split at succeeds
  · cases succeeds
  rename_i light trusted
  split at succeeds
  · cases succeeds
  rename_i same
  cases succeeds
  exact ⟨sent, light, trusted, not_not.mp same⟩

theorem tx_ok {res : ResultTx} (succeeds : client.tx hash true = .ok res) :
    client.next.tx hash true = .ok res ∧
      ∃ light, client.verifyLightBlockAtHeight res.height = .ok light ∧
        res.proof.validate client.hashing light.header.dataHash = none := by
  unfold Client.tx at succeeds
  split at succeeds
  · cases succeeds
  rename_i sent
  simp only [Bool.not_true, Bool.false_eq_true, if_false] at succeeds
  split at succeeds
  · cases succeeds
  split at succeeds
  · cases succeeds
  rename_i light trusted
  split at succeeds
  · cases succeeds
  rename_i valid
  cases succeeds
  exact ⟨sent, light, trusted, valid⟩

theorem verify_query_ok {path : String} {sent resp : ResponseQuery}
    (verified : client.verifyQuery path sent = .ok resp) : resp = sent := by
  simp only [Client.verifyQuery, bind_eq, pure_eq, throw_eq] at verified
  split at verified
  · cases verified
  split at verified
  · cases verified
  split at verified
  · cases verified
  split at verified
  · cases verified
  split at verified
  · cases verified
  split at verified
  case h_2 => cases verified
  split at verified
  · cases verified
  split at verified <;> split at verified <;> cases verified <;> rfl

theorem abci_query_ok {path : String} {data : Bytes} {height : Int} {resp : ResponseQuery}
    (named : height ≠ 0)
    (succeeds : client.abciQueryWithOptions path data height = .ok resp) :
    client.next.abciQueryWithOptions path data height = .ok resp := by
  simp only [Client.abciQueryWithOptions, if_neg named, bind_eq, pure_eq] at succeeds
  cases answer : client.next.abciQueryWithOptions path data height with
  | error text =>
    rw [answer] at succeeds
    cases succeeds
  | ok sent =>
    rw [answer] at succeeds
    rw [verify_query_ok succeeds]

variable {chain : Int → Option Block}

section

variable (sized : client.hashing.Sized)
  (canonical : Canonical client.hashing client.evidenceBasic chain) (trusts : client.Trusts chain)

include sized canonical trusts

/-- A block that passes is the canonical block of the height it names, up to the fields of the
last commit that no hash covers. -/
theorem verified_block_content {res : ResultBlock}
    (distinct : (Exchange.block 0 res).Distinct client.hashing chain)
    (verified : client.verifyBlock res = .ok (.ok res)) :
    ∃ given block, res.block = some given ∧ chain given.header.height = some block ∧
      given.header = block.header ∧ given.txs = block.txs ∧ given.evidence = block.evidence ∧
      given.lastCommit.signatures = block.lastCommit.signatures := by
  obtain ⟨_, given, light, found, valid, _, trusted, same⟩ := verify_block_ok verified
  obtain ⟨block, listed, header⟩ := trusts _ light trusted
  obtain ⟨typed, signatures, apart, txsApart, txs⟩ := distinct given block found listed
  have decoded := canonical.decoded _ block listed
  have givenDecoded : given.Decoded client.hashing client.evidenceBasic :=
    ⟨valid, typed, signatures⟩
  have hash : block.hash client.hashing = given.hash client.hashing := by
    rw [same, LightBlock.hash, header]
    rfl
  obtain ⟨headers, evidence, sigs⟩ := same_hash_same_content sized decoded givenDecoded apart
    (canonical.present _ block listed) hash
  refine ⟨given, block, found, listed, headers.symm, ?_, evidence.symm, sigs.symm⟩
  have data : txsHash client.hashing block.txs = txsHash client.hashing given.txs := by
    rw [← decoded.data_hash, ← givenDecoded.data_hash, headers]
  have hashes := Merkle.hash_from_byte_slices_injective client.hashing sized txsApart data
  exact (eq_of_hashes_eq txs hashes).symm

theorem block_about_iff {height : Int} {res : ResultBlock}
    (distinct : (Exchange.block height res).Distinct client.hashing chain)
    (succeeds : (Exchange.block height res).Succeeds client) :
    (Exchange.block height res).About client.hashing chain ↔
      (Exchange.block height res).Named client.next client.hashing chain := by
  obtain ⟨answer, verified⟩ := block_ok succeeds
  obtain ⟨given, block, found, listed, header, txs, evidence, signatures⟩ :=
    verified_block_content sized canonical trusts distinct verified
  constructor
  · rintro ⟨other, same, asked⟩ sent copy again present
    cases answer.symm.trans again
    cases same.symm.trans present
    refine ⟨canonical.height _ other asked, fun listed again => ?_⟩
    cases asked.symm.trans again
    exact ⟨rfl, rfl, rfl⟩
  · intro named
    obtain ⟨rfl, agrees⟩ := named res given answer found
    have commit : given.lastCommit = block.lastCommit := by
      cases first : given.lastCommit
      simp_all
    refine ⟨given, found, ?_⟩
    cases given
    cases block
    simp_all

theorem tx_about_iff {hash : Bytes} {res : ResultTx}
    (distinct : (Exchange.tx hash res).Distinct client.hashing chain)
    (succeeds : (Exchange.tx hash res).Succeeds client) :
    (Exchange.tx hash res).About client.hashing chain ↔
      (Exchange.tx hash res).Named client.next client.hashing chain := by
  obtain ⟨answer, light, trusted, valid⟩ := tx_ok succeeds
  obtain ⟨block, listed, header⟩ := trusts _ light trusted
  obtain ⟨binding, injective⟩ := distinct block listed
  rw [header, (canonical.decoded _ block listed).data_hash] at valid
  have proved := res.proof.validate_member client.hashing sized block.txs binding injective valid
  constructor
  · rintro ⟨asked, inside⟩ sent again
    cases answer.symm.trans again
    exact ⟨asked, fun _ => inside⟩
  · intro named
    obtain ⟨asked, otherwise⟩ := named res answer
    by_cases same : res.tx = res.proof.data
    · exact ⟨asked, block, listed, same ▸ proved⟩
    · exact ⟨asked, otherwise same⟩

end

/-- An answer that the client returns is about what was asked exactly when the node's answer
names what was asked: the client does not compare the two. -/
theorem answer_about_request_iff (client : Client) (chain : Int → Option Block)
    (sized : client.hashing.Sized)
    (canonical : Canonical client.hashing client.evidenceBasic chain)
    (trusts : client.Trusts chain) (exchange : Exchange)
    (distinct : exchange.Distinct client.hashing chain)
    (succeeds : exchange.Succeeds client) :
    exchange.About client.hashing chain ↔ exchange.Named client.next client.hashing chain := by
  cases exchange with
  | block height res =>
    exact block_about_iff sized canonical trusts distinct succeeds
  | blockByHash hash res =>
    obtain ⟨answer, verified⟩ := block_by_hash_ok succeeds
    obtain ⟨_, given, _, found, _, named, _⟩ := verify_block_ok verified
    constructor
    · rintro ⟨other, same, asked⟩ sent again
      cases answer.symm.trans again
      cases found.symm.trans same
      exact named.trans asked
    · intro asked
      exact ⟨given, found, named.symm.trans (asked res answer)⟩
  | headerByHash hash header =>
    obtain ⟨answer, light, trusted, same⟩ := header_by_hash_ok succeeds
    obtain ⟨block, listed, headers⟩ := trusts _ light trusted
    have hashes : block.hash client.hashing = header.hash client.hashing := by
      rw [← same, LightBlock.hash, headers]
      rfl
    constructor
    · intro asked sent other again present
      cases answer.symm.trans again
      cases listed.symm.trans present
      exact hashes.trans asked
    · intro asked
      exact hashes.symm.trans (asked header block answer listed)
  | tx hash res => exact tx_about_iff sized canonical trusts distinct succeeds
  | abciQuery path data height resp =>
    have answer := abci_query_ok succeeds.1.ne' succeeds.2
    constructor
    · intro asked sent again
      cases answer.symm.trans again
      exact asked
    · intro named
      exact named resp answer

end Answers

section Replayed

open SM (valueHash value_hash_sized sharedBlock sharedBlockID sharedHeader sharedCommit
  sharedSet sharedEnv shared_block_decoded shared_block_apart shared_header_typed)

def replayedBlock : ResultBlock :=
  ⟨⟨sharedHeader.hash valueHash, ⟨1, List.replicate 32 4⟩⟩, some (sharedBlock sharedBlockID)⟩

def replayedQuery : ResponseQuery := ⟨0, [1], some [2], [⟨"", [1], []⟩], 1⟩

def replayingNode : Node where
  latestBlockHeight := .ok 3
  abciQueryWithOptions _ _ _ := .ok replayedQuery
  block _ := .ok replayedBlock
  blockByHash _ := .ok replayedBlock
  headerByHash _ := .ok (some sharedHeader)
  tx _ _ := .error "not found"

def replayedChain (height : Int) : Option Block :=
  if height = 2 then some (sharedBlock sharedBlockID) else none

def replayedClient : Client where
  hashing := valueHash
  evidenceBasic := sharedEnv.evidenceBasic
  next := replayingNode
  verifyLightBlockAtHeight height :=
    if height = 2 then .ok ⟨⟨sharedHeader, sharedCommit sharedBlockID⟩, sharedSet⟩
    else .error "height not found"
  keyPathFn := some fun _ _ => .ok ""
  verifyValue _ _ _ _ := none
  verifyAbsence _ _ _ := none

theorem replayed_block_decoded :
    (sharedBlock sharedBlockID).Decoded valueHash sharedEnv.evidenceBasic :=
  shared_block_decoded _ (by decide +kernel)

theorem replayed_chain_some {height : Int} {block : Block}
    (listed : replayedChain height = some block) :
    height = 2 ∧ block = sharedBlock sharedBlockID := by
  unfold replayedChain at listed
  split at listed
  · exact ⟨by assumption, (Option.some.inj listed).symm⟩
  · cases listed

theorem replayed_canonical :
    Canonical replayedClient.hashing replayedClient.evidenceBasic replayedChain where
  height := by
    intro height block listed
    obtain ⟨rfl, rfl⟩ := replayed_chain_some listed
    rfl
  decoded := by
    intro height block listed
    obtain ⟨rfl, rfl⟩ := replayed_chain_some listed
    exact replayed_block_decoded
  present := by
    intro height block listed
    obtain ⟨rfl, rfl⟩ := replayed_chain_some listed
    decide +kernel

theorem replayed_trusts : replayedClient.Trusts replayedChain := by
  intro height light trusted
  unfold replayedClient at trusted
  dsimp only at trusted
  split at trusted
  · rename_i two
    subst two
    cases trusted
    exact ⟨sharedBlock sharedBlockID, rfl, rfl⟩
  · cases trusted

theorem replayed_succeeds (height : Int) :
    (Exchange.block height replayedBlock).Succeeds replayedClient := by
  change replayedClient.verifyBlock replayedBlock = .ok (.ok replayedBlock)
  decide +kernel

/-- Asked for the block of height 1, for a header by its hash and for a key at height 5, the
client returns what it verified for height 2. -/
theorem unasked_answers_returned :
    ((Exchange.block 1 replayedBlock).Succeeds replayedClient ∧
      ¬ (Exchange.block 1 replayedBlock).About valueHash replayedChain) ∧
    ((Exchange.headerByHash (List.replicate 32 9) sharedHeader).Succeeds replayedClient ∧
      ¬ (Exchange.headerByHash (List.replicate 32 9) sharedHeader).About valueHash replayedChain) ∧
    (Exchange.abciQuery "" [9] 5 replayedQuery).Succeeds replayedClient ∧
      ¬ (Exchange.abciQuery "" [9] 5 replayedQuery).About valueHash replayedChain := by
  refine ⟨⟨replayed_succeeds 1, ?_⟩, ⟨?_, ?_⟩, ⟨?_, ?_⟩, ?_⟩
  · rintro ⟨given, _, listed⟩
    cases listed
  · change replayedClient.headerByHash (List.replicate 32 9) = .ok (.ok sharedHeader)
    decide +kernel
  · change sharedHeader.hash valueHash ≠ List.replicate 32 9
    decide +kernel
  · decide
  · rfl
  · rintro ⟨height, _⟩
    cases height

theorem asked_block_returned :
    (Exchange.block 2 replayedBlock).About valueHash replayedChain := by
  refine (answer_about_request_iff replayedClient replayedChain value_hash_sized
    replayed_canonical replayed_trusts (.block 2 replayedBlock) ?_ (replayed_succeeds 2)).mpr ?_
  · intro given canonical found listed
    obtain ⟨_, rfl⟩ := replayed_chain_some listed
    cases Option.some.inj found
    refine ⟨shared_header_typed, replayed_block_decoded.signatures, shared_block_apart _ _, ?_, ?_⟩
    · change valueHash.Apart [] []
      decide
    · intro tx member
      cases member
  · intro sent given answer found
    cases answer
    cases Option.some.inj found
    refine ⟨rfl, fun canonical listed => ?_⟩
    obtain ⟨_, rfl⟩ := replayed_chain_some listed
    exact ⟨rfl, rfl, rfl⟩

end Replayed

end Tendermint.Light.RPC
