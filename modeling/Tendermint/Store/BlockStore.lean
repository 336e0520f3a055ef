import Tendermint.Lib.Database
import Tendermint.Types.Proto

/-!
internal/store/store.go: the store of blocks. The encoding of the keys keeps
their order and is injective, so the keys are ordered by their prefix and then by
their parts; the values stand for their encodings, which are checked when they
are loaded. The database does not fail. Only saving a block and loading commits are
modelled.
-/

namespace Tendermint.BlockStore

open Types
open Merkle (Hashing)
open Database (Write)

inductive Key where
  | blockMeta (height : Int)
  | blockPart (height partIndex : Int)
  | blockCommit (height : Int)
  | seenCommit
  | blockHash (hash : Bytes)
  deriving DecidableEq

/-- The prefix and the parts of an encoded key. -/
def Key.code : Key → ℕ ×ₗ ℤ ×ₗ ℤ ×ₗ List ℕ
  | .blockMeta height => toLex (0, toLex (height, toLex (0, [])))
  | .blockPart height partIndex => toLex (1, toLex (height, toLex (partIndex, [])))
  | .blockCommit height => toLex (2, toLex (height, toLex (0, [])))
  | .seenCommit => toLex (3, toLex (0, toLex (0, [])))
  | .blockHash hash => toLex (4, toLex (0, toLex (0, hash.map UInt8.toNat)))

theorem Key.code_injective : Function.Injective Key.code := by
  have bytes : Function.Injective (List.map UInt8.toNat) :=
    List.map_injective_iff.mpr fun _ _ same => UInt8.toNat_inj.mp same
  intro key other same
  cases key <;> cases other <;> simp_all [Key.code, EmbeddingLike.apply_eq_iff_eq, bytes.eq_iff]

instance : LinearOrder Key := LinearOrder.lift' Key.code Key.code_injective

inductive Value where
  | blockMeta (blockMeta : BlockMeta)
  | part (part : Part)
  | commit (commit : Commit)
  | height (height : Int)
  deriving DecidableEq

abbrev Db := List (Key × Value)

structure Env where
  hashing : Hashing
  /-- proto.Unmarshal and BlockFromProto -/
  unmarshalBlock : Bytes → Except String Block

def metas (db : Db) : Db := Database.range db (.blockMeta 1) (.blockMeta maxInt64)

def heightOf : Option (Key × Value) → Int
  | some (.blockMeta height, _) => height
  | _ => 0

def base (db : Db) : Int := heightOf (metas db).head?

def height (db : Db) : Int := heightOf (metas db).getLast?

section

variable (env : Env) (db : Db)

def loadCommit (key : Key) : Panics (Option Commit) :=
  match Database.get db key with
  | none => .ok none
  | some (.commit commit) =>
    match commit.decodeFault with
    | some text => .error ("Error reading block commit: " ++ text)
    | none => .ok (some commit)
  | some _ => .error "error reading block commit"

def loadBlockCommit (height : Int) : Panics (Option Commit) := loadCommit db (.blockCommit height)

def loadSeenCommit : Panics (Option Commit) := loadCommit db .seenCommit

end

structure Saved where
  block : Block
  blockParts : PartSet
  seenCommit : Commit
  deriving DecidableEq

def Saved.height (saved : Saved) : Int := saved.block.header.height

def saveBlockPart (height : Int) (parts : PartSet) (index : Nat) : Panics (Write Key Value) :=
  match parts.parts[index]? with
  | none => .error "index out of range"
  | some none => .error "unable to make part into proto: nil part"
  | some (some part) => .ok (.set (.blockPart height index) (.part part))

def saveBlock (env : Env) (db : Db) (saved : Saved) : Panics Db := do
  let height := saved.height
  let parts := saved.blockParts
  if 0 < base db ∧ height ≠ BlockStore.height db + 1 then
    throw "BlockStore can only save contiguous blocks"
  if ¬parts.isComplete then throw "BlockStore can only save complete block part sets"
  let partWrites ← (List.range parts.total).mapM (saveBlockPart height parts)
  pure (Database.write db (partWrites ++
    [.set (.blockMeta height) (.blockMeta (.new env.hashing saved.block parts)),
      .set (.blockHash (saved.block.hash env.hashing)) (.height height),
      .set (.blockCommit (height - 1)) (.commit saved.block.lastCommit),
      .set .seenCommit (.commit saved.seenCommit)]))

end Tendermint.BlockStore
