import Mathlib.Algebra.GroupWithZero.Nat
import Mathlib.Data.List.Basic
import BitcoinIndexer.Core.ReferenceChain

/-!
# Blocks and transactions

What the indexer is given: blocks with their height and hash, and the parts of a
transaction it stores.  `txid`, `weight` and the address payload of a script are
computed by the `bitcoin` crate; they are carried as data of the transaction.
Heights, indices and satoshi amounts are natural numbers.
-/

namespace BitcoinIndexer.Types

open BitcoinIndexer.ReferenceChain

abbrev BlockHeight := ℕ

/-- A double SHA-256 hash in its internal byte order. -/
structure Sha256dHash where
  inner : List UInt8
  size : inner.length = 32
  deriving DecidableEq

abbrev BlockHash := Sha256dHash
abbrev Txid := Sha256dHash

/-- The leading bytes of a hash, used as a key in the tables. -/
abbrev HashId := List UInt8

def sqlHashIdSize : ℕ := 16

def hashToHashId (hash : Sha256dHash) : HashId :=
  hash.inner.take sqlHashIdSize

def hashRest (hash : Sha256dHash) : List UInt8 :=
  hash.inner.drop sqlHashIdSize

/-- `BlockHash::from_slice` on the two parts; `none` where it would panic. -/
def hashIdAndRestToHash (id rest : List UInt8) : Option BlockHash :=
  if h : (id ++ rest).length = 32 then some ⟨id ++ rest, h⟩ else none

@[simp]
theorem hashIdAndRestToHash_parts (hash : Sha256dHash) :
    hashIdAndRestToHash (hashToHashId hash) (hashRest hash) = some hash := by
  have happend : hashToHashId hash ++ hashRest hash = hash.inner :=
    List.take_append_drop _ _
  simp [hashIdAndRestToHash, happend, hash.size]

inductive Network where
  | bitcoin
  | testnet
  | regtest
  deriving DecidableEq

/-- An address payload recognised in a script, as the `bitcoin` crate prints it. -/
abbrev Payload := String

structure Address where
  payload : Payload
  network : Network
  deriving DecidableEq

/-- A script, with the payload `Payload::from_script` finds in it. -/
structure Script where
  payload : Option Payload
  deriving DecidableEq

def addressFromScript (script : Script) (network : Network) : Option Address :=
  script.payload.map fun payload => ⟨payload, network⟩

structure OutPoint where
  txid : Txid
  vout : ℕ
  deriving DecidableEq

/-- The bitcoin crate's outpoint of a coinbase input: the zero hash and `u32::MAX`. -/
def OutPoint.isNull (point : OutPoint) : Bool :=
  point.txid.inner = List.replicate 32 0 ∧ point.vout = 2 ^ 32 - 1

structure TxIn where
  previousOutput : OutPoint
  witness : List (List UInt8)
  deriving DecidableEq

structure TxOut where
  value : ℕ
  scriptPubkey : Script
  deriving DecidableEq

structure Transaction where
  txid : Txid
  weight : ℕ
  lockTime : ℕ
  input : List TxIn
  output : List TxOut
  deriving DecidableEq

/-- The bitcoin crate's `is_coin_base`: the only input spends the null outpoint. -/
def Transaction.isCoinBase (tx : Transaction) : Bool :=
  match tx.input with
  | [input] => input.previousOutput.isNull
  | _ => false

structure BlockHeader where
  prevBlockhash : BlockHash
  merkleRoot : Sha256dHash
  time : ℕ
  deriving DecidableEq

structure Block where
  header : BlockHeader
  txdata : List Transaction
  deriving DecidableEq

structure BlockData where
  height : BlockHeight
  id : BlockHash
  data : Block
  deriving DecidableEq

instance : Link BlockData BlockHash where
  height := BlockData.height
  ident := BlockData.id
  prev := fun block => block.data.header.prevBlockhash

@[simp]
theorem link_height (block : BlockData) : Link.height block = block.height := rfl

@[simp]
theorem link_ident (block : BlockData) : Link.ident block = block.id := rfl

@[simp]
theorem link_prev (block : BlockData) :
    Link.prev block = block.data.header.prevBlockhash := rfl

def BlockData.hashId (block : BlockData) : HashId :=
  hashToHashId block.id

/-- The hash whose displayed form is `hex`: its bytes are in reverse order. -/
def hashOfDisplayed (hex : List UInt8) (h : hex.length = 32) : Sha256dHash :=
  ⟨hex.reverse, by simpa using h⟩

def duplicatedCoinbase91842 : Txid :=
  hashOfDisplayed
    [0xd5, 0xd2, 0x79, 0x87, 0xd2, 0xa3, 0xdf, 0xc7, 0x24, 0xe3, 0x59, 0x87, 0x0c, 0x66, 0x44,
      0xb4, 0x0e, 0x49, 0x7b, 0xdc, 0x05, 0x89, 0xa0, 0x33, 0x22, 0x0f, 0xe1, 0x54, 0x29, 0xd8,
      0x85, 0xa0] rfl

def duplicatedCoinbase91880 : Txid :=
  hashOfDisplayed
    [0xe3, 0xbf, 0x3d, 0x07, 0xd4, 0xb0, 0x37, 0x56, 0x38, 0xd5, 0xf1, 0xdb, 0x52, 0x55, 0xfe,
      0x07, 0xba, 0x2c, 0x4c, 0xb0, 0x67, 0xcd, 0x81, 0xb8, 0x4e, 0xe9, 0x74, 0xb6, 0x58, 0x5f,
      0xb4, 0x69] rfl

/-- Two coinbases occur twice in the main chain; the second one of each pair is
indexed under a made-up id. -/
def calculateTxIdWithWorkarounds (block : BlockData) (tx : Transaction) (network : Network) :
    Txid :=
  if network ≠ .bitcoin then tx.txid
  else if block.height = 91842 ∧ tx.isCoinBase then duplicatedCoinbase91842
  else if block.height = 91880 ∧ tx.isCoinBase then duplicatedCoinbase91880
  else tx.txid

/-- The transactions of a block under the ids the indexer gives them. -/
def BlockData.txs (block : BlockData) (network : Network) : List (Txid × Transaction) :=
  block.data.txdata.map fun tx => (calculateTxIdWithWorkarounds block tx network, tx)

/-! ## The blocks of concrete runs -/

/-- A hash with the given first byte. -/
def hashStarting (byte : UInt8) : Sha256dHash := ⟨byte :: List.replicate 31 0, by simp⟩

def blockWith (height : BlockHeight) (id prev : UInt8) (txs : List Transaction) : BlockData :=
  ⟨height, hashStarting id, ⟨⟨hashStarting prev, hashStarting 0, 0⟩, txs⟩⟩

def blockAt (height : BlockHeight) (id prev : UInt8) : BlockData := blockWith height id prev []

end BitcoinIndexer.Types
