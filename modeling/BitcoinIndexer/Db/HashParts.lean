import Mathlib.Data.List.Induction
import Mathlib.Data.Nat.Notation
import BitcoinIndexer.Types

/-!
# Hashes in two parts

A hash is stored as its first bytes and the rest, both written as hexadecimal literals.  The
database puts the parts together again and displays them in reverse order: its reversal swaps
the outermost two bytes, then the next two, up to the middle.
-/

namespace BitcoinIndexer.HashParts

open BitcoinIndexer.Types

/-! ## Hexadecimal literals -/

/-- `encode_hex`: two lower-case digits for each byte. -/
def encodeHex (bytes : List UInt8) : List Char :=
  bytes.flatMap fun byte => [Nat.digitChar (byte.toNat / 16), Nat.digitChar (byte.toNat % 16)]

def hexValue (digit : Char) : Option ℕ :=
  if '0' ≤ digit ∧ digit ≤ '9' then some (digit.toNat - '0'.toNat)
  else if 'a' ≤ digit ∧ digit ≤ 'f' then some (digit.toNat - 'a'.toNat + 10)
  else if 'A' ≤ digit ∧ digit ≤ 'F' then some (digit.toNat - 'A'.toNat + 10)
  else none

/-- The bytes of the literal `'\x..'::bytea`. -/
def byteaIn : List Char → Option (List UInt8)
  | [] => some []
  | [_] => none
  | high :: low :: digits =>
      match hexValue high, hexValue low, byteaIn digits with
      | some high, some low, some bytes => some (UInt8.ofNat (16 * high + low) :: bytes)
      | _, _, _ => none

def writeHashIdHex (hash : Sha256dHash) : List Char := encodeHex (hash.inner.take sqlHashIdSize)

def writeHashRestHex (hash : Sha256dHash) : List Char := encodeHex (hash.inner.drop sqlHashIdSize)

theorem hexValue_digitChar : ∀ value < 16, hexValue (Nat.digitChar value) = some value := by
  decide

/-- What is written is read back. -/
theorem byteaIn_encodeHex (bytes : List UInt8) : byteaIn (encodeHex bytes) = some bytes := by
  induction bytes with
  | nil => rfl
  | cons byte bytes ih =>
      have hbyte : byte.toNat < 256 := byte.toNat_lt
      have hhigh := hexValue_digitChar (byte.toNat / 16) (by omega)
      have hlow := hexValue_digitChar (byte.toNat % 16) (by omega)
      have hsum : 16 * (byte.toNat / 16) + byte.toNat % 16 = byte.toNat := Nat.div_add_mod _ _
      rw [encodeHex, List.flatMap_cons, ← encodeHex]
      simp only [List.cons_append, List.nil_append, byteaIn, hhigh, hlow, ih, hsum,
        UInt8.ofNat_toNat]

/-! ## The functions of the database -/

/-- `get_byte`; `none` where the index is out of the valid range. -/
def getByte (bytes : List UInt8) (index : ℤ) : Option UInt8 :=
  if 0 ≤ index then bytes[index.toNat]? else none

def setByte (bytes : List UInt8) (index : ℤ) (value : UInt8) : Option (List UInt8) :=
  if 0 ≤ index ∧ index.toNat < bytes.length then some (bytes.set index.toNat value) else none

def reverseBytesIter (bytes : List UInt8) (length midpoint index : ℤ) : Option (List UInt8) :=
  if index ≥ midpoint then some bytes
  else do
    let right ← getByte bytes (length - index)
    let left ← getByte bytes index
    let swapped ← setByte (← setByte bytes index right) (length - index) left
    reverseBytesIter swapped length midpoint (index + 1)
termination_by (midpoint - index).toNat

def reverseBytes (bytes : List UInt8) : Option (List UInt8) :=
  reverseBytesIter bytes (bytes.length - 1) (bytes.length / 2) 0

def hashFromParts (hashId hashRest : List UInt8) : Option (List UInt8) :=
  reverseBytesIter (hashId ++ hashRest) ((hashId ++ hashRest).length - 1)
    ((hashId ++ hashRest).length / 2) 0

/-- `substring(bytes, start, length)`, counting from one. -/
def substring (bytes : List UInt8) (start length : ℕ) : List UInt8 :=
  (bytes.drop (start - 1)).take length

/-- The `hash_to_hash_id` of the database takes a displayed hash. -/
def sqlHashToHashId (hash : List UInt8) : Option (List UInt8) :=
  reverseBytes (substring hash 17 32)

/-! ## The reversal -/

theorem getByte_append (left right : List UInt8) (value : UInt8) :
    getByte (left ++ value :: right) left.length = some value := by
  simp [getByte]

theorem setByte_append (left right : List UInt8) (old value : UInt8) :
    setByte (left ++ old :: right) left.length value = some (left ++ value :: right) := by
  simp [setByte]

/-- One step swaps the outermost two bytes that are still in place. -/
theorem reverseBytesIter_swap (left middle right : List UInt8) (first last : UInt8)
    {length midpoint : ℤ} (hlength : length = left.length + middle.length + 1 + left.length)
    (hmidpoint : (left.length : ℤ) < midpoint) :
    reverseBytesIter (left ++ first :: (middle ++ last :: right)) length midpoint left.length =
      reverseBytesIter ((left ++ [last]) ++ middle ++ (first :: right)) length midpoint
        (left ++ [last]).length := by
  have hlast : length - left.length = (left ++ first :: middle).length := by
    simp only [List.length_append, List.length_cons]
    omega
  have hother : (left ++ last :: middle).length = (left ++ first :: middle).length := by simp
  have hassoc : ∀ byte, left ++ byte :: (middle ++ last :: right) =
      (left ++ byte :: middle) ++ last :: right := by simp
  have hright : getByte (left ++ first :: (middle ++ last :: right)) (length - left.length) =
      some last := by
    rw [hlast, hassoc, getByte_append]
  have hset : setByte (left ++ last :: (middle ++ last :: right)) (length - left.length) first =
      some ((left ++ last :: middle) ++ first :: right) := by
    rw [hlast, hassoc, ← hother, setByte_append]
  have hinside : ¬ (left.length : ℤ) ≥ midpoint := by omega
  rw [reverseBytesIter, if_neg hinside, hright, getByte_append]
  simp only [Option.bind_eq_bind, Option.bind_some, setByte_append, hset]
  simp

/-- The bytes between two swapped ends of equal length are reversed. -/
theorem reverseBytesIter_middle (middle : List UInt8) :
    ∀ left right : List UInt8, left.length = right.length →
      reverseBytesIter (left ++ middle ++ right) ((left ++ middle ++ right).length - 1)
        ((left ++ middle ++ right).length / 2) left.length =
      some (left ++ middle.reverse ++ right) := by
  induction middle using List.bidirectionalRec with
  | nil =>
      intro left right hlength
      rw [reverseBytesIter, if_pos]
      · simp
      · simp only [List.length_append, List.length_nil]
        omega
  | singleton byte =>
      intro left right hlength
      rw [reverseBytesIter, if_pos]
      · simp
      · simp only [List.length_append, List.length_singleton]
        omega
  | cons_append first middle last ih =>
      intro left right hlength
      have hcount : (left ++ first :: (middle ++ [last]) ++ right).length =
          ((left ++ [last]) ++ middle ++ (first :: right)).length := by
        simp
      have hassoc : left ++ first :: (middle ++ [last]) ++ right =
          left ++ first :: (middle ++ last :: right) := by simp
      rw [hcount, hassoc, reverseBytesIter_swap left middle right first last, ih _ _ (by simpa)]
      · simp
      · simp only [List.length_append, List.length_cons, List.length_nil]
        omega
      · simp only [List.length_append, List.length_cons, List.length_nil]
        omega

theorem reverseBytes_eq (bytes : List UInt8) : reverseBytes bytes = some bytes.reverse := by
  simpa [reverseBytes] using reverseBytesIter_middle bytes [] [] rfl

theorem hashFromParts_eq (hashId hashRest : List UInt8) :
    hashFromParts hashId hashRest = some (hashId ++ hashRest).reverse :=
  reverseBytes_eq (hashId ++ hashRest)

/-- The last bytes of the displayed hash are the first ones of the hash. -/
theorem sqlHashToHashId_reverse (hash : Sha256dHash) :
    sqlHashToHashId hash.inner.reverse = some (hashToHashId hash) := by
  have hlength : (hash.inner.reverse.drop 16).length ≤ 32 := by simp [hash.size]
  rw [sqlHashToHashId, substring, reverseBytes_eq, List.take_of_length_le hlength,
    List.drop_reverse, List.reverse_reverse, hash.size]
  rfl

/-- The reversal of the database reverses, all of its indices are valid, and both languages
split, join and display a hash alike. -/
theorem hash_parts_rejoin :
    (∀ bytes : List UInt8, reverseBytes bytes = some bytes.reverse) ∧
    ∀ hash : Sha256dHash, ∃ hashId hashRest,
      byteaIn (writeHashIdHex hash) = some hashId ∧
      byteaIn (writeHashRestHex hash) = some hashRest ∧
      hashIdAndRestToHash hashId hashRest = some hash ∧
      hashFromParts hashId hashRest = some hash.inner.reverse ∧
      sqlHashToHashId hash.inner.reverse = some hashId ∧
      hashToHashId hash = hashId := by
  refine ⟨reverseBytes_eq, fun hash => ⟨hashToHashId hash, hashRest hash, ?_⟩⟩
  refine ⟨byteaIn_encodeHex _, byteaIn_encodeHex _, hashIdAndRestToHash_parts hash, ?_,
    sqlHashToHashId_reverse hash, rfl⟩
  rw [hashFromParts_eq]
  exact congrArg (fun bytes => some (List.reverse bytes)) (List.take_append_drop _ _)

end BitcoinIndexer.HashParts
