/-!
# Unique tables

A unique table stores each value once. Values are appended and never removed,
so the index of a value is a stable name for it. Indices start at one; zero
ends a chain and names nothing.

The hash of a value only chooses the bucket whose chain is searched. Every
entry links to an older entry of its bucket, hence to a smaller index, and a
search along a chain ends. Whether a stored value is the one that is looked for
is always decided by equality.

Values of several fields are hashed by pairing. The elegant pairing of two
natural numbers runs through the plane shell by shell: the pairs whose larger
component is `m` take the `2 * m + 1` codes that start at `m * m`. On words of
64 bits the same polynomial wraps around, so the code is exact only for
components below `2 ^ 32`; beyond that it is a hash.
-/

namespace Backslice

namespace Pairing

/-- The elegant pairing of two words, modulo `2 ^ 64`. -/
def pair (a b : UInt64) : UInt64 :=
  if a < b then b * b + a else a * a + a + b

/-- A triple is paired from the left. -/
def triple (a b c : UInt64) : UInt64 :=
  pair (pair a b) c

/-- A tagged sequence is folded from the left, starting with its tag. -/
def sequence (tag : UInt64) (values : List UInt64) : UInt64 :=
  values.foldl pair tag

/-- The pairing without a bound on its arguments. -/
def pairNat (a b : Nat) : Nat :=
  if a < b then b * b + a else a * a + a + b

end Pairing

/-- A stored value with the index of the next entry of its chain. -/
structure UniqueTable.Entry (α : Type) where
  value : α
  next : Nat

/-- A table of distinct values, with buckets chosen by `hash`. -/
structure UniqueTable (α : Type) (hash : α → UInt64) where
  entries : Array (UniqueTable.Entry α)
  buckets : Array Nat
  buckets_size_pos : 0 < buckets.size
  next_le : ∀ (i : Nat) (h : i < entries.size), entries[i].next ≤ i
  head_le : ∀ (b : Nat) (h : b < buckets.size), buckets[b] ≤ entries.size

namespace UniqueTable

/-- Ways to misuse a table. -/
inductive Misuse where
  /-- The width of the bucket array is given in bits, from 0 to 31. -/
  | widthOutOfRange
  /-- Index zero was used as the index of a value. -/
  | indexZero
  /-- An index past the last entry; the reserved index zero counts as a place. -/
  | outOfBounds (places index : Nat)
deriving DecidableEq

def Misuse.message : Misuse → String
  | .widthOutOfRange => "Table bits should be in the range 0..=31"
  | .indexZero => "Index is 0"
  | .outOfBounds places index =>
      "index out of bounds: the len is " ++ toString places ++ " but the index is " ++ toString index

/-- The widest bucket array, in bits. -/
def maxBucketBits : Nat := 16

section
variable {α : Type} {hash : α → UInt64}

/-- No values, and `2 ^ bits` empty buckets, but never more than `2 ^ 16`. -/
def empty (bits : Nat) : UniqueTable α hash where
  entries := #[]
  buckets := Array.replicate (Nat.pow 2 (min bits maxBucketBits)) 0
  buckets_size_pos := by
    simp only [Array.size_replicate]
    exact Nat.two_pow_pos _
  next_le := by
    intro i h
    simp at h
  head_le := by
    intro b h
    simp

/-- An empty table; a width above 31 bits is refused. -/
def withBits (bits : Nat) : Except Misuse (UniqueTable α hash) :=
  if bits ≤ 31 then .ok (empty bits) else .error .widthOutOfRange

/-- The number of stored values. -/
def size (t : UniqueTable α hash) : Nat :=
  t.entries.size

/-- The bucket of a value: its hash modulo the number of buckets. -/
def bucketOf (t : UniqueTable α hash) (v : α) : Fin t.buckets.size :=
  ⟨(hash v).toNat % t.buckets.size, Nat.mod_lt _ t.buckets_size_pos⟩

/-- The newest entry of the bucket of `v`, or zero. -/
def headOf (t : UniqueTable α hash) (v : α) : Nat :=
  t.buckets[t.bucketOf v]

theorem headOf_le (t : UniqueTable α hash) (v : α) : t.headOf v ≤ t.size :=
  t.head_le _ (t.bucketOf v).isLt

/-- Search the chain that starts at index `i` for `v`. -/
def searchFrom [DecidableEq α] (t : UniqueTable α hash) (v : α) :
    (i : Nat) → i ≤ t.size → Option Nat
  | 0, _ => none
  | i + 1, h =>
      if t.entries[i].value = v then some (i + 1)
      else t.searchFrom v t.entries[i].next (Nat.le_trans (t.next_le i h) (Nat.le_of_lt h))
termination_by i => i
decreasing_by exact Nat.lt_succ_of_le (t.next_le i h)

/-- The index of a stored value. -/
def find? [DecidableEq α] (t : UniqueTable α hash) (v : α) : Option Nat :=
  t.searchFrom v (t.headOf v) (t.headOf_le v)

/-- Append `v` and put it at the head of its chain. -/
def append (t : UniqueTable α hash) (v : α) : UniqueTable α hash where
  entries := t.entries.push ⟨v, t.headOf v⟩
  buckets := t.buckets.set (t.bucketOf v) (t.entries.size + 1)
  buckets_size_pos := by
    rw [Array.size_set]
    exact t.buckets_size_pos
  next_le := by
    intro i h
    rw [Array.getElem_push]
    split
    next hi => exact t.next_le i hi
    next hi =>
      have : i = t.entries.size := by
        rw [Array.size_push] at h
        omega
      exact this ▸ t.headOf_le v
  head_le := by
    intro b h
    rw [Array.getElem_set, Array.size_push]
    split
    next => exact Nat.le_refl _
    next =>
      rw [Array.size_set] at h
      exact Nat.le_succ_of_le (t.head_le b h)

/-- The index of `v`, which is appended unless it is stored already. -/
def insert [DecidableEq α] (t : UniqueTable α hash) (v : α) : Nat × UniqueTable α hash :=
  match t.find? v with
  | some i => (i, t)
  | none => (t.size + 1, t.append v)

/-- The entry at an index. -/
def entryAt (t : UniqueTable α hash) : Nat → Except Misuse (Entry α)
  | 0 => .error .indexZero
  | i + 1 => if h : i < t.entries.size then .ok t.entries[i] else .error (.outOfBounds (t.size + 1) (i + 1))

/-- The value at an index. -/
def valueAt (t : UniqueTable α hash) (i : Nat) : Except Misuse α :=
  (t.entryAt i).map (·.value)

/-- The index that follows `i` in its chain; zero at the end. -/
def nextAt (t : UniqueTable α hash) (i : Nat) : Except Misuse Nat :=
  (t.entryAt i).map (·.next)

/-- The stored values, in the order of their indices. -/
def toList (t : UniqueTable α hash) : List α :=
  t.entries.toList.map (·.value)

@[simp]
theorem toList_empty (bits : Nat) : (empty bits : UniqueTable α hash).toList = [] := by
  simp [toList, empty]

@[simp]
theorem toList_append (t : UniqueTable α hash) (v : α) : (t.append v).toList = t.toList ++ [v] := by
  simp [toList, append]

@[simp]
theorem length_toList (t : UniqueTable α hash) : t.toList.length = t.size := by
  simp [toList, size]

@[simp]
theorem size_append (t : UniqueTable α hash) (v : α) : (t.append v).size = t.size + 1 := by
  simp [size, append]

end
end UniqueTable
end Backslice
