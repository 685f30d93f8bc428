/-
# Object names and their ids

Objects are named by C strings.  A chunk record has room for `MAXOBJNAMELEN`
bytes and `update_chunkobj` asserts that a name fits, so a name is a list of
non-zero bytes shorter than that.  Every index of the store is keyed by the
32-bit hash of the name (`gen_id_from_str`).
-/
import Mathlib

/-- `MAXOBJNAMELEN`. -/
def maxObjNameLen : ℕ := 255

/-- A C string that fits the `objname` field of a chunk record. -/
structure ObjName where
  bytes : List UInt8
  noNul : 0 ∉ bytes
  short : bytes.length < maxObjNameLen
  deriving DecidableEq

namespace ObjName

/-- The empty string, which is also what a zero-filled record holds. -/
def empty : ObjName := ⟨[], by simp, by decide⟩

instance : Inhabited ObjName := ⟨empty⟩

end ObjName

/-- One round of `sdbm`: `c + (hash << 6) + (hash << 16) - hash` in 32-bit
arithmetic, where `c` is a (signed) `char` widened to `int`. -/
def sdbmStep (hash : BitVec 32) (c : UInt8) : BitVec 32 :=
  c.toBitVec.signExtend 32 + (hash <<< 6) + (hash <<< 16) - hash

/-- `sdbm`. -/
def sdbm (str : List UInt8) : BitVec 32 := str.foldl sdbmStep 0

/-- `gen_id_from_str`. -/
def genIdFromStr (key : ObjName) : ℕ := (sdbm key.bytes).toNat

/-- The empty name hashes to `0`, the id that every lookup rejects. -/
theorem bytes_ne_nil_of_id {key : ObjName} (h : genIdFromStr key ≠ 0) : key.bytes ≠ [] := by
  intro hnil
  apply h
  rw [genIdFromStr, hnil]
  rfl
