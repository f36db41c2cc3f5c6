/-
Binary formats whose reader undoes the writer, independent of any program.

`Codec α` bundles how a value is written, how it is read back from the front of a byte sequence, and the proof that
reading what was written gives the value and leaves the bytes behind it. Words, pairs and arrays are built from parts,
so a format put together from them carries its round trip with it.
-/
import Mathlib.Tactic
import Mathlib.Data.BitVec

namespace GraphStreamingCC

abbrev Byte := BitVec 8

/-- a format: what is written is read back, whatever follows it -/
structure Codec (α : Type*) where
  write : α → List Byte
  read : List Byte → Option (α × List Byte)
  read_write : ∀ a rest, read (write a ++ rest) = some (a, rest)

namespace Codec

variable {α β : Type*}

/-! ## Words -/

/-- the k lowest bytes of x, the lowest first -/
def writeNat : ℕ → ℕ → List Byte
  | 0, _ => []
  | k + 1, x => BitVec.ofNat 8 x :: writeNat k (x / 256)

/-- k bytes as a number; `none` if there are not so many -/
def readNat : ℕ → List Byte → Option (ℕ × List Byte)
  | 0, bs => some (0, bs)
  | _ + 1, [] => none
  | k + 1, b :: bs => (readNat k bs).map fun x => (b.toNat + 256 * x.1, x.2)

theorem readNat_writeNat (k : ℕ) {x : ℕ} (hx : x < 256 ^ k) (rest : List Byte) :
    readNat k (writeNat k x ++ rest) = some (x, rest) := by
  induction k generalizing x with
  | zero =>
    obtain rfl : x = 0 := by simpa using hx
    rfl
  | succ k ih =>
    have hq : x / 256 < 256 ^ k := Nat.div_lt_of_lt_mul (by rwa [← pow_succ'])
    rw [writeNat, List.cons_append, readNat, ih hq, Option.map_some, BitVec.toNat_ofNat]
    congr 2
    exact Nat.mod_add_div x 256

/-- `write((char *)&x, k)` and `read((char *)&x, k)` of a word of k bytes -/
def word (k : ℕ) : Codec (BitVec (8 * k)) where
  write x := writeNat k x.toNat
  read bs := (readNat k bs).map fun x => (BitVec.ofNat _ x.1, x.2)
  read_write x rest := by
    have hx : x.toNat < 256 ^ k := by
      have := x.isLt
      rwa [pow_mul] at this
    rw [readNat_writeNat k hx, Option.map_some, BitVec.ofNat_toNat, BitVec.setWidth_eq]

/-! ## Pairs and arrays -/

/-- one value behind another -/
def pair (a : Codec α) (b : Codec β) : Codec (α × β) where
  write x := a.write x.1 ++ b.write x.2
  read bs := (a.read bs).bind fun x => (b.read x.2).map fun y => ((x.1, y.1), y.2)
  read_write x rest := by
    rw [List.append_assoc, a.read_write, Option.bind_some, b.read_write, Option.map_some]

/-- the same format for another representation of the values -/
def equiv (a : Codec α) (e : α ≃ β) : Codec β where
  write x := a.write (e.symm x)
  read bs := (a.read bs).map fun x => (e x.1, x.2)
  read_write x rest := by
    rw [a.read_write, Option.map_some, e.apply_symm_apply]

def writeArray (a : Codec α) : (m : ℕ) → (Fin m → α) → List Byte
  | 0, _ => []
  | m + 1, f => a.write (f 0) ++ writeArray a m (Fin.tail f)

def readArray (a : Codec α) : (m : ℕ) → List Byte → Option ((Fin m → α) × List Byte)
  | 0, bs => some (Fin.elim0, bs)
  | m + 1, bs => (a.read bs).bind fun x => (readArray a m x.2).map fun f => (Fin.cons x.1 f.1, f.2)

theorem readArray_writeArray (a : Codec α) {m : ℕ} (f : Fin m → α) (rest : List Byte) :
    readArray a m (writeArray a m f ++ rest) = some (f, rest) := by
  induction m with
  | zero => exact congrArg (fun f => some (f, rest)) (funext fun i => i.elim0)
  | succ m ih =>
    rw [writeArray, readArray, List.append_assoc, a.read_write, Option.bind_some, ih, Option.map_some, Fin.cons_self_tail]

/-- m values, one behind the other -/
def array (a : Codec α) (m : ℕ) : Codec (Fin m → α) where
  write := writeArray a m
  read := readArray a m
  read_write := readArray_writeArray a

end Codec

end GraphStreamingCC
