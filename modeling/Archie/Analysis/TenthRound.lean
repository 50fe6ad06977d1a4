import Archie.Cpu
import Archie.Lib.Aes
import Archie.Lib.Python

/-! The tenth round of AES, analysis/tenthRound.py.

    A fault that skips the last round leaves the state of the ninth round as the ciphertext. With the
    correct ciphertext it gives away the key of the tenth round. -/

namespace Archie.Analysis
open BinaryPolynomial Python
open Aes (State gmul lastRound)
open scoped Aes

/-! ### Tables -/

set_option maxRecDepth 4000

def sBox : Vector Byte 256 := #v[
  0x63, 0x7c, 0x77, 0x7b, 0xf2, 0x6b, 0x6f, 0xc5, 0x30, 0x01, 0x67, 0x2b, 0xfe, 0xd7, 0xab, 0x76,
  0xca, 0x82, 0xc9, 0x7d, 0xfa, 0x59, 0x47, 0xf0, 0xad, 0xd4, 0xa2, 0xaf, 0x9c, 0xa4, 0x72, 0xc0,
  0xb7, 0xfd, 0x93, 0x26, 0x36, 0x3f, 0xf7, 0xcc, 0x34, 0xa5, 0xe5, 0xf1, 0x71, 0xd8, 0x31, 0x15,
  0x04, 0xc7, 0x23, 0xc3, 0x18, 0x96, 0x05, 0x9a, 0x07, 0x12, 0x80, 0xe2, 0xeb, 0x27, 0xb2, 0x75,
  0x09, 0x83, 0x2c, 0x1a, 0x1b, 0x6e, 0x5a, 0xa0, 0x52, 0x3b, 0xd6, 0xb3, 0x29, 0xe3, 0x2f, 0x84,
  0x53, 0xd1, 0x00, 0xed, 0x20, 0xfc, 0xb1, 0x5b, 0x6a, 0xcb, 0xbe, 0x39, 0x4a, 0x4c, 0x58, 0xcf,
  0xd0, 0xef, 0xaa, 0xfb, 0x43, 0x4d, 0x33, 0x85, 0x45, 0xf9, 0x02, 0x7f, 0x50, 0x3c, 0x9f, 0xa8,
  0x51, 0xa3, 0x40, 0x8f, 0x92, 0x9d, 0x38, 0xf5, 0xbc, 0xb6, 0xda, 0x21, 0x10, 0xff, 0xf3, 0xd2,
  0xcd, 0x0c, 0x13, 0xec, 0x5f, 0x97, 0x44, 0x17, 0xc4, 0xa7, 0x7e, 0x3d, 0x64, 0x5d, 0x19, 0x73,
  0x60, 0x81, 0x4f, 0xdc, 0x22, 0x2a, 0x90, 0x88, 0x46, 0xee, 0xb8, 0x14, 0xde, 0x5e, 0x0b, 0xdb,
  0xe0, 0x32, 0x3a, 0x0a, 0x49, 0x06, 0x24, 0x5c, 0xc2, 0xd3, 0xac, 0x62, 0x91, 0x95, 0xe4, 0x79,
  0xe7, 0xc8, 0x37, 0x6d, 0x8d, 0xd5, 0x4e, 0xa9, 0x6c, 0x56, 0xf4, 0xea, 0x65, 0x7a, 0xae, 0x08,
  0xba, 0x78, 0x25, 0x2e, 0x1c, 0xa6, 0xb4, 0xc6, 0xe8, 0xdd, 0x74, 0x1f, 0x4b, 0xbd, 0x8b, 0x8a,
  0x70, 0x3e, 0xb5, 0x66, 0x48, 0x03, 0xf6, 0x0e, 0x61, 0x35, 0x57, 0xb9, 0x86, 0xc1, 0x1d, 0x9e,
  0xe1, 0xf8, 0x98, 0x11, 0x69, 0xd9, 0x8e, 0x94, 0x9b, 0x1e, 0x87, 0xe9, 0xce, 0x55, 0x28, 0xdf,
  0x8c, 0xa1, 0x89, 0x0d, 0xbf, 0xe6, 0x42, 0x68, 0x41, 0x99, 0x2d, 0x0f, 0xb0, 0x54, 0xbb, 0x16]

def invSBox : Vector Byte 256 := #v[
  0x52, 0x09, 0x6a, 0xd5, 0x30, 0x36, 0xa5, 0x38, 0xbf, 0x40, 0xa3, 0x9e, 0x81, 0xf3, 0xd7, 0xfb,
  0x7c, 0xe3, 0x39, 0x82, 0x9b, 0x2f, 0xff, 0x87, 0x34, 0x8e, 0x43, 0x44, 0xc4, 0xde, 0xe9, 0xcb,
  0x54, 0x7b, 0x94, 0x32, 0xa6, 0xc2, 0x23, 0x3d, 0xee, 0x4c, 0x95, 0x0b, 0x42, 0xfa, 0xc3, 0x4e,
  0x08, 0x2e, 0xa1, 0x66, 0x28, 0xd9, 0x24, 0xb2, 0x76, 0x5b, 0xa2, 0x49, 0x6d, 0x8b, 0xd1, 0x25,
  0x72, 0xf8, 0xf6, 0x64, 0x86, 0x68, 0x98, 0x16, 0xd4, 0xa4, 0x5c, 0xcc, 0x5d, 0x65, 0xb6, 0x92,
  0x6c, 0x70, 0x48, 0x50, 0xfd, 0xed, 0xb9, 0xda, 0x5e, 0x15, 0x46, 0x57, 0xa7, 0x8d, 0x9d, 0x84,
  0x90, 0xd8, 0xab, 0x00, 0x8c, 0xbc, 0xd3, 0x0a, 0xf7, 0xe4, 0x58, 0x05, 0xb8, 0xb3, 0x45, 0x06,
  0xd0, 0x2c, 0x1e, 0x8f, 0xca, 0x3f, 0x0f, 0x02, 0xc1, 0xaf, 0xbd, 0x03, 0x01, 0x13, 0x8a, 0x6b,
  0x3a, 0x91, 0x11, 0x41, 0x4f, 0x67, 0xdc, 0xea, 0x97, 0xf2, 0xcf, 0xce, 0xf0, 0xb4, 0xe6, 0x73,
  0x96, 0xac, 0x74, 0x22, 0xe7, 0xad, 0x35, 0x85, 0xe2, 0xf9, 0x37, 0xe8, 0x1c, 0x75, 0xdf, 0x6e,
  0x47, 0xf1, 0x1a, 0x71, 0x1d, 0x29, 0xc5, 0x89, 0x6f, 0xb7, 0x62, 0x0e, 0xaa, 0x18, 0xbe, 0x1b,
  0xfc, 0x56, 0x3e, 0x4b, 0xc6, 0xd2, 0x79, 0x20, 0x9a, 0xdb, 0xc0, 0xfe, 0x78, 0xcd, 0x5a, 0xf4,
  0x1f, 0xdd, 0xa8, 0x33, 0x88, 0x07, 0xc7, 0x31, 0xb1, 0x12, 0x10, 0x59, 0x27, 0x80, 0xec, 0x5f,
  0x60, 0x51, 0x7f, 0xa9, 0x19, 0xb5, 0x4a, 0x0d, 0x2d, 0xe5, 0x7a, 0x9f, 0x93, 0xc9, 0x9c, 0xef,
  0xa0, 0xe0, 0x3b, 0x4d, 0xae, 0x2a, 0xf5, 0xb0, 0xc8, 0xeb, 0xbb, 0x3c, 0x83, 0x53, 0x99, 0x61,
  0x17, 0x2b, 0x04, 0x7e, 0xba, 0x77, 0xd6, 0x26, 0xe1, 0x69, 0x14, 0x63, 0x55, 0x21, 0x0c, 0x7d]

/-- The powers of 3. -/
def e : Vector Byte 256 := #v[
  0x01, 0x03, 0x05, 0x0f, 0x11, 0x33, 0x55, 0xff, 0x1a, 0x2e, 0x72, 0x96, 0xa1, 0xf8, 0x13, 0x35,
  0x5f, 0xe1, 0x38, 0x48, 0xd8, 0x73, 0x95, 0xa4, 0xf7, 0x02, 0x06, 0x0a, 0x1e, 0x22, 0x66, 0xaa,
  0xe5, 0x34, 0x5c, 0xe4, 0x37, 0x59, 0xeb, 0x26, 0x6a, 0xbe, 0xd9, 0x70, 0x90, 0xab, 0xe6, 0x31,
  0x53, 0xf5, 0x04, 0x0c, 0x14, 0x3c, 0x44, 0xcc, 0x4f, 0xd1, 0x68, 0xb8, 0xd3, 0x6e, 0xb2, 0xcd,
  0x4c, 0xd4, 0x67, 0xa9, 0xe0, 0x3b, 0x4d, 0xd7, 0x62, 0xa6, 0xf1, 0x08, 0x18, 0x28, 0x78, 0x88,
  0x83, 0x9e, 0xb9, 0xd0, 0x6b, 0xbd, 0xdc, 0x7f, 0x81, 0x98, 0xb3, 0xce, 0x49, 0xdb, 0x76, 0x9a,
  0xb5, 0xc4, 0x57, 0xf9, 0x10, 0x30, 0x50, 0xf0, 0x0b, 0x1d, 0x27, 0x69, 0xbb, 0xd6, 0x61, 0xa3,
  0xfe, 0x19, 0x2b, 0x7d, 0x87, 0x92, 0xad, 0xec, 0x2f, 0x71, 0x93, 0xae, 0xe9, 0x20, 0x60, 0xa0,
  0xfb, 0x16, 0x3a, 0x4e, 0xd2, 0x6d, 0xb7, 0xc2, 0x5d, 0xe7, 0x32, 0x56, 0xfa, 0x15, 0x3f, 0x41,
  0xc3, 0x5e, 0xe2, 0x3d, 0x47, 0xc9, 0x40, 0xc0, 0x5b, 0xed, 0x2c, 0x74, 0x9c, 0xbf, 0xda, 0x75,
  0x9f, 0xba, 0xd5, 0x64, 0xac, 0xef, 0x2a, 0x7e, 0x82, 0x9d, 0xbc, 0xdf, 0x7a, 0x8e, 0x89, 0x80,
  0x9b, 0xb6, 0xc1, 0x58, 0xe8, 0x23, 0x65, 0xaf, 0xea, 0x25, 0x6f, 0xb1, 0xc8, 0x43, 0xc5, 0x54,
  0xfc, 0x1f, 0x21, 0x63, 0xa5, 0xf4, 0x07, 0x09, 0x1b, 0x2d, 0x77, 0x99, 0xb0, 0xcb, 0x46, 0xca,
  0x45, 0xcf, 0x4a, 0xde, 0x79, 0x8b, 0x86, 0x91, 0xa8, 0xe3, 0x3e, 0x42, 0xc6, 0x51, 0xf3, 0x0e,
  0x12, 0x36, 0x5a, 0xee, 0x29, 0x7b, 0x8d, 0x8c, 0x8f, 0x8a, 0x85, 0x94, 0xa7, 0xf2, 0x0d, 0x17,
  0x39, 0x4b, 0xdd, 0x7c, 0x84, 0x97, 0xa2, 0xfd, 0x1c, 0x24, 0x6c, 0xb4, 0xc7, 0x52, 0xf6, 0x01]

/-- The logarithms to the base 3; zero has none. -/
def log : Vector Int 256 := #v[
  -1, 0x00, 0x19, 0x01, 0x32, 0x02, 0x1a, 0xc6, 0x4b, 0xc7, 0x1b, 0x68, 0x33, 0xee, 0xdf, 0x03,
  0x64, 0x04, 0xe0, 0x0e, 0x34, 0x8d, 0x81, 0xef, 0x4c, 0x71, 0x08, 0xc8, 0xf8, 0x69, 0x1c, 0xc1,
  0x7d, 0xc2, 0x1d, 0xb5, 0xf9, 0xb9, 0x27, 0x6a, 0x4d, 0xe4, 0xa6, 0x72, 0x9a, 0xc9, 0x09, 0x78,
  0x65, 0x2f, 0x8a, 0x05, 0x21, 0x0f, 0xe1, 0x24, 0x12, 0xf0, 0x82, 0x45, 0x35, 0x93, 0xda, 0x8e,
  0x96, 0x8f, 0xdb, 0xbd, 0x36, 0xd0, 0xce, 0x94, 0x13, 0x5c, 0xd2, 0xf1, 0x40, 0x46, 0x83, 0x38,
  0x66, 0xdd, 0xfd, 0x30, 0xbf, 0x06, 0x8b, 0x62, 0xb3, 0x25, 0xe2, 0x98, 0x22, 0x88, 0x91, 0x10,
  0x7e, 0x6e, 0x48, 0xc3, 0xa3, 0xb6, 0x1e, 0x42, 0x3a, 0x6b, 0x28, 0x54, 0xfa, 0x85, 0x3d, 0xba,
  0x2b, 0x79, 0x0a, 0x15, 0x9b, 0x9f, 0x5e, 0xca, 0x4e, 0xd4, 0xac, 0xe5, 0xf3, 0x73, 0xa7, 0x57,
  0xaf, 0x58, 0xa8, 0x50, 0xf4, 0xea, 0xd6, 0x74, 0x4f, 0xae, 0xe9, 0xd5, 0xe7, 0xe6, 0xad, 0xe8,
  0x2c, 0xd7, 0x75, 0x7a, 0xeb, 0x16, 0x0b, 0xf5, 0x59, 0xcb, 0x5f, 0xb0, 0x9c, 0xa9, 0x51, 0xa0,
  0x7f, 0x0c, 0xf6, 0x6f, 0x17, 0xc4, 0x49, 0xec, 0xd8, 0x43, 0x1f, 0x2d, 0xa4, 0x76, 0x7b, 0xb7,
  0xcc, 0xbb, 0x3e, 0x5a, 0xfb, 0x60, 0xb1, 0x86, 0x3b, 0x52, 0xa1, 0x6c, 0xaa, 0x55, 0x29, 0x9d,
  0x97, 0xb2, 0x87, 0x90, 0x61, 0xbe, 0xdc, 0xfc, 0xbc, 0x95, 0xcf, 0xcd, 0x37, 0x3f, 0x5b, 0xd1,
  0x53, 0x39, 0x84, 0x3c, 0x41, 0xa2, 0x6d, 0x47, 0x14, 0x2a, 0x9e, 0x5d, 0x56, 0xf2, 0xd3, 0xab,
  0x44, 0x11, 0x92, 0xd9, 0x23, 0x20, 0x2e, 0x89, 0xb4, 0x7c, 0xb8, 0x26, 0x77, 0x99, 0xe3, 0xa5,
  0x67, 0x4a, 0xed, 0xde, 0xc5, 0x31, 0xfe, 0x18, 0x0d, 0x63, 0x8c, 0x80, 0xc0, 0xf7, 0x70, 0x07]

def lookup {α : Type} (table : Vector α 256) (b : Byte) : α := table.get b.toFin

def mult (x y : Byte) : Result Byte :=
  if x = 0 ∨ y = 0 then .ok 0
  else if x = 1 then .ok y
  else if y = 1 then .ok x
  else
    let r := lookup log x + lookup log y
    if r > 0xff then getItem e.toList (r - 0xff) else getItem e.toList r

/-! ### Rounds -/

def subBytes (s : State) : State := fun i => lookup sBox (s i)

def invSubBytes (s : State) : State := fun i => lookup invSBox (s i)

def shiftRows (s : State) : State :=
  ![s 0, s 5, s 10, s 15, s 4, s 9, s 14, s 3, s 8, s 13, s 2, s 7, s 12, s 1, s 6, s 11]

def invShiftRows (s : State) : State :=
  ![s 0, s 13, s 10, s 7, s 4, s 1, s 14, s 11, s 8, s 5, s 2, s 15, s 12, s 9, s 6, s 3]

def addRoundKey (s k : State) : State := fun i => s i ^^^ k i

def getTenthRoundKey (state10 cipher : State) : State :=
  addRoundKey (subBytes (shiftRows state10)) cipher

/-! ### MixColumns

    The Galois elements are computed in the `else` of a `for` that has no `break`, and that only where
    the byte of the state is zero. -/

/-- The coefficients, transposed. -/
def mixCol : Vector (Vector Byte 4) 4 := #v[
  #v[0x02, 0x01, 0x01, 0x03],
  #v[0x03, 0x02, 0x01, 0x01],
  #v[0x01, 0x03, 0x02, 0x01],
  #v[0x01, 0x01, 0x03, 0x02]]

def invMixCol : Vector (Vector Byte 4) 4 := #v[
  #v[0x0e, 0x09, 0x0d, 0x0b],
  #v[0x0b, 0x0e, 0x09, 0x0d],
  #v[0x0d, 0x0b, 0x0e, 0x09],
  #v[0x09, 0x0d, 0x0b, 0x0e]]

/-- What byte `k` of a column adds to the Galois elements. -/
def galoisByte (matrix : Vector (Vector Byte 4) 4) (a : Fin 4 → Byte) (galMat : State) (k : Fin 4) :
    Result State :=
  let place (p : Fin 4) : Fin 16 := Fin.ofNat 16 (k.val + p.val * 4)
  if a k = 0 then
    let galMat := (List.finRange 4).foldl (fun g p => Function.update g (place p) 0) galMat
    (List.finRange 4).foldlM (fun g p => do
      return Function.update g (place p) (← mult (a k) ((matrix.get k).get p))) galMat
  else return galMat

/-- The Galois elements of a column, and the column of the result. -/
def galoisColumn (matrix : Vector (Vector Byte 4) 4) (a : Fin 4 → Byte) (galMat : State) :
    Result (State × (Fin 4 → Byte)) := do
  let galMat ← (List.finRange 4).foldlM (galoisByte matrix a) galMat
  return (galMat, ![galMat 0 ^^^ galMat 1 ^^^ galMat 2 ^^^ galMat 3,
    galMat 4 ^^^ galMat 5 ^^^ galMat 6 ^^^ galMat 7, galMat 8 ^^^ galMat 9 ^^^ galMat 10 ^^^ galMat 11,
    galMat 12 ^^^ galMat 13 ^^^ galMat 14 ^^^ galMat 15])

def columns (s : State) : Fin 4 → Fin 4 → Byte :=
  ![![s 0, s 1, s 2, s 3], ![s 4, s 5, s 6, s 7], ![s 8, s 9, s 10, s 11], ![s 12, s 13, s 14, s 15]]

def ofColumns (b : Fin 4 → Fin 4 → Byte) : State :=
  ![b 0 0, b 0 1, b 0 2, b 0 3, b 1 0, b 1 1, b 1 2, b 1 3,
    b 2 0, b 2 1, b 2 2, b 2 3, b 3 0, b 3 1, b 3 2, b 3 3]

/-- Returns behind the first column. -/
def mixColumns (s : State) : Result State := do
  let (_, column) ← galoisColumn mixCol (columns s 0) 0
  return ofColumns (Function.update 0 0 column)

def invMixColumns (s : State) : Result State := do
  let (_, b) ← (List.finRange 4).foldlM (fun (galMat, b) j => do
    let (galMat, column) ← galoisColumn invMixCol (columns s j) galMat
    return (galMat, Function.update b j column)) ((0, 0) : State × (Fin 4 → Fin 4 → Byte))
  return ofColumns b

/-! ### The tables -/

@[simp] theorem lookup_invSBox (b : Byte) : lookup invSBox (lookup sBox b) = b := by
  revert b
  decide +kernel

@[simp] theorem lookup_sBox (b : Byte) : lookup sBox (lookup invSBox b) = b := by
  have hinjective : Function.Injective (lookup sBox) := Function.LeftInverse.injective lookup_invSBox
  obtain ⟨a, rfl⟩ := Finite.surjective_of_injective hinjective b
  rw [lookup_invSBox]

def substitution : Byte ≃ Byte := ⟨lookup sBox, lookup invSBox, lookup_invSBox, lookup_sBox⟩

/-- Times 3. -/
def triple (b : Byte) : Byte := timesX 0x1b b ^^^ b

theorem triple_additive : Additive triple := fun a b => by
  rw [triple, timesX_additive]
  simp only [triple]
  ac_rfl

theorem triple_timesX (b : Byte) : triple (timesX 0x1b b) = timesX 0x1b (triple b) :=
  (timesX_additive 0x1b (timesX 0x1b b) b).symm

theorem e_eq : ∀ i ≤ 255, e.toList.getD i 0 = triple^[i] 1 := by
  decide +kernel

theorem log_eq (b : Byte) (hb : b ≠ 0) :
    0 ≤ lookup log b ∧ (lookup log b).toNat ≤ 255 ∧ e.toList.getD (lookup log b).toNat 0 = b := by
  revert b
  decide +kernel

/-- The tables multiply, and no sum of logarithms is off the table. -/
theorem mult_eq (x y : Byte) : mult x y = .ok (gmul x y) := by
  have hget {i : ℕ} (hi : i ≤ 255) : getItem e.toList i = .ok (e.toList.getD i 0) := by
    have hlt : i < e.toList.length := by
      rw [Vector.length_toList]
      omega
    refine getItem_natCast ?_
    rw [List.getD_eq_getElem?_getD, List.getElem?_eq_getElem hlt, Option.getD_some]
  rw [mult]
  split_ifs with hzero hx hy
  · rcases hzero with rfl | rfl
    · rw [gmul, BinaryPolynomial.zero_mul]
    · rw [gmul, BinaryPolynomial.mul_zero]
  · rw [hx, gmul, BinaryPolynomial.one_mul]
  · rw [hy, gmul, BinaryPolynomial.mul_comm, BinaryPolynomial.one_mul]
  · obtain ⟨hx, hy⟩ := not_or.mp hzero
    obtain ⟨hxpos, hxle, -⟩ := log_eq x hx
    obtain ⟨hypos, hyle, -⟩ := log_eq y hy
    obtain ⟨i, hi⟩ := Int.eq_ofNat_of_zero_le hxpos
    obtain ⟨j, hj⟩ := Int.eq_ofNat_of_zero_le hypos
    have hproduct := mul_eq_of_logs (n := 255) triple_additive triple_timesX e_eq (by decide)
      (fun b hb => (log_eq b hb).2) hx hy
    rw [hi] at hxle hproduct
    rw [hj] at hyle hproduct
    simp only [Int.toNat_natCast] at hxle hyle hproduct
    rw [gmul, hproduct, hi, hj]
    dsimp only
    by_cases hlarge : 255 < i + j
    · have hgreater : (i : Int) + j > 0xff := by omega
      have hindex : (i : Int) + j - 0xff = (i + j - 255 : ℕ) := by omega
      rw [if_pos hgreater, if_pos hlarge, hindex, hget (by omega)]
    · have hsmall : ¬ (i : Int) + j > 0xff := by omega
      rw [if_neg hsmall, if_neg hlarge, ← Nat.cast_add, hget (by omega)]

/-! ### The rounds -/

theorem subBytes_eq (s : State) : subBytes s = Aes.subBytes substitution s := rfl

theorem shiftRows_eq (s : State) : shiftRows s = Aes.shiftRows s := by
  funext i
  fin_cases i <;> rfl

/-- The one key with which the last round makes the ciphertext of the state. -/
theorem getTenthRoundKey_eq_iff (state10 cipher k : State) :
    getTenthRoundKey state10 cipher = k ↔ lastRound substitution state10 k = cipher := by
  have hcommute : subBytes (shiftRows state10) = Aes.shiftRows (Aes.subBytes substitution state10) := by
    rw [subBytes_eq, shiftRows_eq]
    rfl
  have hmove (a b c : Byte) : a ^^^ b = c ↔ a ^^^ c = b := by
    constructor <;>
    · rintro rfl
      rw [← BitVec.xor_assoc, BitVec.xor_self, BitVec.zero_xor]
  rw [getTenthRoundKey, lastRound, hcommute, funext_iff, funext_iff]
  exact forall_congr' fun i => hmove _ _ _

/-- A zero byte has zero multiples, those of the others are not computed. -/
theorem galoisByte_zero (matrix : Vector (Vector Byte 4) 4) (a : Fin 4 → Byte) (k : Fin 4) :
    galoisByte matrix a 0 k = .ok 0 := by
  have hzero (p : Fin 4) : Function.update (0 : State) (Fin.ofNat 16 (k.val + p.val * 4)) 0 = 0 :=
    Function.update_eq_self _ _
  rw [galoisByte]
  split
  · next ha =>
    have hmult (b : Byte) : mult (a k) b = .ok 0 := by
      rw [mult_eq, ha, gmul, BinaryPolynomial.zero_mul]
    rw [List.foldl_fixed' hzero]
    refine foldlM_fixed fun p _ => ?_
    rw [hmult]
    exact congrArg Except.ok (hzero p)
  · rfl

theorem galoisColumn_zero (matrix : Vector (Vector Byte 4) 4) (a : Fin 4 → Byte) :
    galoisColumn matrix a 0 = .ok (0, 0) := by
  have hcolumn : ![(0 : Byte), 0, 0, 0] = 0 := by
    funext i
    fin_cases i <;> rfl
  rw [galoisColumn, foldlM_fixed fun k _ => galoisByte_zero matrix a k]
  exact congrArg (fun column => Except.ok ((0 : State), column)) hcolumn

/-- Neither function ever computes anything. -/
theorem mixColumns_eq_zero (s : State) : mixColumns s = .ok 0 ∧ invMixColumns s = .ok 0 := by
  have hstate : ofColumns 0 = 0 := by
    funext i
    fin_cases i <;> rfl
  have hupdate (j : Fin 4) : Function.update (0 : Fin 4 → Fin 4 → Byte) j 0 = 0 :=
    Function.update_eq_self _ _
  constructor
  · rw [mixColumns, galoisColumn_zero]
    exact congrArg Except.ok ((congrArg ofColumns (hupdate 0)).trans hstate)
  · rw [invMixColumns, foldlM_fixed fun j _ => ?_]
    · exact congrArg Except.ok hstate
    · dsimp only
      rw [galoisColumn_zero]
      exact congrArg (fun b => Except.ok ((0 : State), b)) (hupdate j)

end Archie.Analysis
