/- Pdq.Index.FileHash -- the hash that names the sub-directory of a file.

`calculate_file_hash` feeds the path to the standard library's `DefaultHasher` and
prints the 64-bit result in hexadecimal.  That hasher is SipHash with one round
per word and three at the end, from the zero key; `SipHash` is the family, with
the round counts and the key as parameters.  Nothing in the model rests on the
hash; what is fixed here is what it gives on concrete paths, and that two paths
may have one hash (`calculateFileHash_collision`). -/
import Pdq.Index.Indexer

namespace Pdq

open Theory

set_option autoImplicit false

/-! ## SipHash -/

namespace SipHash

structure State where
  v0 : UInt64
  v1 : UInt64
  v2 : UInt64
  v3 : UInt64

def rotateLeft (x b : UInt64) : UInt64 := (x <<< b) ||| (x >>> (64 - b))

def round (s : State) : State :=
  let v0 := s.v0 + s.v1
  let v1 := rotateLeft s.v1 13 ^^^ v0
  let v0 := rotateLeft v0 32
  let v2 := s.v2 + s.v3
  let v3 := rotateLeft s.v3 16 ^^^ v2
  let v0 := v0 + v3
  let v3 := rotateLeft v3 21 ^^^ v0
  let v2 := v2 + v1
  let v1 := rotateLeft v1 17 ^^^ v2
  let v2 := rotateLeft v2 32
  ⟨v0, v1, v2, v3⟩

def rounds (count : Nat) (s : State) : State := count.repeat round s

/-- The little-endian word of at most eight bytes. -/
def word (bytes : Bytes) : UInt64 := bytes.foldr (fun byte w => byte.toUInt64 ||| (w <<< 8)) 0

def initial (k0 k1 : UInt64) : State where
  v0 := k0 ^^^ 0x736f6d6570736575
  v1 := k1 ^^^ 0x646f72616e646f6d
  v2 := k0 ^^^ 0x6c7967656e657261
  v3 := k1 ^^^ 0x7465646279746573

/-- Mix one word into the state. -/
def compress (c : Nat) (s : State) (m : UInt64) : State :=
  let s := rounds c { s with v3 := s.v3 ^^^ m }
  { s with v0 := s.v0 ^^^ m }

/-- Mix in all whole words; what is left is shorter than one. -/
def compressWords (c : Nat) (s : State) : Bytes → State × Bytes
  | b0 :: b1 :: b2 :: b3 :: b4 :: b5 :: b6 :: b7 :: rest =>
      compressWords c (compress c s (word [b0, b1, b2, b3, b4, b5, b6, b7])) rest
  | tail => (s, tail)

def finish (d : Nat) (s : State) : UInt64 :=
  let s := rounds d { s with v2 := s.v2 ^^^ 0xff }
  s.v0 ^^^ s.v1 ^^^ s.v2 ^^^ s.v3

/-- SipHash with `c` rounds per word and `d` at the end; the last word carries the
length in its top byte. -/
def hash (c d : Nat) (k0 k1 : UInt64) (bytes : Bytes) : UInt64 :=
  let (s, tail) := compressWords c (initial k0 k1) bytes
  finish d (compress c s (word tail ||| (UInt64.ofNat bytes.length <<< 56)))

/-- The published test value, for SipHash-2-4 on fifteen bytes. -/
example : hash 2 4 0x0706050403020100 0x0f0e0d0c0b0a0908
    [0, 1, 2, 3, 4, 5, 6, 7, 8, 9, 10, 11, 12, 13, 14] = 0xa129ca6149be45e5 := by
  decide +kernel

end SipHash

/-! ## The hash of a path -/

/-- `DefaultHasher`, fed a string: its bytes and a closing `0xff`. -/
def defaultHash (s : Str) : UInt64 := SipHash.hash 1 3 0 0 (utf8 s ++ [0xff])

/-- `format!("{:x}", value)` -/
def lowerHex (value : UInt64) : Str := Nat.toDigits 16 value.toNat

/-- `calculate_file_hash` -/
def calculateFileHash (filePath : Path) : Str := lowerHex (defaultHash filePath)

example : calculateFileHash samplePath = sampleHash samplePath := by decide +kernel

/-! ## Two paths of one hash -/

def leftPath : Path := "/d/624ff0e88476369a.parquet".toList

def rightPath : Path := "/d/67572471d302c87c.parquet".toList

theorem calculateFileHash_leftPath : calculateFileHash leftPath = "46f5d2cc428ad917".toList := by
  decide +kernel

theorem calculateFileHash_rightPath :
    calculateFileHash rightPath = "46f5d2cc428ad917".toList := by
  decide +kernel

/-- **The hash does not tell all paths apart.** -/
theorem calculateFileHash_collision :
    leftPath ≠ rightPath ∧ calculateFileHash leftPath = calculateFileHash rightPath :=
  ⟨by decide, calculateFileHash_leftPath.trans calculateFileHash_rightPath.symm⟩

end Pdq
