import NyxDb.Lib.Bytes

/-!
# The checksum of log records

XXH64 with seed `0`, as `common/xxhash.h` computes it.
-/

namespace NyxDb
namespace XxHash

def prime1 : UInt64 := 0x9E3779B185EBCA87
def prime2 : UInt64 := 0xC2B2AE3D27D4EB4F
def prime3 : UInt64 := 0x165667B19E3779F9
def prime4 : UInt64 := 0x85EBCA77C2B2AE63
def prime5 : UInt64 := 0x27D4EB2F165667C5

def rotl64 (x r : UInt64) : UInt64 :=
  (x <<< r) ||| (x >>> (64 - r))

def read64 (p : Bytes) : UInt64 :=
  UInt64.ofNat (leNat (p.take 8))

def read32 (p : Bytes) : UInt64 :=
  UInt64.ofNat (leNat (p.take 4))

def round (acc input : UInt64) : UInt64 :=
  rotl64 (acc + input * prime2) 31 * prime1

def mergeRound (acc val : UInt64) : UInt64 :=
  (acc ^^^ round 0 val) * prime1 + prime4

/-- The four lanes of the loop over 32-byte stripes. -/
structure Lanes where
  v1 : UInt64
  v2 : UInt64
  v3 : UInt64
  v4 : UInt64

def Lanes.init : Lanes :=
  ⟨prime1 + prime2, prime2, 0, 0 - prime1⟩

/-- Take in one stripe. -/
def Lanes.step (v : Lanes) (p : Bytes) : Lanes where
  v1 := round v.v1 (read64 p)
  v2 := round v.v2 (read64 (p.drop 8))
  v3 := round v.v3 (read64 (p.drop 16))
  v4 := round v.v4 (read64 (p.drop 24))

def Lanes.merge (v : Lanes) : UInt64 :=
  let h := rotl64 v.v1 1 + rotl64 v.v2 7 + rotl64 v.v3 12 + rotl64 v.v4 18
  mergeRound (mergeRound (mergeRound (mergeRound h v.v1) v.v2) v.v3) v.v4

/-- The stripes of the input, and the bytes that are left. -/
def stripes : Nat → Lanes → Bytes → Lanes × Bytes
  | 0, v, p => (v, p)
  | fuel + 1, v, p =>
    if 32 ≤ p.length then stripes fuel (v.step p) (p.drop 32) else (v, p)

/-- The whole words that are left. -/
def words : Nat → UInt64 → Bytes → UInt64 × Bytes
  | 0, h, p => (h, p)
  | fuel + 1, h, p =>
    if 8 ≤ p.length then
      words fuel (rotl64 (h ^^^ round 0 (read64 p)) 27 * prime1 + prime4) (p.drop 8)
    else (h, p)

/-- A half word, if there is one left. -/
def halfWord (h : UInt64) (p : Bytes) : UInt64 × Bytes :=
  if 4 ≤ p.length then (rotl64 (h ^^^ read32 p * prime1) 23 * prime2 + prime3, p.drop 4)
  else (h, p)

/-- The last bytes. -/
def tailBytes (h : UInt64) (p : Bytes) : UInt64 :=
  p.foldl (fun h b => rotl64 (h ^^^ UInt64.ofNat b.toNat * prime5) 11 * prime1) h

def avalanche (h : UInt64) : UInt64 :=
  let h := (h ^^^ (h >>> 33)) * prime2
  let h := (h ^^^ (h >>> 29)) * prime3
  h ^^^ (h >>> 32)

end XxHash

open XxHash in
def xxhash64 (data : Bytes) : UInt64 :=
  let (h, p) :=
    if 32 ≤ data.length then
      let (v, p) := stripes data.length Lanes.init data
      (v.merge, p)
    else (prime5, data)
  let (h, p) := words data.length (h + UInt64.ofNat data.length) p
  let (h, p) := halfWord h p
  avalanche (tailBytes h p)

/-- The empty string has a known hash. -/
example : xxhash64 [] = 0xEF46DB3751D8E999 := by decide +kernel

end NyxDb
