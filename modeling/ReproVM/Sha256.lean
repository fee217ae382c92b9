/-
# The streaming SHA-256 of `cas.c`

`sha256_init`, `sha256_update` and `sha256_final` hash a message that arrives in pieces: a
64-byte buffer is filled, compressed whenever it is full, and padded in place at the end.
`SHA256_CTX` itself is not defined in the repository; its layout here is the one `cas.c` uses:
`data[64]`, a 32-bit `datalen`, a 64-bit `bitlen` and eight 32-bit words of `state`.
-/
import ReproVM.Lib.Bytes
import ReproVM.Lib.Fips180

namespace ReproVM

open Fips180 (Words8)

/-! ## 1. The compression function -/

/-- The table `k[64]`. -/
def k : List UInt32 :=
  [0x428a2f98, 0x71374491, 0xb5c0fbcf, 0xe9b5dba5, 0x3956c25b, 0x59f111f1, 0x923f82a4, 0xab1c5ed5,
   0xd807aa98, 0x12835b01, 0x243185be, 0x550c7dc3, 0x72be5d74, 0x80deb1fe, 0x9bdc06a7, 0xc19bf174,
   0xe49b69c1, 0xefbe4786, 0x0fc19dc6, 0x240ca1cc, 0x2de92c6f, 0x4a7484aa, 0x5cb0a9dc, 0x76f988da,
   0x983e5152, 0xa831c66d, 0xb00327c8, 0xbf597fc7, 0xc6e00bf3, 0xd5a79147, 0x06ca6351, 0x14292967,
   0x27b70a85, 0x2e1b2138, 0x4d2c6dfc, 0x53380d13, 0x650a7354, 0x766a0abb, 0x81c2c92e, 0x92722c85,
   0xa2bfe8a1, 0xa81a664b, 0xc24b8b70, 0xc76c51a3, 0xd192e819, 0xd6990624, 0xf40e3585, 0x106aa070,
   0x19a4c116, 0x1e376c08, 0x2748774c, 0x34b0bcb5, 0x391c0cb3, 0x4ed8aa4a, 0x5b9cca4f, 0x682e6ff3,
   0x748f82ee, 0x78a5636f, 0x84c87814, 0x8cc70208, 0x90befffa, 0xa4506ceb, 0xbef9a3f7, 0xc67178f2]

def rotr (x n : UInt32) : UInt32 := (x >>> n) ||| (x <<< (32 - n))

/-- `SHA256_CTX`. -/
structure Sha256Ctx where
  data : Vector UInt8 64
  datalen : UInt32
  bitlen : UInt64
  state : Words8

/-- The first loop of `sha256_transform`: `m[0] .. m[15]`. -/
def loadWords (data : Bytes) : List UInt32 :=
  (List.range 16).map fun i =>
    ((data.getD (i * 4) 0).toUInt32 <<< 24) ||| ((data.getD (i * 4 + 1) 0).toUInt32 <<< 16) |||
      ((data.getD (i * 4 + 2) 0).toUInt32 <<< 8) ||| (data.getD (i * 4 + 3) 0).toUInt32

/-- One pass of the second loop: `m[i]` from the words before it. -/
def extendWords (m : List UInt32) (i : Nat) : List UInt32 :=
  let s0 := rotr (m.getD (i - 15) 0) 7 ^^^ rotr (m.getD (i - 15) 0) 18 ^^^ (m.getD (i - 15) 0 >>> 3)
  let s1 := rotr (m.getD (i - 2) 0) 17 ^^^ rotr (m.getD (i - 2) 0) 19 ^^^ (m.getD (i - 2) 0 >>> 10)
  m ++ [m.getD (i - 16) 0 + s0 + m.getD (i - 7) 0 + s1]

/-- The array `m[64]`. -/
def messageWords (data : Bytes) : List UInt32 :=
  (List.range' 16 48).foldl extendWords (loadWords data)

/-- One pass of the third loop, on the locals `a .. h`. -/
def transformRound (m : List UInt32) (v : Words8) (i : Nat) : Words8 :=
  let S1 := rotr v.e 6 ^^^ rotr v.e 11 ^^^ rotr v.e 25
  let ch := (v.e &&& v.f) ^^^ (~~~v.e &&& v.g)
  let temp1 := v.h + S1 + ch + k.getD i 0 + m.getD i 0
  let S0 := rotr v.a 2 ^^^ rotr v.a 13 ^^^ rotr v.a 22
  let maj := (v.a &&& v.b) ^^^ (v.a &&& v.c) ^^^ (v.b &&& v.c)
  let temp2 := S0 + maj
  ⟨temp1 + temp2, v.a, v.b, v.c, v.d + temp1, v.e, v.f, v.g⟩

def sha256Transform (ctx : Sha256Ctx) (data : Bytes) : Sha256Ctx :=
  let m := messageWords data
  { ctx with state := ctx.state.add ((List.range 64).foldl (transformRound m) ctx.state) }

/-! ## 2. The streaming interface -/

/-- `sha256_init` leaves `data` as it finds it. -/
def sha256Init (ctx : Sha256Ctx) : Sha256Ctx :=
  { ctx with
    datalen := 0
    bitlen := 0
    state := ⟨0x6a09e667, 0xbb67ae85, 0x3c6ef372, 0xa54ff53a,
              0x510e527f, 0x9b05688c, 0x1f83d9ab, 0x5be0cd19⟩ }

/-- The body of the loop of `sha256_update`. -/
def sha256UpdateByte (ctx : Sha256Ctx) (b : UInt8) : Sha256Ctx :=
  let ctx := { ctx with
    data := ctx.data.setIfInBounds ctx.datalen.toNat b
    datalen := ctx.datalen + 1 }
  if ctx.datalen = 64 then
    let ctx := sha256Transform ctx ctx.data.toList
    { ctx with bitlen := ctx.bitlen + 512, datalen := 0 }
  else ctx

def sha256Update (ctx : Sha256Ctx) (data : Bytes) : Sha256Ctx := data.foldl sha256UpdateByte ctx

/-- `data[i++] = 0x80; while (i < stop) data[i++] = 0x00;` -/
def padBuffer (data : Vector UInt8 64) (i stop : Nat) : Vector UInt8 64 :=
  (List.range' (i + 1) (stop - (i + 1))).foldl (fun d j => d.setIfInBounds j 0)
    (data.setIfInBounds i 0x80)

/-- The eight stores of `bitlen` into `data[63] .. data[56]`. -/
def storeBitlen (data : Vector UInt8 64) (bitlen : UInt64) : Vector UInt8 64 :=
  (List.range 8).foldl
    (fun d j => d.setIfInBounds (63 - j) (bitlen >>> UInt64.ofNat (8 * j)).toUInt8) data

/-- The last loop of `sha256_final`: `hash[j + i*4]` is byte `j` of `state[i]`, high byte
first. -/
def storeHash (state : Words8) : Bytes :=
  state.toList.flatMap fun w =>
    (List.range 4).map fun j => ((w >>> UInt32.ofNat (24 - j * 8)) &&& 0x000000ff).toUInt8

def sha256Final (ctx : Sha256Ctx) : Bytes :=
  let i := ctx.datalen.toNat
  let ctx :=
    if ctx.datalen < 56 then { ctx with data := padBuffer ctx.data i 56 }
    else
      let ctx := { ctx with data := padBuffer ctx.data i 64 }
      let ctx := sha256Transform ctx ctx.data.toList
      -- memset(ctx->data, 0, 56)
      { ctx with data := (List.range 56).foldl (fun d j => d.setIfInBounds j 0) ctx.data }
  let ctx := { ctx with bitlen := ctx.bitlen + (ctx.datalen * 8).toUInt64 }
  let ctx := { ctx with data := storeBitlen ctx.data ctx.bitlen }
  storeHash (sha256Transform ctx ctx.data.toList).state

/-- A context before `sha256_init`; every caller's is on the stack and holds anything. -/
def Sha256Ctx.fresh : Sha256Ctx := ⟨Vector.replicate 64 0, 0, 0, ⟨0, 0, 0, 0, 0, 0, 0, 0⟩⟩

/-- The sequence init, one update, final, as `cas_store_blob_from_memory` and
`compute_task_hash` run it. -/
def sha256 (data : Bytes) : Bytes := sha256Final (sha256Update (sha256Init .fresh) data)

end ReproVM
