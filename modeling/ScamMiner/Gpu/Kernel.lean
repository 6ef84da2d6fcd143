import ScamMiner.Gpu.TailWords
import ScamMiner.Sha.Difficulty

set_option autoImplicit false

namespace ScamMiner.Gpu

open Fips180 (State Words Work)

-- The shaders differ in the schedule they keep and in the exchange that publishes a match; the rest
-- of a thread is the same text three times. `none` is an index outside an array.
inductive Dialect where
  | wgsl
  | opencl
  | hip
  deriving DecidableEq, Repr

def divmod10U20 (cur : UInt32) : UInt32 × UInt32 :=
  let hi := cur >>> 10
  let lo := cur &&& 0x3ff
  let tmp := hi * 4 + lo
  let qRem := (tmp * 13108) >>> 17
  let rem := tmp - qRem * 10
  (hi * 102 + qRem, rem)

structure DivMod10 where
  qLo : UInt32
  qHi : UInt32
  rem : UInt32

def divmod10 (lo hi : UInt32) : DivMod10 :=
  let a3 := hi >>> 16
  let a2 := hi &&& 0xffff
  let a1 := lo >>> 16
  let a0 := lo &&& 0xffff
  let d3 := divmod10U20 a3
  let d2 := divmod10U20 ((d3.2 <<< 16) ||| a2)
  let d1 := divmod10U20 ((d2.2 <<< 16) ||| a1)
  let d0 := divmod10U20 ((d1.2 <<< 16) ||| a0)
  { qLo := (d1.1 <<< 16) ||| d0.1, qHi := (d3.1 <<< 16) ||| d2.1, rem := d0.2 }

def K : Vector UInt32 64 := #v[
  0x428a2f98, 0x71374491, 0xb5c0fbcf, 0xe9b5dba5, 0x3956c25b, 0x59f111f1, 0x923f82a4, 0xab1c5ed5,
  0xd807aa98, 0x12835b01, 0x243185be, 0x550c7dc3, 0x72be5d74, 0x80deb1fe, 0x9bdc06a7, 0xc19bf174,
  0xe49b69c1, 0xefbe4786, 0x0fc19dc6, 0x240ca1cc, 0x2de92c6f, 0x4a7484aa, 0x5cb0a9dc, 0x76f988da,
  0x983e5152, 0xa831c66d, 0xb00327c8, 0xbf597fc7, 0xc6e00bf3, 0xd5a79147, 0x06ca6351, 0x14292967,
  0x27b70a85, 0x2e1b2138, 0x4d2c6dfc, 0x53380d13, 0x650a7354, 0x766a0abb, 0x81c2c92e, 0x92722c85,
  0xa2bfe8a1, 0xa81a664b, 0xc24b8b70, 0xc76c51a3, 0xd192e819, 0xd6990624, 0xf40e3585, 0x106aa070,
  0x19a4c116, 0x1e376c08, 0x2748774c, 0x34b0bcb5, 0x391c0cb3, 0x4ed8aa4a, 0x5b9cca4f, 0x682e6ff3,
  0x748f82ee, 0x78a5636f, 0x84c87814, 0x8cc70208, 0x90befffa, 0xa4506ceb, 0xbef9a3f7, 0xc67178f2]

def rotr (x n : UInt32) : UInt32 :=
  (x >>> n) ||| (x <<< (32 - n))

def roundStep (k w : UInt32) (v : Work) : Work :=
  let s1 := rotr v.e 6 ^^^ rotr v.e 11 ^^^ rotr v.e 25
  let ch := (v.e &&& v.f) ^^^ (~~~v.e &&& v.g)
  let temp1 := v.h + s1 + ch + k + w
  let s0 := rotr v.a 2 ^^^ rotr v.a 13 ^^^ rotr v.a 22
  let maj := (v.a &&& v.b) ^^^ (v.a &&& v.c) ^^^ (v.b &&& v.c)
  { a := temp1 + s0 + maj, b := v.a, c := v.b, d := v.c
    e := v.d + temp1, f := v.e, g := v.f, h := v.g }

def addBack (h : State) (v : Work) : State :=
  #v[h[0]! + v.a, h[1]! + v.b, h[2]! + v.c, h[3]! + v.d, h[4]! + v.e, h[5]! + v.f, h[6]! + v.g,
    h[7]! + v.h]

def window (m : Words) (t : Nat) : UInt32 :=
  m[t % 16]

-- One iteration of the WGSL and HIP round loop: the window is updated in place from round 16 on.
def rollingRound (st : Words × Work) (t : Nat) : Words × Work :=
  let (m, v) := st
  let m :=
    if 16 ≤ t then
      let sig0 := rotr (window m (t - 15)) 7 ^^^ rotr (window m (t - 15)) 18 ^^^
        (window m (t - 15) >>> 3)
      let sig1 := rotr (window m (t - 2)) 17 ^^^ rotr (window m (t - 2)) 19 ^^^
        (window m (t - 2) >>> 10)
      m.set (t % 16) (window m t + sig0 + window m (t - 7) + sig1)
    else m
  (m, roundStep (K.toList.getD t 0) (window m t) v)

def rollingBlock (h : State) (m : Words) : State :=
  addBack h ((List.range 64).foldl rollingRound (m, Work.ofState h)).2

def expandStep (w64 : Vector UInt32 64) (t : Nat) : Vector UInt32 64 :=
  let at_ (i : Nat) := w64.toList.getD i 0
  let s0 := ((at_ (t - 15) >>> 7) ||| (at_ (t - 15) <<< 25)) ^^^
    ((at_ (t - 15) >>> 18) ||| (at_ (t - 15) <<< 14)) ^^^ (at_ (t - 15) >>> 3)
  let s1 := ((at_ (t - 2) >>> 17) ||| (at_ (t - 2) <<< 15)) ^^^
    ((at_ (t - 2) >>> 19) ||| (at_ (t - 2) <<< 13)) ^^^ (at_ (t - 2) >>> 10)
  w64.setIfInBounds t (at_ (t - 16) + s0 + at_ (t - 7) + s1)

-- The OpenCL schedule; every entry is written before it is read.
def expand (m : Words) : Vector UInt32 64 :=
  let w64 : Vector UInt32 64 := Vector.ofFn fun t => m.toList.getD t.val 0
  (List.range' 16 48).foldl expandStep w64

def expandedBlock (h : State) (m : Words) : State :=
  let w64 := expand m
  addBack h ((List.range 64).foldl
    (fun v t => roundStep (K.toList.getD t 0) (w64.toList.getD t 0) v) (Work.ofState h))

def Dialect.compressBlock : Dialect -> State -> Words -> State
  | .wgsl => rollingBlock
  | .opencl => expandedBlock
  | .hip => rollingBlock

def threadNonce (params : Params) (idx : UInt32) : UInt32 × UInt32 :=
  let nlo := params.nonceStartLo + idx
  let nhi := params.nonceStartHi
  (nlo, if nlo < params.nonceStartLo then nhi + 1 else nhi)

-- The words of a second block are only copied when there is one.
def copyWords (w constantW : TailWords) (numBlocks : UInt32) : Option TailWords := do
  let w ← Buffer.copyLoop constantW 0 w 0 16
  if numBlocks = 2 then Buffer.copyLoop constantW 16 w 16 16 else some w

structure Overlay where
  curLo : UInt32
  curHi : UInt32
  w : TailWords

def overlayDigit (params : Params) (st : Overlay) (i : Nat) : Option Overlay := do
  let r := divmod10 st.curLo st.curHi
  let pos := params.buffered + (params.nd - 1 - UInt32.ofNat i)
  let wi := (pos >>> 2).toNat
  let shift := 24 - (pos &&& 3) * 8
  let old ← Buffer.load st.w wi
  let w ← Buffer.store st.w wi (old ||| ((0x30 + r.rem) <<< shift))
  return { curLo := r.qLo, curHi := r.qHi, w := w }

def overlayDigits (params : Params) (st : Overlay) : Option Overlay :=
  (List.range params.nd.toNat).foldlM (overlayDigit params) st

def compressBlocks (compressBlock : State -> Words -> State) (w : TailWords) (numBlocks : UInt32)
    (h : State) : Option State :=
  (List.range numBlocks.toNat).foldlM (fun h b => do
    let m ← Buffer.copyLoop w (b * 16) (Vector.replicate 16 0 : Words) 0 16
    return compressBlock h m) h

def zbitsLoop : List UInt32 -> UInt32 -> UInt32
  | [], zbits => zbits
  | word :: rest, zbits =>
    if leadingZeros word < 32 then zbits + leadingZeros word
    else zbitsLoop rest (zbits + leadingZeros word)

def Params.state (params : Params) : State :=
  #v[params.s0, params.s1, params.s2, params.s3, params.s4, params.s5, params.s6, params.s7]

-- What a thread has computed when it comes to publish.
structure Verdict where
  nlo : UInt32
  nhi : UInt32
  w : TailWords
  h : State
  matched : Bool

/-- A thread up to its match; `some none` is the early return, `uninit` what `w` holds at first. -/
def kernelThread (dialect : Dialect) (uninit constantW : TailWords) (params : Params)
    (idx : UInt32) : Option (Option Verdict) :=
  if params.count ≤ idx then some none
  else do
    let (nlo, nhi) := threadNonce params idx
    let w ← copyWords uninit constantW params.numBlocks
    let filled ← overlayDigits params { curLo := nlo, curHi := nhi, w := w }
    let h ← compressBlocks dialect.compressBlock filled.w params.numBlocks params.state
    return some
      { nlo := nlo, nhi := nhi, w := filled.w, h := h
        matched := decide (params.difficulty * 4 ≤ zbitsLoop h.toList 0) }

def Verdict.nonce (v : Verdict) : UInt64 :=
  v.nlo.toUInt64 ||| (v.nhi.toUInt64 <<< 32)

end ScamMiner.Gpu
