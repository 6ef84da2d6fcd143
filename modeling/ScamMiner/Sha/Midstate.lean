import ScamMiner.Shared.Buffer
import ScamMiner.Shared.Sha256

set_option autoImplicit false

namespace ScamMiner

open Fips180 (Block State)

def IV : State := #v[
  0x6a09e667, 0xbb67ae85, 0x3c6ef372, 0xa54ff53a, 0x510e527f, 0x9b05688c, 0x1f83d9ab, 0x5be0cd19]

-- The compression function is external code, so the chaining state is any type. `usize` indices are
-- `Nat`; `total` wraps as `u64` does in a release build.
structure Midstate (σ : Type) where
  state : σ
  buf : Block
  buffered : Nat
  total : UInt64

namespace Midstate

variable {σ : Type}

def new (iv : σ) : Midstate σ :=
  { state := iv, buf := Vector.replicate 64 0, buffered := 0, total := 0 }

def totalLen (mid : Midstate σ) : UInt64 := mid.total

def midstateParts (mid : Midstate σ) : σ × Block × Nat :=
  (mid.state, mid.buf, mid.buffered)

section
variable (compress : σ -> Block -> σ)

-- The body of the `while` loop of `update` for the `n` bytes it takes.
def absorbChunk (mid : Midstate σ) (chunk : List UInt8) : Option (Midstate σ) := do
  let buf ← Buffer.copyFromSlice mid.buf mid.buffered (mid.buffered + chunk.length) chunk
  let buffered := mid.buffered + chunk.length
  if buffered = 64 then
    return { mid with state := compress mid.state buf, buf := buf, buffered := 0 }
  else
    return { mid with buf := buf, buffered := buffered }

def updateLoop (mid : Midstate σ) (data : List UInt8) : Option (Midstate σ) :=
  if _nonempty : data ≠ [] then
    let n := min (64 - mid.buffered) data.length
    -- A full buffer never reaches the loop head; `n = 0` would spin forever.
    if _progress : 0 < n then
      (mid.absorbChunk compress (data.take n)).bind fun next => next.updateLoop (data.drop n)
    else none
  else some mid
termination_by data.length
decreasing_by simp only [List.length_drop]; omega

def update (mid : Midstate σ) (data : List UInt8) : Option (Midstate σ) :=
  { mid with total := mid.total + UInt64.ofNat data.length }.updateLoop compress data

def updates (mid : Midstate σ) (slices : List (List UInt8)) : Option (Midstate σ) :=
  slices.foldlM (fun current data => current.update compress data) mid

structure Finishing (σ : Type) where
  state : σ
  buf : Block
  pos : Nat

def Finishing.flush (f : Finishing σ) : Finishing σ :=
  { state := compress f.state f.buf, buf := Vector.replicate 64 0, pos := 0 }

-- The head of the loop of `finish_raw`: a full block is flushed only when more bytes follow.
def Finishing.makeRoom (f : Finishing σ) : Finishing σ :=
  if f.pos = 64 then f.flush compress else f

def tailLoop (f : Finishing σ) (t : List UInt8) : Option (Finishing σ) :=
  if _nonempty : t ≠ [] then
    let g := f.makeRoom compress
    let n := min (64 - g.pos) t.length
    if _progress : 0 < n then
      (Buffer.copyFromSlice g.buf g.pos (g.pos + n) (t.take n)).bind fun buf =>
        tailLoop { g with buf := buf, pos := g.pos + n } (t.drop n)
    else none
  else some f
termination_by t.length
decreasing_by simp only [List.length_drop, n, g] at *; omega

def toBeBytes (n : UInt64) : List UInt8 :=
  [(n >>> 56).toUInt8, (n >>> 48).toUInt8, (n >>> 40).toUInt8, (n >>> 32).toUInt8,
    (n >>> 24).toUInt8, (n >>> 16).toUInt8, (n >>> 8).toUInt8, n.toUInt8]

-- What follows the loop of `finish_raw`.
def padLast (f : Finishing σ) (bitLen : UInt64) : Option σ := do
  let marked ← Buffer.store f.buf f.pos 0x80
  let f := { f with buf := marked, pos := f.pos + 1 }
  let f := if 56 < f.pos then f.flush compress else f
  let cleared ← Buffer.fill f.buf f.pos 56 0
  let sized ← Buffer.copyFromSlice cleared 56 64 (toBeBytes bitLen)
  return compress f.state sized

def finishRaw (mid : Midstate σ) (tail : List UInt8) : Option σ :=
  (tailLoop compress { state := mid.state, buf := mid.buf, pos := mid.buffered } tail).bind fun f =>
    padLast compress f ((mid.total + UInt64.ofNat tail.length) * 8)

end

end Midstate

end ScamMiner
