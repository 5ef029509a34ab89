import GatOS.BoundedQueue
import GatOS.Transition

/-!
# Pipes

The bytes of a pipe, as `write` and `read` store and take them. The processes that a call blocks
or wakes are left out.
-/
namespace GatOS.IPC

def pipeLength : ℕ := 10

/-- `endPosition` is the field `end`; `pipe` holds the bytes. -/
structure Pipe where
  position : ℕ
  endPosition : ℕ
  readFlag : Bool
  pipe : ℕ → UInt8

/-- The bytes are the ones that `memory` happens to hold. -/
def createPipeStruct (memory : ℕ → UInt8) : Pipe where
  position := 0
  endPosition := 0
  readFlag := false
  pipe := memory

/-- Of an offset in the array. -/
def next (aux : ℕ) : ℕ := if aux + 1 = pipeLength then 0 else aux + 1

/-- The loop of `write`: the number of bytes and the array. The list is the memory that `current`
runs through; behind it there is the final zero. -/
def writeLoop (p : Pipe) : List UInt8 → ℕ → ℕ → (ℕ → UInt8) → ℕ × (ℕ → UInt8)
  | [], _, bytes, pipe => (bytes, pipe)
  | current :: rest, aux, bytes, pipe =>
    if current ≠ 0 ∧ ((p.endPosition + bytes) % pipeLength ≠ p.position ∨ bytes = 0) then
      writeLoop p rest (next aux) (bytes + 1) fun i => if i = aux then current else pipe i
    else (bytes, pipe)

def write (message : List UInt8) (p : Pipe) : ℕ × Pipe :=
  if p.position = p.endPosition ∧ p.readFlag = true then (0, p)
  else
    let r := writeLoop p message p.endPosition 0 p.pipe
    let endPosition := (p.endPosition + r.1) % pipeLength
    (r.1, { p with
      pipe := r.2
      endPosition := endPosition
      readFlag := if endPosition = p.position then true else p.readFlag })

/-- The loop of `read`; the first argument is `bytes - i`. -/
def readLoop (p : Pipe) : ℕ → ℕ → ℕ → List UInt8
  | 0, _, _ => []
  | n + 1, aux, i =>
    if (i + p.position) % pipeLength ≠ p.endPosition ∨ i = 0 then
      p.pipe aux :: readLoop p n (next aux) (i + 1)
    else []

/-- The bytes that are stored in `result`; the call returns their number. -/
def read (bytes : ℤ) (p : Pipe) : List UInt8 × Pipe :=
  if p.position = p.endPosition ∧ p.readFlag = false then ([], p)
  else
    let bytes := if bytes = -1 then (pipeLength : ℤ) else bytes
    let result := readLoop p bytes.toNat p.position 0
    (result, { p with
      position := (p.position + result.length) % pipeLength
      readFlag := false })

end GatOS.IPC
