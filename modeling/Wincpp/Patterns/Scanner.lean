import Wincpp.Patterns.Pattern

/-! The scanner (`patterns/scanner.hpp`, `patterns/scanner.cpp`).

Every loop of an `index_of` carries fuel for one more round than it can make; a run that would need
more stops with `outOfFuel`. Only `find_all`, whose cursor is a 32-bit `int`, takes its fuel from
the caller, because its loop may really go on for ever.
-/
namespace Wincpp.Scanner
set_option autoImplicit false

inductive Algorithm
  | naive
  | bmh
  | raita
  | tbm
  deriving DecidableEq, Repr

variable (pattern : Pattern) (buffer : Span)

/-- `pattern.mask[ i ] && pattern.bytes[ i ] != buffer[ z ]`. -/
def differs (i : ℕ) (z : ℤ) : Run Bool := do
  if ← index pattern.mask i then
    return (← index pattern.bytes i) != (← buffer.byteAt z)
  else
    return false

/-! ## `index_of< naive_t >`

In both loops the last argument counts the rounds to go. -/

def naiveMatch (it : ℕ) : ℕ → Run Bool
  | 0 => return false
  | rest + 1 => do
    let i := pattern.size - (rest + 1)
    if ← differs pattern buffer i (it + i) then
      return false
    else if i = pattern.size - 1 then
      return true
    else
      let _ ← int32 (i + 1)
      naiveMatch it rest

def naiveLoop : ℕ → Run ℤ
  | 0 => return -1
  | rest + 1 => do
    let it := buffer.size - (rest + 1)
    if ← naiveMatch pattern buffer it pattern.size then int64 it else naiveLoop rest

def indexOfNaive : Run ℤ := naiveLoop pattern buffer buffer.size

/-! ## The skip table -/

/-- `skip_table[ 256 ]` after the first `i` rounds of the loop that fills it. -/
def skipTable : ℕ → Run (Vector ℕ 256)
  | 0 => return .replicate 256 pattern.size
  | i + 1 => do
    let table ← skipTable i
    if ← index pattern.mask i then
      let b ← index pattern.bytes i
      return table.set b.toNat (pattern.size - 1 - i) b.toNat_lt
    else
      return table

def skip (table : Vector ℕ 256) (b : UInt8) : ℕ :=
  have : b.toNat < 256 := b.toNat_lt
  table[b.toNat]

def cannotMatch : Bool := pattern.size = 0 || buffer.size = 0 || pattern.size > buffer.size

/-! ## `index_of< bmh_t >` -/

/-- The comparison of the window at `bufferIdx`, from the right end down, with the positions below the
last argument to go. The value is the index of the first failing position, or `-1`. -/
def bmhMatch (bufferIdx : ℤ) : ℕ → Run ℤ
  | 0 => return -1
  | patternIdx + 1 => do
    if ← differs pattern buffer patternIdx (bufferIdx + patternIdx) then
      return patternIdx
    else
      bmhMatch bufferIdx patternIdx

def bmhLoop (table : Vector ℕ 256) (last : ℤ) : ℕ → ℤ → Run ℤ
  | 0, _ => .error .outOfFuel
  | fuel + 1, bufferIdx =>
    if bufferIdx ≤ last then do
      let start ← int64 (pattern.size - 1)
      let patternIdx ← bmhMatch pattern buffer bufferIdx (start + 1).toNat
      if patternIdx < 0 then
        return bufferIdx
      else
        let lastByte ← buffer.byteAt (bufferIdx + pattern.size - 1)
        bmhLoop table last fuel (← int64 (bufferIdx + skip table lastByte))
    else
      return -1

def indexOfBmh : Run ℤ :=
  if cannotMatch pattern buffer then
    return -1
  else do
    let table ← skipTable pattern (pattern.size - 1)
    bmhLoop pattern buffer table (← int64 (buffer.size - pattern.size)) (buffer.size + 1) 0

/-! ## `index_of< tbm_t >` -/

/-- The comparison of the window at `j`, which does not look at the mask. -/
def tbmMatch (j : ℤ) : ℕ → Run ℤ
  | 0 => return -1
  | i + 1 => do
    if (← index pattern.bytes i) == (← buffer.byteAt (j + i)) then
      tbmMatch j i
    else
      return i

/-- The turbo shift set by a window that fails at `i` when none is carried. -/
def tbmShift (i turboShift : ℤ) : Run ℤ := do
  if (← sizeT i) < pattern.size - 1 then
    int64 (pattern.size - 1 - i)
  else
    return turboShift

def tbmLoop (table : Vector ℕ 256) (last : ℤ) : ℕ → ℤ → ℤ → Run ℤ
  | 0, _, _ => .error .outOfFuel
  | fuel + 1, j, turboShift =>
    if j ≤ last then do
      let start ← int64 (pattern.size - 1)
      let i ← tbmMatch pattern buffer j (start + 1).toNat
      if i < 0 then
        return j
      else
        let shift ← int64 (skip table (← buffer.byteAt (j + pattern.size - 1)))
        if turboShift > 0 then
          -- the carried shift is dropped without being used
          tbmLoop table last fuel (← int64 (j + max (max 1 shift) 0)) 0
        else
          let turboShift ← tbmShift pattern i turboShift
          tbmLoop table last fuel (← int64 (j + max shift turboShift)) turboShift
    else
      return -1

def indexOfTbm : Run ℤ :=
  if cannotMatch pattern buffer then
    return -1
  else do
    let table ← skipTable pattern (pattern.size - 1)
    tbmLoop pattern buffer table (← int64 (buffer.size - pattern.size)) (buffer.size + 1) 0 0

/-! ## `index_of< raita_t >` -/

/-- The loop over the positions `1 .. lastIdx - 1`, with `rest` of them to go. The value is the
index at which it stops. -/
def raitaMatch (bufferIdx : ℤ) (lastIdx : ℕ) : ℕ → Run ℕ
  | 0 => return max 1 lastIdx
  | rest + 1 => do
    let patternIdx := lastIdx - (rest + 1)
    if ← differs pattern buffer patternIdx (bufferIdx + patternIdx) then
      return patternIdx
    else
      raitaMatch bufferIdx lastIdx rest

def raitaWindow (bufferIdx : ℤ) (lastIdx midIdx : ℕ) : Run Bool := do
  if ← differs pattern buffer lastIdx (bufferIdx + lastIdx) then return false
  else if ← differs pattern buffer 0 bufferIdx then return false
  else if ← differs pattern buffer midIdx (bufferIdx + midIdx) then return false
  else return (← raitaMatch pattern buffer bufferIdx lastIdx (lastIdx - 1)) == lastIdx

def raitaLoop (table : Vector ℕ 256) (lastIdx midIdx : ℕ) (last : ℤ) : ℕ → ℤ → Run ℤ
  | 0, _ => .error .outOfFuel
  | fuel + 1, bufferIdx =>
    if bufferIdx ≤ last then do
      if ← raitaWindow pattern buffer bufferIdx lastIdx midIdx then
        return bufferIdx
      else
        let lastByte ← buffer.byteAt (bufferIdx + lastIdx)
        raitaLoop table lastIdx midIdx last fuel (← int64 (bufferIdx + skip table lastByte))
    else
      return -1

def indexOfRaita : Run ℤ :=
  if cannotMatch pattern buffer then
    return -1
  else do
    let lastIdx := pattern.size - 1
    let table ← skipTable pattern lastIdx
    raitaLoop pattern buffer table lastIdx (pattern.size / 2)
      (← int64 (buffer.size - pattern.size)) (buffer.size + 1) 0

/-! ## `find` and `find_all` -/

def indexOf : Algorithm → Run ℤ
  | .naive => indexOfNaive pattern buffer
  | .bmh => indexOfBmh pattern buffer
  | .raita => indexOfRaita pattern buffer
  | .tbm => indexOfTbm pattern buffer

def find (algorithm : Algorithm) : Run (Option ℕ) := do
  let result ← indexOf pattern buffer algorithm
  if result ≠ -1 then
    return some (← sizeT result)
  else
    return none

/-- The loop of `find_all`. The cursor is an `int`: it is compared with the size as a `size_t`, and
the new value `i + result + pattern.size` is cut to 32 bits. -/
def findAllLoop (algorithm : Algorithm) : ℕ → ℤ → List ℕ → Run (List ℕ)
  | 0, _, _ => .error .outOfFuel
  | fuel + 1, i, results =>
    if asSize i < buffer.size then do
      let result ← indexOf pattern (buffer.subspan (asSize i)) algorithm
      if result = -1 then
        return results
      else
        findAllLoop algorithm fuel (asInt32 (i + result + pattern.size))
          (results ++ [asSize (i + result)])
    else
      return results

def findAll (algorithm : Algorithm) (fuel : ℕ) : Run (List ℕ) :=
  findAllLoop pattern buffer algorithm fuel 0 []

end Wincpp.Scanner
