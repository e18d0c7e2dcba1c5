import Wincpp.Modules.Image

/-! Objects of a module (`modules/object.hpp`, `modules/object.cpp`, and `fetch_objects` in
`modules/module.cpp`).

`fetch_objects` searches `.data` for the mangled name, `.rdata` for the offset of the type descriptor
that the name belongs to, and `.rdata` again for the address of each locator found that way.
-/
namespace Wincpp
open LittleEndian
set_option autoImplicit false

/-- `complete_object_locator_t`. -/
structure CompleteObjectLocator where
  signature : ℕ
  offset : ℕ
  cdOffset : ℕ
  typeDescriptorOffset : ℤ
  classDescriptorOffset : ℤ
  selfOffset : ℤ
  deriving DecidableEq, Repr

def CompleteObjectLocator.ofBytes (bytes : List UInt8) : CompleteObjectLocator where
  signature := decodeAt bytes 0 4
  offset := decodeAt bytes 4 4
  cdOffset := decodeAt bytes 8 4
  typeDescriptorOffset := asInt32 (decodeAt bytes 12 4)
  classDescriptorOffset := asInt32 (decodeAt bytes 16 4)
  selfOffset := asInt32 (decodeAt bytes 20 4)

theorem CompleteObjectLocator.ofBytes_typeDescriptorOffset (bytes : List UInt8) :
    (ofBytes bytes).typeDescriptorOffset = asInt32 (decodeAt bytes 12 4) := by
  rw [ofBytes]

/-- `read< complete_object_locator_t >`. -/
def Process.readLocator (p : Process) (address : ℕ) : Run CompleteObjectLocator :=
  return .ofBytes (← p.read address 24).bytes

/-- `object_t`, without the pointer to its module. -/
structure Object where
  vtable : ℕ
  col : CompleteObjectLocator
  deriving DecidableEq, Repr

/-- The pattern of an object of `w` bytes that holds the number `z`. -/
def Pattern.ofInt (w : ℕ) (z : ℤ) : Pattern := .ofBytes (encode w (z % 256 ^ w).toNat)

@[simp] theorem Pattern.ofInt_size (w : ℕ) (z : ℤ) : (ofInt w z).size = w := encode_length ..

theorem Pattern.ofInt_strict (w : ℕ) (z : ℤ) : (ofInt w z).Strict := ofBytes_strict _

namespace Module
variable (m : Module)

/-- The offset of the type descriptor whose name stands at `result`. -/
def typeDescriptorRva (result : ℕ) : ℤ :=
  let typeDescriptorAddress := asSize (result - 16)
  asInt32 (asSize (typeDescriptorAddress - m.address))

/-- One round of the loop over the cross references. -/
def objectOf (rdata : Section) (fuel reference : ℕ) : Run (Option Object) := do
  let colAddress := asSize (reference - 12)
  let col ← m.process.readLocator colAddress
  if col.signature ≠ 1 then
    return none
  else
    match ← rdata.find m.process (.ofInt 8 colAddress) fuel with
    | none => return none
    | some colReference => return some ⟨asSize (colReference + 8), col⟩

def objectsLoop (rdata : Section) (fuel : ℕ) : List ℕ → List Object → Run (List Object)
  | [], objects => return objects
  | reference :: references, objects => do
    match ← m.objectOf rdata fuel reference with
    | none => objectsLoop rdata fuel references objects
    | some object => objectsLoop rdata fuel references (objects ++ [object])

def fetchObjects (mangled : List UInt8) (fuel : ℕ) : Run (List Object) := do
  let data ← m.fetchSection (chars ".data")
  let rdata ← m.fetchSection (chars ".rdata")
  match data, rdata with
  | some data, some rdata =>
    match ← data.find m.process (.ofBytes mangled) fuel with
    | none => return []
    | some result =>
      let crossReferences ←
        rdata.findAll m.process (.ofInt 4 (m.typeDescriptorRva result)) fuel
      m.objectsLoop rdata fuel crossReferences []
  | _, _ => return []

end Module
end Wincpp
