import Wincpp.Memory.AddressSpace

/-! Regions and the list that walks over them (`memory/region.hpp`, `memory/region.cpp`). -/
namespace Wincpp
set_option autoImplicit false

/-- `region_t`. -/
structure Region where
  mbi : Mbi
  deriving DecidableEq, Repr

namespace Region

def address (r : Region) : ℕ := r.mbi.baseAddress
def size (r : Region) : ℕ := r.mbi.regionSize
def stop (r : Region) : ℕ := r.address + r.size
def state (r : Region) : UInt32 := r.mbi.state
def protection (r : Region) : UInt32 := r.mbi.protect
def type (r : Region) : UInt32 := r.mbi.type

end Region

/-- `std::uintptr_t( -1 )`, the address of an iterator that has run out of regions. -/
def sentinel : ℕ := 2 ^ 64 - 1

/-- `region_list::iterator`. -/
structure RegionIterator where
  address : ℕ
  mbi : Mbi
  deriving DecidableEq, Repr

namespace RegionIterator

/-- The constructor. It throws when the query fails, inside the `noexcept` functions `begin` and
`end`. -/
def create (L : Layout) (address : ℕ) : Run RegionIterator :=
  if address ≠ sentinel then
    match L.virtualQueryEx address with
    | some mbi => .ok ⟨address, mbi⟩
    | none => .error .terminate
  else
    .ok ⟨address, default⟩

/-- `operator++`. A failing query leaves the information of the last region in place. -/
def next (L : Layout) (it : RegionIterator) : RegionIterator :=
  let address := (it.mbi.baseAddress + it.mbi.regionSize) % 2 ^ 64
  match L.virtualQueryEx address with
  | some mbi => ⟨address, mbi⟩
  | none => ⟨sentinel, it.mbi⟩

def region (it : RegionIterator) : Region := ⟨it.mbi⟩

end RegionIterator

/-- `region_list`. -/
structure RegionList where
  start : ℕ
  stop : ℕ

/-- `memory_factory::regions`. -/
def regions (start : ℕ := 0) (stop : ℕ := sentinel) : RegionList := ⟨start, stop⟩

section Loop
variable {σ : Type} (L : Layout) (body : Region → σ → Run (ForInStep σ))

/-- The rounds of `for ( const auto& region : list ) body`, whose body may leave the loop. -/
def forRegions (stop : ℕ) : ℕ → RegionIterator → σ → Run σ
  | 0, _, _ => .error .outOfFuel
  | fuel + 1, it, s =>
    if it.address ≠ stop then do
      match ← body it.region s with
      | .done s => return s
      | .yield s => forRegions stop fuel (it.next L) s
    else
      return s

/-- The whole loop: `begin()`, `end()`, then the rounds. -/
def RegionList.forIn (list : RegionList) (fuel : ℕ) (s : σ) : Run σ := do
  let first ← RegionIterator.create L list.start
  let last ← RegionIterator.create L list.stop
  forRegions L body last.address fuel first s

/-- A loop whose body returns at least as much returns at least as much, with more fuel too. -/
theorem forRegions_below {body' : Region → σ → Run (ForInStep σ)}
    (hbody : ∀ r s, Run.Below (body r s) (body' r s)) (stop : ℕ) (it : RegionIterator) (s : σ)
    {n m : ℕ} (h : n ≤ m) :
    Run.Below (forRegions L body stop n it s) (forRegions L body' stop m it s) := by
  induction n generalizing m it s with
  | zero =>
    intro a ha
    cases ha
  | succ n ih =>
    obtain ⟨m, rfl⟩ : ∃ k, m = k + 1 := ⟨m - 1, by omega⟩
    simp only [forRegions]
    split
    · apply Run.Below.bind (hbody _ _)
      intro step
      cases step with
      | done s' => exact Run.Below.refl _
      | yield s' => exact ih _ _ (by omega)
    · exact Run.Below.refl _

theorem forIn_below {body' : Region → σ → Run (ForInStep σ)}
    (hbody : ∀ r s, Run.Below (body r s) (body' r s)) (list : RegionList) (s : σ) {n m : ℕ}
    (h : n ≤ m) : Run.Below (list.forIn L body n s) (list.forIn L body' m s) :=
  Run.Below.bind (Run.Below.refl _) fun _ => Run.Below.bind (Run.Below.refl _) fun _ =>
    forRegions_below L body hbody _ _ _ h

/-- The loop body run over a given list of regions. -/
def foldRegions : List Region → σ → Run (ForInStep σ)
  | [], s => return .yield s
  | r :: rs, s => do
    match ← body r s with
    | .done s => return .done s
    | .yield s => foldRegions rs s

end Loop

def collect (r : Region) (acc : List Region) : Run (ForInStep (List Region)) :=
  .ok (.yield (acc ++ [r]))

def RegionList.toList (L : Layout) (list : RegionList) (fuel : ℕ) : Run (List Region) :=
  list.forIn L collect fuel []

end Wincpp
