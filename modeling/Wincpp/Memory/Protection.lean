import Wincpp.Library.Overwrite
import Wincpp.Memory.Region

/-! Changes of page protections that are taken back (`memory_factory::protect`,
`memory/protection_operation.cpp`).

An operation keeps the range of the change and the flags that `VirtualProtectEx` has reported for the
first page of it. Its deleter gives these flags to all pages of the range, so that it restores the
pages exactly when they all had the flags of the first one.
-/
namespace Wincpp
open Overwrite
set_option autoImplicit false

/-- The protection of each page of a process, by the number of the page. -/
abbrev PageMap := ℕ → UInt32

/-- The page and the range `[address, address + size)` have an address in common. -/
def touches (address size page : ℕ) : Bool :=
  page * pageSize < address + size && address < (page + 1) * pageSize

theorem touches_iff {address size page : ℕ} :
    touches address size page = true ↔
      page * pageSize < address + size ∧ address < (page + 1) * pageSize := by
  simp [touches]

/-- `VirtualProtectEx`, where `accepts` says which calls succeed. -/
def virtualProtectEx (accepts : PageMap → ℕ → ℕ → UInt32 → Bool) (pages : PageMap)
    (address size : ℕ) (newProtect : UInt32) : Option (PageMap × UInt32) :=
  if accepts pages address size newProtect then
    some (overwrite (touches address size) newProtect pages, pages (address / pageSize))
  else
    none

/-- `protection_operation_t`. -/
structure ProtectionOperation where
  address : ℕ
  size : ℕ
  newFlags : UInt32
  oldFlags : UInt32
  deriving DecidableEq, Repr

section Calls
variable (accepts : PageMap → ℕ → ℕ → UInt32 → Bool) (pages : PageMap)

/-- `memory_factory::protect`; `none` stands for the exception. -/
def protect (address size : ℕ) (newFlags : UInt32) : Option (PageMap × ProtectionOperation) := do
  let (pages, oldFlags) ← virtualProtectEx accepts pages address size newFlags
  return (pages, ⟨address, size, newFlags, oldFlags⟩)

/-- `region_t::protect`. -/
def Region.protect (r : Region) (newFlags : UInt32) : Option (PageMap × ProtectionOperation) :=
  Wincpp.protect accepts pages r.address r.size newFlags

/-- `protection_operation_t::deleter::operator()`. -/
def ProtectionOperation.destroy (operation : ProtectionOperation) : Option PageMap := do
  let (pages, _) ← virtualProtectEx accepts pages operation.address operation.size operation.oldFlags
  return pages

end Calls

/-- All pages of the range have the flags of the first one. -/
def Uniform (pages : PageMap) (address size : ℕ) : Prop :=
  ∀ page, touches address size page = true → pages page = pages (address / pageSize)

section Specs
variable {accepts : PageMap → ℕ → ℕ → UInt32 → Bool} {pages pages' : PageMap}

theorem virtualProtectEx_eq_some_iff {address size : ℕ} {newProtect oldProtect : UInt32} :
    virtualProtectEx accepts pages address size newProtect = some (pages', oldProtect) ↔
      accepts pages address size newProtect = true ∧
        pages' = overwrite (touches address size) newProtect pages ∧
        oldProtect = pages (address / pageSize) := by
  unfold virtualProtectEx
  split
  · rename_i h
    simp only [Option.some.injEq, Prod.mk.injEq, h, true_and, eq_comm]
  · rename_i h
    simp [h]

theorem protect_spec {address size : ℕ} {newFlags : UInt32} {operation : ProtectionOperation}
    (h : protect accepts pages address size newFlags = some (pages', operation)) :
    pages' = overwrite (touches address size) newFlags pages ∧
      operation = ⟨address, size, newFlags, pages (address / pageSize)⟩ := by
  obtain ⟨⟨pages₁, oldFlags⟩, hcall, he⟩ := Option.bind_eq_some_iff.mp h
  obtain ⟨-, rfl, rfl⟩ := virtualProtectEx_eq_some_iff.mp hcall
  cases he
  exact ⟨rfl, rfl⟩

theorem destroy_spec {operation : ProtectionOperation}
    (h : operation.destroy accepts pages = some pages') :
    pages' = overwrite (touches operation.address operation.size) operation.oldFlags pages := by
  obtain ⟨⟨pages₁, oldFlags⟩, hcall, he⟩ := Option.bind_eq_some_iff.mp h
  obtain ⟨-, rfl, -⟩ := virtualProtectEx_eq_some_iff.mp hcall
  cases he
  rfl

/-- The pages after an operation that has been destroyed at once. -/
theorem destroyed_eq {address size : ℕ} {newFlags : UInt32} {operation : ProtectionOperation}
    {pages'' : PageMap}
    (hprotect : protect accepts pages address size newFlags = some (pages', operation))
    (hdestroy : operation.destroy accepts pages' = some pages'') :
    pages'' = overwrite (touches address size) (pages (address / pageSize)) pages := by
  obtain ⟨rfl, rfl⟩ := protect_spec hprotect
  rw [destroy_spec hdestroy, overwrite_overwrite]

end Specs

/-! ## One operation -/

/-- Destroying an operation restores all pages exactly when the pages of its range had the same
flags before. -/
theorem protect_destroy_iff (accepts : PageMap → ℕ → ℕ → UInt32 → Bool)
    (pages pages' pages'' : PageMap) (address size : ℕ) (newFlags : UInt32)
    (operation : ProtectionOperation)
    (hprotect : protect accepts pages address size newFlags = some (pages', operation))
    (hdestroy : operation.destroy accepts pages' = some pages'') :
    pages'' = pages ↔ Uniform pages address size := by
  rw [destroyed_eq hprotect hdestroy, overwrite_eq_self_iff]
  rfl

/-- A writable page and a read-only one behind it. -/
def samplePages : PageMap := fun page => if page = 1 then pageReadwrite else 0x02

/-- Both pages are made executable and then writable. -/
theorem protect_destroy_second_page :
    ¬ ∀ (accepts : PageMap → ℕ → ℕ → UInt32 → Bool) (pages pages' pages'' : PageMap)
      (address size : ℕ) (newFlags : UInt32) (operation : ProtectionOperation), 1 ≤ size →
      protect accepts pages address size newFlags = some (pages', operation) →
      operation.destroy accepts pages' = some pages'' → pages'' = pages := by
  intro hall
  have heq := hall (fun _ _ _ _ => true) samplePages _ _ 0x1000 0x2000 0x40 _ (by decide) rfl rfl
  have hpage : samplePages 2 = 0x02 := rfl
  rw [← heq] at hpage
  revert hpage
  decide

theorem protect_destroy_iff_page :
    overwrite (touches 0x1800 0x400) pageReadwrite
        (overwrite (touches 0x1800 0x400) 0x40 samplePages) = samplePages ↔
      Uniform samplePages 0x1800 0x400 :=
  protect_destroy_iff (fun _ _ _ _ => true) samplePages _ _ 0x1800 0x400 0x40 _ rfl rfl

/-! ## Regions -/

/-- The layout reports the protection that the pages have. -/
def Layout.Describes (L : Layout) (pages : PageMap) : Prop :=
  ∀ t ∈ L.regions, ∀ page, t.base ≤ page * pageSize → page * pageSize < t.stop →
    pages page = t.label.protect

theorem uniform_of_query {L : Layout} {pages : PageMap} (hL : L.Describes pages) {a : ℕ} {mbi : Mbi}
    (h : L.virtualQueryEx a = some mbi) : Uniform pages mbi.baseAddress mbi.regionSize := by
  obtain ⟨t, ht, rfl⟩ := Option.map_eq_some_iff.mp h
  have hmem := List.mem_of_find?_eq_some ht
  obtain ⟨hbase, hstop⟩ : t.base ≤ a ∧ a < t.stop := by simpa using List.find?_some ht
  have hlow : t.base ≤ a / pageSize * pageSize := Layout.le_pageBase (Layout.base_dvd hmem) hbase
  have hle : a / pageSize * pageSize ≤ a := Layout.pageBase_le a
  have hpages : ∀ page, a / pageSize ≤ page → page * pageSize < t.stop →
      pages page = t.label.protect := by
    intro page hpage hlt
    exact hL t hmem page (hlow.trans (Nat.mul_le_mul_right _ hpage)) hlt
  have hfirst : pageBase a / pageSize = a / pageSize := Nat.mul_div_cancel _ (by decide)
  intro page hpage
  obtain ⟨hlt, hgt⟩ : page * pageSize < pageBase a + (t.stop - pageBase a) ∧
      a / pageSize * pageSize < (page + 1) * pageSize := touches_iff.mp hpage
  have hpage : a / pageSize ≤ page := Nat.lt_succ_iff.mp (Nat.lt_of_mul_lt_mul_right hgt)
  have hend : pageBase a ≤ a := hle
  have hquery : (reported a t).baseAddress = pageBase a := rfl
  rw [hquery, hfirst, hpages page hpage (by omega), hpages _ le_rfl (by omega)]

/-- `region_t::protect` on a region as it has just been queried is taken back completely. -/
theorem Region.protect_destroy {accepts : PageMap → ℕ → ℕ → UInt32 → Bool} {L : Layout}
    {pages pages' pages'' : PageMap} (hL : L.Describes pages) {a : ℕ} {r : Region}
    (hr : L.virtualQueryEx a = some r.mbi) {newFlags : UInt32} {operation : ProtectionOperation}
    (hprotect : r.protect accepts pages newFlags = some (pages', operation))
    (hdestroy : operation.destroy accepts pages' = some pages'') : pages'' = pages := by
  rw [destroyed_eq hprotect hdestroy, overwrite_eq_self_iff]
  exact uniform_of_query hL hr

/-! ## Runs -/

/-- Operations are destroyed in the reverse order of their creation. -/
inductive Event
  | protect (address size : ℕ) (newFlags : UInt32)
  | destroyNewest
  deriving DecidableEq, Repr

/-- The arguments of a call of `protect`. -/
structure ProtectCall where
  address : ℕ
  size : ℕ
  newFlags : UInt32
  deriving DecidableEq, Repr

def ProtectionOperation.call (operation : ProtectionOperation) : ProtectCall :=
  ⟨operation.address, operation.size, operation.newFlags⟩

/-- The calls of a run whose operations have not been destroyed, the newest one first. -/
def liveCalls (events : List Event) : List ProtectCall :=
  events.foldl (fun calls event =>
    match event with
    | .protect address size newFlags => ⟨address, size, newFlags⟩ :: calls
    | .destroyNewest => calls.tail) []

/-- The pages, and the operations that are alive, the newest one first. -/
structure ProtectionState where
  pages : PageMap
  live : List ProtectionOperation

namespace ProtectionState
variable (accepts : PageMap → ℕ → ℕ → UInt32 → Bool)

def step (s : ProtectionState) : Event → Option ProtectionState
  | .protect address size newFlags => do
    let (pages, operation) ← Wincpp.protect accepts s.pages address size newFlags
    return ⟨pages, operation :: s.live⟩
  | .destroyNewest =>
    match s.live with
    | [] => none
    | operation :: live => do
      let pages ← operation.destroy accepts s.pages
      return ⟨pages, live⟩

/-- The range of a call of `protect` is uniform at that moment. -/
def Admits (s : ProtectionState) : Event → Prop
  | .protect address size _ => 1 ≤ size ∧ Uniform s.pages address size
  | .destroyNewest => True

/-- The states of the runs of successful calls from the given pages on. -/
inductive Reachable (initial : PageMap) : List Event → ProtectionState → Prop
  | start : Reachable initial [] ⟨initial, []⟩
  | step {events : List Event} {s s' : ProtectionState} {event : Event} :
      Reachable initial events s → s.Admits event → s.step accepts event = some s' →
      Reachable initial (events ++ [event]) s'

end ProtectionState

def ProtectionOperation.patch (operation : ProtectionOperation) : Patch ℕ UInt32 where
  area := touches operation.address operation.size
  value := operation.newFlags
  saved := operation.oldFlags

/-- The initial pages after the given operations, whose newest one comes first. -/
def pagesUnder (initial : PageMap) (live : List ProtectionOperation) : PageMap :=
  applied initial (live.map ProtectionOperation.patch)

namespace ProtectionState
variable {accepts : PageMap → ℕ → ℕ → UInt32 → Bool} {initial : PageMap}

/-- The pages are those under the live operations, each of which has saved the flags that its whole
range had before. -/
structure Inv (initial : PageMap) (s : ProtectionState) : Prop where
  pages : s.pages = pagesUnder initial s.live
  stacked : Stacked initial (s.live.map ProtectionOperation.patch)

theorem Inv.step {s s' : ProtectionState} {event : Event} (h : Inv initial s)
    (hadmits : s.Admits event) (hstep : s.step accepts event = some s') : Inv initial s' := by
  cases event with
  | protect address size newFlags =>
    obtain ⟨⟨pages, operation⟩, hcall, he⟩ := Option.bind_eq_some_iff.mp hstep
    cases he
    obtain ⟨rfl, rfl⟩ := protect_spec hcall
    refine ⟨by rw [h.pages]; rfl, fun page hpage => ?_, h.stacked⟩
    have huniform := hadmits.2 page hpage
    rw [h.pages] at huniform
    rw [← pagesUnder, huniform, ← h.pages]
    rfl
  | destroyNewest =>
    obtain ⟨pages, live⟩ := s
    cases live with
    | nil => cases hstep
    | cons operation live =>
      obtain ⟨pages', hcall, he⟩ := Option.bind_eq_some_iff.mp hstep
      cases he
      have hpages : pages = pagesUnder initial (operation :: live) := h.pages
      rw [destroy_spec hcall, hpages]
      exact ⟨h.stacked.undo, h.stacked.2⟩

theorem Reachable.inv {events : List Event} {s : ProtectionState}
    (h : Reachable accepts initial events s) : Inv initial s := by
  induction h with
  | start => exact ⟨rfl, trivial⟩
  | step _ hadmits hstep ih => exact ih.step hadmits hstep

theorem live_of_protect {s s' : ProtectionState} {address size : ℕ} {newFlags : UInt32}
    (hstep : s.step accepts (.protect address size newFlags) = some s') :
    s'.live.map ProtectionOperation.call =
      ⟨address, size, newFlags⟩ :: s.live.map ProtectionOperation.call := by
  obtain ⟨⟨pages, operation⟩, hcall, he⟩ := Option.bind_eq_some_iff.mp hstep
  cases he
  obtain ⟨-, rfl⟩ := protect_spec hcall
  rfl

/-- An operation that is alive has the range and the flags of its call. -/
theorem Reachable.live_calls {events : List Event} {s : ProtectionState}
    (h : Reachable accepts initial events s) :
    s.live.map ProtectionOperation.call = liveCalls events := by
  induction h with
  | start => rfl
  | @step events s s' event _ _ hstep ih =>
    rw [liveCalls, List.foldl_append, ← liveCalls, ← ih]
    cases event with
    | protect address size newFlags => exact live_of_protect hstep
    | destroyNewest =>
      obtain ⟨pages, live⟩ := s
      cases live with
      | nil => cases hstep
      | cons operation live =>
        obtain ⟨pages', -, he⟩ := Option.bind_eq_some_iff.mp hstep
        cases he
        rfl

/-- At every point of a run the pages are the initial ones under the operations that are still alive,
which are those of the calls of the run that have not been taken back. So they are the initial ones
once none is. -/
theorem reachable_pages (accepts : PageMap → ℕ → ℕ → UInt32 → Bool) (initial : PageMap)
    (events : List Event) (s : ProtectionState) (h : Reachable accepts initial events s) :
    s.live.map ProtectionOperation.call = liveCalls events ∧
      s.pages = pagesUnder initial s.live ∧ (s.live = [] → s.pages = initial) := by
  refine ⟨h.live_calls, h.inv.pages, fun hlive => ?_⟩
  rw [h.inv.pages, hlive]
  rfl

/-- A page is made executable while it lies in a longer range that has been made read-only. -/
theorem reachable_pages_nested :
    ∃ s, Reachable (fun _ _ _ _ => true) (fun _ => pageReadwrite)
        [.protect 0x1000 0x2000 0x02, .protect 0x1800 0x800 0x40] s ∧
      s.live.map ProtectionOperation.call = [⟨0x1800, 0x800, 0x40⟩, ⟨0x1000, 0x2000, 0x02⟩] ∧
      s.pages = pagesUnder (fun _ => pageReadwrite) s.live ∧
      (s.live = [] → s.pages = fun _ => pageReadwrite) := by
  let outer : ProtectionState := ⟨overwrite (touches 0x1000 0x2000) 0x02 fun _ => pageReadwrite,
    [⟨0x1000, 0x2000, 0x02, pageReadwrite⟩]⟩
  have hfirst : Admits ⟨fun _ => pageReadwrite, []⟩ (.protect 0x1000 0x2000 0x02) :=
    ⟨by decide, fun _ _ => rfl⟩
  have houter : Reachable (fun _ _ _ _ => true) (fun _ => pageReadwrite)
      [.protect 0x1000 0x2000 0x02] outer := .step .start hfirst rfl
  have hsecond : outer.Admits (.protect 0x1800 0x800 0x40) := by
    refine ⟨by decide, fun page hpage => ?_⟩
    rw [touches_iff] at hpage
    have hone : page = 0x1800 / pageSize := by
      unfold pageSize at hpage ⊢
      omega
    rw [hone]
  have hinner := Reachable.step houter hsecond rfl
  exact ⟨_, hinner,
    reachable_pages (fun _ _ _ _ => true) (fun _ => pageReadwrite) _ _ hinner⟩

end ProtectionState
end Wincpp
