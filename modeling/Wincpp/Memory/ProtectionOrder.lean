import Mathlib.Data.List.InsertIdx
import Wincpp.Memory.Protection

/-! Protection operations that are destroyed in any order.

A client can give up an operation while newer ones are alive. As long as these have no page in common
with it, the pages are those under the operations that remain. Otherwise its deleter gives back its flags
under a newer operation, which loses its own.
-/
namespace Wincpp
open Overwrite
set_option autoImplicit false

namespace ProtectionState

/-- Any operation that is alive can be destroyed; the newest one has the number zero. -/
inductive AnyEvent
  | protect (address size : ℕ) (newFlags : UInt32)
  | destroy (k : ℕ)
  deriving DecidableEq, Repr

/-- The calls of a run whose operations have not been destroyed, the newest one first. -/
def liveCallsAny (events : List AnyEvent) : List ProtectCall :=
  events.foldl (fun calls event =>
    match event with
    | .protect address size newFlags => ⟨address, size, newFlags⟩ :: calls
    | .destroy k => calls.eraseIdx k) []

variable (accepts : PageMap → ℕ → ℕ → UInt32 → Bool)

def stepAny (s : ProtectionState) : AnyEvent → Option ProtectionState
  | .protect address size newFlags => s.step accepts (.protect address size newFlags)
  | .destroy k => do
    let operation ← s.live[k]?
    let pages ← operation.destroy accepts s.pages
    return ⟨pages, s.live.eraseIdx k⟩

/-- The two operations have a page in common. -/
def Overlap (operation operation' : ProtectionOperation) : Prop :=
  ∃ page, touches operation.address operation.size page = true ∧
    touches operation'.address operation'.size page = true

/-- A range is uniform when it is protected, and no newer operation overlaps one that is destroyed. -/
def AdmitsAny (s : ProtectionState) : AnyEvent → Prop
  | .protect address size newFlags => s.Admits (.protect address size newFlags)
  | .destroy k => ∀ operation, s.live[k]? = some operation →
      ∀ newer ∈ s.live.take k, ¬ Overlap newer operation

/-- The states of the runs of successful calls from the given pages on. -/
inductive ReachableAny (initial : PageMap) : List AnyEvent → ProtectionState → Prop
  | start : ReachableAny initial [] ⟨initial, []⟩
  | step {events : List AnyEvent} {s s' : ProtectionState} {event : AnyEvent} :
      ReachableAny initial events s → s.AdmitsAny event → s.stepAny accepts event = some s' →
      ReachableAny initial (events ++ [event]) s'

/-- The newest of the operations that touches a page. -/
def newestOn (operations : List ProtectionOperation) (page : ℕ) : Option ProtectionOperation :=
  operations.find? fun operation => touches operation.address operation.size page

/-- What is newer than an operation and covers it gives the flags that it has saved. -/
def HarmlessAt (s : ProtectionState) (k : ℕ) (operation : ProtectionOperation) : Prop :=
  ∀ page, touches operation.address operation.size page = true →
    ∀ newest, newestOn (s.live.take k) page = some newest → newest.newFlags = operation.oldFlags

section Removal
variable {accepts : PageMap → ℕ → ℕ → UInt32 → Bool} {initial pages : PageMap} {s s' : ProtectionState}
variable {k : ℕ} {operation : ProtectionOperation} {events : List AnyEvent}

theorem split_at (hk : s.live[k]? = some operation) : ∃ newer older, s.live.take k = newer ∧
    s.live = newer ++ operation :: older ∧ s.live.eraseIdx k = newer ++ older := by
  obtain ⟨hlt, hget⟩ := List.getElem?_eq_some_iff.mp hk
  refine ⟨_, s.live.drop (k + 1), rfl, ?_, List.eraseIdx_eq_take_drop_succ ..⟩
  rw [← hget, ← List.drop_eq_getElem_cons hlt, List.take_append_drop]

theorem topmost_patch (operations : List ProtectionOperation) (page : ℕ) :
    topmost (operations.map ProtectionOperation.patch) page =
      (newestOn operations page).map ProtectionOperation.patch := by
  rw [topmost, List.find?_map]
  rfl

/-- The deleter of an operation of any age leaves the pages under the remaining ones exactly when the
newer ones on its pages agree with what it has saved. -/
theorem Inv.destroy_iff (h : Inv initial s) (hk : s.live[k]? = some operation)
    (hdestroy : operation.destroy accepts s.pages = some pages) :
    pages = pagesUnder initial (s.live.eraseIdx k) ↔ s.HarmlessAt k operation := by
  obtain ⟨newer, older, hnewer, hlive, herase⟩ := split_at hk
  rw [destroy_spec hdestroy, h.pages, HarmlessAt, herase, hnewer, hlive, pagesUnder, pagesUnder,
    List.map_append, List.map_append, List.map_cons]
  have hstacked := h.stacked
  rw [hlive, List.map_append, List.map_cons] at hstacked
  refine hstacked.append_right.take_back_iff.trans ?_
  simp only [topmost_patch, Option.map_eq_some_iff, forall_exists_index, and_imp,
    forall_apply_eq_imp_iff₂]
  rfl

/-- An operation that no newer one overlaps is taken back as if it had never been there. -/
theorem Inv.remove (h : Inv initial s) (hk : s.live[k]? = some operation)
    (hapart : ∀ newer ∈ s.live.take k, ¬ Overlap newer operation)
    (hdestroy : operation.destroy accepts s.pages = some pages) :
    Inv initial ⟨pages, s.live.eraseIdx k⟩ := by
  refine ⟨(h.destroy_iff hk hdestroy).mpr fun page hpage newest hnewest => ?_, ?_⟩
  · have htouches := List.find?_some hnewest
    exact (hapart newest (List.mem_of_find?_eq_some hnewest) ⟨page, htouches, hpage⟩).elim
  · obtain ⟨newer, older, hnewer, hlive, herase⟩ := split_at hk
    have hstacked := h.stacked
    rw [hlive, List.map_append, List.map_cons] at hstacked
    change Stacked initial ((s.live.eraseIdx k).map ProtectionOperation.patch)
    rw [herase, List.map_append]
    refine hstacked.remove fun top htop page hpage => ?_
    obtain ⟨operation', hmem, rfl⟩ := List.mem_map.mp htop
    by_contra hne
    exact hapart operation' (hnewer ▸ hmem) ⟨page, hpage, Bool.not_eq_false _ ▸ hne⟩

theorem Inv.stepAny {event : AnyEvent} (h : Inv initial s) (hadmits : s.AdmitsAny event)
    (hstep : s.stepAny accepts event = some s') : Inv initial s' := by
  cases event with
  | protect address size newFlags =>
    have hrange : s.Admits (.protect address size newFlags) := hadmits
    exact h.step hrange hstep
  | destroy k =>
    obtain ⟨operation, hk, hstep⟩ := Option.bind_eq_some_iff.mp hstep
    obtain ⟨pages, hdestroy, he⟩ := Option.bind_eq_some_iff.mp hstep
    cases he
    exact h.remove hk (hadmits operation hk) hdestroy

theorem ReachableAny.protect (h : ReachableAny accepts initial events s) {a n : ℕ}
    (newFlags : UInt32) (hn : 1 ≤ n) (huniform : Uniform s.pages a n)
    (hstep : s.stepAny accepts (.protect a n newFlags) = some s') :
    ReachableAny accepts initial (events ++ [.protect a n newFlags]) s' := by
  have hadmits : s.AdmitsAny (.protect a n newFlags) := ⟨hn, huniform⟩
  exact h.step hadmits hstep

theorem ReachableAny.destroy (h : ReachableAny accepts initial events s)
    (hadmits : s.AdmitsAny (.destroy k)) (hstep : s.stepAny accepts (.destroy k) = some s') :
    ReachableAny accepts initial (events ++ [.destroy k]) s' :=
  .step h hadmits hstep

theorem ReachableAny.inv (h : ReachableAny accepts initial events s) : Inv initial s := by
  induction h with
  | start => exact ⟨rfl, trivial⟩
  | step _ hadmits hstep ih => exact ih.stepAny hadmits hstep

theorem ReachableAny.live_calls (h : ReachableAny accepts initial events s) :
    s.live.map ProtectionOperation.call = liveCallsAny events := by
  induction h with
  | start => rfl
  | @step events s s' event _ _ hstep ih =>
    rw [liveCallsAny, List.foldl_append, ← liveCallsAny, ← ih]
    cases event with
    | protect address size newFlags => exact live_of_protect hstep
    | destroy k =>
      obtain ⟨operation, -, hstep⟩ := Option.bind_eq_some_iff.mp hstep
      obtain ⟨pages, -, he⟩ := Option.bind_eq_some_iff.mp hstep
      cases he
      exact (List.eraseIdx_map ..).symm

end Removal

/-- As long as no operation is destroyed under a newer one that overlaps it, the pages are those under
the operations that are alive, which are those of the calls that have not been taken back, in whatever
order the others have been. From each state so reached on, destroying one more keeps it that way
exactly when it does no harm to a newer one. -/
theorem reachableAny_pages (accepts : PageMap → ℕ → ℕ → UInt32 → Bool) (initial : PageMap)
    (events : List AnyEvent) (s : ProtectionState) (h : ReachableAny accepts initial events s) :
    s.live.map ProtectionOperation.call = liveCallsAny events ∧
      s.pages = pagesUnder initial s.live ∧ (s.live = [] → s.pages = initial) ∧
      ∀ k operation s', s.live[k]? = some operation → s.stepAny accepts (.destroy k) = some s' →
        (s'.pages = pagesUnder initial s'.live ↔ s.HarmlessAt k operation) := by
  refine ⟨h.live_calls, h.inv.pages, fun hlive => ?_, fun k operation s' hk hstep => ?_⟩
  · rw [h.inv.pages, hlive]
    rfl
  · obtain ⟨operation', hk', hstep⟩ := Option.bind_eq_some_iff.mp hstep
    obtain ⟨pages, hdestroy, he⟩ := Option.bind_eq_some_iff.mp hstep
    cases hk.symm.trans hk'
    cases he
    exact h.inv.destroy_iff hk hdestroy

/-- Two pages are made read-only, and the first of them is given back first. -/
theorem reachableAny_pages_apart :
    ∃ s : ProtectionState, s.live.map ProtectionOperation.call = [⟨0x2000, 0x1000, 0x02⟩] ∧
      s.pages = pagesUnder (fun _ => pageReadwrite) s.live := by
  let first : ProtectionState := ⟨overwrite (touches 0x1000 0x1000) 0x02 fun _ => pageReadwrite,
    [⟨0x1000, 0x1000, 0x02, pageReadwrite⟩]⟩
  have hfirst : ReachableAny (fun _ _ _ _ => true) (fun _ => pageReadwrite)
      [.protect 0x1000 0x1000 0x02] first :=
    ReachableAny.start.protect 0x02 (by decide) (fun _ _ => rfl) rfl
  have huniform : Uniform first.pages 0x2000 0x1000 := by
    intro page hpage
    rw [touches_iff] at hpage
    have htwo : page = 0x2000 / pageSize := by
      unfold pageSize at hpage ⊢
      omega
    rw [htwo]
  have hboth := hfirst.protect 0x02 (by decide) huniform rfl
  have hrest := hboth.destroy (k := 1) ?_ rfl
  · obtain ⟨hcalls, hpages, -⟩ :=
      reachableAny_pages (fun _ _ _ _ => true) (fun _ => pageReadwrite) _ _ hrest
    exact ⟨_, hcalls, hpages⟩
  · intro operation hoperation newer hnewer hoverlap
    cases hoperation
    cases List.mem_singleton.mp hnewer
    obtain ⟨page, hpage, hpage'⟩ := hoverlap
    rw [touches_iff] at hpage hpage'
    simp only [pageSize] at hpage hpage'
    omega

end ProtectionState
end Wincpp
