import Wincpp.Library.Schedule
import Wincpp.Memory.Memory
import Wincpp.Modules.Rtti
import Wincpp.Patterns.Turbo

/-! The search for an instance of an object (`find_instance_of` in `memory_factory.cpp`).

There is one invocation of the lambda for each candidate region. The invocations share the atomic
`address` and the stop flag, and under `std::execution::par_unseq` their steps may be taken in any
order (`Schedule.run`). In every order the result is the match of some region that has one
(`Inv.published`). Which one it is depends on the order: an invocation that has passed the check of
the stop flag stores its match however late it gets there (`exists_last_store`).
-/
namespace Wincpp
open Tiling
set_option autoImplicit false

/-! ## The candidate regions -/

def isCandidate (compare : Region → Bool) (region : Region) : Bool :=
  region.protection == pageReadwrite && region.type == memPrivate && region.state == memCommit &&
    compare region

def candidates (L : Layout) (compare : Region → Bool) (fuel : ℕ) : Run (List Region) :=
  regions.forIn L (fun region regionList =>
    .ok (.yield (if isCandidate compare region then regionList ++ [region] else regionList))) fuel []

/-- What the lambda does with the bytes of a region. -/
def Process.scanFor (p : Process) (object : Object) (region : Region) : Run (Option ℕ) := do
  let bytes ← p.read region.address region.size
  Scanner.find (.ofInt 8 object.vtable) bytes .tbm

namespace FindInstance

/-- Two heaps of a process that both hold an instance. -/
def sampleHeaps : Layout where
  top := 0x5000
  regions := [⟨0, 0x1000, ⟨memFree, pageNoaccess, 0⟩⟩,
    ⟨0x1000, 0x2000, ⟨memCommit, pageReadwrite, memPrivate⟩⟩,
    ⟨0x3000, 0x1000, ⟨memCommit, pageNoaccess, memPrivate⟩⟩,
    ⟨0x4000, 0x1000, ⟨memCommit, pageReadwrite, memPrivate⟩⟩]
  tiles := by decide
  aligned := by decide
  top_lt := by decide

def sampleCandidates : List Region :=
  [⟨⟨memCommit, pageReadwrite, memPrivate⟩, 0x1000, 0x2000⟩,
    ⟨⟨memCommit, pageReadwrite, memPrivate⟩, 0x4000, 0x1000⟩]

/-! ## The invocations and their steps -/

/-- The step that an invocation takes next. -/
inductive Pc
  | check
  | scan
  | store (result : ℕ)
  | request
  | finished
  deriving DecidableEq, Repr

structure State where
  address : ℕ
  stopRequested : Bool
  pc : ℕ → Pc

namespace State

def initial : State := ⟨0, false, fun _ => .check⟩

def moveTo (s : State) (i : ℕ) (pc : Pc) : State := { s with pc := Function.update s.pc i pc }

def result (s : State) : Option ℕ := if s.address ≠ 0 then some s.address else none

@[simp] theorem moveTo_address (s : State) (i : ℕ) (pc : Pc) : (s.moveTo i pc).address = s.address :=
  rfl

@[simp] theorem moveTo_stopRequested (s : State) (i : ℕ) (pc : Pc) :
    (s.moveTo i pc).stopRequested = s.stopRequested := rfl

@[simp] theorem moveTo_pc_self (s : State) (i : ℕ) (pc : Pc) : (s.moveTo i pc).pc i = pc :=
  Function.update_self ..

@[simp] theorem moveTo_pc_of_ne (s : State) {i j : ℕ} (h : j ≠ i) (pc : Pc) :
    (s.moveTo i pc).pc j = s.pc j := Function.update_of_ne h ..

end State

section Steps
variable (regions : List Region) (scan : Region → Option ℕ)

/-- The next step of the invocation for the region `i`. -/
def step (s : State) (i : ℕ) : State :=
  match regions[i]? with
  | none => s
  | some region =>
    match s.pc i with
    | .check => if s.stopRequested then s.moveTo i .finished else s.moveTo i .scan
    | .scan =>
      match scan region with
      | some result => s.moveTo i (.store result)
      | none => s.moveTo i .finished
    | .store result => { s.moveTo i .request with address := (region.address + result) % 2 ^ 64 }
    | .request => { s.moveTo i .finished with stopRequested := true }
    | .finished => s

/-- Where the steps of the schedule lead. -/
def after (schedule : List ℕ) : State := Schedule.run (step regions scan) State.initial schedule

def Complete (s : State) : Prop := ∀ i < regions.length, s.pc i = .finished

/-- One region after the other. -/
def sequential : List ℕ := (List.range regions.length).flatMap fun i => List.replicate 4 i

def matchOf (region : Region) : Option ℕ :=
  (scan region).map fun result => (region.address + result) % 2 ^ 64

/-- The match in the region of the lowest address among those that have one. -/
def FirstInstance : Option ℕ → Prop
  | some a => ∃ r ∈ regions, matchOf scan r = some a ∧
      ∀ r' ∈ regions, scan r' ≠ none → r.address ≤ r'.address
  | none => ∀ r ∈ regions, scan r = none

/-- However the steps are interleaved, the result is the first instance, the same as that of the
sequential run. -/
def ReturnsFirst : Prop :=
  ∀ schedule, Complete regions (after regions scan schedule) →
    FirstInstance regions scan (after regions scan schedule).result ∧
    (after regions scan schedule).result = (after regions scan (sequential regions)).result

/-- What a step does, case by case. -/
inductive Step (s : State) (i : ℕ) : State → Prop
  | idle : (∀ region, regions[i]? = some region → s.pc i = .finished) → Step s i s
  | leave {region : Region} : regions[i]? = some region → s.pc i = .check →
      s.stopRequested = true → Step s i (s.moveTo i .finished)
  | enter {region : Region} : regions[i]? = some region → s.pc i = .check →
      s.stopRequested = false → Step s i (s.moveTo i .scan)
  | miss {region : Region} : regions[i]? = some region → s.pc i = .scan → scan region = none →
      Step s i (s.moveTo i .finished)
  | hit {region : Region} {result : ℕ} : regions[i]? = some region → s.pc i = .scan →
      scan region = some result → Step s i (s.moveTo i (.store result))
  | store {region : Region} {result : ℕ} : regions[i]? = some region → s.pc i = .store result →
      Step s i { s.moveTo i .request with address := (region.address + result) % 2 ^ 64 }
  | request {region : Region} : regions[i]? = some region → s.pc i = .request →
      Step s i { s.moveTo i .finished with stopRequested := true }

end Steps

section Runs
variable {regions : List Region} {scan : Region → Option ℕ}

variable (regions scan) in
theorem step_spec (s : State) (i : ℕ) : Step regions scan s i (step regions scan s i) := by
  unfold step
  cases hr : regions[i]? with
  | none => exact .idle fun region h => by rw [hr] at h; cases h
  | some region =>
    cases hpc : s.pc i with
    | check =>
      cases hstop : s.stopRequested with
      | true => exact .leave hr hpc hstop
      | false => exact .enter hr hpc hstop
    | scan =>
      cases hscan : scan region with
      | none => simpa only [hscan] using Step.miss hr hpc hscan
      | some result => simpa only [hscan] using Step.hit hr hpc hscan
    | store result => exact .store hr hpc
    | request => exact .request hr hpc
    | finished => exact .idle fun _ _ => hpc

theorem Step.pc_of_ne {s s' : State} {i j : ℕ} (h : Step regions scan s j s') (hij : j ≠ i) :
    s'.pc i = s.pc i := by
  cases h with
  | idle h => rfl
  | leave | enter | miss | hit => exact State.moveTo_pc_of_ne s hij.symm _
  | store | request => exact State.moveTo_pc_of_ne s hij.symm _

/-! ## Every invocation is over after four steps of its own -/

def Pc.rank : Pc → ℕ
  | .check => 4
  | .scan => 3
  | .store _ => 2
  | .request => 1
  | .finished => 0

theorem Pc.rank_eq_zero {pc : Pc} (h : pc.rank = 0) : pc = .finished := by
  cases pc with
  | finished => rfl
  | check | scan | store | request => cases h

theorem Step.rank_le {s s' : State} {i : ℕ} (hi : i < regions.length)
    (h : Step regions scan s i s') : (s'.pc i).rank ≤ (s.pc i).rank - 1 := by
  cases h with
  | idle h =>
    rw [h _ (List.getElem?_eq_getElem hi)]
    exact le_refl _
  | leave _ hpc | enter _ hpc | miss _ hpc | hit _ hpc => rw [hpc, State.moveTo_pc_self]; simp [Pc.rank]
  | store _ hpc | request _ hpc => rw [hpc]; simp [Pc.rank]

/-- A schedule on which every invocation stands four times lets all of them finish. -/
theorem complete_of_count {schedule : List ℕ} (h : ∀ i < regions.length, 4 ≤ schedule.count i) :
    Complete regions (after regions scan schedule) := by
  intro i hi
  have hrank := Schedule.run_rank_le (fun s : State => (s.pc i).rank)
    (fun s => (step_spec regions scan s i).rank_le hi)
    (fun s j hj => by rw [(step_spec regions scan s j).pc_of_ne hj]) State.initial schedule
  have hcount := h i hi
  have hinit : (State.initial.pc i).rank = 4 := rfl
  exact Pc.rank_eq_zero (by rw [after]; omega)

theorem four_le_count_flatMap {i : ℕ} {order : List ℕ} (h : i ∈ order) :
    4 ≤ (order.flatMap fun i => List.replicate 4 i).count i := by
  rw [← List.replicate_sublist_iff, List.flatMap_def]
  exact List.sublist_flatten_of_mem (List.mem_map_of_mem h)

theorem sequential_complete : Complete regions (after regions scan (sequential regions)) :=
  complete_of_count fun _ hi => four_le_count_flatMap (List.mem_range.mpr hi)

/-! ## What holds in every reachable state -/

variable (regions scan) in
/-- The address is the match in one of the regions. -/
def Published (address : ℕ) : Prop := ∃ region ∈ regions, matchOf scan region = some address

variable (regions scan) in
/-- The points at which the invocation for a region can be, given the published address. -/
def Allowed (address : ℕ) (region : Region) : Pc → Prop
  | .check => True
  | .scan => True
  | .store result => scan region = some result
  | .request => Published regions scan address
  | .finished => scan region = none ∨ Published regions scan address

theorem Allowed.of_published {address address' : ℕ} {region : Region} {pc : Pc}
    (h : Allowed regions scan address region pc) (hp : Published regions scan address') :
    Allowed regions scan address' region pc := by
  cases pc with
  | check | scan => trivial
  | store result => exact h
  | request => exact hp
  | finished => exact .inr hp

variable (regions scan) in
/-- An invocation leaves without a match of its own only after a match has been published. -/
structure Inv (s : State) : Prop where
  pc : ∀ i region, regions[i]? = some region → Allowed regions scan s.address region (s.pc i)
  address : s.address = 0 ∨ Published regions scan s.address
  stop : s.stopRequested = true → Published regions scan s.address

namespace Inv

theorem initial : Inv regions scan State.initial :=
  ⟨fun _ _ _ => trivial, .inl rfl, fun h => by cases h⟩

theorem moveTo {s : State} (h : Inv regions scan s) {i : ℕ} {region : Region} {pc : Pc}
    (hr : regions[i]? = some region) (hpc : Allowed regions scan s.address region pc) :
    Inv regions scan (s.moveTo i pc) := by
  refine ⟨fun j region' hj => ?_, h.address, h.stop⟩
  by_cases hij : j = i
  · subst hij
    rw [hr] at hj
    cases hj
    rw [State.moveTo_pc_self]
    exact hpc
  · rw [State.moveTo_pc_of_ne s hij]
    exact h.pc j region' hj

theorem publish {s : State} (h : Inv regions scan s) {address : ℕ}
    (hp : Published regions scan address) : Inv regions scan { s with address := address } :=
  ⟨fun i region hr => (h.pc i region hr).of_published hp, .inr hp, fun _ => hp⟩

theorem step {s : State} (h : Inv regions scan s) (i : ℕ) :
    Inv regions scan (step regions scan s i) := by
  generalize hs : FindInstance.step regions scan s i = s'
  have hstep : Step regions scan s i s' := hs ▸ step_spec regions scan s i
  cases hstep with
  | idle => exact h
  | leave hr _ hstop => exact h.moveTo hr (.inr (h.stop hstop))
  | enter hr => exact h.moveTo hr trivial
  | miss hr _ hscan => exact h.moveTo hr (.inl hscan)
  | hit hr _ hscan => exact h.moveTo hr hscan
  | @store region result hr hpc =>
    have hallowed := h.pc i region hr
    rw [hpc] at hallowed
    have hscan : scan region = some result := hallowed
    have hp : Published regions scan ((region.address + result) % 2 ^ 64) :=
      ⟨region, List.mem_of_getElem? hr, by rw [matchOf, hscan]; rfl⟩
    exact (h.publish hp).moveTo hr hp
  | @request region hr hpc =>
    have hallowed := h.pc i region hr
    rw [hpc] at hallowed
    have hp : Published regions scan s.address := hallowed
    have hmoved : Inv regions scan (s.moveTo i .finished) := h.moveTo hr (.inr hp)
    exact ⟨hmoved.pc, hmoved.address, fun _ => hp⟩

theorem after (schedule : List ℕ) : Inv regions scan (after regions scan schedule) :=
  Schedule.run_keeps (fun _ i h => h.step i) initial schedule

theorem published {s : State} (h : Inv regions scan s) (hc : Complete regions s) {region : Region}
    (hr : region ∈ regions) (hscan : scan region ≠ none) : Published regions scan s.address := by
  obtain ⟨i, hi, rfl⟩ := List.getElem_of_mem hr
  have hallowed := h.pc i _ (List.getElem?_eq_getElem hi)
  rw [hc i hi] at hallowed
  exact hallowed.resolve_left hscan

theorem result_eq_none {s : State} (h : Inv regions scan s)
    (hnone : ∀ r ∈ regions, scan r = none) : s.result = none := by
  rcases h.address with hzero | ⟨r, hr, hmatch⟩
  · simp [State.result, hzero]
  · rw [matchOf, hnone r hr] at hmatch
    cases hmatch

end Inv

/-! ## No match is lost -/

theorem Published.exists_match {a : ℕ} (h : Published regions scan a)
    (hwrap : ∀ r ∈ regions, ∀ k, scan r = some k → r.address + k < 2 ^ 64) :
    ∃ r ∈ regions, ∃ k, scan r = some k ∧ a = r.address + k := by
  obtain ⟨r, hr, hmatch⟩ := h
  obtain ⟨k, hk, rfl⟩ := Option.map_eq_some_iff.mp hmatch
  exact ⟨r, hr, k, hk, Nat.mod_eq_of_lt (hwrap r hr k hk)⟩

theorem State.result_eq_some_iff {s : State} {a : ℕ} :
    s.result = some a ↔ s.address = a ∧ a ≠ 0 := by
  unfold State.result
  split
  · rename_i hne
    refine ⟨fun h => ?_, fun h => by rw [h.1]⟩
    cases h
    exact ⟨rfl, hne⟩
  · rename_i hzero
    refine ⟨fun h => (by cases h), fun ⟨he, hne⟩ => ?_⟩
    exact absurd (fun h => hne (he ▸ h)) hzero

/-- In no order of the steps is the stop requested before an address is published; and when all
invocations have finished there is a result exactly if some scan succeeded, and it is a match. -/
theorem detects_match (regions : List Region) (scan : Region → Option ℕ)
    (hpos : ∀ r ∈ regions, r.address ≠ 0)
    (hwrap : ∀ r ∈ regions, ∀ k, scan r = some k → r.address + k < 2 ^ 64) (schedule : List ℕ) :
    ((after regions scan schedule).stopRequested = true →
      (after regions scan schedule).address ≠ 0) ∧
    (Complete regions (after regions scan schedule) →
      ((after regions scan schedule).result ≠ none ↔ ∃ r ∈ regions, scan r ≠ none) ∧
      ∀ a, (after regions scan schedule).result = some a →
        ∃ r ∈ regions, ∃ k, scan r = some k ∧ a = r.address + k) := by
  have hinv : Inv regions scan (after regions scan schedule) := Inv.after schedule
  have hnonzero : ∀ a, Published regions scan a → a ≠ 0 := by
    intro a hp
    obtain ⟨r, hr, k, -, rfl⟩ := hp.exists_match hwrap
    have := hpos r hr
    omega
  refine ⟨fun hstop => hnonzero _ (hinv.stop hstop), fun hc => ⟨⟨fun hresult => ?_, ?_⟩, ?_⟩⟩
  · by_contra hnone
    apply hresult
    apply hinv.result_eq_none
    simpa using hnone
  · intro ⟨r, hr, hscan⟩
    have hp := hinv.published hc hr hscan
    rw [State.result_eq_some_iff.mpr ⟨rfl, hnonzero _ hp⟩]
    simp
  · intro a ha
    obtain ⟨rfl, hne⟩ := State.result_eq_some_iff.mp ha
    exact (hinv.address.resolve_left hne).exists_match hwrap

theorem detects_match_heaps :
    let s := after sampleCandidates (fun _ => some 0x10) [1, 0, 1, 0, 1, 0, 1, 0]
    (s.stopRequested = true → s.address ≠ 0) ∧
      (Complete sampleCandidates s →
        (s.result ≠ none ↔ ∃ r ∈ sampleCandidates, (some 0x10 : Option ℕ) ≠ none) ∧
          ∀ a, s.result = some a →
            ∃ r ∈ sampleCandidates, ∃ k, (some 0x10 : Option ℕ) = some k ∧ a = r.address + k) := by
  refine detects_match sampleCandidates (fun _ => some 0x10) (by decide) (fun r hr k hk => ?_) _
  cases hk
  exact (by decide : ∀ r ∈ sampleCandidates, r.address + 0x10 < 2 ^ 64) r hr

/-! ## The last store decides -/

theorem address_of_store {s : State} {i : ℕ} {region : Region} {result : ℕ}
    (hr : regions[i]? = some region) (hpc : s.pc i = .store result) :
    (step regions scan (step regions scan s i) i).address = (region.address + result) % 2 ^ 64 := by
  simp [step, hr, hpc]

/-- The invocation for a region with a match can be delayed until all others have finished, so that
its store is the last one. -/
theorem exists_last_store {region : Region} {a : ℕ} (hr : region ∈ regions)
    (ha : matchOf scan region = some a) :
    ∃ schedule, Complete regions (after regions scan schedule) ∧
      (after regions scan schedule).address = a := by
  obtain ⟨i, hi, rfl⟩ := List.getElem_of_mem hr
  obtain ⟨result, hscan, rfl⟩ := Option.map_eq_some_iff.mp ha
  have hri : regions[i]? = some regions[i] := List.getElem?_eq_getElem hi
  let others := ((List.range regions.length).filter (· ≠ i)).flatMap fun j => List.replicate 4 j
  have hothers : i ∉ others := by simp [others]
  refine ⟨[i, i] ++ others ++ [i, i], complete_of_count fun j hj => ?_, ?_⟩
  · rw [List.count_append, List.count_append]
    by_cases hji : j = i
    · subst hji
      simp
    · have hfour : 4 ≤ others.count j := four_le_count_flatMap (by simp [hj, hji])
      omega
  · -- the first two steps pass the check and find the match; nothing but the last two changes that
    have hfound : (after regions scan [i, i]).pc i = .store result := by
      simp [after, step, hri, hscan, State.initial]
    have hwaits : (after regions scan ([i, i] ++ others)).pc i = .store result := by
      rw [after, Schedule.run_append, Schedule.run_unchanged (fun s : State => s.pc i)
        (fun s j hj => (step_spec regions scan s j).pc_of_ne hj) hothers]
      exact hfound
    have hrun : after regions scan ([i, i] ++ others ++ [i, i]) =
        step regions scan (step regions scan (after regions scan ([i, i] ++ others)) i) i :=
      Schedule.run_append ..
    rw [hrun]
    exact address_of_store hri hwaits

/-! ## Which searches return the first instance -/

theorem result_of_published {s : State} (h : s.address ≠ 0) : s.result = some s.address := if_pos h

theorem exists_lowest (h : ∃ r ∈ regions, scan r ≠ none) :
    ∃ r ∈ regions, scan r ≠ none ∧ ∀ r' ∈ regions, scan r' ≠ none → r.address ≤ r'.address := by
  obtain ⟨r, ⟨hr, hscan⟩, hlow⟩ :=
    (measure Region.address).wf.has_min {r | r ∈ regions ∧ scan r ≠ none} h
  exact ⟨r, hr, hscan, fun r' hr' hscan' => not_lt.mp (hlow r' ⟨hr', hscan'⟩)⟩

theorem returnsFirst_iff_same (regions : List Region) (scan : Region → Option ℕ) :
    ReturnsFirst regions scan ↔ ∀ r ∈ regions, ∀ a, matchOf scan r = some a →
      a ≠ 0 ∧ ∀ r' ∈ regions, ∀ b, matchOf scan r' = some b → b = a := by
  refine ⟨fun h r hr a ha => ?_, fun h schedule hc => ?_⟩
  · obtain ⟨schedule, hc, haddr⟩ := exists_last_store hr ha
    obtain ⟨hfirst, hseq⟩ := h schedule hc
    have hscan : scan r ≠ none := fun e => by
      rw [matchOf, e] at ha
      cases ha
    have hne : a ≠ 0 := by
      intro hzero
      have hnone : (after regions scan schedule).result = none := by
        rw [State.result, haddr, hzero, if_neg (by simp)]
      rw [hnone] at hfirst
      exact hscan (hfirst r hr)
    refine ⟨hne, fun r' hr' b hb => ?_⟩
    obtain ⟨schedule', hc', haddr'⟩ := exists_last_store hr' hb
    have hsame : (after regions scan schedule').result = some a := by
      rw [(h schedule' hc').2, ← hseq, result_of_published (by rw [haddr]; exact hne), haddr]
    rw [State.result, haddr'] at hsame
    split at hsame
    · exact Option.some.inj hsame
    · cases hsame
  · have hinv : ∀ schedule, Inv regions scan (after regions scan schedule) := Inv.after
    by_cases hnone : ∀ r ∈ regions, scan r = none
    · rw [(hinv schedule).result_eq_none hnone, (hinv _).result_eq_none hnone]
      exact ⟨hnone, rfl⟩
    · obtain ⟨r, hr, hscan, hlow⟩ := exists_lowest (by simpa using hnone)
      obtain ⟨a, ha⟩ : ∃ a, matchOf scan r = some a := by
        obtain ⟨k, hk⟩ := Option.ne_none_iff_exists'.mp hscan
        exact ⟨_, by rw [matchOf, hk]; rfl⟩
      obtain ⟨hne, hsame⟩ := h r hr a ha
      have hresult : ∀ schedule, Complete regions (after regions scan schedule) →
          (after regions scan schedule).result = some a := by
        intro schedule hc
        obtain ⟨r', hr', hb⟩ := (hinv schedule).published hc hr hscan
        have haddr := hsame r' hr' _ hb
        rw [result_of_published (by rw [haddr]; exact hne), haddr]
      rw [hresult schedule hc, hresult _ sequential_complete]
      exact ⟨⟨r, hr, ha, hlow⟩, rfl⟩

end Runs

/-! ## The candidate regions of a process -/

/-- The range over which `regions` goes by default. -/
def wholeSpace : Memory := ⟨0, sentinel, by decide⟩

theorem foldRegions_filter (keep : Region → Bool) (rs regionList : List Region) :
    foldRegions (fun region regionList =>
      .ok (.yield (if keep region then regionList ++ [region] else regionList))) rs regionList =
        .ok (.yield (regionList ++ rs.filter keep)) := by
  induction rs generalizing regionList with
  | nil => simp [foldRegions]
  | cons r rs ih =>
    rw [foldRegions, Run.ok_bind]
    cases hr : keep r with
    | true => simpa [hr] using ih (regionList ++ [r])
    | false => simpa [hr] using ih regionList

theorem candidates_returns {L : Layout} (h : 0 < L.top) (compare : Region → Bool) :
    Run.Returns (candidates L compare) ((wholeSpace.walked L).filter (isCandidate compare)) := by
  obtain ⟨n, hn⟩ := forIn_to_end (fun region regionList => .ok (.yield
    (if isCandidate compare region then regionList ++ [region] else regionList))) h []
  refine ⟨n, fun more => ?_⟩
  rw [candidates, hn, foldRegions_filter, Run.ok_bind, List.nil_append]
  rfl

theorem candidates_eq {L : Layout} {compare : Region → Bool} {fuel : ℕ} {regionList : List Region}
    (h : candidates L compare fuel = .ok regionList) :
    regionList = (wholeSpace.walked L).filter (isCandidate compare) := by
  by_cases htop : 0 < L.top
  · apply Run.Returns.unique (Run.FuelMono.returns _ h) (candidates_returns htop compare)
    exact fun _ _ hle => forIn_below L _ (fun _ _ => Run.Below.refl _) _ _ hle
  · have hopens : ¬ wholeSpace.Opens L := by
      intro ho
      rcases ho.1 with h0 | h0
      · exact absurd h0 (by decide)
      · exact htop h0
    exact absurd (h.symm.trans (Memory.forIn_of_not_opens hopens fuel [])) (by simp)

theorem scanFor_lt {p : Process} {object : Object} {region : Region} {k : ℕ}
    (h : p.scanFor object region = .ok (some k)) : k < region.size := by
  obtain ⟨buffer, hread, hfind⟩ := Run.bind_eq_ok h
  obtain ⟨r, hr, hfit⟩ := Scanner.find_tbm_ok (.ofInt 8 object.vtable) buffer (by simp)
  rw [hfind] at hr
  have hle := hfit k (Except.ok.inj hr).symm
  rw [p.read_length hread, Pattern.ofInt_size] at hle
  omega

theorem exists_scanFor {p : Process} (hp : p.type = .remoteT) (object : Object) {region : Region}
    (hsize : region.size < 2 ^ 63) : ∃ r, p.scanFor object region = .ok r := by
  obtain ⟨buffer, hread⟩ : ∃ buffer, p.read region.address region.size = .ok buffer :=
    p.exists_read hsize (.inl hp)
  obtain ⟨r, hr, -⟩ := Scanner.find_tbm_ok (.ofInt 8 object.vtable) buffer (by simp)
  exact ⟨r, by rw [Process.scanFor, hread, Run.ok_bind, hr]⟩

/-- The match in a region of the process lies inside it. -/
theorem match_inside {p : Process} {object : Object} {r : Region} {k : ℕ}
    (hr : r ∈ wholeSpace.walked p.layout) (hk : p.scanFor object r = .ok (some k)) :
    r.address ≤ (r.address + k) % 2 ^ 64 ∧ (r.address + k) % 2 ^ 64 < r.stop := by
  have hlt := scanFor_lt hk
  have hstop := Memory.walked_stop_lt hr
  unfold Region.stop at hstop ⊢
  omega

theorem matchOf_injective {p : Process} {object : Object} {compare : Region → Bool} {fuel : ℕ}
    {regionList : List Region} {scan : Region → Option ℕ}
    (hlist : candidates p.layout compare fuel = .ok regionList)
    (hscan : ∀ r ∈ regionList, p.scanFor object r = .ok (scan r)) {r r' : Region}
    (hr : r ∈ regionList) (hr' : r' ∈ regionList) {a : ℕ} (ha : matchOf scan r = some a)
    (ha' : matchOf scan r' = some a) : r = r' := by
  have hok := hscan r hr
  have hok' := hscan r' hr'
  rw [candidates_eq hlist] at hr hr'
  obtain ⟨k, hk, rfl⟩ := Option.map_eq_some_iff.mp ha
  obtain ⟨k', hk', he⟩ := Option.map_eq_some_iff.mp ha'
  rw [hk] at hok
  rw [hk'] at hok'
  have hin := match_inside (List.mem_filter.mp hr).1 hok
  have hin' := match_inside (List.mem_filter.mp hr').1 hok'
  rw [he] at hin'
  exact Memory.walked_unique (List.mem_filter.mp hr).1 (List.mem_filter.mp hr').1 hin.1 hin.2
    hin'.1 hin'.2

/-- The result is the first instance, whatever the order of the steps, exactly when all matches have
the same address, other than 0. For the candidate regions of a process this is so exactly when at
most one of them holds the vtable, and not at the address 0. -/
theorem returnsFirst_iff (regionList : List Region) (scan : Region → Option ℕ) :
    (ReturnsFirst regionList scan ↔ ∀ r ∈ regionList, ∀ a, matchOf scan r = some a →
      a ≠ 0 ∧ ∀ r' ∈ regionList, ∀ b, matchOf scan r' = some b → b = a) ∧
    ∀ (p : Process) (object : Object) (compare : Region → Bool) (fuel : ℕ),
      candidates p.layout compare fuel = .ok regionList →
      (∀ r ∈ regionList, p.scanFor object r = .ok (scan r)) →
      (ReturnsFirst regionList scan ↔
        (∀ r ∈ regionList, ∀ r' ∈ regionList, scan r ≠ none → scan r' ≠ none → r = r') ∧
        ∀ r ∈ regionList, matchOf scan r ≠ some 0) := by
  refine ⟨returnsFirst_iff_same _ _, fun p object compare fuel hlist hscan => ?_⟩
  have hmatch : ∀ r, scan r ≠ none → ∃ a, matchOf scan r = some a := by
    intro r hr
    obtain ⟨k, hk⟩ := Option.ne_none_iff_exists'.mp hr
    exact ⟨_, by rw [matchOf, hk]; rfl⟩
  have hsome : ∀ r a, matchOf scan r = some a → scan r ≠ none := by
    intro r a ha e
    rw [matchOf, e] at ha
    cases ha
  rw [returnsFirst_iff_same]
  refine ⟨fun h => ⟨fun r hr r' hr' hs hs' => ?_, fun r hr ha => (h r hr 0 ha).1 rfl⟩,
    fun ⟨hone, hzero⟩ r hr a ha => ⟨fun e => hzero r hr (e ▸ ha), fun r' hr' b hb => ?_⟩⟩
  · obtain ⟨a, ha⟩ := hmatch r hs
    obtain ⟨b, hb⟩ := hmatch r' hs'
    have hba := (h r hr a ha).2 r' hr' b hb
    exact matchOf_injective hlist hscan hr hr' ha (hba ▸ hb)
  · cases hone r hr r' hr' (hsome r a ha) (hsome r' b hb)
    rw [ha] at hb
    exact (Option.some.inj hb).symm

/-- The invocation for the second heap passes the check and finds its match; before it stores it, the
one for the first heap runs from its check to its end. The result is the match in the second heap. -/
theorem not_returnsFirst_second_heap :
    candidates sampleHeaps (fun _ => true) 6 = .ok sampleCandidates ∧
      ¬ ReturnsFirst sampleCandidates fun _ => some 0x10 := by
  refine ⟨by decide, fun h => ?_⟩
  obtain ⟨hfirst, -⟩ := h [1, 1, 0, 0, 0, 0, 1, 1] (by unfold Complete; decide)
  have hresult : (after sampleCandidates (fun _ => some 0x10) [1, 1, 0, 0, 0, 0, 1, 1]).result =
      some 0x4010 := by decide
  rw [hresult] at hfirst
  obtain ⟨r, hr, hmatch, hlow⟩ := hfirst
  have hle : r.address ≤ 0x1000 := hlow _ List.mem_cons_self (by simp)
  have haddr : (r.address + 0x10) % 2 ^ 64 = 0x4010 := Option.some.inj hmatch
  omega

def sampleHeapProcess : Process where
  layout := sampleHeaps
  type := .remoteT
  bytes := fun a => if a = 0x4011 then 0x10 else if a = 0x4012 then 0x40 else 0
  readable := fun _ _ => true
  fresh := fun _ _ _ => 0
  userSpace := by decide

def sampleInstance : Object := ⟨0x401000, .ofBytes []⟩

theorem returnsFirst_iff_heaps :
    let scan := fun r => (sampleHeapProcess.scanFor sampleInstance r).toOption.join
    ReturnsFirst sampleCandidates scan ↔
      (∀ r ∈ sampleCandidates, ∀ r' ∈ sampleCandidates, scan r ≠ none → scan r' ≠ none → r = r') ∧
        ∀ r ∈ sampleCandidates, matchOf scan r ≠ some 0 := by
  intro scan
  refine (returnsFirst_iff sampleCandidates scan).2 sampleHeapProcess sampleInstance (fun _ => true)
    6 (by decide) fun r hr => ?_
  have hsize : ∀ r ∈ sampleCandidates, r.size < 2 ^ 63 := by decide
  obtain ⟨o, ho⟩ := exists_scanFor (rfl : sampleHeapProcess.type = .remoteT)
    sampleInstance (hsize r hr)
  simp only [scan, ho]
  rfl

end FindInstance
end Wincpp
