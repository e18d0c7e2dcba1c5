import Wincpp.Library.Schedule

/-! Keys that are given out again.

Objects are started under a key, and run until they stop. A handle is opened by a key. An object is kept
as long as it runs or a handle refers to it, and no object is started under the key of one that is kept.
So a key stands for one object at a time (`WellKeyed`), but not for the same one at all times: whoever
has a key without a handle may meet another object under it later (`lookup_run`).
-/
namespace KeyReuse
open Schedule
set_option autoImplicit false

variable {κ α : Type*}

structure Object (κ α : Type*) where
  key : κ
  label : α
  running : Bool
  deriving DecidableEq, Repr

def Object.stopped (o : Object κ α) : Object κ α := { o with running := false }

/-- The objects in the order in which they were started, and what each handle refers to while it is
open. -/
structure State (κ α : Type*) where
  objects : List (Object κ α)
  handles : List (Option ℕ)
  deriving DecidableEq, Repr

inductive Event (κ α : Type*)
  | start (key : κ) (label : α)
  | stop (i : ℕ)
  | acquire (key : κ)  -- opens a handle
  | close (h : ℕ)

namespace State

def initial : State κ α := ⟨[], []⟩

def Kept (s : State κ α) (i : ℕ) : Prop :=
  s.objects[i]?.map Object.running = some true ∨ some i ∈ s.handles

instance (s : State κ α) (i : ℕ) : Decidable (s.Kept i) := inferInstanceAs (Decidable (_ ∨ _))

def keyOf (s : State κ α) (i : ℕ) : Option κ := s.objects[i]?.map Object.key

def labelOf (s : State κ α) (i : ℕ) : Option α := s.objects[i]?.map Object.label

/-- A handle refers to the object `i`. -/
def RefersTo (s : State κ α) (h i : ℕ) : Prop := s.handles[h]? = some (some i)

instance (s : State κ α) (h i : ℕ) : Decidable (s.RefersTo h i) :=
  inferInstanceAs (Decidable (_ = _))

section Step
variable [DecidableEq κ]

/-- The object for which the key stands. -/
def lookup (s : State κ α) (k : κ) : Option ℕ :=
  (List.range s.objects.length).find? fun i => decide (s.Kept i ∧ s.keyOf i = some k)

/-- What an event makes of the state. One that is refused changes nothing. -/
def step (s : State κ α) : Event κ α → State κ α
  | .start k a =>
    match s.lookup k with
    | some _ => s
    | none => { s with objects := s.objects ++ [⟨k, a, true⟩] }
  | .stop i => { s with objects := s.objects.modify i Object.stopped }
  | .acquire k =>
    match s.lookup k with
    | some i => { s with handles := s.handles ++ [some i] }
    | none => s
  | .close h => { s with handles := s.handles.set h none }

end Step

/-- Different objects that are kept have different keys. -/
structure WellKeyed (s : State κ α) : Prop where
  unique : ∀ i j k, s.Kept i → s.Kept j → s.keyOf i = some k → s.keyOf j = some k → i = j
  started : ∀ i, some i ∈ s.handles → i < s.objects.length

theorem wellKeyed_initial : (initial : State κ α).WellKeyed := by
  constructor
  · intro i j k hi
    simp [Kept, initial] at hi
  · intro i hi
    simp [initial] at hi

variable {s : State κ α} {i h : ℕ} {k : κ}

theorem RefersTo.kept (href : s.RefersTo h i) : s.Kept i := .inr (List.mem_of_getElem? href)

theorem lt_of_keyOf (hk : s.keyOf i = some k) : i < s.objects.length := by
  obtain ⟨o, ho, -⟩ := Option.map_eq_some_iff.mp hk
  exact (List.getElem?_eq_some_iff.mp ho).1

theorem WellKeyed.lt_of_kept (hs : s.WellKeyed) (hi : s.Kept i) : i < s.objects.length := by
  obtain hrun | href := hi
  · obtain ⟨o, ho, -⟩ := Option.map_eq_some_iff.mp hrun
    exact (List.getElem?_eq_some_iff.mp ho).1
  · exact hs.started i href

section Run
variable [DecidableEq κ]

theorem lookup_eq_some_iff (hs : s.WellKeyed) :
    s.lookup k = some i ↔ s.Kept i ∧ s.keyOf i = some k := by
  constructor
  · intro h
    exact of_decide_eq_true (List.find?_some h :)
  · rintro ⟨hkept, hkey⟩
    cases hfound : s.lookup k with
    | none =>
      have hno := List.find?_eq_none.mp hfound i (List.mem_range.mpr (lt_of_keyOf hkey))
      rw [decide_eq_true_eq] at hno
      exact absurd ⟨hkept, hkey⟩ hno
    | some j =>
      have hj : s.Kept j ∧ s.keyOf j = some k := of_decide_eq_true (List.find?_some hfound :)
      rw [hs.unique j i k hj.1 hkept hj.2 hkey]

theorem lookup_eq_none_iff : s.lookup k = none ↔ ∀ i, s.Kept i → s.keyOf i ≠ some k := by
  rw [lookup, List.find?_eq_none]
  constructor
  · intro h i hkept hkey
    have hno := h i (List.mem_range.mpr (lt_of_keyOf hkey))
    rw [decide_eq_true_eq] at hno
    exact hno ⟨hkept, hkey⟩
  · intro h i _
    rw [decide_eq_true_eq]
    rintro ⟨hkept, hkey⟩
    exact h i hkept hkey

/-! ## One event -/

variable (s) in
theorem length_le_step (e : Event κ α) : s.objects.length ≤ (s.step e).objects.length := by
  cases e with
  | start k a =>
    rw [step]
    split
    · exact Nat.le_refl _
    · rw [List.length_append]
      exact Nat.le_add_right _ _
  | stop i => exact Nat.le_of_eq (List.length_modify ..).symm
  | acquire k =>
    rw [step]
    split <;> exact Nat.le_refl _
  | close h => exact Nat.le_refl _

/-- An object keeps its key and its label. -/
theorem object_step (e : Event κ α) (hi : i < s.objects.length) :
    (s.step e).keyOf i = s.keyOf i ∧ (s.step e).labelOf i = s.labelOf i := by
  cases e with
  | start k a =>
    rw [step]
    split
    · exact ⟨rfl, rfl⟩
    · simp only [keyOf, labelOf, List.getElem?_append_left hi, and_self]
  | stop j =>
    simp only [step, keyOf, labelOf, List.getElem?_modify, Option.map_eq_map, Option.map_map]
    constructor <;>
    · congr 1
      funext o
      rw [Function.comp_apply]
      split <;> rfl
  | acquire k =>
    rw [step]
    split <;> exact ⟨rfl, rfl⟩
  | close h => exact ⟨rfl, rfl⟩

/-- An object that is no longer kept is not kept again. -/
theorem kept_of_step (hs : s.WellKeyed) {e : Event κ α} (hi : i < s.objects.length)
    (h : (s.step e).Kept i) : s.Kept i := by
  cases e with
  | start k a =>
    rw [step] at h
    split at h
    · exact h
    · rwa [Kept, List.getElem?_append_left hi] at h
  | stop j =>
    refine h.imp_left fun hrun => ?_
    rw [step, List.getElem?_modify, Option.map_eq_map, Option.map_map] at hrun
    obtain ⟨o, ho, hrunning⟩ := Option.map_eq_some_iff.mp hrun
    rw [Function.comp_apply] at hrunning
    split at hrunning
    · cases hrunning
    · rw [ho, Option.map_some, hrunning]
  | acquire k =>
    rw [step] at h
    split at h
    · rename_i j hj
      refine h.elim .inl fun href => ?_
      obtain href | href := List.mem_append.mp href
      · exact .inr href
      · -- what is opened was kept before
        rw [List.mem_singleton, Option.some.injEq] at href
        subst href
        exact ((lookup_eq_some_iff hs).mp hj).1
    · exact h
  | close h' =>
    refine h.imp_right fun href => ?_
    obtain href | href := List.mem_or_eq_of_mem_set href
    · exact href
    · cases href

/-- A handle that is open has referred to the same object before. -/
theorem refersTo_of_step {e : Event κ α} (hh : h < s.handles.length)
    (href : (s.step e).RefersTo h i) : s.RefersTo h i := by
  cases e with
  | start k a =>
    rw [step] at href
    split at href <;> exact href
  | stop j => exact href
  | acquire k =>
    rw [step] at href
    split at href
    · rwa [RefersTo, List.getElem?_append_left hh] at href
    · exact href
  | close h' =>
    rw [RefersTo, step, List.getElem?_set] at href
    split at href
    · simp at href
    · exact href

variable (s) in
theorem handles_length_le_step (e : Event κ α) :
    s.handles.length ≤ (s.step e).handles.length := by
  cases e with
  | start k a =>
    rw [step]
    split <;> exact Nat.le_refl _
  | stop j => exact Nat.le_refl _
  | acquire k =>
    rw [step]
    split
    · rw [List.length_append]
      exact Nat.le_add_right _ _
    · exact Nat.le_refl _
  | close h => exact Nat.le_of_eq List.length_set.symm

/-- What is kept after an event was kept before it, or has been started under a key that was free. -/
theorem kept_step_cases (hs : s.WellKeyed) {e : Event κ α} (hkept : (s.step e).Kept i)
    (hkey : (s.step e).keyOf i = some k) :
    (s.Kept i ∧ s.keyOf i = some k) ∨ (i = s.objects.length ∧ s.lookup k = none) := by
  by_cases hi : i < s.objects.length
  · exact .inl ⟨kept_of_step hs hi hkept, (object_step e hi).1 ▸ hkey⟩
  · have hlt := lt_of_keyOf hkey
    cases e with
    | start k' a =>
      rw [step] at hkey hlt
      split at hkey
      · exact absurd (lt_of_keyOf hkey) hi
      · rename_i hnone
        rw [hnone, List.length_append, List.length_singleton] at hlt
        obtain rfl : i = s.objects.length := by omega
        rw [keyOf, List.getElem?_concat_length] at hkey
        cases hkey
        exact .inr ⟨rfl, hnone⟩
    | stop j =>
      rw [step, List.length_modify] at hlt
      exact absurd hlt hi
    | acquire k' =>
      rw [step] at hlt
      split at hlt <;> exact absurd hlt hi
    | close h' => exact absurd hlt hi

theorem WellKeyed.step (hs : s.WellKeyed) (e : Event κ α) : (s.step e).WellKeyed := by
  constructor
  · intro i j k hi hj hki hkj
    obtain ⟨hi', hki'⟩ | ⟨hi', hfree⟩ := kept_step_cases hs hi hki <;>
      obtain ⟨hj', hkj'⟩ | ⟨hj', hfree'⟩ := kept_step_cases hs hj hkj
    · exact hs.unique i j k hi' hj' hki' hkj'
    · exact absurd hki' (lookup_eq_none_iff.mp hfree' i hi')
    · exact absurd hkj' (lookup_eq_none_iff.mp hfree j hj')
    · rw [hi', hj']
  · intro i hmem
    refine Nat.lt_of_lt_of_le ?_ (length_le_step s e)
    cases e with
    | start k a =>
      rw [State.step] at hmem
      split at hmem <;> exact hs.started i hmem
    | stop j => exact hs.started i hmem
    | acquire k =>
      rw [State.step] at hmem
      split at hmem
      · rename_i j hj
        obtain hmem | hmem := List.mem_append.mp hmem
        · exact hs.started i hmem
        · rw [List.mem_singleton, Option.some.injEq] at hmem
          subst hmem
          exact lt_of_keyOf ((lookup_eq_some_iff hs).mp hj).2
      · exact hs.started i hmem
    | close h =>
      obtain hmem | hmem := List.mem_or_eq_of_mem_set hmem
      · exact hs.started i hmem
      · cases hmem

/-! ## Runs -/

theorem WellKeyed.run (hs : s.WellKeyed) (events : List (Event κ α)) :
    (run State.step s events).WellKeyed := run_keeps (fun _ e h => h.step e) hs events

theorem object_run (events : List (Event κ α)) (hi : i < s.objects.length) :
    (run step s events).keyOf i = s.keyOf i ∧ (run step s events).labelOf i = s.labelOf i := by
  induction events generalizing s with
  | nil => exact ⟨rfl, rfl⟩
  | cons e events ih =>
    have hrest := ih (Nat.lt_of_lt_of_le hi (length_le_step s e))
    have hstep := object_step e hi
    exact ⟨hrest.1.trans hstep.1, hrest.2.trans hstep.2⟩

theorem kept_of_run (hs : s.WellKeyed) (events : List (Event κ α)) (hi : i < s.objects.length)
    (h : (run step s events).Kept i) : s.Kept i := by
  induction events generalizing s with
  | nil => exact h
  | cons e events ih =>
    exact kept_of_step hs hi (ih (hs.step e) (Nat.lt_of_lt_of_le hi (length_le_step s e)) h)

theorem refersTo_of_run (events : List (Event κ α)) (hh : h < s.handles.length)
    (href : (run step s events).RefersTo h i) : s.RefersTo h i := by
  induction events generalizing s with
  | nil => exact href
  | cons e events ih =>
    exact refersTo_of_step hh (ih (Nat.lt_of_lt_of_le hh (handles_length_le_step s e)) href)

/-- What a key stands for later: the same object exactly if that has been kept, and otherwise one that
has been started since. -/
theorem lookup_run (hs : s.WellKeyed) (hi : s.Kept i) (hk : s.keyOf i = some k)
    (events : List (Event κ α)) {j : ℕ} (hj : (run step s events).lookup k = some j) :
    (j = i ↔ (run step s events).Kept i) ∧ (j ≠ i → s.objects.length ≤ j) := by
  have hrun := hs.run events
  obtain ⟨hkeptj, hkeyj⟩ := (lookup_eq_some_iff hrun).mp hj
  have hi' := hs.lt_of_kept hi
  constructor
  · constructor
    · rintro rfl
      exact hkeptj
    · intro hkept
      exact hrun.unique j i k hkeptj hkept hkeyj ((object_run events hi').1.trans hk)
  · intro hne
    by_contra hlt
    have hlt' : j < s.objects.length := Nat.lt_of_not_le hlt
    refine hne (hs.unique j i k (kept_of_run hs events hlt' hkeptj) hi ?_ hk)
    rw [← (object_run events hlt').1]
    exact hkeyj

/-- As long as a handle is open, the key of its object stands for that object. -/
theorem lookup_of_open (hs : s.WellKeyed) (hk : s.keyOf i = some k) (href : s.RefersTo h i)
    (events : List (Event κ α)) {j : ℕ} (hopen : (run step s events).RefersTo h j) :
    j = i ∧ (run step s events).lookup k = some i := by
  have hlt : h < s.handles.length := (List.getElem?_eq_some_iff.mp href).1
  have hback := refersTo_of_run events hlt hopen
  rw [RefersTo, href, Option.some.injEq, Option.some.injEq] at hback
  subst hback
  refine ⟨rfl, (lookup_eq_some_iff (hs.run events)).mpr ⟨hopen.kept, ?_⟩⟩
  rw [(object_run events (hs.lt_of_kept href.kept)).1]
  exact hk

end Run

end State

end KeyReuse
