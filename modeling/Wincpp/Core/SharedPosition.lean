import Mathlib.Data.List.Induction
import Mathlib.Logic.Function.Basic
import Wincpp.Core.Snapshot
import Wincpp.Library.Schedule

/-! Several iterators of one snapshot. What is said here about them is true of the iterators of a
`module_list` as well, which wrap one each and forward every operation to it.

The position of the enumeration belongs to the snapshot: `begin()` resets it, and `operator++` of any
iterator moves it. `Own` says what the iterators would show if each of them kept a position of its
own. They show that exactly as long as every `operator++` finds the shared position where its own
iterator has left it (`agrees_iff`).
-/
namespace Wincpp.Snapshot
set_option autoImplicit false

/-! ## Iterators on a shared enumeration -/

/-- The iterators are named, so that they can be advanced and copied one by one. -/
inductive Event (ι : Type)
  | start (i : ι)  -- `i = snapshot.begin()`
  | advance (i : ι)  -- `++i`
  | copy (i j : ι)  -- `j = i`
  deriving DecidableEq, Repr

structure State (ι Raw : Type) where
  enumeration : Enumeration Raw
  iterators : ι → Option (Iterator Raw)

section Steps
variable {ι Raw : Type} [DecidableEq ι]

namespace State

def initial (entries : List Raw) : State ι Raw := ⟨⟨entries, 0⟩, fun _ => none⟩

/-- The state in which the call that yields an iterator leaves off. A call that throws changes
nothing. -/
def assign (s : State ι Raw) (i : ι) (call : Outcome (Iterator Raw × Enumeration Raw)) : State ι Raw :=
  match call with
  | .ok (it, e) => ⟨e, Function.update s.iterators i (some it)⟩
  | .error _ => s

/-- What an event does. An iterator at the end is not advanced, which no loop does. -/
def step (s : State ι Raw) : Event ι → State ι Raw
  | .start i => s.assign i (Iterator.create true s.enumeration)
  | .advance i =>
    match s.iterators i with
    | some it => if it.handle then s.assign i (it.next s.enumeration) else s
    | none => s
  | .copy i j => { s with iterators := Function.update s.iterators j (s.iterators i) }

end State

/-- What an iterator shows: nothing at the end. -/
def Iterator.shown (it : Iterator Raw) : Option Raw := if it.handle then it.entry else none

/-! ## Iterators with positions of their own -/

/-- The index of each iterator, and how far `begin()` and `operator++` have moved the position that
they share. -/
structure Own (ι : Type) where
  index : ι → Option ℕ
  position : ℕ

namespace Own

def initial : Own ι := ⟨fun _ => none, 0⟩

def step (length : ℕ) (t : Own ι) : Event ι → Own ι
  | .start i => ⟨Function.update t.index i (some 0), 1⟩
  | .advance i =>
    match t.index i with
    | some k =>
      if k < length then
        ⟨Function.update t.index i (some (k + 1)),
          if t.position < length then t.position + 1 else t.position⟩
      else t
    | none => t
  | .copy i j => { t with index := Function.update t.index j (t.index i) }

end Own

variable (entries : List Raw)

def after (events : List (Event ι)) : State ι Raw :=
  Schedule.run State.step (State.initial entries) events

def ownAfter (events : List (Event ι)) : Own ι :=
  Schedule.run (Own.step entries.length) Own.initial events

/-- Each iterator shows the entry of its own index. -/
def Agrees (s : State ι Raw) (t : Own ι) : Prop :=
  ∀ i, (s.iterators i).map Iterator.shown = (t.index i).map fun k => entries[k]?

/-- When the event is an advance, the shared position is at an entry that equals the next one of the
iterator, or both are at the end. -/
def InStep (t : Own ι) : Event ι → Prop
  | .advance i => ∀ k, t.index i = some k → k < entries.length → entries[t.position]? = entries[k + 1]?
  | _ => True

/-! ## One step -/

/-- The states correspond, and an iterator with a handle has an entry. -/
structure Matches (s : State ι Raw) (t : Own ι) : Prop where
  entries_eq : s.enumeration.entries = entries
  position_eq : s.enumeration.position = t.position
  agrees : Agrees entries s t
  filled : ∀ i it, s.iterators i = some it → it.handle = true → it.entry ≠ none

variable {entries} {s : State ι Raw} {t : Own ι}

theorem agrees_update_iff (h : Agrees entries s t) (e : Enumeration Raw) (position : ℕ) (i : ι)
    (it : Iterator Raw) (k : ℕ) :
    Agrees entries ⟨e, Function.update s.iterators i (some it)⟩
        ⟨Function.update t.index i (some k), position⟩ ↔ it.shown = entries[k]? := by
  constructor
  · intro hagrees
    have hi := hagrees i
    simpa using hi
  · intro hshown j
    by_cases hj : j = i
    · subst hj
      simpa using hshown
    · simpa [Function.update_of_ne hj] using h j

/-- Assigning an iterator whose handle comes with an entry keeps that all iterators have this. -/
theorem filled_update {iterators : ι → Option (Iterator Raw)}
    (hfilled : ∀ j it, iterators j = some it → it.handle = true → it.entry ≠ none) (i : ι)
    {o : Option (Iterator Raw)} (ho : ∀ it, o = some it → it.handle = true → it.entry ≠ none)
    (j : ι) (it : Iterator Raw) (hj : Function.update iterators i o j = some it)
    (hhandle : it.handle = true) : it.entry ≠ none := by
  by_cases hji : j = i
  · rw [hji, Function.update_self] at hj
    exact ho it hj hhandle
  · rw [Function.update_of_ne hji] at hj
    exact hfilled j it hj hhandle

/-- Whether the shared position was in step or not, an iterator that is advanced shows what stood
there. -/
theorem Matches.advance (h : Matches entries s t) {i : ι} {it : Iterator Raw}
    (hit : s.iterators i = some it) (hhandle : it.handle = true) :
    ∃ it' : Iterator Raw, s.step (.advance i) =
        ⟨⟨entries, if t.position < entries.length then t.position + 1 else t.position⟩,
          Function.update s.iterators i (some it')⟩ ∧
      it'.shown = entries[t.position]? ∧ (it'.handle = true → it'.entry ≠ none) := by
  obtain ⟨⟨es, position⟩, iterators⟩ := s
  obtain ⟨rfl, rfl, -, -⟩ := h
  have hit : iterators i = some it := hit
  simp only [State.step, hit, hhandle, if_true]
  cases hnext : es[t.position]? with
  | some raw =>
    have hlt := (List.getElem?_eq_some_iff.mp hnext).1
    refine ⟨{ it with entry := some raw }, ?_, by simp [Iterator.shown, hhandle], by simp⟩
    rw [next_of_some (e := ⟨es, t.position⟩) hnext, State.assign, if_pos hlt]
  | none =>
    have hle := List.getElem?_eq_none_iff.mp hnext
    refine ⟨{ it with handle := false }, ?_, by simp [Iterator.shown], by simp⟩
    rw [next_of_none (e := ⟨es, t.position⟩) hnext, State.assign, if_neg (by omega)]

omit [DecidableEq ι] in
theorem Matches.exists_iterator (h : Matches entries s t) {i : ι} {k : ℕ}
    (hk : t.index i = some k) :
    ∃ it, s.iterators i = some it ∧ (it.handle = true ↔ k < entries.length) := by
  have hi := h.agrees i
  rw [hk, Option.map_some] at hi
  obtain ⟨it, hit, hshown⟩ := Option.map_eq_some_iff.mp hi
  refine ⟨it, hit, fun hhandle => ?_, fun hlt => ?_⟩
  · rw [Iterator.shown, if_pos hhandle] at hshown
    have hsome : entries[k]? ≠ none := hshown ▸ h.filled i it hit hhandle
    exact not_le.mp fun hle => hsome (List.getElem?_eq_none hle)
  · by_contra hhandle
    rw [Iterator.shown, if_neg hhandle, List.getElem?_eq_getElem hlt] at hshown
    cases hshown

theorem Matches.start (h : Matches entries s t) (hne : entries ≠ []) (i : ι) :
    Matches entries (s.step (.start i)) (t.step entries.length (.start i)) := by
  obtain ⟨⟨es, position⟩, iterators⟩ := s
  obtain ⟨rfl, hposition, hagrees, hfilled⟩ := h
  obtain ⟨raw, rest, rfl⟩ := List.exists_cons_of_ne_nil hne
  have hcreate : Iterator.create true ⟨raw :: rest, position⟩ =
      .ok (⟨true, some raw⟩, ⟨raw :: rest, 1⟩) := create_of_some rfl
  simp only [State.step, hcreate, State.assign, Own.step]
  refine ⟨rfl, rfl, (agrees_update_iff hagrees _ _ i _ 0).mpr rfl, filled_update hfilled i ?_⟩
  rintro it ⟨⟩ -
  exact Option.some_ne_none raw

theorem Matches.copy (h : Matches entries s t) (i j : ι) :
    Matches entries (s.step (.copy i j)) (t.step entries.length (.copy i j)) := by
  refine ⟨h.entries_eq, h.position_eq, fun k => ?_, filled_update h.filled j (h.filled i)⟩
  by_cases hk : k = j
  · subst hk
    simpa [State.step, Own.step] using h.agrees i
  · simpa [State.step, Own.step, Function.update_of_ne hk] using h.agrees k

/-- An event that changes nothing, neither here nor there. -/
theorem Matches.stay (h : Matches entries s t) {event : Event ι} (hstay : s.step event = s)
    (hown : t.step entries.length event = t) (hin : InStep entries t event) :
    (Agrees entries (s.step event) (t.step entries.length event) ↔ InStep entries t event) ∧
      (InStep entries t event → Matches entries (s.step event) (t.step entries.length event)) := by
  rw [hstay, hown]
  exact ⟨⟨fun _ => hin, fun _ => h.agrees⟩, fun _ => h⟩

/-- An iterator that is not at its end shows the entry of its own next index exactly when the shared
position was in step. -/
theorem Matches.step_advance (h : Matches entries s t) {i : ι} {k : ℕ} (hk : t.index i = some k)
    (hlt : k < entries.length) :
    (Agrees entries (s.step (.advance i)) (t.step entries.length (.advance i)) ↔
        InStep entries t (.advance i)) ∧
      (InStep entries t (.advance i) →
        Matches entries (s.step (.advance i)) (t.step entries.length (.advance i))) := by
  obtain ⟨it, hit, hhandle⟩ := h.exists_iterator hk
  obtain ⟨it', hstep, hshown, hfilled⟩ := h.advance hit (hhandle.mpr hlt)
  have hown : t.step entries.length (.advance i) =
      ⟨Function.update t.index i (some (k + 1)),
        if t.position < entries.length then t.position + 1 else t.position⟩ := by
    simp only [Own.step, hk, hlt, if_true]
  have hiff : Agrees entries (s.step (.advance i)) (t.step entries.length (.advance i)) ↔
      InStep entries t (.advance i) := by
    rw [hstep, hown, agrees_update_iff h.agrees, hshown]
    refine ⟨fun he k' hk' _ => ?_, fun hin => hin k hk hlt⟩
    rw [hk] at hk'
    cases hk'
    exact he
  refine ⟨hiff, fun hin => ⟨?_, ?_, hiff.mpr hin, ?_⟩⟩
  · rw [hstep]
  · rw [hstep, hown]
  · rw [hstep]
    refine filled_update h.filled i ?_
    rintro it'' ⟨⟩
    exact hfilled

/-- After an event the iterators still show the entries of their own indices exactly when the event
was in step, and then the states still correspond. -/
theorem Matches.step (h : Matches entries s t) (hne : entries ≠ []) (event : Event ι) :
    (Agrees entries (s.step event) (t.step entries.length event) ↔ InStep entries t event) ∧
      (InStep entries t event → Matches entries (s.step event) (t.step entries.length event)) := by
  cases event with
  | start i => exact ⟨⟨fun _ => trivial, fun _ => (h.start hne i).agrees⟩, fun _ => h.start hne i⟩
  | copy i j => exact ⟨⟨fun _ => trivial, fun _ => (h.copy i j).agrees⟩, fun _ => h.copy i j⟩
  | advance i =>
    cases hk : t.index i with
    | none =>
      have hi := h.agrees i
      rw [hk, Option.map_none, Option.map_eq_none_iff] at hi
      have hstay : s.step (.advance i) = s := by simp only [State.step, hi]
      have hown : t.step entries.length (.advance i) = t := by simp only [Own.step, hk]
      have hin : InStep entries t (.advance i) := fun k hk' => by rw [hk] at hk'; cases hk'
      exact h.stay hstay hown hin
    | some k =>
      by_cases hlt : k < entries.length
      · exact h.step_advance hk hlt
      · obtain ⟨it, hit, hhandle⟩ := h.exists_iterator hk
        have hstay : s.step (.advance i) = s := by
          simp only [State.step, hit]
          exact if_neg fun hh => hlt (hhandle.mp hh)
        have hown : t.step entries.length (.advance i) = t := by
          simp only [Own.step, hk, hlt, if_false]
        have hin : InStep entries t (.advance i) := fun k' hk' hlt' => by
          rw [hk] at hk'
          cases hk'
          exact absurd hlt' hlt
        exact h.stay hstay hown hin

end Steps

/-! ## Whole runs -/

section Runs
variable {ι Raw : Type} {entries : List Raw}

theorem matches_initial (entries : List Raw) :
    Matches entries (State.initial entries : State ι Raw) Own.initial :=
  ⟨rfl, rfl, fun _ => rfl, fun _ _ h => by cases h⟩

variable [DecidableEq ι]

theorem matches_after (hne : entries ≠ []) {events : List (Event ι)}
    (h : ∀ pre event, pre ++ [event] <+: events → InStep entries (ownAfter entries pre) event) :
    Matches entries (after entries events) (ownAfter entries events) := by
  induction events using List.reverseRecOn with
  | nil => exact matches_initial entries
  | append_singleton events event ih =>
    have hbefore := ih fun pre event' hpre => h pre event' (hpre.trans (List.prefix_append _ _))
    rw [after, ownAfter, Schedule.run_append, Schedule.run_append]
    exact (hbefore.step hne event).2 (h events event (List.prefix_refl _))

/-- In a run on a list that is not empty, each iterator shows at every moment the entry that it would
show if it were the only one, exactly when every `operator++` finds the position that the iterators
share at the next entry of its own iterator. -/
theorem agrees_iff (entries : List Raw) (hne : entries ≠ []) (events : List (Event ι)) :
    (∀ pre, pre <+: events → Agrees entries (after entries pre) (ownAfter entries pre)) ↔
      ∀ pre event, pre ++ [event] <+: events → InStep entries (ownAfter entries pre) event := by
  constructor
  · intro hagrees
    induction events using List.reverseRecOn with
    | nil =>
      intro pre event hpre
      simp at hpre
    | append_singleton events last ih =>
      have hinStep := ih fun pre hpre => hagrees pre (hpre.trans (List.prefix_append _ _))
      intro pre event hpre
      rcases List.prefix_concat_iff.mp hpre with he | hpre
      · obtain ⟨rfl, rfl⟩ := List.append_singleton_inj.mp he
        have hlast := hagrees _ hpre
        rw [after, ownAfter, Schedule.run_append, Schedule.run_append] at hlast
        exact ((matches_after hne hinStep).step hne event).1.mp hlast
      · exact hinStep pre event hpre
  · intro hinStep pre hpre
    exact (matches_after hne fun pre' event hpre' => hinStep pre' event (hpre'.trans hpre)).agrees

/-- A loop over a list of two entries in the first round of another one, and the `operator++` that
ends this round: the outer loop is over, too. -/
theorem not_agrees_nested :
    ¬ ∀ (entries : List ℕ) (events : List (Event Bool)), entries ≠ [] → ∀ pre, pre <+: events →
      Agrees entries (after entries pre) (ownAfter entries pre) := by
  intro hall
  have hagrees := hall [10, 20]
    [.start false, .start true, .advance true, .advance true, .advance false] (by decide) _
    (List.prefix_refl _) false
  revert hagrees
  decide

def sampleTwoLoops : List (Event Bool) :=
  [.start false, .advance false, .start true, .advance true, .advance false]

/-- The second loop starts in the last round of the first one and has caught up with it when that round
ends. -/
theorem inStep_twoLoops {pre : List (Event Bool)} {event : Event Bool}
    (hpre : pre ++ [event] <+: sampleTwoLoops) :
    InStep [10, 20] (ownAfter [10, 20] pre) event := by
  rcases pre with _ | ⟨a, _ | ⟨b, _ | ⟨c, _ | ⟨d, _ | ⟨e, pre⟩⟩⟩⟩⟩
  all_goals
    simp only [sampleTwoLoops, List.nil_append, List.cons_append, List.cons_prefix_cons,
      List.prefix_nil] at hpre
  · obtain ⟨rfl, -⟩ := hpre
    trivial
  · obtain ⟨rfl, rfl, -⟩ := hpre
    rintro k ⟨⟩
    decide
  · obtain ⟨rfl, rfl, rfl, -⟩ := hpre
    trivial
  · obtain ⟨rfl, rfl, rfl, rfl, -⟩ := hpre
    rintro k ⟨⟩
    decide
  · obtain ⟨rfl, rfl, rfl, rfl, rfl, -⟩ := hpre
    rintro k ⟨⟩
    decide
  · obtain ⟨-, -, -, -, -, hnil⟩ := hpre
    simp at hnil

theorem agrees_iff_two :
    Agrees [10, 20] (after [10, 20] sampleTwoLoops) (ownAfter [10, 20] sampleTwoLoops) :=
  (agrees_iff [10, 20] (by decide) sampleTwoLoops).mpr (fun _ _ hpre => inStep_twoLoops hpre) _
    (List.prefix_refl _)

end Runs
end Wincpp.Snapshot
