import Mathlib.Data.Nat.Find
import Mathlib.Order.Bounds.Basic
import Mathlib.Tactic.Common

/-! First hits of a left-to-right search.

* `IsFirst H r`: `r` is the least number that meets `H`, or `none` when no number does.
* `Sweep σ`: a search whose state looks at one window at a time and jumps ahead after a miss. The
  state may carry more than the window, so that one jump can depend on the windows before it.
* `Sweep.run_isFirst_iff`: the sweep reports the first hit exactly when none of the jumps that it
  takes passes over a hit.
-/
namespace Search
set_option autoImplicit false

/-! ## The first number with a property -/

/-- `r` is the least number that meets `H`, and `none` when no number meets it. -/
def IsFirst (H : ℕ → Prop) : Option ℕ → Prop
  | some k => IsLeast {i | H i} k
  | none => ∀ k, ¬ H k

theorem IsFirst.unique {H : ℕ → Prop} {r r' : Option ℕ} (h : IsFirst H r) (h' : IsFirst H r') :
    r = r' := by
  cases r with
  | none =>
    cases r' with
    | none => rfl
    | some k => exact absurd h'.1 (h k)
  | some k =>
    cases r' with
    | none => exact absurd h.1 (h' k)
    | some k' => rw [IsLeast.unique h h']

theorem IsFirst.congr {H H' : ℕ → Prop} {r : Option ℕ} (h : IsFirst H r) (e : ∀ k, H k ↔ H' k) :
    IsFirst H' r := by
  have he : H = H' := funext fun k => propext (e k)
  exact he ▸ h

theorem IsFirst.eq_none_iff {H : ℕ → Prop} {r : Option ℕ} (h : IsFirst H r) :
    r = none ↔ ∀ k, ¬ H k := by
  cases r with
  | none => exact ⟨fun _ => h, fun _ => rfl⟩
  | some k => exact ⟨fun e => by simp at e, fun e => absurd h.1 (e k)⟩

theorem exists_isFirst (H : ℕ → Prop) : ∃ r, IsFirst H r := by
  by_cases hex : ∃ k, H k
  · classical
    exact ⟨some (Nat.find hex), Nat.find_spec hex, fun k hk => Nat.find_min' hex hk⟩
  · exact ⟨none, fun k hk => hex ⟨k, hk⟩⟩

/-- The first number that meets both is the first one that meets `H` exactly when the first one that
meets `H`, if there is one, meets `W` as well. -/
theorem IsFirst.and_iff {H W : ℕ → Prop} {r : Option ℕ} (h : IsFirst (fun k => H k ∧ W k) r) :
    IsFirst H r ↔ ∀ k, IsLeast {i | H i} k → W k := by
  refine ⟨fun hfirst k hk => ?_, fun hboth => ?_⟩
  · have hr : r = some k := hfirst.unique hk
    subst hr
    exact h.1.2
  · obtain ⟨r', hr'⟩ := exists_isFirst H
    have hr : r = r' := by
      cases r' with
      | none => exact h.eq_none_iff.mpr fun k hk => hr' k hk.1
      | some k => exact h.unique ⟨⟨hr'.1, hboth k hr'⟩, fun j hj => hr'.2 hj.1⟩
    exact hr ▸ hr'

/-! ## Sweeps -/

/-- A search over the windows `0 .. bound - 1`. A state `s` looks at the window `pos s`; on a miss
the search goes on from `next s`, which is further to the right. -/
structure Sweep (σ : Type*) where
  pos : σ → ℕ
  next : σ → σ
  bound : ℕ
  hit : ℕ → Prop
  advance : ∀ s, pos s < bound → ¬ hit (pos s) → pos s < pos (next s)

namespace Sweep
variable {σ : Type*} (S : Sweep σ)

open scoped Classical in
noncomputable def run (s : σ) : Option ℕ :=
  if _hb : S.pos s < S.bound then
    if _hh : S.hit (S.pos s) then some (S.pos s) else run (S.next s)
  else none
termination_by S.bound - S.pos s
decreasing_by
  have := S.advance s _hb _hh
  omega

inductive Visits : σ → σ → Prop
  | here {s : σ} : S.pos s < S.bound → Visits s s
  | there {s t : σ} : S.pos s < S.bound → ¬ S.hit (S.pos s) → Visits (S.next s) t → Visits s t

/-- No jump of the search from `s` passes over a hit. -/
def NoJumpOver (s : σ) : Prop :=
  ∀ t, S.Visits s t → ¬ S.hit (S.pos t) →
    ∀ k, S.pos t < k → k < S.pos (S.next t) → k < S.bound → ¬ S.hit k

def HitFrom (s : σ) (k : ℕ) : Prop := S.pos s ≤ k ∧ k < S.bound ∧ S.hit k

theorem run_of_bound_le {s : σ} (h : S.bound ≤ S.pos s) : S.run s = none := by
  rw [run, dif_neg (by omega)]

theorem run_of_hit {s : σ} (hb : S.pos s < S.bound) (hh : S.hit (S.pos s)) :
    S.run s = some (S.pos s) := by
  rw [run, dif_pos hb, dif_pos hh]

theorem run_of_miss {s : σ} (hb : S.pos s < S.bound) (hh : ¬ S.hit (S.pos s)) :
    S.run s = S.run (S.next s) := by
  rw [run, dif_pos hb, dif_neg hh]

theorem visits_lt {s t : σ} (h : S.Visits s t) : S.pos t < S.bound := by
  induction h with
  | here hb => exact hb
  | there _ _ _ ih => exact ih

/-- The induction that every fact about a run uses: the search ends, hits, or misses and goes on. -/
theorem run_induction {motive : σ → Prop}
    (done : ∀ s, S.bound ≤ S.pos s → motive s)
    (hit : ∀ s, S.pos s < S.bound → S.hit (S.pos s) → motive s)
    (miss : ∀ s, S.pos s < S.bound → ¬ S.hit (S.pos s) → motive (S.next s) → motive s) (s : σ) :
    motive s := by
  induction hm : S.bound - S.pos s using Nat.strong_induction_on generalizing s with
  | _ m ih =>
    by_cases hb : S.pos s < S.bound
    · by_cases hh : S.hit (S.pos s)
      · exact hit s hb hh
      · have hadv := S.advance s hb hh
        exact miss s hb hh (ih _ (by omega) _ rfl)
    · exact done s (by omega)

theorem run_sound (s : σ) {k : ℕ} (h : S.run s = some k) : S.HitFrom s k := by
  induction s using S.run_induction with
  | done s hb => rw [S.run_of_bound_le hb] at h; cases h
  | hit s hb hh =>
    rw [S.run_of_hit hb hh] at h
    cases h
    exact ⟨le_refl _, hb, hh⟩
  | miss s hb hh ih =>
    rw [S.run_of_miss hb hh] at h
    have hadv := S.advance s hb hh
    obtain ⟨hk, hkb, hkh⟩ := ih h
    exact ⟨by omega, hkb, hkh⟩

theorem noJumpOver_of_miss {s : σ} (hb : S.pos s < S.bound) (hh : ¬ S.hit (S.pos s)) :
    S.NoJumpOver s ↔
      (∀ k, S.pos s < k → k < S.pos (S.next s) → k < S.bound → ¬ S.hit k) ∧
        S.NoJumpOver (S.next s) := by
  constructor
  · intro h
    exact ⟨h s (.here hb) hh, fun t ht => h t (.there hb hh ht)⟩
  · rintro ⟨h0, h1⟩ t ht
    cases ht with
    | here _ => exact fun _ => h0
    | there _ _ ht => exact h1 t ht

/-- **The sweep finds the first hit exactly when it jumps over none.** -/
theorem run_isFirst_iff (s : σ) : IsFirst (S.HitFrom s) (S.run s) ↔ S.NoJumpOver s := by
  induction s using S.run_induction with
  | done s hb =>
    rw [S.run_of_bound_le hb]
    constructor
    · rintro - t ht
      cases ht with
      | here h => omega
      | there h _ _ => omega
    · rintro - k ⟨hk, hkb, _⟩
      omega
  | hit s hb hh =>
    rw [S.run_of_hit hb hh]
    constructor
    · rintro - t ht hmiss
      cases ht with
      | here _ => exact absurd hh hmiss
      | there _ h _ => exact absurd hh h
    · intro _
      exact ⟨⟨le_refl _, hb, hh⟩, fun k hk => hk.1⟩
  | miss s hb hh ih =>
    rw [S.noJumpOver_of_miss hb hh, ← ih, S.run_of_miss hb hh]
    have hadv := S.advance s hb hh
    cases hr : S.run (S.next s) with
    | none =>
      constructor
      · intro h
        exact ⟨fun k hk _ hkb hkh => h k ⟨by omega, hkb, hkh⟩,
          fun k hk => h k ⟨by have := hk.1; omega, hk.2⟩⟩
      · rintro ⟨h0, h1⟩ k ⟨hk, hkb, hkh⟩
        rcases Nat.lt_or_ge k (S.pos (S.next s)) with hlt | hge
        · have hne : S.pos s ≠ k := fun e => hh (e ▸ hkh)
          exact h0 k (by omega) hlt hkb hkh
        · exact h1 k ⟨hge, hkb, hkh⟩
    | some k =>
      obtain ⟨hk, hkb, hkh⟩ := S.run_sound _ hr
      constructor
      · rintro ⟨_, hleast⟩
        refine ⟨fun i hi hi' hib hih => ?_, ⟨hk, hkb, hkh⟩, fun i hi => ?_⟩
        · have : k ≤ i := hleast ⟨by omega, hib, hih⟩
          omega
        · exact hleast ⟨by have := hi.1; omega, hi.2⟩
      · rintro ⟨h0, _, hleast⟩
        refine ⟨⟨by omega, hkb, hkh⟩, ?_⟩
        rintro i ⟨hi, hib, hih⟩
        rcases Nat.lt_or_ge i (S.pos (S.next s)) with hlt | hge
        · have hne : S.pos s ≠ i := fun e => hh (e ▸ hih)
          exact absurd hih (h0 i (by omega) hlt hib)
        · exact hleast ⟨hge, hib, hih⟩

end Sweep
end Search
