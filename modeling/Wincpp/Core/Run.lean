import Mathlib.Algebra.Order.Ring.Int
import Mathlib.Tactic.Common

/-! Outcomes of a run of the code, and its integer conversions.

A run either returns a value or stops for one of the reasons of `Failure`. The checked conversions
`int64` and `sizeT` stop a run whose value would change, so that a run which returns is one in which
no conversion changed a value; `asSize` and `asInt32` are the conversions as the machine does them,
for the places where the code relies on them or suffers from them.
-/
namespace Wincpp
set_option autoImplicit false

inductive Failure
  | outOfRange  -- an array was read outside its bounds
  | narrowing  -- a conversion between integer types changed the value
  | accessViolation  -- unreadable memory of the own process was copied
  | terminate  -- an exception left a function that is declared `noexcept`
  | outOfFuel  -- the loop was still running when the fuel ran out
  deriving DecidableEq, Repr

abbrev Run := Except Failure

namespace Run
variable {ε α β : Type}

@[simp] theorem ok_bind (a : α) (f : α → Except ε β) : ((.ok a : Except ε α) >>= f) = f a := rfl
@[simp] theorem error_bind (e : ε) (f : α → Except ε β) :
    ((.error e : Except ε α) >>= f) = .error e := rfl
@[simp] theorem pure_eq_ok (a : α) : (pure a : Except ε α) = .ok a := rfl
@[simp] theorem map_ok (f : α → β) (a : α) : f <$> (.ok a : Except ε α) = .ok (f a) := rfl

theorem bind_eq_ok {x : Except ε α} {f : α → Except ε β} {b : β} (h : x >>= f = .ok b) :
    ∃ a, x = .ok a ∧ f a = .ok b := by
  cases x with
  | error e => cases h
  | ok a => exact ⟨a, rfl, h⟩

theorem map_eq_ok {x : Except ε α} {f : α → β} {b : β} (h : f <$> x = .ok b) :
    ∃ a, x = .ok a ∧ f a = b := by
  cases x with
  | error e => cases h
  | ok a => exact ⟨a, rfl, Except.ok.inj h⟩

theorem exists_bind_eq_ok {x : Except ε α} {f : α → Except ε β} :
    (∃ b, x >>= f = .ok b) ↔ ∃ a, x = .ok a ∧ ∃ b, f a = .ok b := by
  cases x with
  | error e => simp
  | ok a => simp

/-- A run whose first part returns `a` exactly under the condition `P`. -/
theorem exists_bind_eq_ok_of {x : Except ε α} {f : α → Except ε β} {P : Prop} {a : α}
    (hok : P → x = .ok a) (hP : (∃ a, x = .ok a) → P) :
    (∃ b, x >>= f = .ok b) ↔ P ∧ ∃ b, f a = .ok b := by
  rw [exists_bind_eq_ok]
  constructor
  · rintro ⟨a', ha', hf⟩
    have h := hP ⟨a', ha'⟩
    obtain rfl : a = a' := Except.ok.inj ((hok h).symm.trans ha')
    exact ⟨h, hf⟩
  · rintro ⟨h, hf⟩
    exact ⟨a, hok h, hf⟩

/-! ## Fuel -/

/-- With enough fuel the run returns `a`. -/
def Returns (run : ℕ → Run α) (a : α) : Prop := ∃ fuel, ∀ more, run (fuel + more) = .ok a

theorem Returns.unique {run : ℕ → Run α} {a b : α} (ha : Returns run a) (hb : Returns run b) :
    a = b := by
  obtain ⟨n, hn⟩ := ha
  obtain ⟨m, hm⟩ := hb
  have h := hn m
  rw [Nat.add_comm, hm n] at h
  exact (Except.ok.inj h).symm

theorem returns_congr {run run' : ℕ → Run α} {a : α} (n : ℕ)
    (h : ∀ more, run (n + more) = run' (n + more)) : Returns run a ↔ Returns run' a := by
  refine ⟨fun ⟨fuel, hfuel⟩ => ⟨n + fuel, fun more => ?_⟩, fun ⟨fuel, hfuel⟩ =>
    ⟨n + fuel, fun more => ?_⟩⟩
  · rw [Nat.add_assoc, ← h, Nat.add_left_comm]
    exact hfuel _
  · rw [Nat.add_assoc, h, Nat.add_left_comm]
    exact hfuel _

@[simp] theorem returns_const {x : Run α} {a : α} : Returns (fun _ => x) a ↔ x = .ok a :=
  ⟨fun ⟨_, h⟩ => h 0, fun h => ⟨0, fun _ => h⟩⟩

theorem returns_iff_of_eq {run : ℕ → Run α} {x : Run α} {a : α} (n : ℕ)
    (h : ∀ more, run (n + more) = x) : Returns run a ↔ x = .ok a :=
  (returns_congr n h).trans returns_const

theorem not_returns {run : ℕ → Run α} {a : α} (n : ℕ) (h : ∀ more, run (n + more) ≠ .ok a) :
    ¬ Returns run a := by
  intro ⟨fuel, hfuel⟩
  apply h fuel
  rw [Nat.add_comm]
  exact hfuel n

theorem Returns.bind {run : ℕ → Run α} {f : ℕ → α → Run β} {a : α} {b : β} (ha : Returns run a)
    (hb : Returns (fun fuel => f fuel a) b) : Returns (fun fuel => run fuel >>= f fuel) b := by
  obtain ⟨n, hn⟩ := ha
  obtain ⟨m, hm⟩ := hb
  refine ⟨n + m, fun more => ?_⟩
  have h1 := hn (m + more)
  have h2 := hm (n + more)
  rw [← Nat.add_assoc] at h1
  rw [Nat.add_left_comm, ← Nat.add_assoc] at h2
  have h : run (n + m + more) >>= f (n + m + more) = .ok b := by
    rw [h1, ok_bind]
    exact h2
  exact h

/-- `y` returns whatever `x` returns. -/
def Below (x y : Run α) : Prop := ∀ a, x = .ok a → y = .ok a

/-- More fuel does not change what the run returns. -/
def FuelMono (run : ℕ → Run α) : Prop := ∀ n m, n ≤ m → Below (run n) (run m)

theorem Below.refl (x : Run α) : Below x x := fun _ h => h

theorem Below.bind {x y : Run α} {f g : α → Run β} (hxy : Below x y)
    (hfg : ∀ a, Below (f a) (g a)) : Below (x >>= f) (y >>= g) := by
  intro b h
  obtain ⟨a, ha, hb⟩ := bind_eq_ok h
  rw [hxy a ha, ok_bind]
  exact hfg a b hb

theorem FuelMono.returns {run : ℕ → Run α} (h : FuelMono run) {n : ℕ} {a : α}
    (ha : run n = .ok a) : Returns run a :=
  ⟨n, fun more => h n (n + more) (Nat.le_add_right n more) a ha⟩

/-- A loop that no round leaves never returns. `I` holds at all positions that the loop goes through. -/
theorem loop_ne_ok {ξ σ : Type} (I : ξ → Prop) (loop : ℕ → ξ → σ → Run σ)
    (body : ξ → σ → Run (ForInStep σ)) (next : ξ → ξ) (hzero : ∀ x s, loop 0 x s = .error .outOfFuel)
    (hsucc : ∀ fuel x s, I x → loop (fuel + 1) x s =
      (body x s >>= fun step => match step with
        | .done s => .ok s
        | .yield s => loop fuel (next x) s))
    (hnext : ∀ x, I x → I (next x)) (hbody : ∀ x s s', I x → body x s ≠ .ok (.done s'))
    (fuel : ℕ) (x : ξ) (hx : I x) (s s' : σ) : loop fuel x s ≠ .ok s' := by
  induction fuel generalizing x s with
  | zero => simp [hzero]
  | succ fuel ih =>
    intro hok
    rw [hsucc fuel x s hx] at hok
    obtain ⟨step, hstep, hok⟩ := bind_eq_ok hok
    cases step with
    | done s'' => exact hbody x s s'' hx hstep
    | yield s'' => exact ih (next x) (hnext x hx) s'' hok

/-! ## Runs over a list -/

theorem mapM_congr {f g : α → Run β} {xs : List α} (h : ∀ x ∈ xs, f x = g x) :
    xs.mapM f = xs.mapM g := by
  induction xs with
  | nil => rfl
  | cons x xs ih =>
    rw [List.mapM_cons, List.mapM_cons, h x (by simp), ih fun y hy => h y (by simp [hy])]

theorem mem_mapM {f : α → Run β} {xs : List α} {ys : List β} (h : xs.mapM f = .ok ys) {x : α}
    (hx : x ∈ xs) : ∃ y ∈ ys, f x = .ok y := by
  induction xs generalizing ys with
  | nil => cases hx
  | cons z xs ih =>
    rw [List.mapM_cons] at h
    obtain ⟨y, hy, h⟩ := bind_eq_ok h
    obtain ⟨ys, hys, h⟩ := bind_eq_ok h
    cases h
    rcases List.mem_cons.mp hx with rfl | hx
    · exact ⟨y, by simp, hy⟩
    · obtain ⟨w, hw, hxw⟩ := ih hys hx
      exact ⟨w, by simp [hw], hxw⟩

theorem findSomeM?_eq_some {f : α → Except ε (Option β)} {xs : List α} {b : β}
    (h : xs.findSomeM? f = .ok (some b)) :
    ∃ pre x post, xs = pre ++ x :: post ∧ f x = .ok (some b) ∧ ∀ y ∈ pre, f y = .ok none := by
  induction xs with
  | nil => cases h
  | cons x xs ih =>
    rw [List.findSomeM?_cons] at h
    obtain ⟨o, ho, h⟩ := bind_eq_ok h
    cases o with
    | some c =>
      cases h
      exact ⟨[], x, xs, rfl, ho, by simp⟩
    | none =>
      obtain ⟨pre, y, post, rfl, hy, hpre⟩ := ih h
      refine ⟨x :: pre, y, post, rfl, hy, fun z hz => ?_⟩
      rcases List.mem_cons.mp hz with rfl | hz
      · exact ho
      · exact hpre z hz

theorem findSomeM?_eq_none {f : α → Except ε (Option β)} {xs : List α}
    (h : xs.findSomeM? f = .ok none) : ∀ x ∈ xs, f x = .ok none := by
  induction xs with
  | nil => simp
  | cons x xs ih =>
    rw [List.findSomeM?_cons] at h
    obtain ⟨o, ho, h⟩ := bind_eq_ok h
    cases o with
    | some c => cases h
    | none =>
      intro y hy
      rcases List.mem_cons.mp hy with rfl | hy
      · exact ho
      · exact ih h y hy

theorem findSomeM?_of_first {f : α → Except ε (Option β)} {pre post : List α} {x : α} {b : β}
    (hpre : ∀ y ∈ pre, f y = .ok none) (hx : f x = .ok (some b)) :
    (pre ++ x :: post).findSomeM? f = .ok (some b) := by
  induction pre with
  | nil => rw [List.nil_append, List.findSomeM?_cons, hx, ok_bind]; rfl
  | cons y pre ih =>
    rw [List.cons_append, List.findSomeM?_cons, hpre y (by simp), ok_bind]
    exact ih fun z hz => hpre z (by simp [hz])

/-- A search whose body always returns. -/
theorem findSomeM?_map_eq_find? {γ : Type} {k : γ → α} {f : α → Except ε (Option β)} {xs : List γ}
    {p : γ → Bool} {g : γ → β} (h : ∀ x ∈ xs, f (k x) = .ok (if p x then some (g x) else none)) :
    (xs.map k).findSomeM? f = .ok ((xs.find? p).map g) := by
  induction xs with
  | nil => rfl
  | cons x xs ih =>
    obtain ⟨hx, hxs⟩ := List.forall_mem_cons.mp h
    rw [List.map_cons, List.findSomeM?_cons, hx, ok_bind]
    cases hp : p x with
    | true =>
      rw [List.find?_cons_of_pos hp]
      rfl
    | false =>
      rw [List.find?_cons_of_neg (by simp [hp])]
      exact ih hxs

theorem findSomeM?_eq_find? {f : α → Except ε (Option β)} {p : α → Bool} {g : α → β} (xs : List α)
    (h : ∀ x, f x = .ok (if p x then some (g x) else none)) :
    xs.findSomeM? f = .ok ((xs.find? p).map g) := by
  have hid : ∀ x ∈ xs, f (id x) = .ok (if p x then some (g x) else none) := fun x _ => h x
  rw [← findSomeM?_map_eq_find? hid, List.map_id]

theorem findSomeM?_ok {f : α → Except ε (Option β)} {xs : List α} (h : ∀ x ∈ xs, ∃ o, f x = .ok o) :
    ∃ o, xs.findSomeM? f = .ok o := by
  induction xs with
  | nil => exact ⟨none, rfl⟩
  | cons x xs ih =>
    obtain ⟨o, ho⟩ := h x (by simp)
    rw [List.findSomeM?_cons, ho, ok_bind]
    cases o with
    | some b => exact ⟨some b, rfl⟩
    | none => exact ih fun y hy => h y (by simp [hy])

/-- A search with an early exit returns exactly when each round that is reached returns. -/
theorem findSomeM?_range'_ok_iff {f : ℕ → Except ε (Option β)} {Good Hit : ℕ → Prop}
    (hgood : ∀ i, (∃ o, f i = .ok o) ↔ Good i) (hnone : ∀ i, f i = .ok none ↔ Good i ∧ ¬ Hit i)
    (k n : ℕ) : (∃ o, (List.range' k n).findSomeM? f = .ok o) ↔
      ∀ i, k ≤ i → i < k + n → (∀ j, k ≤ j → j < i → ¬ Hit j) → Good i := by
  induction n generalizing k with
  | zero =>
    refine ⟨fun _ i hlow hhigh => ?_, fun _ => ⟨none, rfl⟩⟩
    omega
  | succ n ih =>
    have hhead : (∃ o, (List.range' k (n + 1)).findSomeM? f = .ok o) ↔
        Good k ∧ (¬ Hit k → ∃ o, (List.range' (k + 1) n).findSomeM? f = .ok o) := by
      rw [List.range'_succ, List.findSomeM?_cons]
      cases hk : f k with
      | error e =>
        have hno : ¬ Good k := fun h => by
          obtain ⟨o, ho⟩ := (hgood k).mpr h
          cases hk.symm.trans ho
        simp [hno]
      | ok o =>
        have hyes : Good k := (hgood k).mp ⟨o, hk⟩
        cases o with
        | none =>
          have hmiss : ¬ Hit k := ((hnone k).mp hk).2
          simp [hyes, hmiss]
        | some b =>
          have hhit : Hit k := by
            by_contra hmiss
            cases hk.symm.trans ((hnone k).mpr ⟨hyes, hmiss⟩)
          simp [hyes, hhit]
    rw [hhead, ih]
    constructor
    · rintro ⟨hk, hrest⟩ i hlow hhigh hmiss
      rcases Nat.eq_or_lt_of_le hlow with rfl | hlt
      · exact hk
      · exact hrest (hmiss k le_rfl hlt) i hlt (by omega) fun j hj => hmiss j (by omega)
    · intro h
      refine ⟨h k le_rfl (by omega) fun j hlow hhigh => by omega, fun hmiss i hlow hhigh hrest => ?_⟩
      refine h i (by omega) (by omega) fun j hj hji => ?_
      rcases Nat.eq_or_lt_of_le hj with rfl | hlt
      · exact hmiss
      · exact hrest j hlt hji

theorem mem_flatten_mapM {f : α → Run (List β)} {xs : List α} {bs : List β}
    (h : List.flatten <$> xs.mapM f = .ok bs) {b : β} :
    b ∈ bs ↔ ∃ x ∈ xs, ∃ cs, f x = .ok cs ∧ b ∈ cs := by
  induction xs generalizing bs with
  | nil =>
    cases h
    simp
  | cons x xs ih =>
    obtain ⟨css, hcss, rfl⟩ := map_eq_ok h
    rw [List.mapM_cons] at hcss
    obtain ⟨cs, hcs, hcss⟩ := bind_eq_ok hcss
    obtain ⟨rest, hrest, hcss⟩ := bind_eq_ok hcss
    cases hcss
    have hih : b ∈ rest.flatten ↔ _ := ih (by rw [hrest, map_ok])
    rw [List.flatten_cons, List.mem_append, hih]
    simp [hcs]

theorem flatten_mapM_returns {f : ℕ → α → Run (List β)} {xs : List α}
    (h : ∀ x ∈ xs, ∃ bs, Returns (fun fuel => f fuel x) bs) :
    ∃ bs, Returns (fun fuel => List.flatten <$> xs.mapM (f fuel)) bs := by
  suffices hmapM : ∃ bss, Returns (fun fuel => xs.mapM (f fuel)) bss by
    obtain ⟨bss, fuel, hfuel⟩ := hmapM
    refine ⟨bss.flatten, fuel, fun more => ?_⟩
    simp only [hfuel more, map_ok]
  induction xs with
  | nil => exact ⟨[], 0, fun _ => rfl⟩
  | cons x xs ih =>
    obtain ⟨bs, hbs⟩ := h x (by simp)
    obtain ⟨bss, hbss⟩ := ih fun y hy => h y (by simp [hy])
    refine ⟨bs :: bss, ?_⟩
    simp only [List.mapM_cons]
    refine hbs.bind (hbss.bind ?_)
    exact returns_const.mpr rfl

end Run

/-! ## Array accesses -/

def index {α : Type} (xs : List α) (i : ℕ) : Run α :=
  match xs[i]? with
  | some a => .ok a
  | none => .error .outOfRange

theorem index_of_getElem? {α : Type} {xs : List α} {i : ℕ} {a : α} (h : xs[i]? = some a) :
    index xs i = .ok a := by
  rw [index, h]

theorem getElem?_of_index {α : Type} {xs : List α} {i : ℕ} {a : α} (h : index xs i = .ok a) :
    xs[i]? = some a := by
  rw [index] at h
  split at h
  · cases h
    assumption
  · cases h

/-! ## Integer conversions

`int64`, `sizeT` and `int32` keep a value in a type that must hold it; `asSize` (for `std::size_t` and
`std::uintptr_t`) and `asInt32` cut it to the type's width. -/

def int64 (z : ℤ) : Run ℤ := if -2 ^ 63 ≤ z ∧ z < 2 ^ 63 then .ok z else .error .narrowing

def sizeT (z : ℤ) : Run ℕ := if 0 ≤ z ∧ z < 2 ^ 64 then .ok z.toNat else .error .narrowing

def int32 (z : ℤ) : Run ℤ := if -2 ^ 31 ≤ z ∧ z < 2 ^ 31 then .ok z else .error .narrowing

def asSize (z : ℤ) : ℕ := (z % 2 ^ 64).toNat

def asInt32 (z : ℤ) : ℤ := Int.bmod z (2 ^ 32)

theorem int64_natCast {n : ℕ} (h : n < 2 ^ 63) : int64 (n : ℤ) = .ok (n : ℤ) :=
  if_pos (by omega)

theorem int64_eq_ok {z n : ℤ} (h : int64 z = .ok n) : n = z := by
  rw [int64] at h
  split at h
  · exact (Except.ok.inj h).symm
  · cases h

theorem sizeT_natCast {n : ℕ} (h : n < 2 ^ 64) : sizeT (n : ℤ) = .ok n := by
  rw [sizeT, if_pos (by omega), Int.toNat_natCast]

theorem sizeT_eq_ok {z : ℤ} {n : ℕ} (h : sizeT z = .ok n) : (n : ℤ) = z := by
  rw [sizeT] at h
  split at h
  · cases h
    omega
  · cases h

theorem int32_eq_ok {z n : ℤ} (h : int32 z = .ok n) : n = z := by
  rw [int32] at h
  split at h
  · exact (Except.ok.inj h).symm
  · cases h

theorem int32_lt {z n : ℤ} (h : int32 z = .ok n) : z < 2 ^ 31 := by
  rw [int32] at h
  split at h
  · omega
  · cases h

theorem asSize_natCast {n : ℕ} (h : n < 2 ^ 64) : asSize (n : ℤ) = n := by
  unfold asSize
  omega

theorem asInt32_of_bounds {z : ℤ} (h₁ : -2 ^ 31 ≤ z) (h₂ : z < 2 ^ 31) : asInt32 z = z := by
  unfold asInt32
  rw [Int.bmod_eq_of_le] <;> omega

theorem asInt32_bounds (z : ℤ) : -2 ^ 31 ≤ asInt32 z ∧ asInt32 z < 2 ^ 31 := by
  unfold asInt32
  rw [Int.bmod_def]
  omega

theorem asInt32_congr {z w : ℤ} (h : z % 2 ^ 32 = w % 2 ^ 32) : asInt32 z = asInt32 w := by
  unfold asInt32
  rw [Int.bmod_def, Int.bmod_def]
  omega

theorem asSize_of_sizeT {z : ℤ} {n : ℕ} (h : sizeT z = .ok n) : asSize z = n := by
  rw [sizeT] at h
  split at h
  · cases h
    unfold asSize
    omega
  · cases h

theorem asInt32_of_int32 {z n : ℤ} (h : int32 z = .ok n) : asInt32 z = n := by
  rw [int32] at h
  split at h
  · rename_i hbounds
    rw [asInt32_of_bounds hbounds.1 hbounds.2]
    exact Except.ok.inj h
  · cases h

theorem asInt32_asInt32 (z : ℤ) : asInt32 (asInt32 z) = asInt32 z :=
  asInt32_of_bounds (asInt32_bounds z).1 (asInt32_bounds z).2

theorem asSize_lt (z : ℤ) : asSize z < 2 ^ 64 := by
  unfold asSize
  omega

end Wincpp
