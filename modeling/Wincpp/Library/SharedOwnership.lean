import Mathlib.Algebra.Order.Ring.Nat
import Mathlib.Logic.Function.Basic
import Mathlib.Tactic.Common

/-! Resources that are shared by reference counts.

A resource is created with one reference, and released when the last of its references is dropped.
`exec` refuses to copy, to use and to drop a reference that is not there. What it carries out is in order
for each resource: there is one acquisition, then uses, then one release at the most (`Sound`).
-/
namespace SharedOwnership
set_option autoImplicit false

/-- What is done with the reference counts. Resources are numbered in the order of their creation. -/
inductive Op
  | create (r : ℕ)
  | copy (r : ℕ)
  | use (r : ℕ)
  | drop (r : ℕ)
  deriving DecidableEq, Repr

/-- What is done with the resources themselves. -/
inductive Action
  | acquire (r : ℕ)
  | use (r : ℕ)
  | release (r : ℕ)
  deriving DecidableEq, Repr

structure State where
  next : ℕ
  count : ℕ → ℕ
  log : List Action

namespace State

def initial : State := ⟨0, fun _ => 0, []⟩

def exec (s : State) : Op → Option State
  | .create r =>
    if r = s.next then some ⟨s.next + 1, Function.update s.count r 1, s.log ++ [.acquire r]⟩ else none
  | .copy r =>
    if 0 < s.count r then some { s with count := Function.update s.count r (s.count r + 1) } else none
  | .use r => if 0 < s.count r then some { s with log := s.log ++ [.use r] } else none
  | .drop r =>
    match s.count r with
    | 0 => none
    | 1 => some { s with count := Function.update s.count r 0, log := s.log ++ [.release r] }
    | k + 2 => some { s with count := Function.update s.count r (k + 1) }

def run (s : State) : List Op → Option State
  | [] => some s
  | op :: ops => (s.exec op).bind fun s' => s'.run ops

end State

/-! ## Scripts about one resource -/

/-- The number of references after a script about one resource, of which there were `c`. -/
def balance : ℕ → List Op → Option ℕ
  | c, [] => some c
  | c + 1, .copy _ :: ops => balance (c + 2) ops
  | c + 1, .use _ :: ops => balance (c + 1) ops
  | c + 1, .drop _ :: ops => balance c ops
  | _, _ => none

def Op.About (r : ℕ) : Op → Prop
  | .create _ => False
  | .copy r' | .use r' | .drop r' => r' = r

theorem balance_append (c : ℕ) (ops ops' : List Op) :
    balance c (ops ++ ops') = (balance c ops).bind fun c' => balance c' ops' := by
  induction ops generalizing c with
  | nil => rfl
  | cons op ops ih =>
    cases c with
    | zero => cases op <;> rfl
    | succ c =>
      cases op with
      | create => rfl
      | copy => exact ih (c + 2)
      | use => exact ih (c + 1)
      | drop => exact ih c

theorem balance_uses (c k r : ℕ) : balance (c + 1) (List.replicate k (.use r)) = some (c + 1) := by
  induction k with
  | zero => rfl
  | succ k ih => exact ih

/-! ## The life of one resource -/

inductive Phase
  | fresh
  | held
  | released
  deriving DecidableEq, Repr

/-- The next phase of `r`; `none` when the action is out of order. -/
def Phase.next (r : ℕ) (phase : Phase) : Action → Option Phase
  | .acquire r' => if r' ≠ r then some phase else if phase = .fresh then some .held else none
  | .use r' => if r' ≠ r then some phase else if phase = .held then some .held else none
  | .release r' => if r' ≠ r then some phase else if phase = .held then some .released else none

def phaseAfter (r : ℕ) : Phase → List Action → Option Phase
  | phase, [] => some phase
  | phase, action :: log => (phase.next r action).bind fun phase' => phaseAfter r phase' log

theorem phaseAfter_append (r : ℕ) (phase : Phase) (log log' : List Action) :
    phaseAfter r phase (log ++ log') =
      (phaseAfter r phase log).bind fun phase' => phaseAfter r phase' log' := by
  induction log generalizing phase with
  | nil => rfl
  | cons action log ih =>
    rw [List.cons_append, phaseAfter, phaseAfter, Option.bind_assoc]
    congr 1
    funext phase'
    exact ih phase'

theorem phaseAfter_concat {r : ℕ} {log : List Action} {phase : Phase}
    (h : phaseAfter r .fresh log = some phase) (action : Action) :
    phaseAfter r .fresh (log ++ [action]) = phase.next r action := by
  rw [phaseAfter_append, h, Option.bind_some, phaseAfter]
  cases phase.next r action <;> rfl

namespace State

def phaseOf (s : State) (r : ℕ) : Phase :=
  if s.next ≤ r then .fresh else if s.count r = 0 then .released else .held

/-- The log is in order for each resource, which is held as long as there are references. -/
structure Sound (s : State) : Prop where
  beyond : ∀ r, s.next ≤ r → s.count r = 0
  phase : ∀ r, phaseAfter r .fresh s.log = some (s.phaseOf r)

variable {s s' : State} {r : ℕ}

theorem sound_initial : Sound initial := ⟨fun _ _ => rfl, fun _ => rfl⟩

theorem Sound.lt_next (h : s.Sound) (hr : 0 < s.count r) : r < s.next := by
  by_contra hge
  rw [h.beyond r (not_lt.mp hge)] at hr
  exact absurd hr (lt_irrefl 0)

theorem Sound.phase_of_pos (h : s.Sound) (hr : 0 < s.count r) :
    phaseAfter r .fresh s.log = some .held := by
  rw [h.phase r, phaseOf, if_neg (not_le.mpr (h.lt_next hr)), if_neg hr.ne']

/-- What has to be shown of a change of a single count. -/
theorem Sound.update (h : s.Sound) {n c : ℕ} {log : List Action} (hle : s.next ≤ n) (hr : r < n)
    (hnext : ∀ r', r' ≠ r → s.next ≤ r' → n ≤ r')
    (hother : ∀ r', r' ≠ r → phaseAfter r' .fresh log = phaseAfter r' .fresh s.log)
    (hself : phaseAfter r .fresh log = some (if c = 0 then .released else .held)) :
    (⟨n, Function.update s.count r c, log⟩ : State).Sound := by
  refine ⟨fun r' hr' => ?_, fun r' => ?_⟩
  · change n ≤ r' at hr'
    change Function.update s.count r c r' = 0
    rw [Function.update_of_ne (by omega)]
    exact h.beyond r' (by omega)
  · by_cases hne : r' = r
    · subst hne
      rw [hself]
      simp only [phaseOf, if_neg (not_le.mpr hr), Function.update_self]
    · have hiff : n ≤ r' ↔ s.next ≤ r' := ⟨hle.trans, hnext r' hne⟩
      rw [hother r' hne, h.phase r']
      simp only [phaseOf, Function.update_of_ne hne, hiff]

/-- An action on a resource says nothing about another one. -/
theorem phaseAfter_concat_of_ne {r' : ℕ} (h : s.Sound) {action : Action}
    (haction : ∀ phase : Phase, phase.next r' action = some phase) :
    phaseAfter r' .fresh (s.log ++ [action]) = phaseAfter r' .fresh s.log := by
  rw [phaseAfter_concat (h.phase r'), haction, h.phase r']

theorem Sound.exec (h : s.Sound) {op : Op} (hexec : s.exec op = some s') : s'.Sound := by
  cases op with
  | create r =>
    rw [State.exec, Option.ite_none_right_eq_some] at hexec
    obtain ⟨rfl, he⟩ := hexec
    cases he
    have hfresh : s.phaseOf s.next = .fresh := if_pos le_rfl
    refine h.update (Nat.le_succ _) (Nat.lt_succ_self _) (fun r' hne hr' => by omega) (fun r' hne =>
      phaseAfter_concat_of_ne h fun phase => if_pos (Ne.symm hne)) ?_
    rw [phaseAfter_concat (h.phase _), hfresh]
    simp [Phase.next]
  | copy r =>
    rw [State.exec, Option.ite_none_right_eq_some] at hexec
    obtain ⟨hr, he⟩ := hexec
    cases he
    exact h.update le_rfl (h.lt_next hr) (fun _ _ => id) (fun _ _ => rfl)
      ((h.phase_of_pos hr).trans (by simp))
  | use r =>
    rw [State.exec, Option.ite_none_right_eq_some] at hexec
    obtain ⟨hr, he⟩ := hexec
    cases he
    have hsound : (⟨s.next, Function.update s.count r (s.count r), s.log ++ [.use r]⟩ : State).Sound := by
      refine h.update le_rfl (h.lt_next hr) (fun _ _ => id) (fun r' hne =>
        phaseAfter_concat_of_ne h fun phase => if_pos (Ne.symm hne)) ?_
      rw [phaseAfter_concat (h.phase_of_pos hr), if_neg hr.ne']
      simp [Phase.next]
    rwa [Function.update_eq_self] at hsound
  | drop r =>
    rw [State.exec] at hexec
    split at hexec
    · cases hexec
    · rename_i hone
      cases hexec
      have hr : 0 < s.count r := by omega
      refine h.update le_rfl (h.lt_next hr) (fun _ _ => id) (fun r' hne =>
        phaseAfter_concat_of_ne h fun phase => if_pos (Ne.symm hne)) ?_
      rw [phaseAfter_concat (h.phase_of_pos hr)]
      simp [Phase.next]
    · rename_i k hk
      cases hexec
      have hr : 0 < s.count r := by omega
      exact h.update le_rfl (h.lt_next hr) (fun _ _ => id) (fun _ _ => rfl)
        ((h.phase_of_pos hr).trans (by simp))

theorem Sound.run (h : s.Sound) {ops : List Op} (hrun : s.run ops = some s') : s'.Sound := by
  induction ops generalizing s with
  | nil =>
    cases hrun
    exact h
  | cons op ops ih =>
    obtain ⟨t, ht, hrun⟩ := Option.bind_eq_some_iff.mp hrun
    exact ih (h.exec ht) hrun

theorem run_append (s : State) (ops ops' : List Op) :
    s.run (ops ++ ops') = (s.run ops).bind fun s' => s'.run ops' := by
  induction ops generalizing s with
  | nil => rfl
  | cons op ops ih =>
    rw [List.cons_append, State.run, State.run, Option.bind_assoc]
    congr 1
    funext s'
    exact ih s'

/-! ## What scripts yield -/

/-- The script can be carried out, and leaves these counts. -/
def Yields (s : State) (ops : List Op) (n : ℕ) (count : ℕ → ℕ) : Prop :=
  ∃ log, s.run ops = some ⟨n, count, log⟩

theorem Yields.append {n n' : ℕ} {count count' : ℕ → ℕ} {ops ops' : List Op}
    (h : s.Yields ops n count) (h' : ∀ log, (⟨n, count, log⟩ : State).Yields ops' n' count') :
    s.Yields (ops ++ ops') n' count' := by
  obtain ⟨log, hrun⟩ := h
  obtain ⟨log', hrun'⟩ := h' log
  exact ⟨log', by rw [run_append, hrun, Option.bind_some, hrun']⟩

theorem yields_nil (s : State) : s.Yields [] s.next s.count := ⟨s.log, rfl⟩

theorem exec_of_balance {c : ℕ} {op : Op} {ops : List Op} (habout : op.About r)
    (hbalance : balance (s.count r) (op :: ops) = some c) :
    ∃ c' log, s.exec op = some ⟨s.next, Function.update s.count r c', log⟩ ∧
      balance c' ops = some c := by
  cases hcount : s.count r with
  | zero =>
    rw [hcount] at hbalance
    cases op <;> cases hbalance
  | succ k =>
    have hpos : 0 < s.count r := by omega
    rw [hcount] at hbalance
    cases op with
    | create => exact habout.elim
    | copy r' =>
      obtain rfl : r' = r := habout
      exact ⟨k + 2, s.log, by rw [exec, if_pos hpos, hcount], hbalance⟩
    | use r' =>
      obtain rfl : r' = r := habout
      refine ⟨k + 1, s.log ++ [.use r'], ?_, hbalance⟩
      rw [exec, if_pos hpos, ← hcount, Function.update_eq_self]
    | drop r' =>
      obtain rfl : r' = r := habout
      cases k with
      | zero => exact ⟨0, s.log ++ [.release r'], by simp only [exec, hcount], hbalance⟩
      | succ k => exact ⟨k + 1, s.log, by simp only [exec, hcount], hbalance⟩

theorem yields_balance {c : ℕ} {ops : List Op} (habout : ∀ op ∈ ops, op.About r)
    (hbalance : balance (s.count r) ops = some c) :
    s.Yields ops s.next (Function.update s.count r c) := by
  induction ops generalizing s with
  | nil =>
    cases hbalance
    rw [Function.update_eq_self]
    exact s.yields_nil
  | cons op ops ih =>
    obtain ⟨hop, habout⟩ := List.forall_mem_cons.mp habout
    obtain ⟨c', log, hexec, hrest⟩ := exec_of_balance hop hbalance
    obtain ⟨log', hrun⟩ := ih (s := ⟨s.next, Function.update s.count r c', log⟩) habout
      (by simp only [Function.update_self, hrest])
    exact ⟨log', by rw [run, hexec, Option.bind_some, hrun, Function.update_idem]⟩

/-- A script that starts from any positive number of references. -/
theorem yields_of_pos {f : ℕ → ℕ} {ops : List Op} (hr : 0 < s.count r)
    (habout : ∀ op ∈ ops, op.About r) (hbalance : ∀ c, balance (c + 1) ops = some (f c)) :
    s.Yields ops s.next (Function.update s.count r (f (s.count r - 1))) := by
  refine yields_balance habout ?_
  rw [← hbalance, Nat.sub_add_cancel hr]

theorem yields_create {n c : ℕ} {ops : List Op} (hn : n = s.next)
    (habout : ∀ op ∈ ops, op.About n) (hbalance : balance 1 ops = some c) :
    s.Yields (.create n :: ops) (n + 1) (Function.update s.count n c) := by
  subst hn
  have hcreate : s.Yields [.create s.next] (s.next + 1) (Function.update s.count s.next 1) :=
    ⟨_, by rw [run, exec, if_pos rfl]; rfl⟩
  refine hcreate.append fun log => ?_
  have hrest := yields_balance (s := ⟨s.next + 1, Function.update s.count s.next 1, log⟩)
    (c := c) habout (by simp only [Function.update_self, hbalance])
  simpa only [Function.update_idem] using hrest

end State
end SharedOwnership
