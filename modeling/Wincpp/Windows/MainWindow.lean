import Wincpp.Windows.Window

/-! The main window (`window_factory.cpp`).

`main_window` asks about each window twice, once for its process and once for its owner, and the desktop
goes on in between. It does not miss a window that stays, and in a desktop that stands still it returns
the first window of the process that has no owner. But a window that goes away between the two questions
has no owner either, and is returned (`mainWindow_during`).
-/
namespace Wincpp.Windows
set_option autoImplicit false

variable {D : ℕ → Desktop} {pid : UInt32} {unread : ℕ → UInt32}

/-- The callback can take the window for one of the process: it is one, or it is gone. -/
def MayBelong (D : ℕ → Desktop) (pid : UInt32) (t hwnd : ℕ) : Prop :=
  ∀ w, (D t).info hwnd = some w → w.processId = pid

def Owned (D : ℕ → Desktop) (t hwnd : ℕ) : Prop :=
  ∃ w, (D t).info hwnd = some w ∧ w.owner ≠ none

/-- From the moment `t₀` on the window is one of the process and has no owner. -/
def StaysMain (D : ℕ → Desktop) (pid : UInt32) (t₀ hwnd : ℕ) : Prop :=
  ∀ t, t₀ ≤ t → ∃ w, (D t).info hwnd = some w ∧ w.processId = pid ∧ w.owner = none

theorem moment_askWindow (hwnd : ℕ) (s : Thread) : (askWindow D hwnd s).2.moment = s.moment + 1 := by
  rw [Thread.moment, asked_askWindow, List.length_append, List.length_singleton, Thread.moment]

variable (D pid unread) in
theorem ofProcess_eq (hwnd : ℕ) (s : Thread) :
    ∃ mine, ofProcess D pid unread hwnd s = (.ok mine, (askWindow D hwnd s).2) ∧
      (mine = true → MayBelong D pid s.moment hwnd) ∧
      ∀ w, (D s.moment).info hwnd = some w → (mine = true ↔ w.processId = pid) := by
  rw [ofProcess, bind_ok (askWindow_eq hwnd s)]
  cases h : (D s.moment).info hwnd with
  | some w =>
    refine ⟨w.processId == pid, rfl, ?_, ?_⟩
    · intro hmine w' hw'
      rw [h, Option.some.injEq] at hw'
      rw [← hw']
      exact eq_of_beq hmine
    · intro w' hw'
      cases hw'
      exact beq_iff_eq
  | none =>
    refine ⟨_, rfl, ?_, ?_⟩
    · intro _ w hw
      rw [h] at hw
      cases hw
    · intro w hw
      cases hw

theorem owner_eq (hwnd : ℕ) (s : Thread) :
    owner D hwnd s =
      (.ok (((D s.moment).info hwnd).bind WindowInfo.owner), (askWindow D hwnd s).2) := by
  rw [owner, bind_ok (askWindow_eq hwnd s)]
  rfl

/-! ## The windows of the process -/

variable (D pid unread) in
theorem windowsFrom_spec (handles : List ℕ) (s : Thread) :
    ∃ ws s', windowsFrom D pid unread handles s = (.ok ws, s') ∧
      s'.moment = s.moment + handles.length ∧ ws.Sublist handles ∧
      (∀ hwnd ∈ ws, ∃ t, s.moment ≤ t ∧ t < s'.moment ∧ MayBelong D pid t hwnd) ∧
      ∀ hwnd ∈ handles, StaysMain D pid s.moment hwnd → hwnd ∈ ws := by
  induction handles generalizing s with
  | nil => exact ⟨[], s, rfl, rfl, .slnil, by simp, by simp⟩
  | cons hwnd rest ih =>
    obtain ⟨mine, hmine, hbelongs, hknown⟩ := ofProcess_eq D pid unread hwnd s
    obtain ⟨ws, s', hws, hmoment, hsub, hsome, hstays⟩ := ih (askWindow D hwnd s).2
    rw [moment_askWindow] at hmoment hsome hstays
    have hrest : ∀ h ∈ rest, StaysMain D pid s.moment h → h ∈ ws := fun h hmem hmain =>
      hstays h hmem fun t ht => hmain t (by omega)
    rw [windowsFrom, bind_ok hmine, bind_ok hws]
    refine ⟨if mine then hwnd :: ws else ws, s', rfl, ?_, ?_, ?_, ?_⟩
    · rw [hmoment, List.length_cons]
      omega
    · split
      · exact hsub.cons_cons hwnd
      · exact hsub.cons hwnd
    · intro h hmem
      split at hmem
      · rename_i htrue
        obtain rfl | hmem := List.mem_cons.mp hmem
        · exact ⟨s.moment, Nat.le_refl _, by omega, hbelongs htrue⟩
        · obtain ⟨t, ht, htlt, hmay⟩ := hsome h hmem
          exact ⟨t, by omega, htlt, hmay⟩
      · obtain ⟨t, ht, htlt, hmay⟩ := hsome h hmem
        exact ⟨t, by omega, htlt, hmay⟩
    · intro h hmem hmain
      obtain rfl | hmem := List.mem_cons.mp hmem
      · obtain ⟨w, hw, hpid, -⟩ := hmain s.moment (Nat.le_refl _)
        rw [if_pos ((hknown w hw).mpr hpid)]
        exact List.mem_cons_self
      · split
        · exact List.mem_cons_of_mem _ (hrest h hmem hmain)
        · exact hrest h hmem hmain

/-- All windows in front of the one that is returned had an owner, and that one had none. -/
theorem firstWithoutOwner_spec (ws : List ℕ) (s : Thread) :
    ∃ pre post s', firstWithoutOwner D ws s = (.ok post.head?, s') ∧
      s.moment ≤ s'.moment ∧ ws = pre ++ post ∧
      (∀ hwnd ∈ pre, ∃ t, s.moment ≤ t ∧ t < s'.moment ∧ Owned D t hwnd) ∧
      ∀ hwnd ∈ post.head?, ∃ t, s.moment ≤ t ∧ t < s'.moment ∧ ¬ Owned D t hwnd := by
  induction ws generalizing s with
  | nil => exact ⟨[], [], s, rfl, Nat.le_refl _, rfl, by simp, by simp⟩
  | cons hwnd rest ih =>
    have hnext := moment_askWindow (D := D) hwnd s
    rw [firstWithoutOwner, bind_ok (owner_eq hwnd s)]
    cases howner : ((D s.moment).info hwnd).bind WindowInfo.owner with
    | none =>
      refine ⟨[], hwnd :: rest, _, rfl, by omega, rfl, by simp, fun h hh => ?_⟩
      cases hh
      refine ⟨s.moment, Nat.le_refl _, by omega, ?_⟩
      rintro ⟨w, hw, hne⟩
      rw [hw, Option.bind_some] at howner
      exact hne howner
    | some boss =>
      obtain ⟨pre, post, s', hrun, hle, hsplit, hpre, hpost⟩ := ih (askWindow D hwnd s).2
      rw [hnext] at hle hpre hpost
      refine ⟨hwnd :: pre, post, s', hrun, by omega, congrArg _ hsplit, ?_, ?_⟩
      · intro h hmem
        obtain rfl | hmem := List.mem_cons.mp hmem
        · obtain ⟨w, hw, hboss⟩ := Option.bind_eq_some_iff.mp howner
          exact ⟨s.moment, Nat.le_refl _, hle, w, hw, by simp [hboss]⟩
        · obtain ⟨t, ht, hlt, howned⟩ := hpre h hmem
          exact ⟨t, by omega, hlt, howned⟩
      · intro h hmem
        obtain ⟨t, ht, hlt, hfree⟩ := hpost h hmem
        exact ⟨t, by omega, hlt, hfree⟩

/-- In a sublist nothing comes forward: what stands at `a` or behind it does so in the whole list. -/
theorem exists_split_of_sublist {α : Type} {a x : α} {pre post l : List α}
    (h : (pre ++ a :: post).Sublist l) (hx : x ∈ a :: post) :
    ∃ u v, l = u ++ a :: v ∧ x ∈ a :: v := by
  obtain ⟨l₁, l₂, rfl, -, hsub⟩ := List.append_sublist_iff.mp h
  obtain ⟨u, v, rfl, ha, hrest⟩ := List.cons_sublist_iff.mp hsub
  obtain ⟨u₁, u₂, rfl⟩ := List.append_of_mem ha
  refine ⟨l₁ ++ u₁, u₂ ++ v, by simp, ?_⟩
  obtain rfl | hx := List.mem_cons.mp hx
  · exact List.mem_cons_self
  · exact List.mem_cons_of_mem _ (List.mem_append_right _ (hrest.subset hx))

/-! ## A desktop that stands still -/

def isOf (pid : UInt32) (d : Desktop) (hwnd : ℕ) : Bool :=
  (d.info hwnd).any fun w => w.processId == pid

def hasNoOwner (d : Desktop) (hwnd : ℕ) : Bool := ((d.info hwnd).bind WindowInfo.owner).isNone

variable (pid unread) in
theorem windowsFrom_still {d : Desktop} {handles : List ℕ}
    (h : ∀ hwnd ∈ handles, d.info hwnd ≠ none) (s : Thread) :
    (windowsFrom (fun _ => d) pid unread handles s).1 = .ok (handles.filter (isOf pid d)) := by
  induction handles generalizing s with
  | nil => rfl
  | cons hwnd rest ih =>
    obtain ⟨w, hw⟩ := Option.ne_none_iff_exists'.mp (h hwnd List.mem_cons_self)
    obtain ⟨mine, hmine, -, hknown⟩ :=
      ofProcess_eq (fun _ => d) pid unread hwnd s
    have hrest := ih (fun other hmem => h other (List.mem_cons_of_mem _ hmem))
      (askWindow (fun _ => d) hwnd s).2
    have hisOf : mine = isOf pid d hwnd := by
      rw [Bool.eq_iff_iff, hknown w hw, isOf, hw, Option.any_some, beq_iff_eq]
    rw [windowsFrom, bind_ok hmine, bind_ok (Prod.ext hrest rfl), hisOf, List.filter_cons]
    rfl

theorem firstWithoutOwner_still (d : Desktop) (ws : List ℕ) (s : Thread) :
    (firstWithoutOwner (fun _ => d) ws s).1 = .ok (ws.find? (hasNoOwner d)) := by
  induction ws generalizing s with
  | nil => rfl
  | cons hwnd rest ih =>
    rw [firstWithoutOwner, bind_ok (owner_eq hwnd s), List.find?_cons, hasNoOwner]
    cases (d.info hwnd).bind WindowInfo.owner with
    | none => rfl
    | some boss => exact ih _

/-- Whatever the desktop does meanwhile, `main_window` returns. What it returns was a top-level window,
and had no owner when it was asked for one; it was a window of the process before, unless it was gone
already. It stands in front of every window of the process that is there all the time without an owner,
if it is not that one. And in a desktop that stands still, it is the first window of that kind. -/
theorem mainWindow_during (D : ℕ → Desktop) (pid : UInt32) (unread : ℕ → UInt32) (s : Thread) :
    ∃ result s', mainWindow D pid unread s = (.ok result, s') ∧
      (∀ hwnd ∈ result, hwnd ∈ (D s.moment).topLevel ∧
        ∃ t t', s.moment < t ∧ t < t' ∧ t' < s'.moment ∧ MayBelong D pid t hwnd ∧
          ¬ Owned D t' hwnd) ∧
      (∀ hwnd ∈ (D s.moment).topLevel, StaysMain D pid (s.moment + 1) hwnd →
        ∃ first ∈ result, ∃ u v, (D s.moment).topLevel = u ++ first :: v ∧ hwnd ∈ first :: v) ∧
      ∀ d, D = (fun _ => d) → (∀ hwnd ∈ d.topLevel, d.info hwnd ≠ none) →
        result = d.topLevel.find? fun hwnd => isOf pid d hwnd && hasNoOwner d hwnd := by
  have henum : enumWindows D s =
      (.ok (D s.moment).topLevel, ⟨s.asked ++ [none], s.lastError⟩) := rfl
  have hmoment : Thread.moment ⟨s.asked ++ [none], s.lastError⟩ = s.moment + 1 := by
    rw [Thread.moment, List.length_append, List.length_singleton, Thread.moment]
  obtain ⟨ws, s₁, hws, hs₁, hsub, hmay, hstays⟩ :=
    windowsFrom_spec D pid unread (D s.moment).topLevel
      ⟨s.asked ++ [none], s.lastError⟩
  have hwindows : windows D pid unread s = (.ok ws, s₁) := by
    rw [windows, bind_ok henum, hws]
  obtain ⟨pre, post, s₂, hfirst, hle, rfl, hpre, hpost⟩ := firstWithoutOwner_spec (D := D) ws s₁
  rw [hmoment] at hmay hstays hs₁
  refine ⟨post.head?, s₂, by rw [mainWindow, bind_ok hwindows, hfirst], ?_, ?_, ?_⟩
  · intro hwnd hresult
    have hmem : hwnd ∈ pre ++ post := List.mem_append_right _ (List.mem_of_mem_head? hresult)
    obtain ⟨t, ht, hlt, hbelongs⟩ := hmay hwnd hmem
    obtain ⟨t', ht', hlt', hfree⟩ := hpost hwnd hresult
    exact ⟨hsub.subset hmem, t, t', by omega, by omega, hlt', hbelongs, hfree⟩
  · intro hwnd hmem hmain
    have hws' := hstays hwnd hmem hmain
    obtain hbad | hin := List.mem_append.mp hws'
    · -- a window that stays has no owner at any moment
      obtain ⟨t, ht, -, w, hw, howned⟩ := hpre hwnd hbad
      obtain ⟨w', hw', -, hnone⟩ := hmain t (by omega)
      rw [hw, Option.some.injEq] at hw'
      subst hw'
      exact absurd hnone howned
    · cases post with
      | nil => cases hin
      | cons first rest => exact ⟨first, rfl, exists_split_of_sublist hsub hin⟩
  · rintro d rfl hthere
    have hstill := windowsFrom_still pid unread hthere ⟨s.asked ++ [none], s.lastError⟩
    rw [hws, Except.ok.injEq] at hstill
    have hfound := firstWithoutOwner_still d (pre ++ post) s₁
    rw [hfirst, Except.ok.injEq, hstill, List.find?_filter] at hfound
    simpa only [Bool.decide_and, Bool.decide_eq_true] using hfound

/-- The only window, which has an owner, goes away before it is asked for it. -/
example : (mainWindow (fun t =>
      if t < 2 then ⟨[1], fun _ => some ⟨8, some 5, [], [], samplePlacement⟩, none⟩
      else ⟨[], fun _ => none, none⟩) 8 (fun _ => 0) .initial).1 = .ok (some 1) := rfl

end Wincpp.Windows
