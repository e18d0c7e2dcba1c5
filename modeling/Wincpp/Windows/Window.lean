import Mathlib.Tactic.Common
import Wincpp.Library.Schedule
import Wincpp.Library.Terminated

/-! Windows (`windows/window.cpp`, `window_factory.cpp`).

A `window_t` is the handle of a window, about which the desktop is asked again in each call. Windows come
and go between any two of these questions. A question about a window that is gone leaves an error behind,
and a successful one does not take it away. `title` takes the error that it finds for its own, when the
title is empty (`title_after`).
-/
namespace Wincpp.Windows
open Schedule Terminated
set_option autoImplicit false

/-- A `POINT`, as well as a `point_t`. -/
structure Point where
  x : Int32
  y : Int32
  deriving DecidableEq, Repr

/-- A `RECT`, as well as a `rectangle_t`. -/
structure Rectangle where
  left : Int32
  top : Int32
  right : Int32
  bottom : Int32
  deriving DecidableEq, Repr

/-- `WINDOWPLACEMENT` -/
structure WindowPlacement where
  flags : UInt32
  showCmd : UInt32
  minPosition : Point
  maxPosition : Point
  normalPosition : Rectangle
  deriving DecidableEq, Repr

/-- `placement_t`. Its show state is an enumeration, which takes any `int`. -/
structure Placement where
  flags : UInt32
  showState : Int32
  minPosition : Point
  maxPosition : Point
  normalPosition : Rectangle
  deriving DecidableEq, Repr

def Placement.of (placement : WindowPlacement) : Placement :=
  { flags := placement.flags
    showState := placement.showCmd.toInt32
    minPosition := placement.minPosition
    maxPosition := placement.maxPosition
    normalPosition := placement.normalPosition }

/-- What the desktop knows about a window. -/
structure WindowInfo where
  processId : UInt32
  owner : Option ℕ
  text : List Char
  className : List Char
  placement : WindowPlacement
  deriving DecidableEq, Repr

/-- The top-level windows in the order of `EnumWindows`, and what each handle stands for. -/
structure Desktop where
  topLevel : List ℕ
  info : ℕ → Option WindowInfo
  foreground : Option ℕ

/-- The thread that calls the library: what it has asked the desktop so far, a window or something else,
and its last error. -/
structure Thread where
  asked : List (Option ℕ)
  lastError : UInt32
  deriving DecidableEq, Repr

def Thread.initial : Thread := ⟨[], 0⟩

def Thread.moment (s : Thread) : ℕ := s.asked.length

/-- A call of the library ends with a value or throws a code. -/
abbrev Api := ExceptT UInt32 (StateM Thread)

def nul : Char := '\x00'

def errorInvalidWindowHandle : UInt32 := 1400

/-! ## Questions to the desktop -/

section Calls
variable (D : ℕ → Desktop)

/-- A question about a window, which fails when there is none. -/
def askWindow (hwnd : ℕ) : Api (Option WindowInfo) := fun s =>
  match (D s.moment).info hwnd with
  | some w => (.ok (some w), ⟨s.asked ++ [some hwnd], s.lastError⟩)
  | none => (.ok none, ⟨s.asked ++ [some hwnd], errorInvalidWindowHandle⟩)

/-- `EnumWindows` collects the windows first. -/
def enumWindows : Api (List ℕ) := fun s =>
  (.ok (D s.moment).topLevel, ⟨s.asked ++ [none], s.lastError⟩)

def getForegroundWindow : Api (Option ℕ) := fun s =>
  (.ok (D s.moment).foreground, ⟨s.asked ++ [none], s.lastError⟩)

def getLastError : Api UInt32 := fun s => (.ok s.lastError, s)

def throwLastError {α : Type} : Api α := do throw (← getLastError)

def getWindowTextLength (hwnd : ℕ) : Api ℕ := do
  return ((← askWindow D hwnd).elim [] WindowInfo.text).length

/-- As many characters of the text as the buffer has room for, and a terminator. -/
def copyText (text buffer : List Char) : List Char :=
  let copied := text.take (buffer.length - 1)
  copied ++ nul :: buffer.drop (copied.length + 1)

/-- `GetWindowText` and `GetClassName` return the number of characters that they have copied. -/
def copyFrom (field : WindowInfo → List Char) (hwnd : ℕ) (buffer : List Char) :
    Api (ℕ × List Char) := do
  match ← askWindow D hwnd with
  | some w => return (min (field w).length (buffer.length - 1), copyText (field w) buffer)
  | none => return (0, buffer)

/-! ## `window_t` -/

def processId (hwnd : ℕ) : Api UInt32 := do
  match ← askWindow D hwnd with
  | some w => return w.processId
  | none => throwLastError

def owner (hwnd : ℕ) : Api (Option ℕ) := do
  return (← askWindow D hwnd).bind WindowInfo.owner

def title (hwnd : ℕ) : Api (List Char) := do
  let length ← getWindowTextLength D hwnd
  let (copied, title) ← copyFrom D WindowInfo.text hwnd (List.replicate (length + 1) nul)
  if copied = 0 then
    if (← getLastError) ≠ 0 then throwLastError else return title
  else
    return title

def className (hwnd : ℕ) : Api (List Char) := do
  let (copied, name) ← copyFrom D WindowInfo.className hwnd (List.replicate 256 nul)
  if copied = 0 then throwLastError else return name

def isActive (hwnd : ℕ) : Api Bool := do
  return (← getForegroundWindow D) == some hwnd

def placement (hwnd : ℕ) : Api Placement := do
  match ← askWindow D hwnd with
  | some w => return .of w.placement
  | none => throwLastError

/-! ## `window_factory` -/

section Factory
variable (pid : UInt32) (unread : ℕ → UInt32)

/-- The callback of `windows`. For a window that is gone, `pid` keeps what it has been by chance. -/
def ofProcess (hwnd : ℕ) : Api Bool := do
  match ← askWindow D hwnd with
  | some w => return w.processId == pid
  | none => return unread (← get).moment == pid

def windowsFrom : List ℕ → Api (List ℕ)
  | [] => return []
  | hwnd :: rest => do
    let mine ← ofProcess D pid unread hwnd
    let windows ← windowsFrom rest
    return if mine then hwnd :: windows else windows

def windows : Api (List ℕ) := do windowsFrom D pid unread (← enumWindows D)

def firstWithoutOwner : List ℕ → Api (Option ℕ)
  | [] => return none
  | hwnd :: rest => do
    match ← owner D hwnd with
    | none => return some hwnd
    | some _ => firstWithoutOwner rest

def mainWindow : Api (Option ℕ) := do firstWithoutOwner D (← windows D pid unread)

/-- What a client calls. -/
inductive Request
  | processId (hwnd : ℕ)
  | owner (hwnd : ℕ)
  | title (hwnd : ℕ)
  | className (hwnd : ℕ)
  | isActive (hwnd : ℕ)
  | placement (hwnd : ℕ)
  | windows
  | mainWindow
  deriving DecidableEq, Repr

/-- The thread after a call, whether it returns or throws. -/
def perform (s : Thread) : Request → Thread
  | .processId hwnd => (processId D hwnd s).2
  | .owner hwnd => (owner D hwnd s).2
  | .title hwnd => (title D hwnd s).2
  | .className hwnd => (className D hwnd s).2
  | .isActive hwnd => (isActive D hwnd s).2
  | .placement hwnd => (placement D hwnd s).2
  | .windows => (windows D pid unread s).2
  | .mainWindow => (mainWindow D pid unread s).2

def after (requests : List Request) : Thread := run (perform D pid unread) .initial requests

end Factory
end Calls

/-! ## The error that is left behind -/

section LastError
variable {D : ℕ → Desktop}

/-- Each window that has been asked about was there when it was asked about. -/
def AllFound (D : ℕ → Desktop) (asked : List (Option ℕ)) : Prop :=
  ∀ x ∈ asked.zipIdx, ∀ hwnd ∈ x.1, (D x.2).info hwnd ≠ none

instance (asked : List (Option ℕ)) : Decidable (AllFound D asked) :=
  inferInstanceAs (Decidable (∀ x ∈ asked.zipIdx, ∀ hwnd ∈ x.1, (D x.2).info hwnd ≠ none))

theorem allFound_append {s : Thread} {hwnd : Option ℕ} :
    AllFound D (s.asked ++ [hwnd]) ↔
      AllFound D s.asked ∧ ∀ h ∈ hwnd, (D s.moment).info h ≠ none := by
  rw [AllFound, List.zipIdx_append, List.forall_mem_append]
  simp [AllFound, Thread.moment]

/-- The last error of a thread tells whether it has ever asked about a window that was gone. -/
def Exact (D : ℕ → Desktop) (s : Thread) : Prop :=
  s.lastError = if AllFound D s.asked then 0 else errorInvalidWindowHandle

theorem askWindow_found {s : Thread} {hwnd : ℕ} {w : WindowInfo}
    (h : (D s.moment).info hwnd = some w) :
    askWindow D hwnd s = (.ok (some w), ⟨s.asked ++ [some hwnd], s.lastError⟩) := by
  rw [askWindow, h]

theorem askWindow_gone {s : Thread} {hwnd : ℕ} (h : (D s.moment).info hwnd = none) :
    askWindow D hwnd s = (.ok none, ⟨s.asked ++ [some hwnd], errorInvalidWindowHandle⟩) := by
  rw [askWindow, h]

section Bind
variable {α β : Type} {x : Api α} {f : α → Api β} {s s' : Thread} {a : α} {code : UInt32}

theorem bind_ok (h : x s = (.ok a, s')) : (x >>= f) s = f a s' := by
  have hbind : (x >>= f) s = ExceptT.bindCont f (x s).1 (x s).2 := rfl
  rw [hbind, h]
  rfl

theorem bind_error (h : x s = (.error code, s')) : (x >>= f) s = (.error code, s') := by
  have hbind : (x >>= f) s = ExceptT.bindCont f (x s).1 (x s).2 := rfl
  rw [hbind, h]
  rfl

end Bind

/-! ## What each call keeps -/

/-- The call keeps the last error exact. -/
def Keeps {α : Type} (D : ℕ → Desktop) (x : Api α) : Prop := ∀ s, Exact D s → Exact D (x s).2

section Keeps
variable {α β : Type} {x : Api α} {f : α → Api β}

theorem keeps_bind (hx : Keeps D x) (hf : ∀ a, Keeps D (f a)) : Keeps D (x >>= f) := by
  intro s hs
  have hxs := hx s hs
  rcases hresult : x s with ⟨result, s'⟩
  rw [hresult] at hxs
  cases result with
  | ok a =>
    rw [bind_ok hresult]
    exact hf a s' hxs
  | error code =>
    rw [bind_error hresult]
    exact hxs

theorem keeps_pure (a : α) : Keeps D (pure a : Api α) := fun _ hs => hs

theorem keeps_get : Keeps D (get : Api Thread) := fun _ hs => hs

theorem keeps_getLastError : Keeps D getLastError := fun _ hs => hs

theorem keeps_throwLastError : Keeps D (throwLastError : Api α) := fun _ hs => hs

theorem keeps_askWindow (hwnd : ℕ) : Keeps D (askWindow D hwnd) := by
  intro s hs
  cases h : (D s.moment).info hwnd with
  | some w =>
    rw [askWindow_found h, Exact, hs]
    have : AllFound D (s.asked ++ [some hwnd]) ↔ AllFound D s.asked := by
      rw [allFound_append]
      simp [h]
    simp only [this]
  | none =>
    rw [askWindow_gone h, Exact, if_neg]
    rw [allFound_append]
    simp [h]

/-- A question that is not about a window leaves the last error as it is. -/
theorem exact_ask (s : Thread) (hs : Exact D s) : Exact D ⟨s.asked ++ [none], s.lastError⟩ := by
  have : AllFound D (s.asked ++ [none]) ↔ AllFound D s.asked := by
    rw [allFound_append]
    simp
  simp only [Exact, this]
  exact hs

theorem keeps_enumWindows : Keeps D (enumWindows D) := exact_ask

theorem keeps_getForegroundWindow : Keeps D (getForegroundWindow D) := exact_ask

theorem keeps_getWindowTextLength (hwnd : ℕ) : Keeps D (getWindowTextLength D hwnd) :=
  keeps_bind (keeps_askWindow hwnd) fun _ => keeps_pure _

theorem keeps_copyFrom (field : WindowInfo → List Char) (hwnd : ℕ) (buffer : List Char) :
    Keeps D (copyFrom D field hwnd buffer) := by
  refine keeps_bind (keeps_askWindow hwnd) fun w => ?_
  cases w <;> exact keeps_pure _

theorem keeps_processId (hwnd : ℕ) : Keeps D (processId D hwnd) := by
  refine keeps_bind (keeps_askWindow hwnd) fun w => ?_
  cases w with
  | some w => exact keeps_pure _
  | none => exact keeps_throwLastError

theorem keeps_owner (hwnd : ℕ) : Keeps D (owner D hwnd) :=
  keeps_bind (keeps_askWindow hwnd) fun _ => keeps_pure _

theorem keeps_title (hwnd : ℕ) : Keeps D (title D hwnd) := by
  refine keeps_bind (keeps_getWindowTextLength hwnd) fun length =>
    keeps_bind (keeps_copyFrom _ _ _) fun result => ?_
  dsimp only
  split
  · refine keeps_bind keeps_getLastError fun code => ?_
    split
    · exact keeps_throwLastError
    · exact keeps_pure _
  · exact keeps_pure _

theorem keeps_className (hwnd : ℕ) : Keeps D (className D hwnd) := by
  refine keeps_bind (keeps_copyFrom _ _ _) fun result => ?_
  dsimp only
  split
  · exact keeps_throwLastError
  · exact keeps_pure _

theorem keeps_isActive (hwnd : ℕ) : Keeps D (isActive D hwnd) :=
  keeps_bind keeps_getForegroundWindow fun _ => keeps_pure _

theorem keeps_placement (hwnd : ℕ) : Keeps D (placement D hwnd) := by
  refine keeps_bind (keeps_askWindow hwnd) fun w => ?_
  cases w with
  | some w => exact keeps_pure _
  | none => exact keeps_throwLastError

variable {pid : UInt32} {unread : ℕ → UInt32}

theorem keeps_ofProcess (hwnd : ℕ) : Keeps D (ofProcess D pid unread hwnd) := by
  refine keeps_bind (keeps_askWindow hwnd) fun w => ?_
  cases w with
  | some w => exact keeps_pure _
  | none => exact keeps_bind keeps_get fun _ => keeps_pure _

theorem keeps_windowsFrom (handles : List ℕ) : Keeps D (windowsFrom D pid unread handles) := by
  induction handles with
  | nil => exact keeps_pure _
  | cons hwnd rest ih =>
    exact keeps_bind (keeps_ofProcess hwnd) fun mine => keeps_bind ih fun _ => keeps_pure _

theorem keeps_windows : Keeps D (windows D pid unread) :=
  keeps_bind keeps_enumWindows keeps_windowsFrom

theorem keeps_firstWithoutOwner (handles : List ℕ) : Keeps D (firstWithoutOwner D handles) := by
  induction handles with
  | nil => exact keeps_pure _
  | cons hwnd rest ih =>
    refine keeps_bind (keeps_owner hwnd) fun owner => ?_
    cases owner with
    | none => exact keeps_pure _
    | some owner => exact ih

theorem keeps_mainWindow : Keeps D (mainWindow D pid unread) :=
  keeps_bind keeps_windows keeps_firstWithoutOwner

end Keeps

theorem exact_perform {pid : UInt32} {unread : ℕ → UInt32} {s : Thread} (request : Request)
    (hs : Exact D s) : Exact D (perform D pid unread s request) := by
  cases request with
  | processId hwnd => exact keeps_processId hwnd s hs
  | owner hwnd => exact keeps_owner hwnd s hs
  | title hwnd => exact keeps_title hwnd s hs
  | className hwnd => exact keeps_className hwnd s hs
  | isActive hwnd => exact keeps_isActive hwnd s hs
  | placement hwnd => exact keeps_placement hwnd s hs
  | windows => exact keeps_windows s hs
  | mainWindow => exact keeps_mainWindow s hs

theorem exact_initial : Exact D .initial := by
  simp [Exact, AllFound, Thread.initial]

theorem exact_after {pid : UInt32} {unread : ℕ → UInt32} (requests : List Request) :
    Exact D (after D pid unread requests) :=
  run_keeps (fun _ request hs => exact_perform request hs) exact_initial requests

/-! ## The title -/

/-- The text of a window at a moment; empty if there is no window. -/
def textAt (D : ℕ → Desktop) (t hwnd : ℕ) : List Char := ((D t).info hwnd).elim [] WindowInfo.text

/-- `title` when the text is `text` after its length was `length`. -/
def padded (length : ℕ) (text : List Char) : List Char :=
  text.take length ++ List.replicate (length + 1 - (text.take length).length) nul

theorem askWindow_eq (hwnd : ℕ) (s : Thread) :
    askWindow D hwnd s = (.ok ((D s.moment).info hwnd), (askWindow D hwnd s).2) := by
  cases h : (D s.moment).info hwnd with
  | some w => rw [askWindow_found h]
  | none => rw [askWindow_gone h]

theorem asked_askWindow (hwnd : ℕ) (s : Thread) :
    (askWindow D hwnd s).2.asked = s.asked ++ [some hwnd] := by
  cases h : (D s.moment).info hwnd with
  | some w => rw [askWindow_found h]
  | none => rw [askWindow_gone h]

theorem copyText_replicate (length : ℕ) (text : List Char) :
    copyText text (List.replicate (length + 1) nul) = padded length text := by
  have hle : (text.take length).length ≤ length := List.length_take_le ..
  rw [copyText, padded, List.length_replicate, Nat.add_sub_cancel, List.drop_replicate,
    ← List.replicate_succ]
  congr 2
  omega

theorem getWindowTextLength_eq (hwnd : ℕ) (s : Thread) :
    getWindowTextLength D hwnd s =
      (.ok (textAt D s.moment hwnd).length, (askWindow D hwnd s).2) := by
  rw [getWindowTextLength, bind_ok (askWindow_eq hwnd s)]
  rfl

theorem copyFrom_eq (hwnd length : ℕ) (s : Thread) :
    copyFrom D WindowInfo.text hwnd (List.replicate (length + 1) nul) s =
      (.ok (min (textAt D s.moment hwnd).length length, padded length (textAt D s.moment hwnd)),
        (askWindow D hwnd s).2) := by
  rw [copyFrom, bind_ok (askWindow_eq hwnd s), textAt]
  cases (D s.moment).info hwnd with
  | some w =>
    dsimp only [Option.elim_some]
    rw [copyText_replicate, List.length_replicate, Nat.add_sub_cancel]
    rfl
  | none =>
    dsimp only [Option.elim_none]
    simp [padded]
    rfl

theorem getLastError_eq (s : Thread) : getLastError s = (.ok s.lastError, s) := rfl

theorem padded_length (length : ℕ) (text : List Char) : (padded length text).length = length + 1 := by
  have hle : (text.take length).length ≤ length := List.length_take_le ..
  rw [padded, List.length_append, List.length_replicate]
  omega

/-- Behind the text there are only terminators. -/
theorem nul_of_mem_drop_padded (length : ℕ) (text : List Char) :
    ∀ c ∈ (padded length text).drop (text.take length).length, c = nul := by
  intro c hc
  rw [padded, List.drop_left] at hc
  exact List.eq_of_mem_replicate hc

theorem spells_padded {text : List Char} (h : nul ∉ text) (length : ℕ) :
    Spells nul (padded length text) (text.take length) := by
  have hle : (text.take length).length ≤ length := List.length_take_le ..
  obtain ⟨k, hk⟩ : ∃ k, length + 1 - (text.take length).length = k + 1 :=
    ⟨length - (text.take length).length, by omega⟩
  rw [padded, hk, List.replicate_succ]
  exact spells_append (fun hmem => h (List.mem_of_mem_take hmem)) _

/-- `title` in any state of the thread. -/
theorem title_eq (hwnd : ℕ) (s : Thread) (hs : Exact D s) :
    (title D hwnd s).1 =
      if (textAt D s.moment hwnd = [] ∨ textAt D (s.moment + 1) hwnd = []) ∧
          ¬ AllFound D (s.asked ++ [some hwnd, some hwnd]) then
        .error errorInvalidWindowHandle
      else .ok (padded (textAt D s.moment hwnd).length (textAt D (s.moment + 1) hwnd)) := by
  have hasked : (askWindow D hwnd (askWindow D hwnd s).2).2.asked =
      s.asked ++ [some hwnd, some hwnd] := by
    rw [asked_askWindow, asked_askWindow, List.append_assoc]
    rfl
  have hexact : Exact D (askWindow D hwnd (askWindow D hwnd s).2).2 :=
    keeps_askWindow hwnd _ (keeps_askWindow hwnd s hs)
  have hmoment : (askWindow D hwnd s).2.moment = s.moment + 1 := by
    rw [Thread.moment, asked_askWindow, List.length_append, List.length_singleton, Thread.moment]
  rw [Exact, hasked] at hexact
  rw [title, bind_ok (getWindowTextLength_eq hwnd s), bind_ok (copyFrom_eq hwnd _ _), hmoment]
  dsimp only
  by_cases hempty : textAt D s.moment hwnd = [] ∨ textAt D (s.moment + 1) hwnd = []
  · have hcopied : min (textAt D (s.moment + 1) hwnd).length (textAt D s.moment hwnd).length = 0 := by
      rw [Nat.min_eq_zero_iff, List.length_eq_zero_iff, List.length_eq_zero_iff]
      exact hempty.symm
    rw [if_pos hcopied]
    by_cases hfound : AllFound D (s.asked ++ [some hwnd, some hwnd])
    · rw [if_pos hfound] at hexact
      rw [if_neg (fun h => h.2 hfound), bind_ok (getLastError_eq _), hexact]
      rfl
    · rw [if_neg hfound] at hexact
      rw [if_pos ⟨hempty, hfound⟩, bind_ok (getLastError_eq _), hexact, if_pos (by decide),
        throwLastError, bind_ok (getLastError_eq _), hexact]
      rfl
  · have hcopied : min (textAt D (s.moment + 1) hwnd).length (textAt D s.moment hwnd).length ≠ 0 := by
      rw [Ne, Nat.min_eq_zero_iff, List.length_eq_zero_iff, List.length_eq_zero_iff]
      exact fun h => hempty h.symm
    rw [if_neg hcopied, if_neg (fun h => hempty h.1)]
    rfl

end LastError

/-- After any calls of the library, `title` throws exactly if the window has no text, or none any more,
and some window that the thread has asked about was gone; this may be another window, a long time ago.
Otherwise it returns the text, cut off at the length that the text had before, and behind it terminators
only, at least one. -/
theorem title_after (D : ℕ → Desktop) (pid : UInt32) (unread : ℕ → UInt32) (requests : List Request)
    (hwnd : ℕ) :
    (∀ code, (title D hwnd (after D pid unread requests)).1 = .error code ↔
      code = errorInvalidWindowHandle ∧
      (textAt D (after D pid unread requests).moment hwnd = [] ∨
        textAt D ((after D pid unread requests).moment + 1) hwnd = []) ∧
      ¬ AllFound D ((after D pid unread requests).asked ++ [some hwnd, some hwnd])) ∧
    ∀ result, (title D hwnd (after D pid unread requests)).1 = .ok result →
      result.length = (textAt D (after D pid unread requests).moment hwnd).length + 1 ∧
      (∀ c ∈ result.drop ((textAt D ((after D pid unread requests).moment + 1) hwnd).take
          (textAt D (after D pid unread requests).moment hwnd).length).length, c = nul) ∧
      (nul ∉ textAt D ((after D pid unread requests).moment + 1) hwnd →
        Spells nul result ((textAt D ((after D pid unread requests).moment + 1) hwnd).take
          (textAt D (after D pid unread requests).moment hwnd).length)) := by
  rw [title_eq hwnd _ (exact_after requests)]
  constructor
  · intro code
    split
    · rename_i h
      rw [Except.error.injEq]
      exact ⟨fun hcode => ⟨hcode.symm, h⟩, fun hcode => hcode.1.symm⟩
    · rename_i h
      constructor
      · intro hcode
        cases hcode
      · intro hcode
        exact absurd hcode.2 h
  · intro result hresult
    split at hresult
    · cases hresult
    · cases hresult
      exact ⟨padded_length _ _, nul_of_mem_drop_padded _ _, fun hnul => spells_padded hnul _⟩

def samplePlacement : WindowPlacement := ⟨0, 1, ⟨-1, -1⟩, ⟨-1, -1⟩, ⟨0, 0, 640, 480⟩⟩

/-- Window 1 has no title, and there is no window 7. -/
def sampleDesktop : Desktop :=
  ⟨[1], fun hwnd => if hwnd = 1 then some ⟨8, none, [], "Edit".toList, samplePlacement⟩ else none, none⟩

example : (title (fun _ => sampleDesktop) 1 .initial).1 = .ok [nul] ∧
    (title (fun _ => sampleDesktop) 1 (after (fun _ => sampleDesktop) 8 (fun _ => 0) [.owner 7])).1 =
      .error errorInvalidWindowHandle := ⟨rfl, rfl⟩

end Wincpp.Windows
