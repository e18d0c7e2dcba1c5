import Mathlib.Algebra.Order.Ring.Nat
import Mathlib.Tactic.Common

/-! Snapshots of the tool help library (`core/snapshot.hpp`, `core/snapshot.cpp`).

An iterator holds the handle of its snapshot and the entry that the last call of `First` or `Next` has
filled in; it is at the end when it has no handle. `operator++` drops the handle when there are no more
entries, the constructor does not. So the loop over a snapshot visits the entries of its list, and one
entry that has never been filled in when the list is empty (`iterates_iff`).
-/
namespace Wincpp
set_option autoImplicit false

namespace Snapshot

/-- Why a loop over a snapshot stops without having come to its end. -/
inductive Stop
  | win32 (code : UInt32)  -- `error::from_win32` is thrown
  | outOfFuel
  deriving DecidableEq, Repr

abbrev Outcome := Except Stop

@[simp] theorem ok_bind {α β : Type} (a : α) (f : α → Outcome β) :
    ((.ok a : Outcome α) >>= f) = f a := rfl

def errorNoMoreFiles : UInt32 := 18

/-! ## The enumeration of the operating system -/

section Iterators
variable {Raw : Type}

/-- The list of a snapshot, and the number of the entry that `Next` yields. -/
structure Enumeration (Raw : Type) where
  entries : List Raw
  position : ℕ
  deriving DecidableEq, Repr

/-- A call that fills in an entry, or fails and leaves an error code. -/
def Enumeration.entryAt (e : Enumeration Raw) (i : ℕ) : Except UInt32 Raw × Enumeration Raw :=
  match e.entries[i]? with
  | some raw => (.ok raw, { e with position := i + 1 })
  | none => (.error errorNoMoreFiles, e)

/-- `Process32First`, `Thread32First` and `Module32First`. -/
def Enumeration.first (e : Enumeration Raw) : Except UInt32 Raw × Enumeration Raw := e.entryAt 0

/-- `Process32Next`, `Thread32Next` and `Module32Next`. -/
def Enumeration.next (e : Enumeration Raw) : Except UInt32 Raw × Enumeration Raw := e.entryAt e.position

def throwIfFatal (lastError : UInt32) : Outcome Unit :=
  if lastError ≠ errorNoMoreFiles then .error (.win32 lastError) else .ok ()

/-! ## Iterators -/

/-- `iterator`. The entry is `none` as long as nothing has been filled in. -/
structure Iterator (Raw : Type) where
  handle : Bool
  entry : Option Raw
  deriving DecidableEq, Repr

namespace Iterator

/-- The constructor, with or without a handle. -/
def create (handle : Bool) (e : Enumeration Raw) : Outcome (Iterator Raw × Enumeration Raw) :=
  if handle then
    match e.first with
    | (.ok raw, e) => .ok (⟨handle, some raw⟩, e)
    | (.error lastError, e) => do
      throwIfFatal lastError
      return (⟨handle, none⟩, e)
  else
    .ok (⟨handle, none⟩, e)

/-- `operator++`, on an iterator that has a handle. -/
def next (it : Iterator Raw) (e : Enumeration Raw) : Outcome (Iterator Raw × Enumeration Raw) :=
  match e.next with
  | (.ok raw, e) => .ok ({ it with entry := some raw }, e)
  | (.error lastError, e) => do
    throwIfFatal lastError
    return ({ it with handle := false }, e)

/-- `operator==`, which compares the entries by one of their fields. -/
def equals {Key : Type} [BEq Key] (key : Raw → Key) (it other : Iterator Raw) : Bool :=
  (!it.handle && !other.handle) ||
    (it.handle && other.handle && it.entry.map key == other.entry.map key)

end Iterator
end Iterators

/-! ## The kinds of snapshots -/

/-- What the copies of the iterator differ in: the entries of the operating system, what
`operator*` makes of them, and the field that `operator==` compares. -/
structure Kind where
  Raw : Type
  Entry : Type
  value : Raw → Entry
  key : Raw → ℕ

/-- `PROCESSENTRY32`. -/
structure ProcessEntry32 where
  th32ProcessID : UInt32
  cntThreads : UInt32
  th32ParentProcessID : UInt32
  pcPriClassBase : ℤ
  szExeFile : List Char
  deriving DecidableEq, Repr

/-- `process_entry_t`. -/
structure ProcessEntry where
  id : UInt32
  threads : UInt32
  parentId : UInt32
  priority : ℤ
  name : List Char
  deriving DecidableEq, Repr

def Kind.process : Kind where
  Raw := ProcessEntry32
  Entry := ProcessEntry
  value entry := ⟨entry.th32ProcessID, entry.cntThreads, entry.th32ParentProcessID,
    entry.pcPriClassBase, entry.szExeFile⟩
  key entry := entry.th32ProcessID.toNat

/-- `THREADENTRY32`. -/
structure ThreadEntry32 where
  th32ThreadID : UInt32
  th32OwnerProcessID : UInt32
  tpBasePri : ℤ
  deriving DecidableEq, Repr

/-- `thread_entry_t`. -/
structure ThreadEntry where
  id : UInt32
  ownerId : UInt32
  basePriority : UInt32
  deriving DecidableEq, Repr

def Kind.thread : Kind where
  Raw := ThreadEntry32
  Entry := ThreadEntry
  value entry := ⟨entry.th32ThreadID, entry.th32OwnerProcessID, .ofInt entry.tpBasePri⟩
  key entry := entry.th32ThreadID.toNat

/-- `MODULEENTRY32`. -/
structure ModuleEntry32 where
  modBaseAddr : ℕ
  modBaseSize : UInt32
  szModule : List Char
  szExePath : List Char
  th32ProcessID : UInt32
  glblcntUsage : UInt32
  deriving DecidableEq, Repr

/-- `module_entry_t`. -/
structure ModuleEntry where
  baseAddress : ℕ
  baseSize : UInt32
  name : List Char
  path : List Char
  processId : UInt32
  usageCount : UInt32
  deriving DecidableEq, Repr

/-- `module_entry_t::module_entry_t`, which turns the name into lower case. -/
def ModuleEntry.ofRaw (entry : ModuleEntry32) : ModuleEntry where
  baseAddress := entry.modBaseAddr
  baseSize := entry.modBaseSize
  name := entry.szModule.map Char.toLower
  path := entry.szExePath
  processId := entry.th32ProcessID
  usageCount := entry.glblcntUsage

def Kind.module : Kind where
  Raw := ModuleEntry32
  Entry := ModuleEntry
  value := ModuleEntry.ofRaw
  key entry := entry.modBaseAddr

/-! ## The loop over a snapshot -/

section Loop
variable (kind : Kind)

/-- What the rounds of the loop dereference; `none` stands for an entry that has not been filled in. -/
def rounds (last : Iterator kind.Raw) :
    ℕ → Iterator kind.Raw → Enumeration kind.Raw → Outcome (List (Option kind.Entry))
  | 0, _, _ => .error .outOfFuel
  | fuel + 1, it, e =>
    if it.equals kind.key last then
      return []
    else do
      let (it', e') ← it.next e
      return it.entry.map kind.value :: (← rounds last fuel it' e')

/-- The loop from `begin()` to `end()`. -/
def loop (entries : List kind.Raw) (fuel : ℕ) : Outcome (List (Option kind.Entry)) := do
  let (first, e) ← Iterator.create true ⟨entries, 0⟩
  let (last, e) ← Iterator.create false e
  rounds kind last fuel first e

/-- The loop ends and visits exactly the entries of the list, in order. -/
def Iterates (entries : List kind.Raw) : Prop :=
  ∃ fuel, ∀ more, loop kind entries (fuel + more) = .ok (entries.map fun raw => some (kind.value raw))

end Loop

section Specs
variable {Raw : Type} {e : Enumeration Raw}

theorem create_of_some {raw : Raw} (h : e.entries[0]? = some raw) :
    Iterator.create true e = .ok (⟨true, some raw⟩, ⟨e.entries, 1⟩) := by
  simp only [Iterator.create, Enumeration.first, Enumeration.entryAt, h, if_true]

theorem create_of_none (h : e.entries[0]? = none) :
    Iterator.create true e = .ok (⟨true, none⟩, e) := by
  simp only [Iterator.create, Enumeration.first, Enumeration.entryAt, h, if_true]
  rfl

theorem next_of_some {it : Iterator Raw} {raw : Raw} (h : e.entries[e.position]? = some raw) :
    it.next e = .ok ({ it with entry := some raw }, ⟨e.entries, e.position + 1⟩) := by
  simp only [Iterator.next, Enumeration.next, Enumeration.entryAt, h]

theorem next_of_none {it : Iterator Raw} (h : e.entries[e.position]? = none) :
    it.next e = .ok ({ it with handle := false }, e) := by
  simp only [Iterator.next, Enumeration.next, Enumeration.entryAt, h]
  rfl

/-- What `operator++` does to an iterator that holds the entry before the position of the enumeration:
it takes the next entry, or drops the handle when there is none. -/
theorem next_of_entry {entries : List Raw} {k : ℕ} {raw : Raw} (hraw : entries[k]? = some raw) :
    entries.drop k = raw :: entries.drop (k + 1) ∧
      ((∃ raw', entries[k + 1]? = some raw' ∧ Iterator.next ⟨true, some raw⟩ ⟨entries, k + 1⟩ =
          .ok (⟨true, some raw'⟩, ⟨entries, k + 1 + 1⟩)) ∨
        (entries.drop (k + 1) = [] ∧ Iterator.next ⟨true, some raw⟩ ⟨entries, k + 1⟩ =
          .ok (⟨false, some raw⟩, ⟨entries, k + 1⟩))) := by
  obtain ⟨hlt, hget⟩ := List.getElem?_eq_some_iff.mp hraw
  refine ⟨by rw [List.drop_eq_getElem_cons hlt, hget], ?_⟩
  cases hnext : entries[k + 1]? with
  | some raw' => exact .inl ⟨raw', rfl, next_of_some (e := ⟨entries, k + 1⟩) hnext⟩
  | none =>
    exact .inr ⟨List.drop_eq_nil_of_le (List.getElem?_eq_none_iff.mp hnext),
      next_of_none (e := ⟨entries, k + 1⟩) hnext⟩

end Specs

/-- The rounds from an iterator on that holds the entry before the position of the enumeration. -/
theorem rounds_of_entry {kind : Kind} {entries : List kind.Raw} {k : ℕ} {raw : kind.Raw}
    (hraw : entries[k]? = some raw) {fuel : ℕ} (hfuel : entries.length < k + fuel) :
    rounds kind ⟨false, none⟩ fuel ⟨true, some raw⟩ ⟨entries, k + 1⟩ =
      .ok ((entries.drop k).map fun raw => some (kind.value raw)) := by
  induction fuel generalizing k raw with
  | zero =>
    have hlt := (List.getElem?_eq_some_iff.mp hraw).1
    omega
  | succ fuel ih =>
    have hlt := (List.getElem?_eq_some_iff.mp hraw).1
    obtain ⟨hdrop, ⟨raw', hraw', hnext⟩ | ⟨hend, hnext⟩⟩ := next_of_entry hraw
    · have hrest := ih hraw' (by omega)
      rw [rounds, if_neg (by simp [Iterator.equals]), hnext, ok_bind, hdrop]
      dsimp only
      rw [hrest]
      rfl
    · -- without its handle the iterator is at the end
      obtain ⟨fuel, rfl⟩ : ∃ n, fuel = n + 1 := ⟨fuel - 1, by omega⟩
      rw [rounds, if_neg (by simp [Iterator.equals]), hnext, ok_bind, hdrop, hend]
      dsimp only
      rw [rounds, if_pos (by simp [Iterator.equals])]
      rfl

theorem iterates_of_ne_nil {kind : Kind} {entries : List kind.Raw} (h : entries ≠ []) :
    Iterates kind entries := by
  obtain ⟨raw, rest, rfl⟩ := List.exists_cons_of_ne_nil h
  refine ⟨(raw :: rest).length + 1, fun more => ?_⟩
  have hfirst : Iterator.create true ⟨raw :: rest, 0⟩ = .ok (⟨true, some raw⟩, ⟨raw :: rest, 1⟩) :=
    create_of_some rfl
  have hrounds : rounds kind ⟨false, none⟩ ((raw :: rest).length + 1 + more) ⟨true, some raw⟩
      ⟨raw :: rest, 0 + 1⟩ = _ := rounds_of_entry rfl (by omega)
  rw [loop, hfirst, ok_bind]
  exact hrounds

/-- On an empty list the constructor keeps the handle, so that one round is made. -/
theorem loop_nil (kind : Kind) (fuel : ℕ) : loop kind [] (fuel + 2) = .ok [none] := by
  have hfirst : Iterator.create true ⟨([] : List kind.Raw), 0⟩ = .ok (⟨true, none⟩, ⟨[], 0⟩) :=
    create_of_none rfl
  rw [loop, hfirst, ok_bind]
  rfl

theorem iterates_iff_ne_nil {kind : Kind} {entries : List kind.Raw} :
    Iterates kind entries ↔ entries ≠ [] := by
  refine ⟨fun ⟨fuel, h⟩ he => ?_, iterates_of_ne_nil⟩
  subst he
  have hloop := h 2
  rw [loop_nil] at hloop
  cases hloop

/-- For each kind of snapshot the loop ends and visits the entries of the list exactly when the list
is not empty. -/
theorem iterates_iff (processes : List ProcessEntry32) (threads : List ThreadEntry32)
    (modules : List ModuleEntry32) :
    (Iterates .process processes ↔ processes ≠ []) ∧ (Iterates .thread threads ↔ threads ≠ []) ∧
      (Iterates .module modules ↔ modules ≠ []) :=
  ⟨iterates_iff_ne_nil, iterates_iff_ne_nil, iterates_iff_ne_nil⟩

/-- The loop over a snapshot without modules dereferences an entry that has not been filled in. -/
theorem not_iterates_empty : ¬ ∀ (kind : Kind) (entries : List kind.Raw), Iterates kind entries := by
  intro hall
  exact iterates_iff_ne_nil.mp (hall .module []) rfl

end Snapshot
end Wincpp
