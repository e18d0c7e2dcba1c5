import Wincpp.Library.KeyReuse
import Wincpp.Modules.Factory

/-! Which process an opened process is (`process.cpp`, `module_factory.cpp`).

`open` finds the id of a process in a snapshot and opens a handle by the id afterwards. Meanwhile the
process may exit, and another one may be started under its id. The id of a `process_t` is looked up again
whenever its modules are asked for. An id is not given out again before its process has exited and the
last handle of it is closed. So the handle of a `process_t` and its id always stand for the same process
(`opened_identity`), which need not be the one whose name it has.
-/
namespace Wincpp.Factory
open Snapshot Schedule KeyReuse KeyReuse.State
set_option autoImplicit false

/-- The processes of the system with their ids and their names. -/
abbrev Processes := KeyReuse.State UInt32 (List Char)

abbrev SystemEvent := KeyReuse.Event UInt32 (List Char)

/-- The processes after what all programs have done since the system was started. -/
def after (events : List SystemEvent) : Processes := run step initial events

/-- The entries of a process snapshot are about processes that run. -/
def Lists (s : Processes) (processes : List ProcessEntry32) : Prop :=
  ∀ raw ∈ processes, ⟨raw.th32ProcessID, raw.szExeFile, true⟩ ∈ s.objects

instance (s : Processes) (processes : List ProcessEntry32) : Decidable (Lists s processes) :=
  inferInstanceAs (Decidable (∀ raw ∈ processes, _ ∈ s.objects))

def errorAccessDenied : UInt32 := 5
def errorInvalidParameter : UInt32 := 87

/-- `OpenProcess`, which may refuse the access rights. -/
def openProcess (s : Processes) (granted : Bool) (id : UInt32) : Except UInt32 Unit :=
  match s.lookup id with
  | none => .error errorInvalidParameter
  | some _ => if granted then .ok () else .error errorAccessDenied

/-- `fetch_module` of a process with this id, where `loaded` are the modules of each process. -/
def fetchModuleOf (s : Processes) (loaded : ℕ → List ModuleEntry32) (id : UInt32) (name : StringView)
    (fuel : ℕ) : Lookup FoundModule :=
  match s.lookup id with
  | none => .error (.win32 errorInvalidParameter)  -- `snapshot::create` throws
  | some i => fetchModule (loaded i) name fuel

theorem wellKeyed_after (events : List SystemEvent) : (after events).WellKeyed :=
  wellKeyed_initial.run events

theorem after_append (xs ys : List SystemEvent) : after (xs ++ ys) = run step (after xs) ys :=
  run_append step initial xs ys

theorem openEntry_ok {query : UInt32 → Except UInt32 Unit} {proc : ProcessEntry} {p : OpenedProcess}
    (h : openEntry query proc = .ok (some p)) : p.entry = proc ∧ query p.id = .ok () := by
  have heq := openEntry_eq h
  refine ⟨heq, ?_⟩
  rw [openEntry] at h
  split at h
  · rename_i hok
    rw [OpenedProcess.id, heq]
    exact hok
  · cases h

/-- An opened process has an entry of the snapshot, by whose id it could be opened. -/
theorem Opened.exists_entry {query : UInt32 → Except UInt32 Unit} {processes : List ProcessEntry32}
    {p : OpenedProcess} (h : Opened query processes p) :
    ∃ raw ∈ processes, p.id = raw.th32ProcessID ∧ p.name = raw.szExeFile ∧ query p.id = .ok () := by
  obtain ⟨name, h⟩ | ⟨id, h⟩ := h
  all_goals
    obtain ⟨raw, hraw, hbody⟩ := exists_mem_of_search h
    split at hbody
    · obtain ⟨heq, hok⟩ := openEntry_ok hbody
      refine ⟨raw, hraw, ?_, ?_, hok⟩
      · rw [OpenedProcess.id, heq]
        rfl
      · rw [OpenedProcess.name, heq]
        rfl
    · cases hbody

theorem openProcess_eq_ok {s : Processes} {granted : Bool} {id : UInt32}
    (h : openProcess s granted id = .ok ()) : ∃ j, s.lookup id = some j := by
  rw [openProcess] at h
  split at h
  · cases h
  · rename_i j hj
    exact ⟨j, hj⟩

theorem exists_mem_of_fetchModule {modules : List ModuleEntry32} {name : StringView} {m : FoundModule}
    (h : Ends (fetchModule modules name) (.ok m)) : ∃ raw ∈ modules, m.entry = .ofRaw raw := by
  obtain ⟨fuel, hfuel⟩ := h
  have hsearch : Ends (search .module (takeNamed name) modules) (.ok (some m)) := by
    refine ⟨fuel, fun more => ?_⟩
    have hmore := hfuel more
    rw [fetchModule] at hmore
    cases hresult : search .module (takeNamed name) modules (fuel + more) with
    | error stop =>
      rw [hresult] at hmore
      cases hmore
    | ok result =>
      rw [hresult] at hmore
      cases result with
      | none => cases hmore
      | some found =>
        cases hmore
        rfl
  obtain ⟨raw, hraw, hbody⟩ := exists_mem_of_search hsearch
  have htake : takeNamed name (.ofRaw raw) = .ok (some m) := hbody
  refine ⟨raw, hraw, ?_⟩
  cases hdata : name.data with
  | error stop =>
    rw [takeNamed, hdata] at htake
    cases htake
  | ok text =>
    rw [takeNamed_eq hdata, Except.ok.injEq, Option.ite_none_right_eq_some] at htake
    cases htake.2
    rfl

def fooStart : SystemEvent := .start 1 "Foo.exe".toList

/-- `Foo.exe` exits, and its id is given to `Bar.exe`. -/
def fooReused : List SystemEvent := [.stop 0, .start 1 "Bar.exe".toList]

theorem fooProcess_reopened :
    Opened (openProcess (after ([fooStart] ++ fooReused)) true) [fooEntry] fooProcess := by
  refine .inl ⟨"Foo.exe".toList, 2, fun more => ?_⟩
  have hloop : openByName (openProcess (after ([fooStart] ++ fooReused)) true) [fooEntry]
      "Foo.exe".toList (2 + more) = _ :=
    search_eq (List.cons_ne_nil _ _) (Nat.lt_of_lt_of_le (Nat.lt_succ_self _) (Nat.le_add_right ..))
  rw [hloop]
  rfl

/-- Whatever happens in the system between the snapshot and the call of `OpenProcess`, and after it:
`open` has found a process that was running, and its handle refers to that one exactly if it has been
kept in between, or else to one that was started meanwhile. As long as the handle is open, the modules
that are found by the id are those of the process to which the handle refers. -/
theorem opened_identity (pre during later : List SystemEvent) (processes : List ProcessEntry32)
    (hlists : Lists (after pre) processes) (granted : Bool) (p : OpenedProcess)
    (hopen : Opened (openProcess (after (pre ++ during)) granted) processes p) :
    ∃ i j, (after pre).objects[i]? = some ⟨p.id, p.name, true⟩ ∧
      (after (pre ++ during)).lookup p.id = some j ∧
      (j = i ↔ (after (pre ++ during)).Kept i) ∧ (j ≠ i → (after pre).objects.length ≤ j) ∧
      ∀ j', (after (pre ++ during ++ .acquire p.id :: later)).RefersTo
          (after (pre ++ during)).handles.length j' →
        j' = j ∧ ∀ loaded name m,
          Ends (fetchModuleOf (after (pre ++ during ++ .acquire p.id :: later)) loaded p.id name)
            (.ok m) → ∃ raw ∈ loaded j, m.entry = .ofRaw raw := by
  obtain ⟨raw, hraw, hid, hname, hok⟩ := hopen.exists_entry
  obtain ⟨j, hj⟩ := openProcess_eq_ok hok
  obtain ⟨i, hi⟩ := List.getElem?_of_mem (hlists raw hraw)
  rw [← hid, ← hname] at hi
  have hkept : (after pre).Kept i := .inl (by rw [hi, Option.map_some])
  have hkey : (after pre).keyOf i = some p.id := by rw [keyOf, hi, Option.map_some]
  have hrun := hj
  rw [after_append] at hrun
  obtain ⟨hsame, hlater⟩ := lookup_run (wellKeyed_after pre) hkept hkey during hrun
  rw [← after_append] at hsame
  refine ⟨i, j, hi, hj, hsame, hlater, fun j' href => ?_⟩
  -- from here on the handle keeps the process
  have hwell := wellKeyed_after (pre ++ during)
  have hstep : (after (pre ++ during)).step (.acquire p.id) =
      { after (pre ++ during) with handles := (after (pre ++ during)).handles ++ [some j] } := by
    rw [step, hj]
  have hrefers : ((after (pre ++ during)).step (.acquire p.id)).RefersTo
      (after (pre ++ during)).handles.length j := by
    rw [hstep, RefersTo, List.getElem?_concat_length]
  have hkeyj : ((after (pre ++ during)).step (.acquire p.id)).keyOf j = some p.id := by
    rw [hstep]
    exact ((lookup_eq_some_iff hwell).mp hj).2
  rw [after_append, run_cons] at href ⊢
  obtain ⟨hj', hfound⟩ := lookup_of_open (hwell.step _) hkeyj hrefers later href
  refine ⟨hj', fun loaded name m hends => ?_⟩
  have hfetch : fetchModuleOf (run step ((after (pre ++ during)).step (.acquire p.id)) later) loaded
      p.id name = fetchModule (loaded j) name := by
    funext fuel
    rw [fetchModuleOf, hfound]
  rw [hfetch] at hends
  exact exists_mem_of_fetchModule hends

/-- The process that is found exits before it is opened. -/
theorem opened_identity_reused :
    (after ([fooStart] ++ fooReused)).labelOf 1 = some "Bar.exe".toList ∧
    ∃ i j, (after [fooStart]).objects[i]? = some ⟨1, "Foo.exe".toList, true⟩ ∧
      (after ([fooStart] ++ fooReused)).lookup 1 = some j ∧
      (j = i ↔ (after ([fooStart] ++ fooReused)).Kept i) ∧ (j ≠ i → 1 ≤ j) ∧
      ∀ j', (after ([fooStart] ++ fooReused ++ .acquire 1 :: [])).RefersTo 0 j' →
        j' = j ∧ ∀ loaded name m,
          Ends (fetchModuleOf (after ([fooStart] ++ fooReused ++ .acquire 1 :: [])) loaded 1 name)
            (.ok m) → ∃ raw ∈ loaded j, m.entry = .ofRaw raw :=
  ⟨by decide, opened_identity [fooStart] fooReused [] [fooEntry] (by decide) true fooProcess
    fooProcess_reopened⟩

end Wincpp.Factory
