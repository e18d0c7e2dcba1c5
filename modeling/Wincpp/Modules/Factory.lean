import Mathlib
import Wincpp.Core.Run
import Wincpp.Core.Snapshot
import Wincpp.Library.Terminated

/-! Processes and modules by their names (`process.cpp`, `module_factory.cpp`).

A lookup leaves the loop over a snapshot at the first entry that it takes. The names of module entries
are in lower case, and so is the name that `operator[]` looks for. `main_module` looks for the name of
the process as it is (`mainModule_iff`), and `operator[]` adds `.dll` to each name in which that does
not occur (`operatorIndex_own_name`). A name is compared up to the terminator behind it, which a view
need not have at its end (`fetchModule_views_iff`).
-/
namespace Wincpp.Factory
open Snapshot Terminated
set_option autoImplicit false

/-- Why a lookup stops without a result. -/
inductive Abort
  | win32 (code : UInt32)  -- `error::from_win32` is thrown
  | runtimeError (message : List Char)
  | unfilled  -- an entry is read that no call has filled in
  | overread  -- a string is read behind its last character
  | outOfFuel
  deriving DecidableEq, Repr

abbrev Lookup := Except Abort

/-- With enough fuel the lookup comes to `x`. -/
def Ends {α : Type} (run : ℕ → Lookup α) (x : Lookup α) : Prop := ∃ fuel, ∀ more, run (fuel + more) = x

theorem Ends.unique {α : Type} {run : ℕ → Lookup α} {x y : Lookup α} (hx : Ends run x)
    (hy : Ends run y) : x = y := by
  obtain ⟨n, hn⟩ := hx
  obtain ⟨m, hm⟩ := hy
  rw [← hn m, Nat.add_comm, hm n]

def ofOutcome {α : Type} : Outcome α → Lookup α
  | .ok a => .ok a
  | .error (.win32 code) => .error (.win32 code)
  | .error .outOfFuel => .error .outOfFuel

/-! ## The loop over a snapshot -/

section Search
variable (kind : Kind) {α : Type} (body : kind.Entry → Lookup (Option α))

/-- The rounds of a loop that is left with the first result of its body. -/
def searchRounds (last : Iterator kind.Raw) :
    ℕ → Iterator kind.Raw → Enumeration kind.Raw → Lookup (Option α)
  | 0, _, _ => .error .outOfFuel
  | fuel + 1, it, e =>
    if it.equals kind.key last then
      return none
    else
      match it.entry with
      | none => .error .unfilled
      | some raw => do
        match ← body (kind.value raw) with
        | some a => return some a
        | none => do
          let (it', e') ← ofOutcome (it.next e)
          searchRounds last fuel it' e'

def search (entries : List kind.Raw) (fuel : ℕ) : Lookup (Option α) := do
  let (first, e) ← ofOutcome (Iterator.create true ⟨entries, 0⟩)
  let (last, e) ← ofOutcome (Iterator.create false e)
  searchRounds kind body last fuel first e

variable {kind body} {entries : List kind.Raw}

theorem searchRounds_of_entry {k : ℕ} {raw : kind.Raw} (hraw : entries[k]? = some raw) {fuel : ℕ}
    (hfuel : entries.length < k + fuel) :
    searchRounds kind body ⟨false, none⟩ fuel ⟨true, some raw⟩ ⟨entries, k + 1⟩ =
      ((entries.drop k).map kind.value).findSomeM? body := by
  induction fuel generalizing k raw with
  | zero =>
    have hlt := (List.getElem?_eq_some_iff.mp hraw).1
    omega
  | succ fuel ih =>
    have hlt := (List.getElem?_eq_some_iff.mp hraw).1
    obtain ⟨hdrop, hnext⟩ := next_of_entry hraw
    rw [searchRounds, if_neg (by simp [Iterator.equals]), hdrop, List.map_cons, List.findSomeM?_cons]
    dsimp only
    cases body (kind.value raw) with
    | error stop => rfl
    | ok result =>
      rw [Run.ok_bind, Run.ok_bind]
      cases result with
      | some a => rfl
      | none =>
        rcases hnext with ⟨raw', hraw', hnext⟩ | ⟨hend, hnext⟩
        · rw [hnext]
          exact ih hraw' (by omega)
        · -- without its handle the iterator is at the end
          obtain ⟨fuel, rfl⟩ : ∃ n, fuel = n + 1 := ⟨fuel - 1, by omega⟩
          rw [hnext, hend]
          rfl

theorem search_eq (h : entries ≠ []) {fuel : ℕ} (hfuel : entries.length < fuel) :
    search kind body entries fuel = (entries.map kind.value).findSomeM? body := by
  obtain ⟨raw, rest, rfl⟩ := List.exists_cons_of_ne_nil h
  have hfirst : Iterator.create true ⟨raw :: rest, 0⟩ = .ok (⟨true, some raw⟩, ⟨raw :: rest, 1⟩) :=
    create_of_some rfl
  have hrounds : searchRounds kind body ⟨false, none⟩ fuel ⟨true, some raw⟩ ⟨raw :: rest, 0 + 1⟩ =
      _ := searchRounds_of_entry rfl (by omega)
  rw [search, hfirst]
  exact hrounds

/-- Without entries, the first round reads one that has not been filled in. -/
theorem search_nil (fuel : ℕ) : search kind body [] (fuel + 1) = .error .unfilled := by
  have hfirst : Iterator.create true ⟨([] : List kind.Raw), 0⟩ = .ok (⟨true, none⟩, ⟨[], 0⟩) :=
    create_of_none rfl
  rw [search, hfirst]
  rfl

/-- What a search comes back with is the result for one of the entries. -/
theorem exists_mem_of_search {a : α} (h : Ends (search kind body entries) (.ok (some a))) :
    ∃ raw ∈ entries, body (kind.value raw) = .ok (some a) := by
  obtain ⟨fuel, hfuel⟩ := h
  by_cases hnil : entries = []
  · subst hnil
    have hsearch := hfuel 1
    rw [search_nil] at hsearch
    cases hsearch
  · have hsearch := hfuel (entries.length + 1)
    rw [search_eq hnil (by omega)] at hsearch
    obtain ⟨pre, entry, post, hsplit, hentry, -⟩ := Run.findSomeM?_eq_some hsearch
    have hmem : entry ∈ entries.map kind.value := by
      rw [hsplit]
      simp
    obtain ⟨raw, hraw, rfl⟩ := List.mem_map.mp hmem
    exact ⟨raw, hraw, hentry⟩

end Search

/-! ## Processes -/

/-- `process_t`, as `open` leaves it. -/
structure OpenedProcess where
  entry : ProcessEntry
  deriving DecidableEq, Repr

def OpenedProcess.id (p : OpenedProcess) : UInt32 := p.entry.id

def OpenedProcess.name (p : OpenedProcess) : List Char := p.entry.name

section Open
variable (openProcess : UInt32 → Except UInt32 Unit) (processes : List ProcessEntry32)

/-- The rest of `open`, once the entry is found. `openProcess` is `OpenProcess` with the access rights;
its error is the last error. -/
def openEntry (proc : ProcessEntry) : Lookup (Option OpenedProcess) :=
  match openProcess proc.id with
  | .ok _ => .ok (some ⟨proc⟩)
  | .error lastError => .error (.win32 lastError)

/-- `process_t::open`, by the name; `none` is the null pointer. -/
def openByName (name : List Char) (fuel : ℕ) : Lookup (Option OpenedProcess) :=
  search .process (fun (proc : ProcessEntry) =>
    if proc.name = name then openEntry openProcess proc else .ok none) processes fuel

/-- `process_t::open`, by the id. -/
def openById (id : UInt32) (fuel : ℕ) : Lookup (Option OpenedProcess) :=
  search .process (fun (proc : ProcessEntry) =>
    if proc.id = id then openEntry openProcess proc else .ok none) processes fuel

def Opened (p : OpenedProcess) : Prop :=
  (∃ name, Ends (openByName openProcess processes name) (.ok (some p))) ∨
    ∃ id, Ends (openById openProcess processes id) (.ok (some p))

variable {openProcess processes} {p : OpenedProcess}

theorem openEntry_eq {proc : ProcessEntry} (h : openEntry openProcess proc = .ok (some p)) :
    p.entry = proc := by
  rw [openEntry] at h
  split at h
  · cases h
    rfl
  · cases h

/-- The entry of an opened process is the one of a process of the snapshot. -/
theorem Opened.entry_eq (h : Opened openProcess processes p) :
    ∃ raw ∈ processes, p.entry = Kind.process.value raw := by
  obtain ⟨name, h⟩ | ⟨id, h⟩ := h
  · obtain ⟨raw, hraw, hbody⟩ := exists_mem_of_search h
    split at hbody
    · exact ⟨raw, hraw, openEntry_eq hbody⟩
    · cases hbody
  · obtain ⟨raw, hraw, hbody⟩ := exists_mem_of_search h
    split at hbody
    · exact ⟨raw, hraw, openEntry_eq hbody⟩
    · cases hbody

end Open

/-! ## Names -/

def nul : Char := '\x00'

def lower (name : List Char) : List Char := name.map Char.toLower

theorem lower_lower (name : List Char) : lower (lower name) = lower name := by
  simp [lower]

theorem lower_eq_self_iff {name : List Char} : lower name = name ↔ ∀ c ∈ name, c.isUpper = false := by
  constructor
  · intro h c hc
    rw [← h] at hc
    obtain ⟨d, -, rfl⟩ := List.mem_map.mp hc
    exact Char.isUpper_toLower_eq_false d
  · intro h
    rw [lower, List.map_congr_left (g := id), List.map_id]
    intro c hc
    exact Char.toLower_eq_of_not_isUpper (by rw [h c hc]; decide)

/-- `std::string_view`: the characters that are viewed, and the ones that follow them in memory. -/
structure StringView where
  viewed : List Char
  behind : List Char
  deriving DecidableEq, Repr

namespace StringView

/-- The view of a `std::string`, which keeps a terminator behind its characters. -/
def ofString (s : List Char) : StringView := ⟨s, [nul]⟩

/-- `data()`, as a C string. -/
def data (view : StringView) : Lookup (List Char) :=
  if nul ∈ view.viewed ++ view.behind then
    .ok ((view.viewed ++ view.behind).takeWhile (· ≠ nul))
  else
    .error .overread

theorem data_eq_ok_iff {view : StringView} {text : List Char} :
    view.data = .ok text ↔ Spells nul (view.viewed ++ view.behind) text := by
  rw [data, spells_iff]
  split
  · rename_i hmem
    rw [Except.ok.injEq]
    exact (and_iff_right hmem).symm
  · rename_i hmem
    constructor
    · intro h
      cases h
    · intro h
      exact absurd h.1 hmem

theorem data_ofString {s : List Char} (h : nul ∉ s) : (ofString s).data = .ok s :=
  data_eq_ok_iff.mpr (spells_append h [])

end StringView

/-! ## Modules -/

/-- `module_t`, with the entry that its constructor keeps. -/
structure FoundModule where
  entry : ModuleEntry
  deriving DecidableEq, Repr

namespace FoundModule

/-- `module_t::name`. -/
def name (m : FoundModule) : List Char := lower m.entry.name

end FoundModule

/-- The message of the error that `fetch_module` throws. -/
def failedToFind (name : List Char) : List Char :=
  "Failed to find module \"".toList ++ name ++ ['"']

section Fetch
variable (modules : List ModuleEntry32)

/-- One round of `fetch_module`. The name is compared as a C string. -/
def takeNamed (name : StringView) (entry : ModuleEntry) : Lookup (Option FoundModule) := do
  if entry.name = (← name.data) then return some ⟨entry⟩ else return none

/-- `module_factory::fetch_module`. -/
def fetchModule (name : StringView) (fuel : ℕ) : Lookup FoundModule := do
  match ← search .module (takeNamed name) modules fuel with
  | some m => return m
  | none => .error (.runtimeError (failedToFind name.viewed))

/-- `module_factory::main_module`. -/
def mainModule (p : OpenedProcess) (fuel : ℕ) : Lookup FoundModule :=
  fetchModule modules (.ofString p.name) fuel

/-- `module_factory::operator[]`. -/
def operatorIndex (name : List Char) (fuel : ℕ) : Lookup FoundModule :=
  let data := lower name
  let data := if ".dll".toList <:+: data then data else data ++ ".dll".toList
  fetchModule modules (.ofString data) fuel

variable {modules} {e : ModuleEntry32} {text : List Char}

theorem takeNamed_eq {name : StringView} (hdata : name.data = .ok text) (entry : ModuleEntry) :
    takeNamed name entry = .ok (if decide (entry.name = text) then some ⟨entry⟩ else none) := by
  rw [takeNamed, hdata, Run.ok_bind]
  by_cases hname : entry.name = text
  · simp [hname]
  · simp [hname]

theorem searchNamed_eq (name : StringView) (hne : modules ≠ []) (more : ℕ) :
    search .module (takeNamed name) modules (modules.length + 1 + more) =
      (modules.map ModuleEntry.ofRaw).findSomeM? (takeNamed name) :=
  search_eq hne (Nat.lt_of_lt_of_le (Nat.lt_succ_self _) (Nat.le_add_right ..))

/-- `fetch_module` finds the first entry whose name in lower case is the C string of the view. -/
theorem fetchModule_ends {name : StringView} (hne : modules ≠ []) (hdata : name.data = .ok text) :
    Ends (fetchModule modules name)
      (match modules.find? fun entry => lower entry.szModule = text with
        | some entry => .ok ⟨.ofRaw entry⟩
        | none => .error (.runtimeError (failedToFind name.viewed))) := by
  refine ⟨modules.length + 1, fun more => ?_⟩
  rw [fetchModule, searchNamed_eq name hne, Run.findSomeM?_eq_find? _ (takeNamed_eq hdata),
    Run.ok_bind, List.find?_map]
  have hname : (fun entry => decide (ModuleEntry.name entry = text)) ∘ ModuleEntry.ofRaw =
      fun entry => decide (lower entry.szModule = text) := rfl
  rw [hname]
  cases modules.find? fun entry => lower entry.szModule = text <;> rfl

/-- Among entries with different names, each one is found under its own name. -/
theorem find?_of_nodup (hdistinct : (modules.map fun entry => lower entry.szModule).Nodup)
    (he : e ∈ modules) :
    modules.find? (fun entry => lower entry.szModule = lower e.szModule) = some e := by
  obtain ⟨pre, post, rfl⟩ := List.append_of_mem he
  rw [List.map_append, List.map_cons, List.nodup_middle, List.nodup_cons] at hdistinct
  rw [List.find?_append, List.find?_eq_none.mpr, Option.none_or, List.find?_cons_of_pos (by simp)]
  intro other hother hsame
  rw [decide_eq_true_eq] at hsame
  apply hdistinct.1
  rw [← hsame, List.mem_append]
  exact .inl (List.mem_map_of_mem hother)

theorem fetchModule_own_name (hdistinct : (modules.map fun entry => lower entry.szModule).Nodup)
    (he : e ∈ modules) (hnul : nul ∉ lower e.szModule) :
    Ends (fetchModule modules (.ofString (lower e.szModule))) (.ok ⟨.ofRaw e⟩) := by
  have hends := fetchModule_ends (List.ne_nil_of_mem he) (StringView.data_ofString hnul)
  rw [find?_of_nodup hdistinct he] at hends
  exact hends

end Fetch

/-! ## `main_module` -/

section Main
variable {p : OpenedProcess} {pre post : List ModuleEntry32} {e : ModuleEntry32}

theorem mainModule_returns_iff (hnul : nul ∉ p.name) :
    Ends (mainModule (pre ++ e :: post) p) (.ok ⟨.ofRaw e⟩) ↔
      ((pre ++ e :: post).find? fun entry => lower entry.szModule = p.name).map ModuleEntry.ofRaw =
        some (.ofRaw e) := by
  have hne : pre ++ e :: post ≠ [] := by simp
  have hends := fetchModule_ends hne (StringView.data_ofString hnul)
  constructor
  · intro h
    have hsame := h.unique hends
    cases hfind : (pre ++ e :: post).find? fun entry => lower entry.szModule = p.name with
    | none =>
      rw [hfind] at hsame
      cases hsame
    | some entry =>
      rw [hfind] at hsame
      have heq : ModuleEntry.ofRaw e = .ofRaw entry :=
        congrArg FoundModule.entry (Except.ok.inj hsame)
      rw [Option.map_some, heq]
  · intro h
    obtain ⟨entry, hfind, heq⟩ := Option.map_eq_some_iff.mp h
    rw [hfind] at hends
    rw [← heq]
    exact hends

/-- The first entry of the name in lower case is `e`, which has that name as it is. -/
theorem find?_map_ofRaw_iff {name : List Char} (hname : e.szModule = name) :
    ((pre ++ e :: post).find? fun entry => lower entry.szModule = name).map ModuleEntry.ofRaw =
        some (.ofRaw e) ↔
      lower name = name ∧ ∀ other, pre.find? (fun entry => lower entry.szModule = lower name) =
        some other → ModuleEntry.ofRaw other = .ofRaw e := by
  have hlower : ∀ {entry}, ModuleEntry.ofRaw entry = .ofRaw e →
      lower entry.szModule = name → lower name = name := by
    intro entry heq hentry
    have := congrArg ModuleEntry.name heq
    rw [← hname]
    exact this.symm.trans (hentry.trans hname.symm)
  rw [List.find?_append]
  constructor
  · intro h
    obtain ⟨entry, hfind, heq⟩ := Option.map_eq_some_iff.mp h
    have hentry : lower entry.szModule = name := by
      rw [← List.find?_append] at hfind
      simpa using List.find?_some hfind
    have hself := hlower heq hentry
    refine ⟨hself, fun other hother => ?_⟩
    rw [hself] at hother
    rw [hother, Option.some_or, Option.some.injEq] at hfind
    rw [hfind, heq]
  · rintro ⟨hself, hfirst⟩
    rw [hself] at hfirst
    cases hother : pre.find? fun entry => lower entry.szModule = name with
    | some other =>
      rw [Option.some_or, Option.map_some, hfirst other hother]
    | none =>
      rw [Option.none_or, List.find?_cons_of_pos (by simp [hname, hself]), Option.map_some]

end Main

/-- The main module of an opened process is the one of the entry `e` that has the name of the process,
exactly when there is no upper-case letter in the name, and no different entry in front of `e` whose
name agrees with it up to the case of its letters. -/
theorem mainModule_iff (openProcess : UInt32 → Except UInt32 Unit)
    (processes : List ProcessEntry32) (p : OpenedProcess) (pre post : List ModuleEntry32)
    (e : ModuleEntry32) (hopen : Opened openProcess processes p) :
    ∃ raw ∈ processes, p.entry = Kind.process.value raw ∧
      (e.szModule = raw.szExeFile → nul ∉ raw.szExeFile →
        (Ends (mainModule (pre ++ e :: post) p) (.ok ⟨.ofRaw e⟩) ↔
          (∀ c ∈ raw.szExeFile, c.isUpper = false) ∧
          ∀ other, pre.find? (fun entry => lower entry.szModule = lower raw.szExeFile) = some other →
            ModuleEntry.ofRaw other = .ofRaw e)) := by
  obtain ⟨raw, hraw, hentry⟩ := hopen.entry_eq
  refine ⟨raw, hraw, hentry, fun hname hnul => ?_⟩
  have hpname : p.name = raw.szExeFile := congrArg ProcessEntry.name hentry
  rw [mainModule_returns_iff (by rwa [hpname]), hpname, find?_map_ofRaw_iff hname, lower_eq_self_iff]

def fooEntry : ProcessEntry32 := ⟨1, 1, 0, 8, "Foo.exe".toList⟩

def fooProcess : OpenedProcess := ⟨Kind.process.value fooEntry⟩

def fooModule : ModuleEntry32 := ⟨0x10000, 0x1000, "Foo.exe".toList, "Foo.exe".toList, 1, 1⟩

theorem fooProcess_opened : Opened (fun _ => .ok ()) [fooEntry] fooProcess := by
  refine .inl ⟨"Foo.exe".toList, 2, fun more => ?_⟩
  have hloop : openByName (fun _ => .ok ()) [fooEntry] "Foo.exe".toList (2 + more) = _ :=
    search_eq (List.cons_ne_nil _ _) (Nat.lt_of_lt_of_le (Nat.lt_succ_self _) (Nat.le_add_right ..))
  rw [hloop]
  rfl

/-- The name `Foo.exe` of the process is compared with the name `foo.exe` of the entry. -/
theorem mainModule_upper_case :
    Opened (fun _ => .ok ()) [fooEntry] fooProcess ∧ fooModule.szModule = fooEntry.szExeFile ∧
      Ends (mainModule [fooModule] fooProcess)
        (.error (.runtimeError (failedToFind "Foo.exe".toList))) :=
  ⟨fooProcess_opened, rfl,
    fetchModule_ends (List.cons_ne_nil _ _) (StringView.data_ofString (by decide))⟩

theorem mainModule_iff_foo :
    ∃ raw ∈ [fooEntry], fooProcess.entry = Kind.process.value raw ∧
      (fooModule.szModule = raw.szExeFile → nul ∉ raw.szExeFile →
        (Ends (mainModule ([] ++ fooModule :: []) fooProcess) (.ok ⟨.ofRaw fooModule⟩) ↔
          (∀ c ∈ raw.szExeFile, c.isUpper = false) ∧
          ∀ other, [].find? (fun entry => lower entry.szModule = lower raw.szExeFile) = some other →
            ModuleEntry.ofRaw other = .ofRaw fooModule)) :=
  mainModule_iff (fun _ => .ok ()) [fooEntry] fooProcess [] [] fooModule fooProcess_opened

/-! ## `operator[]` -/

section Index
variable {modules : List ModuleEntry32} {e : ModuleEntry32} {q : List Char}

theorem operatorIndex_of_dll (h : ".dll".toList <:+: lower q) :
    operatorIndex modules q = fetchModule modules (.ofString (lower q)) := by
  funext fuel
  rw [operatorIndex, if_pos h]

theorem operatorIndex_of_no_dll (h : ¬ ".dll".toList <:+: lower q) :
    operatorIndex modules q = fetchModule modules (.ofString (lower q ++ ".dll".toList)) := by
  funext fuel
  rw [operatorIndex, if_neg h]

theorem nul_notMem_lower {name : List Char} (h : nul ∉ name) : nul ∉ lower name := by
  intro hmem
  obtain ⟨c, hc, hlower⟩ := List.mem_map.mp hmem
  have halpha : c.isAlpha = false := by
    rw [← Char.isLower_toLower_eq_isAlpha, hlower]
    decide
  have hupper : ¬ c.isUpper := by
    intro hupper
    rw [Char.isAlpha, hupper] at halpha
    cases halpha
  rw [Char.toLower_eq_of_not_isUpper hupper] at hlower
  exact h (hlower ▸ hc)

end Index

/-- The lookup by a module's own name, in any case: it is found if `.dll` occurs in it, and otherwise
the module of that name with `.dll` behind it is. -/
theorem operatorIndex_own_name (modules : List ModuleEntry32) (e : ModuleEntry32) (q : List Char)
    (hdistinct : (modules.map fun entry => lower entry.szModule).Nodup) (he : e ∈ modules)
    (hnul : nul ∉ e.szModule) (hq : lower q = (⟨.ofRaw e⟩ : FoundModule).name) :
    (".dll".toList <:+: lower e.szModule → Ends (operatorIndex modules q) (.ok ⟨.ofRaw e⟩)) ∧
    (¬ ".dll".toList <:+: lower e.szModule →
      (∀ other ∈ modules, lower other.szModule = lower e.szModule ++ ".dll".toList →
        Ends (operatorIndex modules q) (.ok ⟨.ofRaw other⟩)) ∧
      ((∀ other ∈ modules, lower other.szModule ≠ lower e.szModule ++ ".dll".toList) →
        Ends (operatorIndex modules q)
          (.error (.runtimeError (failedToFind (lower e.szModule ++ ".dll".toList)))))) := by
  have hname : lower q = lower e.szModule := hq.trans (lower_lower e.szModule)
  have hlower : nul ∉ lower e.szModule := nul_notMem_lower hnul
  refine ⟨fun hdll => ?_, fun hdll => ⟨fun other hother hsame => ?_, fun hnone => ?_⟩⟩
  · rw [operatorIndex_of_dll (by rwa [hname]), hname]
    exact fetchModule_own_name hdistinct he hlower
  · rw [operatorIndex_of_no_dll (by rwa [hname]), hname, ← hsame]
    apply fetchModule_own_name hdistinct hother
    rw [hsame, List.mem_append]
    rintro (hmem | hmem)
    · exact hlower hmem
    · exact absurd hmem (by decide)
  · rw [operatorIndex_of_no_dll (by rwa [hname]), hname]
    have hdata : nul ∉ lower e.szModule ++ ".dll".toList := by
      rw [List.mem_append]
      rintro (hmem | hmem)
      · exact hlower hmem
      · exact absurd hmem (by decide)
    have hends := fetchModule_ends (List.ne_nil_of_mem he) (StringView.data_ofString hdata)
    rw [List.find?_eq_none.mpr fun other hother => by simpa using hnone other hother] at hends
    exact hends

def appModule : ModuleEntry32 := ⟨0x10000, 0x1000, "app.exe".toList, "app.exe".toList, 1, 1⟩

def kernelModule : ModuleEntry32 :=
  ⟨0x20000, 0x1000, "KERNEL32.DLL".toList, "KERNEL32.DLL".toList, 1, 1⟩

/-- Its own name does not find `app.exe`, since `app.exe.dll` is looked for. -/
theorem operatorIndex_app :
    Ends (operatorIndex [appModule] (⟨.ofRaw appModule⟩ : FoundModule).name)
      (.error (.runtimeError (failedToFind "app.exe.dll".toList))) :=
  fetchModule_ends (List.cons_ne_nil _ _) (StringView.data_ofString (by decide))

theorem operatorIndex_own_name_kernel32 :
    (".dll".toList <:+: lower kernelModule.szModule →
      Ends (operatorIndex [appModule, kernelModule] "Kernel32.dll".toList)
        (.ok ⟨.ofRaw kernelModule⟩)) ∧
    (¬ ".dll".toList <:+: lower kernelModule.szModule →
      (∀ other ∈ [appModule, kernelModule],
        lower other.szModule = lower kernelModule.szModule ++ ".dll".toList →
        Ends (operatorIndex [appModule, kernelModule] "Kernel32.dll".toList)
          (.ok ⟨.ofRaw other⟩)) ∧
      ((∀ other ∈ [appModule, kernelModule],
          lower other.szModule ≠ lower kernelModule.szModule ++ ".dll".toList) →
        Ends (operatorIndex [appModule, kernelModule] "Kernel32.dll".toList)
          (.error (.runtimeError
            (failedToFind (lower kernelModule.szModule ++ ".dll".toList)))))) :=
  operatorIndex_own_name [appModule, kernelModule] kernelModule "Kernel32.dll".toList (by decide)
    (by decide) (by decide) (by decide)

/-! ## The argument of `fetch_module` -/

/-- The first module of the name, or the error that there is none. -/
def namedModule (modules : List ModuleEntry32) (name : List Char) : Lookup FoundModule :=
  match modules.find? fun entry => lower entry.szModule = name with
  | some entry => .ok ⟨.ofRaw entry⟩
  | none => .error (.runtimeError (failedToFind name))

/-- There is a module, and the view is followed by a terminator, or else neither its characters nor the
C string at its address are the name of a module. -/
def StringView.Selects (view : StringView) (modules : List ModuleEntry32) : Prop :=
  modules ≠ [] ∧ ((nul ∉ view.viewed ∧ view.behind.head? = some nul) ∨
    ∃ text, Spells nul (view.viewed ++ view.behind) text ∧
      ∀ entry ∈ modules, lower entry.szModule ≠ text ∧ lower entry.szModule ≠ view.viewed)

section Views
variable {modules : List ModuleEntry32} {view : StringView} {text : List Char}

theorem fetchModule_nil : Ends (fetchModule [] view) (.error .unfilled) := by
  refine ⟨1, fun more => ?_⟩
  have hloop : search .module (takeNamed view) ([] : List ModuleEntry32) (1 + more) =
      .error .unfilled := by
    rw [Nat.add_comm]
    exact search_nil more
  rw [fetchModule, hloop]
  rfl

theorem fetchModule_overread (hne : modules ≠ []) (h : nul ∉ view.viewed ++ view.behind) :
    Ends (fetchModule modules view) (.error .overread) := by
  refine ⟨modules.length + 1, fun more => ?_⟩
  obtain ⟨entry, rest, rfl⟩ := List.exists_cons_of_ne_nil hne
  have hdata : view.data = .error .overread := if_neg h
  rw [fetchModule, searchNamed_eq view hne, List.map_cons, List.findSomeM?_cons, takeNamed, hdata]
  rfl

/-- What is found under the C string `text` is what the name leads to. -/
theorem found_eq_namedModule_iff {name : List Char} :
    (match modules.find? fun entry => lower entry.szModule = text with
        | some entry => .ok ⟨.ofRaw entry⟩
        | none => .error (.runtimeError (failedToFind name))) = namedModule modules name ↔
      text = name ∨ ∀ entry ∈ modules, lower entry.szModule ≠ text ∧ lower entry.szModule ≠ name := by
  unfold namedModule
  constructor
  · intro h
    by_cases hsame : text = name
    · exact .inl hsame
    · right
      cases htext : modules.find? fun entry => lower entry.szModule = text with
      | none =>
        cases hname : modules.find? fun entry => lower entry.szModule = name with
        | none =>
          rw [List.find?_eq_none] at htext hname
          intro entry hentry
          exact ⟨by simpa using htext entry hentry, by simpa using hname entry hentry⟩
        | some other =>
          rw [htext, hname] at h
          cases h
      | some entry =>
        cases hname : modules.find? fun entry => lower entry.szModule = name with
        | none =>
          rw [htext, hname] at h
          cases h
        | some other =>
          -- one module has only one name
          rw [htext, hname] at h
          have hentry : lower entry.szModule = text := by simpa using List.find?_some htext
          have hother : lower other.szModule = name := by simpa using List.find?_some hname
          have heq : ModuleEntry.ofRaw entry = .ofRaw other :=
            congrArg FoundModule.entry (Except.ok.inj h)
          have hnames : lower entry.szModule = lower other.szModule := congrArg ModuleEntry.name heq
          exact absurd (hentry.symm.trans (hnames.trans hother)) hsame
  · rintro (rfl | hnone)
    · rfl
    · rw [List.find?_eq_none.mpr fun entry hentry => by simpa using (hnone entry hentry).1,
        List.find?_eq_none.mpr fun entry hentry => by simpa using (hnone entry hentry).2]

theorem fetchModule_ends_iff :
    Ends (fetchModule modules view) (namedModule modules view.viewed) ↔ view.Selects modules := by
  by_cases hne : modules = []
  · subst hne
    constructor
    · intro h
      cases h.unique fetchModule_nil
    · intro h
      exact absurd rfl h.1
  have hends : ∀ {x}, Ends (fetchModule modules view) x →
      (Ends (fetchModule modules view) (namedModule modules view.viewed) ↔
        x = namedModule modules view.viewed) := fun hx =>
    ⟨fun h => hx.unique h, fun h => h ▸ hx⟩
  by_cases hmem : nul ∈ view.viewed ++ view.behind
  · obtain ⟨text, htext⟩ := exists_spells_iff.mpr hmem
    rw [hends (fetchModule_ends hne (StringView.data_eq_ok_iff.mpr htext)), found_eq_namedModule_iff,
      StringView.Selects, and_iff_right hne, ← spells_append_iff]
    constructor
    · rintro (rfl | hnone)
      · exact .inl htext
      · exact .inr ⟨text, htext, hnone⟩
    · rintro (hself | ⟨text', htext', hnone⟩)
      · exact .inl (htext.unique hself)
      · rw [htext.unique htext']
        exact .inr hnone
  · rw [hends (fetchModule_overread hne hmem)]
    constructor
    · intro h
      unfold namedModule at h
      split at h <;> cases h
    · rintro ⟨-, hself | ⟨text, htext, -⟩⟩
      · exact absurd (spells_append_iff.mpr hself).mem hmem
      · exact absurd htext.mem hmem

end Views

/-- Two views of the same characters both lead to the first module of that name, or both to the error
that there is none, exactly when each of them is followed by a terminator, or its characters and its
C string are no names of modules. -/
theorem fetchModule_views_iff (modules : List ModuleEntry32) (v w : StringView)
    (hviewed : w.viewed = v.viewed) :
    (∃ x, Ends (fetchModule modules v) x ∧ Ends (fetchModule modules w) x ∧
        x = namedModule modules v.viewed) ↔
      v.Selects modules ∧ w.Selects modules := by
  rw [← fetchModule_ends_iff, ← fetchModule_ends_iff, hviewed]
  constructor
  · rintro ⟨x, hv, hw, rfl⟩
    exact ⟨hv, hw⟩
  · rintro ⟨hv, hw⟩
    exact ⟨_, hv, hw, rfl⟩

/-- The first seven characters of `foo.exe.bak`. -/
def fooSlice : StringView := ⟨"foo.exe".toList, ".bak".toList ++ [nul]⟩

/-- A string finds the module `foo.exe`, and a slice of a longer string with the same characters does
not. -/
theorem fetchModule_slice :
    fooSlice.viewed = (StringView.ofString "foo.exe".toList).viewed ∧
      Ends (fetchModule [fooModule] (.ofString "foo.exe".toList)) (.ok ⟨.ofRaw fooModule⟩) ∧
      Ends (fetchModule [fooModule] fooSlice)
        (.error (.runtimeError (failedToFind "foo.exe".toList))) := by
  have hdata : fooSlice.data = .ok "foo.exe.bak".toList := by decide
  exact ⟨rfl, fetchModule_ends (List.cons_ne_nil _ _) (StringView.data_ofString (by decide)),
    fetchModule_ends (List.cons_ne_nil _ _) hdata⟩

theorem fetchModule_views_iff_foo :
    (∃ x, Ends (fetchModule [fooModule] (.ofString "foo.exe".toList)) x ∧
        Ends (fetchModule [fooModule] fooSlice) x ∧
        x = namedModule [fooModule] (StringView.ofString "foo.exe".toList).viewed) ↔
      (StringView.ofString "foo.exe".toList).Selects [fooModule] ∧ fooSlice.Selects [fooModule] :=
  fetchModule_views_iff [fooModule] (.ofString "foo.exe".toList) fooSlice rfl

end Wincpp.Factory
