import Wincpp.Library.SharedOwnership
import Wincpp.Memory.AddressSpace

/-! Handles and the objects that share them (`core/win.hpp`, `core/win.cpp`).

A `handle_t` is held by `std::shared_ptr`s: by a process, by the deleter of a protection operation, by a
snapshot and by its iterators. Each call of the library makes and drops such pointers, also when it throws.
Whatever a client calls in whatever order, no handle is used after it has been closed, and `CloseHandle`
is called once for each handle that is owned, when the last object that holds it goes away.
-/
namespace Wincpp
open SharedOwnership State
set_option autoImplicit false

/-- `INVALID_HANDLE_VALUE`, which is also what `GetCurrentProcess` returns. -/
def invalidHandleValue : UInt64 := 0xFFFFFFFFFFFFFFFF

/-- `handle_t`. -/
structure Handle where
  native : UInt64
  ownsHandle : Bool
  deriving DecidableEq, Repr

/-- The objects of a client that hold handles, which are numbered in the order of their creation. -/
inductive Holder
  | process (handle : ℕ) (type : MemoryType)
  | operation (handle : ℕ)                     -- `protection_operation`
  | snapshot (handle : ℕ)
  | moduleList (handle : ℕ)
  | iterator (handle : Option ℕ)               -- of a snapshot or of a module list
  deriving DecidableEq, Repr

def Holder.handle : Holder → Option ℕ
  | .process r _ | .operation r | .snapshot r | .moduleList r => some r
  | .iterator handle => handle

/-! ## What the calls do with the pointers -/

/-- How the loop over a snapshot goes. It visits `rounds` entries before it stops. -/
inductive LoopCourse
  | firstFails
  | nextFails (rounds : ℕ)
  | ends (rounds : ℕ)
  | leaves (rounds : ℕ)  -- by a `return` or a `throw` of its body
  deriving DecidableEq, Repr

/-- What `operator++` of an iterator finds. -/
inductive Advance
  | entry
  | noMore
  | fails
  deriving DecidableEq, Repr

/-- `snapshot::create` for the handle `n`: the parameter of the constructor is copied into its member. -/
def createOps (n : ℕ) : List Op := [.create n, .copy n, .drop n]

/-- `snapshot::begin`: the parameter of the iterator's constructor and its member. When the first entry
cannot be read, both are dropped. -/
def beginOps (r : ℕ) : Bool → List Op
  | true => [.copy r, .copy r, .use r, .drop r]
  | false => [.copy r, .copy r, .use r, .drop r, .drop r]

/-- The loop `for (entry : snapshot::create(id))` over the snapshot `n`, where `inside` is what its body
does in the round in which it leaves. At last the iterator and the snapshot are dropped. -/
def loopOps (n : ℕ) (inside : List Op) : LoopCourse → List Op
  | .firstFails => createOps n ++ beginOps n false ++ [.drop n]
  | .nextFails rounds | .ends rounds =>
    createOps n ++ beginOps n true ++ List.replicate (rounds + 1) (.use n) ++ [.drop n, .drop n]
  | .leaves rounds =>
    createOps n ++ beginOps n true ++ List.replicate rounds (.use n) ++ (inside ++ [.drop n, .drop n])

/-- `operator++` of an iterator. -/
def advanceOps (r : ℕ) : Advance → List Op
  | .noMore => [.use r, .drop r]
  | .entry | .fails => [.use r]

/-- `module_t::module_t` of a process with the handle `r`, which reads the image. -/
def moduleOps (r : ℕ) : MemoryType → List Op
  | .localT => [.use r]
  | .remoteT => [.use r, .use r]

/-! ## The client -/

/-- A call of the client with what the operating system answers: the native handles that it returns, and
whether it does what it is asked to do. -/
inductive Call
  | openProcess (snapshot : UInt64) (course : LoopCourse) (process : UInt64)
  | current (named : Bool)
  | fetchModule (r : ℕ) (type : MemoryType) (snapshot : UInt64) (course : LoopCourse)
  | access (r : ℕ) (type : MemoryType) (uses : ℕ)  -- any function that only uses the handle
  | protect (r : ℕ) (type : MemoryType) (accepted : Bool)
  | createSnapshot (snapshot : UInt64)
  | beginSnapshot (r : ℕ) (filled : Bool)
  | modules (r : ℕ) (type : MemoryType) (snapshot : UInt64)
  | beginModules (r : ℕ) (filled : Bool)
  | endIterator
  | copyIterator (handle : Option ℕ)
  | advance (r : ℕ) (found : Advance)
  | destroy (object : Holder) (restored : Bool)
  deriving DecidableEq, Repr

/-- What a call does: the handles it creates, what happens to the pointers, and the objects that there
are after it. An exception that leaves a `noexcept` function or a destructor ends the program. -/
structure Effect where
  created : List Handle
  ops : List Op
  objects : List Holder
  ended : Bool

/-- `snapshot::create` throws. -/
def noSnapshot (snapshot : UInt64) : Bool := snapshot == invalidHandleValue || snapshot == 0

/-- `process_t::open` behind its snapshot. In the round in which the loop leaves, `OpenProcess` returns
`process`; when this is no handle, an exception is thrown. -/
def openEffect (n : ℕ) (objects : List Holder) (snapshot process : UInt64) : LoopCourse → Effect
  | .leaves rounds =>
    if process = 0 then ⟨[⟨snapshot, true⟩], loopOps n [] (.leaves rounds), objects, false⟩
    else
      ⟨[⟨snapshot, true⟩, ⟨process, true⟩],
        loopOps n [.create (n + 1), .copy (n + 1), .drop (n + 1)] (.leaves rounds),
        .process (n + 1) .remoteT :: objects, false⟩
  | course => ⟨[⟨snapshot, true⟩], loopOps n [] course, objects, false⟩

/-- What a call does when there are `n` handles and these objects. -/
def Call.effect (n : ℕ) (objects : List Holder) : Call → Effect
  | .openProcess snapshot course process =>
    if noSnapshot snapshot then ⟨[], [], objects, false⟩
    else openEffect n objects snapshot process course
  | .current true =>
    ⟨[⟨invalidHandleValue, false⟩], [.create n, .use n, .use n, .copy n, .copy n, .drop n, .drop n],
      .process n .localT :: objects, false⟩
  | .current false =>
    ⟨[⟨invalidHandleValue, false⟩], [.create n, .use n, .use n, .drop n], objects, false⟩
  | .fetchModule r type snapshot course =>
    if noSnapshot snapshot then ⟨[], [], objects, false⟩
    else ⟨[⟨snapshot, true⟩], loopOps n (moduleOps r type) course, objects, false⟩
  | .access r _ uses => ⟨[], List.replicate uses (.use r), objects, false⟩
  | .protect r _ true => ⟨[], [.use r, .copy r, .copy r, .drop r], .operation r :: objects, false⟩
  | .protect r _ false => ⟨[], [.use r], objects, false⟩
  | .createSnapshot snapshot =>
    if noSnapshot snapshot then ⟨[], [], objects, false⟩
    else ⟨[⟨snapshot, true⟩], createOps n, .snapshot n :: objects, false⟩
  | .beginSnapshot r true => ⟨[], beginOps r true, .iterator (some r) :: objects, false⟩
  | .beginSnapshot r false => ⟨[], beginOps r false, objects, false⟩
  | .modules _ _ snapshot =>
    -- the constructor of the list is `noexcept`
    if noSnapshot snapshot then ⟨[], [], objects, true⟩
    else ⟨[⟨snapshot, true⟩], createOps n, .moduleList n :: objects, false⟩
  | .beginModules r true =>
    ⟨[], beginOps r true ++ [.copy r, .drop r], .iterator (some r) :: objects, false⟩
  | .beginModules r false => ⟨[], [.copy r, .copy r, .use r], objects, true⟩
  | .endIterator => ⟨[], [], .iterator none :: objects, false⟩
  | .copyIterator (some r) => ⟨[], [.copy r], .iterator (some r) :: objects, false⟩
  | .copyIterator none => ⟨[], [], .iterator none :: objects, false⟩
  | .advance r .noMore =>
    ⟨[], advanceOps r .noMore, .iterator none :: objects.erase (.iterator (some r)), false⟩
  | .advance r found => ⟨[], advanceOps r found, objects, false⟩
  | .destroy (.operation r) true =>
    ⟨[], [.use r, .drop r], objects.erase (.operation r), false⟩
  | .destroy (.operation r) false => ⟨[], [.use r], objects, true⟩
  | .destroy object _ => ⟨[], (object.handle.map Op.drop).toList, objects.erase object, false⟩

/-- A client, with the state of its pointers, the handles it has created and the objects it has. -/
structure Client where
  pointers : State
  handles : List Handle
  objects : List Holder
  ended : Bool

namespace Client

def initial : Client := ⟨.initial, [], [], false⟩

/-- The objects that the call is about exist. -/
def Allowed (client : Client) : Call → Prop
  | .openProcess .. | .current _ | .createSnapshot _ | .endIterator => True
  | .fetchModule r type .. | .access r type _ | .protect r type _ | .modules r type _ =>
    .process r type ∈ client.objects
  | .beginSnapshot r _ => .snapshot r ∈ client.objects
  | .beginModules r _ => .moduleList r ∈ client.objects
  | .copyIterator handle => .iterator handle ∈ client.objects
  | .advance r _ => .iterator (some r) ∈ client.objects
  | .destroy object _ => object ∈ client.objects

instance (client : Client) : (call : Call) → Decidable (client.Allowed call)
  | .openProcess .. | .current _ | .createSnapshot _ | .endIterator => inferInstanceAs (Decidable True)
  | .fetchModule r type .. | .access r type _ | .protect r type _ | .modules r type _ =>
    inferInstanceAs (Decidable (.process r type ∈ client.objects))
  | .beginSnapshot r _ => inferInstanceAs (Decidable (.snapshot r ∈ client.objects))
  | .beginModules r _ => inferInstanceAs (Decidable (.moduleList r ∈ client.objects))
  | .copyIterator handle => inferInstanceAs (Decidable (.iterator handle ∈ client.objects))
  | .advance r _ => inferInstanceAs (Decidable (.iterator (some r) ∈ client.objects))
  | .destroy object _ => inferInstanceAs (Decidable (object ∈ client.objects))

/-- One call; `none` when it uses a pointer that is not there. -/
def exec (client : Client) (call : Call) : Option Client :=
  let effect := call.effect client.pointers.next client.objects
  (client.pointers.run effect.ops).map fun pointers =>
    ⟨pointers, client.handles ++ effect.created, effect.objects, effect.ended⟩

/-- The clients that a program can come to. -/
inductive Reachable : Client → Prop
  | initial : Reachable initial
  | call {client client' : Client} (call : Call) (hreach : Reachable client)
      (hended : client.ended = false) (hallowed : client.Allowed call)
      (hexec : client.exec call = some client') : Reachable client'

/-- Some calls in a row; `none` when one of them is not allowed. -/
def run (client : Client) : List Call → Option Client
  | [] => some client
  | call :: calls =>
    if client.ended = false ∧ client.Allowed call then
      (client.exec call).bind fun client' => client'.run calls
    else none

/-- The number of objects that hold a handle. -/
def holders (objects : List Holder) (r : ℕ) : ℕ := objects.countP fun object => object.handle == some r

/-! ## The objects and the counts -/

section Holders
variable {objects : List Holder} {object : Holder} {r : ℕ}

theorem holders_cons (object : Holder) (objects : List Holder) (r : ℕ) :
    holders (object :: objects) r = holders objects r + if object.handle = some r then 1 else 0 := by
  simp only [holders, List.countP_cons, beq_iff_eq]

theorem holders_erase (hmem : object ∈ objects) (r : ℕ) :
    holders (objects.erase object) r + (if object.handle = some r then 1 else 0) =
      holders objects r := by
  have hperm : holders objects r = holders (object :: objects.erase object) r :=
    (List.perm_cons_erase hmem).countP_eq _
  rw [hperm, holders_cons]

theorem holders_pos (hmem : object ∈ objects) (hr : object.handle = some r) :
    0 < holders objects r :=
  List.countP_pos_iff.mpr ⟨object, hmem, beq_iff_eq.mpr hr⟩

end Holders

/-- The pointers are in order, and each is held by an object of the client. -/
structure Inv (client : Client) : Prop where
  sound : client.pointers.Sound
  handles : client.handles.length = client.pointers.next
  held : client.ended = false → ∀ r, client.pointers.count r = holders client.objects r

/-- The pointers can do what the call does with them, and are held by its objects afterwards. -/
def Fits (s : State) (effect : Effect) : Prop :=
  ∃ count, s.Yields effect.ops (s.next + effect.created.length) count ∧
    (effect.ended = false → ∀ r, count r = holders effect.objects r)

section Fits
variable {s : State}

/-- A call that changes the count of a single handle. -/
theorem fits_of_update {effect : Effect} {n c r : ℕ}
    (hyields : s.Yields effect.ops n (Function.update s.count r c))
    (hn : n = s.next + effect.created.length)
    (hself : effect.ended = false → c = holders effect.objects r)
    (hother : effect.ended = false → ∀ r', r' ≠ r → s.count r' = holders effect.objects r') :
    Fits s effect := by
  subst hn
  refine ⟨_, hyields, fun hended r' => ?_⟩
  by_cases hne : r' = r
  · subst hne
    rw [Function.update_self]
    exact hself hended
  · rw [Function.update_of_ne hne]
    exact hother hended r' hne

/-- The loop up to a round: the snapshot and the iterator hold the handle. -/
theorem rounds_yields {n : ℕ} (hn : n = s.next) (rounds : ℕ) :
    s.Yields (createOps n ++ beginOps n true ++ List.replicate rounds (.use n)) (n + 1)
      (Function.update s.count n 2) := by
  refine yields_create hn ?_ ?_
  · simp [beginOps, Op.About]
  · change balance 1 ([.copy n, .drop n] ++ beginOps n true ++ List.replicate rounds (.use n)) = some 2
    rw [balance_append]
    exact balance_uses 1 rounds n

theorem loopOps_leaves_yields {n n' rounds : ℕ} {count : ℕ → ℕ} {inside : List Op} (hn : n = s.next)
    (hinside : ∀ log, (⟨n + 1, Function.update s.count n 2, log⟩ : State).Yields inside n'
      (Function.update count n 2)) :
    s.Yields (loopOps n inside (.leaves rounds)) n' (Function.update count n 0) := by
  refine (rounds_yields hn rounds).append fun log => (hinside log).append fun log => ?_
  have habout : ∀ op ∈ [Op.drop n, Op.drop n], op.About n := by simp [Op.About]
  have hdrop := yields_balance (s := ⟨n', Function.update count n 2, log⟩) (c := 0) habout
    (by simp only [Function.update_self, balance])
  simpa only [Function.update_idem] using hdrop

theorem loopOps_yields {n : ℕ} {inside : List Op} {course : LoopCourse} (hn : n = s.next)
    (hcourse : ∀ rounds, course = .leaves rounds → inside = []) :
    s.Yields (loopOps n inside course) (n + 1) (Function.update s.count n 0) := by
  have hstop : ∀ rounds, s.Yields (loopOps n [] (.leaves rounds)) (n + 1)
      (Function.update s.count n 0) := fun rounds =>
    loopOps_leaves_yields hn fun log => yields_nil _
  cases course with
  | firstFails => exact yields_create hn (by simp [beginOps, Op.About]) rfl
  | nextFails rounds => exact hstop (rounds + 1)
  | ends rounds => exact hstop (rounds + 1)
  | leaves rounds =>
    rw [hcourse rounds rfl]
    exact hstop rounds

variable {objects : List Holder}

/-- A call that creates a handle for a new object. -/
theorem fits_create {n : ℕ} {object : Holder} {created : List Handle} {ops : List Op} (hn : n = s.next)
    (hsound : s.Sound) (hheld : ∀ r, s.count r = holders objects r) (hobject : object.handle = some n)
    (hcreated : created.length = 1) (habout : ∀ op ∈ ops, op.About n) (hbalance : balance 1 ops = some 1) :
    Fits s ⟨created, .create n :: ops, object :: objects, false⟩ := by
  refine fits_of_update (yields_create hn habout hbalance) (by rw [hn, hcreated]) (fun _ => ?_)
    (fun _ r hne => ?_)
  · rw [holders_cons, if_pos hobject, ← hheld, hsound.beyond n hn.ge]
  · rw [holders_cons, hobject, if_neg (fun he => hne (Option.some.inj he).symm), hheld, add_zero]

/-- A call that has dropped the handle it created. -/
theorem fits_gone {n : ℕ} {created : List Handle} {ops : List Op} (hn : n = s.next) (hsound : s.Sound)
    (hheld : ∀ r, s.count r = holders objects r) (hcreated : created.length = 1)
    (hyields : s.Yields ops (n + 1) (Function.update s.count n 0)) :
    Fits s ⟨created, ops, objects, false⟩ := by
  refine fits_of_update hyields (by rw [hn, hcreated]) (fun _ => ?_) fun _ r _ => hheld r
  rw [← hheld, hsound.beyond n hn.ge]

/-- A call on a handle that an object holds. -/
theorem fits_held {r : ℕ} {object : Holder} {f : ℕ → ℕ} {effect : Effect}
    (hheld : ∀ r, s.count r = holders objects r) (hmem : object ∈ objects)
    (hobject : object.handle = some r) (hcreated : effect.created = [])
    (habout : ∀ op ∈ effect.ops, op.About r) (hbalance : ∀ c, balance (c + 1) effect.ops = some (f c))
    (hself : effect.ended = false → f (holders objects r - 1) = holders effect.objects r)
    (hother : effect.ended = false → ∀ r', r' ≠ r → holders objects r' = holders effect.objects r') :
    Fits s effect := by
  have hpos : 0 < s.count r := by
    rw [hheld]
    exact holders_pos hmem hobject
  refine fits_of_update (yields_of_pos hpos habout hbalance) (by rw [hcreated]; rfl) (fun hended => ?_)
    (fun hended r' hne => ?_)
  · rw [hheld, hself hended]
  · rw [hheld, hother hended r' hne]

/-- A call that uses a handle and drops all pointers that it makes. -/
theorem fits_use {r : ℕ} {object : Holder} {ops : List Op} (hheld : ∀ r, s.count r = holders objects r)
    (hmem : object ∈ objects) (hobject : object.handle = some r) (habout : ∀ op ∈ ops, op.About r)
    (hbalance : ∀ c, balance (c + 1) ops = some (c + 1)) (ended : Bool) :
    Fits s ⟨[], ops, objects, ended⟩ := by
  refine fits_held hheld hmem hobject rfl habout hbalance (fun _ => ?_) fun _ _ _ => rfl
  exact Nat.sub_add_cancel (holders_pos hmem hobject)

/-- A call that makes another object hold the handle. -/
theorem fits_share {r : ℕ} {object object' : Holder} {ops : List Op}
    (hheld : ∀ r, s.count r = holders objects r) (hmem : object ∈ objects)
    (hobject : object.handle = some r) (hobject' : object'.handle = some r)
    (habout : ∀ op ∈ ops, op.About r) (hbalance : ∀ c, balance (c + 1) ops = some (c + 2)) :
    Fits s ⟨[], ops, object' :: objects, false⟩ := by
  have hpos := holders_pos hmem hobject
  refine fits_held hheld hmem hobject rfl habout hbalance (fun _ => ?_) (fun _ r' hne => ?_)
  · rw [holders_cons, if_pos hobject']
    omega
  · rw [holders_cons, hobject', if_neg fun he => hne (Option.some.inj he).symm, add_zero]

/-- A call that ends an object, or leaves it without its handle. -/
theorem fits_drop {r : ℕ} {object : Holder} {objects' : List Holder} {ops : List Op}
    (hheld : ∀ r, s.count r = holders objects r) (hmem : object ∈ objects)
    (hobject : object.handle = some r)
    (hobjects' : ∀ r', holders objects' r' = holders (objects.erase object) r')
    (habout : ∀ op ∈ ops, op.About r) (hbalance : ∀ c, balance (c + 1) ops = some c) :
    Fits s ⟨[], ops, objects', false⟩ := by
  have herase := holders_erase hmem
  refine fits_held hheld hmem hobject rfl habout hbalance (fun _ => ?_) (fun _ r' hne => ?_)
  · rw [hobjects', ← herase r, if_pos hobject]
    rfl
  · rw [hobjects', ← herase r', hobject, if_neg fun he => hne (Option.some.inj he).symm, add_zero]

/-- A call that does nothing with the pointers. -/
theorem fits_nothing {objects' : List Holder} (hheld : ∀ r, s.count r = holders objects' r)
    (ended : Bool) : Fits s ⟨[], [], objects', ended⟩ :=
  ⟨s.count, s.yields_nil, fun _ => hheld⟩

end Fits

theorem moduleOps_about (r : ℕ) (type : MemoryType) : ∀ op ∈ moduleOps r type, op.About r := by
  cases type <;> simp [moduleOps, Op.About]

theorem moduleOps_balance (r : ℕ) (type : MemoryType) (c : ℕ) :
    balance (c + 1) (moduleOps r type) = some (c + 1) := by
  cases type <;> rfl

theorem opened_fits {s : State} {objects : List Holder} (hsound : s.Sound)
    (hheld : ∀ r, s.count r = holders objects r) (snapshot process : UInt64) (rounds : ℕ) :
    Fits s ⟨[⟨snapshot, true⟩, ⟨process, true⟩],
      loopOps s.next [.create (s.next + 1), .copy (s.next + 1), .drop (s.next + 1)] (.leaves rounds),
      .process (s.next + 1) .remoteT :: objects, false⟩ := by
  have hinside : ∀ log, (⟨s.next + 1, Function.update s.count s.next 2, log⟩ : State).Yields
      [.create (s.next + 1), .copy (s.next + 1), .drop (s.next + 1)] (s.next + 2)
      (Function.update (Function.update s.count (s.next + 1) 1) s.next 2) := by
    intro log
    rw [Function.update_comm (Nat.succ_ne_self _)]
    exact yields_create rfl (by simp [Op.About]) rfl
  refine ⟨_, loopOps_leaves_yields rfl hinside, fun _ r => ?_⟩
  have hnone : ∀ r, s.next ≤ r → holders objects r = 0 := fun r hr => by
    rw [← hheld, hsound.beyond r hr]
  by_cases hsnapshot : r = s.next
  · subst hsnapshot
    rw [Function.update_self, holders_cons, if_neg (by simp [Holder.handle]), hnone _ le_rfl]
  · rw [Function.update_of_ne hsnapshot, holders_cons]
    by_cases hprocess : r = s.next + 1
    · subst hprocess
      rw [Function.update_self, hnone _ (Nat.le_succ _)]
      simp [Holder.handle]
    · rw [Function.update_of_ne hprocess, hheld, if_neg, add_zero]
      exact fun he => hprocess (Option.some.inj he).symm

theorem openEffect_fits {s : State} {objects : List Holder} (hsound : s.Sound)
    (hheld : ∀ r, s.count r = holders objects r) (snapshot process : UInt64) (course : LoopCourse) :
    Fits s (openEffect s.next objects snapshot process course) := by
  have hgone : Fits s ⟨[⟨snapshot, true⟩], loopOps s.next [] course, objects, false⟩ :=
    fits_gone rfl hsound hheld rfl (loopOps_yields rfl fun _ _ => rfl)
  cases course with
  | leaves rounds =>
    rw [openEffect]
    split
    · exact hgone
    · exact opened_fits hsound hheld snapshot process rounds
  | _ => exact hgone

theorem fetchModule_fits {s : State} {objects : List Holder} {r : ℕ} {type : MemoryType}
    (hsound : s.Sound) (hheld : ∀ r, s.count r = holders objects r)
    (hmem : .process r type ∈ objects) (snapshot : UInt64) (course : LoopCourse) :
    Fits s ⟨[⟨snapshot, true⟩], loopOps s.next (moduleOps r type) course, objects, false⟩ := by
  refine fits_gone rfl hsound hheld rfl ?_
  have hpos : 0 < s.count r := by
    rw [hheld]
    exact holders_pos hmem rfl
  have hne : r ≠ s.next := (hsound.lt_next hpos).ne
  have hmodule : ∀ rounds, s.Yields (loopOps s.next (moduleOps r type) (.leaves rounds)) (s.next + 1)
      (Function.update s.count s.next 0) := by
    intro rounds
    refine loopOps_leaves_yields rfl fun log => ?_
    have hcount : Function.update s.count s.next 2 r = s.count r := Function.update_of_ne hne ..
    have huses := yields_of_pos (s := ⟨s.next + 1, Function.update s.count s.next 2, log⟩) (r := r)
      (by simp only [hcount, hpos]) (moduleOps_about r type) (moduleOps_balance r type)
    simp only [hcount, Nat.sub_add_cancel hpos] at huses
    rwa [← hcount, Function.update_eq_self] at huses
  cases course with
  | leaves rounds => exact hmodule rounds
  | _ => exact loopOps_yields rfl nofun

theorem effect_fits {client : Client} (hinv : client.Inv) (hended : client.ended = false) {call : Call}
    (hallowed : client.Allowed call) :
    Fits client.pointers (call.effect client.pointers.next client.objects) := by
  have hsound := hinv.sound
  have hheld := hinv.held hended
  cases call with
  | openProcess snapshot course process =>
    rw [Call.effect]
    split
    · exact fits_nothing hheld false
    · exact openEffect_fits hsound hheld snapshot process course
  | current named =>
    cases named with
    | true => exact fits_create rfl hsound hheld rfl rfl (by simp [Op.About]) rfl
    | false => exact fits_gone rfl hsound hheld rfl (yields_create rfl (by simp [Op.About]) rfl)
  | fetchModule r type snapshot course =>
    rw [Call.effect]
    split
    · exact fits_nothing hheld false
    · exact fetchModule_fits hsound hheld hallowed snapshot course
  | access r type uses =>
    refine fits_use hheld hallowed rfl ?_ (fun c => balance_uses c uses r) false
    intro op hop
    rw [List.eq_of_mem_replicate hop, Op.About]
  | protect r type accepted =>
    cases accepted with
    | true => exact fits_share hheld hallowed rfl rfl (by simp [Op.About]) fun _ => rfl
    | false => exact fits_use hheld hallowed rfl (by simp [Op.About]) (fun _ => rfl) false
  | createSnapshot snapshot =>
    rw [Call.effect]
    split
    · exact fits_nothing hheld false
    · exact fits_create rfl hsound hheld rfl rfl (by simp [Op.About]) rfl
  | beginSnapshot r filled =>
    cases filled with
    | true => exact fits_share hheld hallowed rfl rfl (by simp [beginOps, Op.About]) fun _ => rfl
    | false => exact fits_use hheld hallowed rfl (by simp [beginOps, Op.About]) (fun _ => rfl) false
  | modules r type snapshot =>
    rw [Call.effect]
    split
    · exact fits_nothing hheld true
    · exact fits_create rfl hsound hheld rfl rfl (by simp [Op.About]) rfl
  | beginModules r filled =>
    cases filled with
    | true => exact fits_share hheld hallowed rfl rfl (by simp [beginOps, Op.About]) fun _ => rfl
    | false =>
      exact fits_held hheld hallowed rfl rfl (by simp [Call.effect, Op.About]) (fun _ => rfl) nofun nofun
  | endIterator =>
    refine fits_nothing (fun r => ?_) false
    rw [holders_cons, if_neg (by simp [Holder.handle]), hheld, add_zero]
  | copyIterator handle =>
    cases handle with
    | some r => exact fits_share hheld hallowed rfl rfl (by simp [Op.About]) fun _ => rfl
    | none =>
      refine fits_nothing (fun r => ?_) false
      rw [holders_cons, if_neg (by simp [Holder.handle]), hheld, add_zero]
  | advance r found =>
    cases found with
    | noMore =>
      refine fits_drop hheld hallowed rfl (fun r' => ?_) (by simp [advanceOps, Op.About]) fun _ => rfl
      rw [holders_cons, if_neg (by simp [Holder.handle]), add_zero]
    | entry => exact fits_use hheld hallowed rfl (by simp [advanceOps, Op.About]) (fun _ => rfl) false
    | fails => exact fits_use hheld hallowed rfl (by simp [advanceOps, Op.About]) (fun _ => rfl) false
  | destroy object restored =>
    cases object with
    | operation r =>
      cases restored with
      | true => exact fits_drop hheld hallowed rfl (fun _ => rfl) (by simp [Op.About]) fun _ => rfl
      | false => exact fits_use hheld hallowed rfl (by simp [Op.About]) (fun _ => rfl) true
    | iterator handle =>
      cases handle with
      | some r =>
        exact fits_drop hheld hallowed rfl (fun _ => rfl) (by simp [Op.About, Holder.handle])
          fun _ => rfl
      | none =>
        refine fits_nothing (fun r => ?_) false
        rw [hheld, ← holders_erase hallowed, if_neg (by simp [Holder.handle]), add_zero]
    | _ =>
      exact fits_drop hheld hallowed rfl (fun _ => rfl) (by simp [Op.About, Holder.handle])
        fun _ => rfl

/-! ## Any calls in any order -/

theorem inv_initial : initial.Inv := ⟨sound_initial, rfl, fun _ _ => rfl⟩

theorem Inv.exec {client : Client} (hinv : client.Inv) (hended : client.ended = false) {call : Call}
    (hallowed : client.Allowed call) : ∃ client', client.exec call = some client' ∧ client'.Inv := by
  obtain ⟨count, ⟨log, hrun⟩, hheld⟩ := effect_fits hinv hended hallowed
  have hexec : client.exec call = some ⟨⟨_, count, log⟩, client.handles ++ _, _, _⟩ :=
    congrArg (Option.map _) hrun
  refine ⟨_, hexec, hinv.sound.run hrun, ?_, hheld⟩
  rw [List.length_append, hinv.handles]

theorem Reachable.inv {client : Client} (hreach : Reachable client) : client.Inv := by
  induction hreach with
  | initial => exact inv_initial
  | call call _ hended hallowed hexec ih =>
    obtain ⟨client', hexec', hinv⟩ := ih.exec hended hallowed
    cases hexec.symm.trans hexec'
    exact hinv

section Closed
variable {client : Client} {r : ℕ}

end Closed

end Client
end Wincpp
