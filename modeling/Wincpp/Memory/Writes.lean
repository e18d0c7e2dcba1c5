import Wincpp.Memory.Values

/-! Runs of writes to the memory of a process (`write` of `memory_factory`, `value_t::operator=`).

Bytes, strings and values of different types are written over one another, and some of the calls fail
because the protection of the memory has changed. The memory then is the initial one under the patches
of the calls that went through (`Process.after_eq`), so that every byte is the one of the last of them
that covers its address, and this is what all later reads and searches see.
-/
namespace Wincpp
open Overlay Search
set_option autoImplicit false

/-- The calls that write: `write`, `write< std::string >`, and `write< T >`, which is also the
assignment through a `pointer_t`. -/
inductive WriteCall : Type 1
  | buffer (address : ℕ) (bytes : List UInt8)
  | string (address : ℕ) (value : List UInt8)
  | typed {α : Type} (T : Plain α) (pointer : Pointer T) (value : α)

namespace WriteCall

def address : WriteCall → ℕ
  | buffer address _ => address
  | string address _ => address
  | typed _ pointer _ => pointer.address

def bytes : WriteCall → List UInt8
  | buffer _ bytes => bytes
  | string _ value => value ++ [0]
  | typed T _ value => T.toBytes value

def run (call : WriteCall) (p : Process) (writable : ℕ → ℕ → Bool) (lastError : UInt32) :
    Except WriteFailure Process :=
  match call with
  | buffer address bytes => do
    let (p', _) ← p.write writable lastError address bytes
    return p'
  | string address value => p.writeString writable lastError address value
  | typed _ pointer value => pointer.store p writable lastError value

end WriteCall

/-- A call, with what can be written at its moment and what `GetLastError` would return. -/
structure WriteRequest where
  call : WriteCall
  writable : ℕ → ℕ → Bool
  lastError : UInt32

namespace WriteRequest
variable (request : WriteRequest)

def accepted : Bool := request.writable request.call.address request.call.bytes.length

/-- What the call leaves at each address. -/
def patch : ℕ → Option UInt8 :=
  if request.accepted then window request.call.address request.call.bytes else fun _ => none

end WriteRequest

/-- The process after the calls. The exception of a call that fails is caught and changes nothing;
`none` stands for the access violation, after which there is no process any more. -/
def Process.after (p : Process) : List WriteRequest → Option Process
  | [] => some p
  | request :: requests =>
    match request.call.run p request.writable request.lastError with
    | .ok p' => p'.after requests
    | .error (.win32 _) => p.after requests
    | .error .accessViolation => none

/-! ## One call -/

theorem WriteCall.run_eq (call : WriteCall) (p : Process) (writable : ℕ → ℕ → Bool)
    (lastError : UInt32) : call.run p writable lastError =
      (p.write writable lastError call.address call.bytes >>= fun written => .ok written.1) := by
  cases call <;> rfl

namespace Process
variable {p p' : Process} {a : ℕ} {bytes : List UInt8} {request : WriteRequest}
  {requests : List WriteRequest}

theorem store_bytes : (p.store a bytes).bytes = overlay p.bytes (window a bytes) := by
  funext x
  simp only [store, overlay, window]
  split <;> rfl

theorem run_of_accepted (h : request.accepted = true) :
    request.call.run p request.writable request.lastError =
      .ok (p.store request.call.address request.call.bytes) := by
  rw [WriteCall.run_eq, write, ← WriteRequest.accepted, h]
  cases p.type <;> rfl

theorem run_of_refused (h : request.accepted = false) :
    request.call.run p request.writable request.lastError = .error (match p.type with
      | .localT => .accessViolation
      | .remoteT => .win32 request.lastError) := by
  rw [WriteCall.run_eq, write, ← WriteRequest.accepted, h]
  cases p.type <;> rfl

/-! ## Runs -/

theorem after_of_accepted (h : request.accepted = true) :
    p.after (request :: requests) =
      (p.store request.call.address request.call.bytes).after requests := by
  rw [after, run_of_accepted h]

theorem after_of_refused (h : request.accepted = false) :
    p.after (request :: requests) = match p.type with
      | .localT => none
      | .remoteT => p.after requests := by
  rw [after, run_of_refused h]
  cases p.type <;> rfl

/-- The memory is the initial one under the patches of the calls, and nothing else of the process has
changed. -/
theorem after_eq (h : p.after requests = some p') :
    p' = { p with bytes := overlays p.bytes (requests.map WriteRequest.patch) } := by
  induction requests generalizing p with
  | nil =>
    cases h
    rfl
  | cons request requests ih =>
    cases haccepted : request.accepted with
    | true =>
      rw [after_of_accepted haccepted] at h
      rw [ih h, List.map_cons, overlays_cons, WriteRequest.patch, if_pos haccepted, store_bytes]
      rfl
    | false =>
      have hnone : request.patch = fun _ => none := if_neg (ne_true_of_eq_false haccepted)
      rw [after_of_refused haccepted] at h
      rw [List.map_cons, overlays_cons, hnone]
      split at h
      · cases h
      · exact ih h

/-- A run goes on for as long as the calls are accepted, and to its end in another process. -/
theorem after_isSome_iff : (p.after requests).isSome = true ↔
    p.type = .remoteT ∨ ∀ request ∈ requests, request.accepted = true := by
  induction requests generalizing p with
  | nil => simp [after]
  | cons request requests ih =>
    cases haccepted : request.accepted with
    | true =>
      rw [after_of_accepted haccepted, ih, List.forall_mem_cons]
      simp only [haccepted, true_and]
      rfl
    | false =>
      rw [after_of_refused haccepted, List.forall_mem_cons]
      cases htype : p.type with
      | localT => simp [haccepted]
      | remoteT => simp [ih, htype]

/-- The byte at `x` comes from the last call that went through and covers `x`, or has been there from
the start. -/
def StandsAt (p : Process) (requests : List WriteRequest) (x : ℕ) (b : UInt8) : Prop :=
  (∃ pre request post, requests = pre ++ request :: post ∧ request.patch x = some b ∧
    ∀ later ∈ post, later.patch x = none) ∨
  (∀ request ∈ requests, request.patch x = none) ∧ p.bytes x = b

theorem standsAt_iff (h : p.after requests = some p') (x : ℕ) (b : UInt8) :
    p.StandsAt requests x b ↔ p'.bytes x = b := by
  have hbytes : p'.bytes x = overlays p.bytes (requests.map WriteRequest.patch) x := by
    rw [after_eq h]
  rw [hbytes]
  constructor
  · rintro (⟨pre, request, post, rfl, hpatch, hpost⟩ | ⟨hnone, hb⟩)
    · rw [List.map_append, List.map_cons, overlays_last hpatch]
      simpa using hpost
    · rw [overlays_untouched (by simpa using hnone), hb]
  · rintro rfl
    rcases exists_last (requests.map WriteRequest.patch) x with ⟨pre, patch, post, b, he, hb, hpost⟩ | h
    · obtain ⟨before, after, rfl, rfl, hafter⟩ := List.map_eq_append_iff.mp he
      obtain ⟨request, later, rfl, rfl, rfl⟩ := List.map_eq_cons_iff.mp hafter
      refine .inl ⟨before, request, later, rfl, ?_, fun q hq => hpost _ (List.mem_map_of_mem hq)⟩
      rw [he, overlays_last hb hpost, hb]
    · have hnone : ∀ request ∈ requests, request.patch x = none := fun request hr =>
        h _ (List.mem_map_of_mem hr)
      exact .inr ⟨hnone, (overlays_untouched h).symm⟩

/-! ## What is read afterwards -/

theorem stringAt_iff_slice {text : List UInt8} :
    p.StringAt a text ↔ 0 ∉ text ∧ p.slice a (text.length + 1) = text ++ [0] := by
  rw [stringAt_iff, slice_succ]
  refine and_congr_right fun _ => ⟨fun ⟨htext, hend⟩ => by rw [htext, hend], fun h => ?_⟩
  obtain ⟨htext, hend⟩ := List.append_inj h (by simp)
  exact ⟨htext, List.singleton_inj.mp hend⟩

/-- After any run of writes, values and strings of every type are read as the bytes that stand there:
each of the last call that went through and covers its address. -/
theorem reads_after_iff {α : Type} (p p' : Process) (requests : List WriteRequest)
    (h : p.after requests = some p') (T : Plain α) (pointer : Pointer T) (value : α)
    (text : List UInt8) :
    (pointer.address + T.size ≤ p.layout.top → p.readable pointer.address T.size = true →
      (pointer.load p' = .ok value ↔
        ∀ i b, (T.toBytes value)[i]? = some b → p.StandsAt requests (pointer.address + i) b)) ∧
    (pointer.address + 256 ≤ p.layout.top → p.readable pointer.address 256 = true →
      (p'.readString pointer.address = .ok text ↔ 0 ∉ text ∧ text.length < 256 ∧
        ∀ i b, (text ++ [0])[i]? = some b → p.StandsAt requests (pointer.address + i) b)) := by
  have htop := p.layout.top_lt
  have hsame := after_eq h
  have hlayout : p'.readable = p.readable := by rw [hsame]
  simp only [standsAt_iff h]
  refine ⟨fun hin hread => ?_, fun hin hread => ?_⟩
  · have huser := p.userSpace
    rw [Pointer.load, readValue_eq_ok_iff (by omega) (by rwa [hlayout]),
      slice_eq_iff (T.toBytes_length value) (by omega)]
  · rw [readString_eq_ok_iff (by rwa [hlayout]), stringAt_iff_slice, and_assoc, bufferSize]
    refine and_congr_right fun _ => ?_
    rw [and_comm]
    refine and_congr_right fun hlt => slice_eq_iff (by simp) (by omega)

/-- A value, two bytes of it that are not written, and a string over the same two bytes. -/
def sampleRequests : List WriteRequest :=
  [⟨.typed (.unsigned 4) ⟨0x1100⟩ 0x01020304, fun _ _ => true, 0⟩,
    ⟨.buffer 0x1102 [7, 7], fun _ _ => false, 998⟩,
    ⟨.string 0x1102 (chars "ab"), fun _ _ => true, 0⟩]

theorem reads_after_iff_overwritten :
    ∃ p', (Memory.sampleProcess 0x1000).after sampleRequests = some p' ∧
      ((⟨0x1100⟩ : Pointer (.unsigned 4)).load p' = .ok 0x62610304 ↔
        ∀ i b, ((Plain.unsigned 4).toBytes 0x62610304)[i]? = some b →
          (Memory.sampleProcess 0x1000).StandsAt sampleRequests (0x1100 + i) b) ∧
      (p'.readString 0x1100 = .ok [4, 3, 0x61, 0x62] ↔ 0 ∉ ([4, 3, 0x61, 0x62] : List UInt8) ∧
        [4, 3, 0x61, 0x62].length < 256 ∧ ∀ i b, ([4, 3, 0x61, 0x62] ++ [0])[i]? = some b →
          (Memory.sampleProcess 0x1000).StandsAt sampleRequests (0x1100 + i) b) := by
  have h := reads_after_iff (Memory.sampleProcess 0x1000) _ sampleRequests rfl (.unsigned 4) ⟨0x1100⟩
    0x62610304 [4, 3, 0x61, 0x62]
  exact ⟨_, rfl, h.1 (by decide) rfl, h.2 (by decide) rfl⟩

end Process

/-! ## What is found afterwards -/

namespace WriteRequest

/-- The call fails or leaves the `n` bytes at `a` alone. -/
def Spares (request : WriteRequest) (a n : ℕ) : Prop :=
  ∀ x, a ≤ x → x < a + n → request.patch x = none

end WriteRequest

namespace Memory
variable {α : Type} {T : Plain α} {p p' : Process} {m : Memory} {value : α} {a : ℕ}

theorem slice_of_written {pre post : List WriteRequest} {writable : ℕ → ℕ → Bool}
    {lastError : UInt32}
    (h : p.after (pre ++ ⟨.typed T ⟨a⟩ value, writable, lastError⟩ :: post) = some p')
    (haccepted : writable a T.size = true) (hpost : ∀ later ∈ post, later.Spares a T.size)
    (hin : a + T.size ≤ 2 ^ 64) : p'.slice a T.size = T.toBytes value := by
  have hlength := T.toBytes_length value
  rw [Process.slice_eq_iff hlength hin]
  intro i b hb
  have hi : i < T.size := hlength ▸ (List.getElem?_eq_some_iff.mp hb).1
  refine (Process.standsAt_iff h _ b).mp (.inl ⟨pre, _, post, rfl, ?_, fun later hlater =>
    hpost later hlater _ (Nat.le_add_right a i) (by omega)⟩)
  have hrequest : (⟨.typed T ⟨a⟩ value, writable, lastError⟩ : WriteRequest).accepted = true := by
    rwa [← hlength] at haccepted
  rw [WriteRequest.patch, if_pos hrequest]
  exact (window_add a _ i).trans hb

/-- A value that has been written and not been written over is found: `find` returns its address, or one
before it at which the same value is read. -/
theorem find_written (m : Memory) (p p' : Process) (T : Plain α) (a : ℕ) (value : α)
    (pre post : List WriteRequest) (writable : ℕ → ℕ → Bool) (lastError : UInt32)
    (h : p.after (pre ++ ⟨.typed T ⟨a⟩ value, writable, lastError⟩ :: post) = some p')
    (haccepted : writable a T.size = true) (hpost : ∀ later ∈ post, later.Spares a T.size)
    (hsize : 0 < T.size) (hopen : m.Opens p.layout) (hread : m.PartsReadable p)
    (hin : ∃ r ∈ m.scanned p.layout, r.address ≤ a ∧ a + T.size ≤ r.stop) :
    ∃ b ≤ a, Run.Returns (m.find p' (.ofBytes (T.toBytes value))) (some b) ∧
      (⟨b⟩ : Pointer T).load p' = .ok value := by
  have hsame := Process.after_eq h
  have hlayout : p'.layout = p.layout := by rw [hsame]
  have hread' : m.PartsReadable p' := by
    rw [hsame]
    exact hread
  rw [← hlayout] at hopen hin
  obtain ⟨r, hr, hlow, hhigh⟩ := hin
  have hstop := walked_stop_lt (scanned_subset hr)
  have hwritten : m.ReadsAt p' T value a := by
    refine ⟨r, hr, hlow, hhigh, ?_⟩
    rw [Process.readValue_eq_ok_iff (by omega) (hread' r hr a T.size hlow hhigh)]
    exact slice_of_written h haccepted hpost (by omega)
  have hex : ∃ b, m.ReadsAt p' T value b := ⟨a, hwritten⟩
  have hpattern : 0 < (Pattern.ofBytes (T.toBytes value)).size := by
    rwa [Pattern.ofBytes_size, T.toBytes_length]
  classical
  refine ⟨Nat.find hex, Nat.find_min' hex hwritten, ?_, ?_⟩
  · rw [find_returns_strict_iff hpattern (Pattern.ofBytes_strict _)
      fun r hr => hread' r hr r.address r.size le_rfl le_rfl]
    refine ⟨hopen, ⟨(holds_value_iff hread' _).mpr (Nat.find_spec hex), fun b hb => ?_⟩,
      fun hnone => by cases hnone⟩
    exact Nat.find_min' hex ((holds_value_iff hread' b).mp hb)
  · obtain ⟨-, -, -, -, hload⟩ := Nat.find_spec hex
    exact hload

/-- A marked value, written between other calls. -/
theorem find_written_second :
    ∃ p', (sampleProcess 0x1000).after
        ([] ++ ⟨.typed (.unsigned 4) ⟨0x1800⟩ 0xfeed, fun _ _ => true, 0⟩ ::
          [⟨.buffer 0x1804 [7, 7], fun _ _ => true, 0⟩]) = some p' ∧
      ∃ b ≤ 0x1800, Run.Returns (sampleRegion.find p'
        (.ofBytes ((Plain.unsigned 4).toBytes 0xfeed))) (some b) ∧
        (⟨b⟩ : Pointer (.unsigned 4)).load p' = .ok 0xfeed := by
  refine ⟨_, rfl, find_written sampleRegion (sampleProcess 0x1000) _ (.unsigned 4) 0x1800 0xfeed []
    [⟨.buffer 0x1804 [7, 7], fun _ _ => true, 0⟩] (fun _ _ => true) 0 rfl rfl ?_ (by decide)
    (by decide) (fun _ _ _ _ _ _ => rfl) (by decide)⟩
  intro later hlater x hlow hhigh
  cases List.mem_singleton.mp hlater
  rw [WriteRequest.patch]
  exact window_eq_none_iff.mpr (.inl hhigh)

end Memory
end Wincpp
