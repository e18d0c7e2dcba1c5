import Mathlib.Data.List.Induction
import Wincpp.Library.SeparatedText
import Wincpp.Memory.AddressSpace

/-! Protection flags (`memory/protection.hpp`, `memory/protection.cpp`).

Each protection is a single bit, and two of them are the same one. What is added and removed of the flags
is settled by the last change of each bit, and the printed names tell exactly which bits are set.
-/
namespace Wincpp
open SeparatedText
set_option autoImplicit false

/-- `protection_t`. -/
inductive Protection
  | noaccess
  | readonly
  | readwrite
  | writecopy
  | execute
  | executeRead
  | executeReadwrite
  | executeWritecopy
  | guard
  | nocache
  | writecombine
  | targetsInvalid
  | targetsNoUpdate
  deriving DecidableEq, Repr

def Protection.value : Protection → UInt32
  | noaccess => 0x01
  | readonly => 0x02
  | readwrite => 0x04
  | writecopy => 0x08
  | execute => 0x10
  | executeRead => 0x20
  | executeReadwrite => 0x40
  | executeWritecopy => 0x80
  | guard => 0x100
  | nocache => 0x200
  | writecombine => 0x400
  | targetsInvalid => 0x40000000
  | targetsNoUpdate => 0x40000000

/-- `protection_flags_t`. -/
structure ProtectionFlags where
  flags : UInt32
  deriving DecidableEq, Repr

namespace ProtectionFlags

def add (f : ProtectionFlags) (protection : Protection) : ProtectionFlags :=
  ⟨f.flags ||| protection.value⟩

def remove (f : ProtectionFlags) (protection : Protection) : ProtectionFlags :=
  ⟨f.flags &&& ~~~protection.value⟩

def has (f : ProtectionFlags) (protection : Protection) : Bool := hasFlag f.flags protection.value

/-- The constructor from a pack of protections. -/
def ofProtections (protections : List Protection) : ProtectionFlags := protections.foldl add ⟨0⟩

/-- What `operator<<` writes for the protections, in the order in which it asks for them. -/
def printed : List (Protection × List Char) :=
  [(.noaccess, "noaccess".toList), (.readonly, "readonly".toList), (.readwrite, "readwrite".toList),
    (.writecopy, "writecopy".toList), (.execute, "execute".toList),
    (.executeRead, "execute_read".toList), (.executeReadwrite, "execute_readwrite".toList),
    (.executeWritecopy, "execute_writecopy".toList), (.guard, "guard".toList),
    (.nocache, "nocache".toList), (.writecombine, "writecombine".toList),
    (.targetsInvalid, "tarets_invalid".toList), (.targetsNoUpdate, "targets_no_update".toList)]

def separator : List Char := " | ".toList

/-- `operator<<`, which cuts the last separator off. -/
def print (f : ProtectionFlags) : List Char :=
  let str := (printed.filter fun x => f.has x.1).flatMap fun x => x.2 ++ separator
  if str = [] then str else str.take (str.length - 3)

example : (ofProtections [.guard, .readwrite]).print = "readwrite | guard".toList := by decide

/-! ## Single bits -/

/-- The bit that a protection is. -/
def bit : Protection → ℕ
  | .noaccess => 0
  | .readonly => 1
  | .readwrite => 2
  | .writecopy => 3
  | .execute => 4
  | .executeRead => 5
  | .executeReadwrite => 6
  | .executeWritecopy => 7
  | .guard => 8
  | .nocache => 9
  | .writecombine => 10
  | .targetsInvalid | .targetsNoUpdate => 30

theorem value_toBitVec (protection : Protection) :
    protection.value.toBitVec = BitVec.twoPow 32 (bit protection) := by
  cases protection <;> rfl

theorem bit_lt (protection : Protection) : bit protection < 32 := by
  cases protection <;> decide

theorem value_eq_iff {p q : Protection} : p.value = q.value ↔ bit p = bit q := by
  constructor
  · intro h
    have hbits : (BitVec.twoPow 32 (bit p)).getLsbD (bit p) =
        (BitVec.twoPow 32 (bit q)).getLsbD (bit p) := by
      rw [← value_toBitVec, ← value_toBitVec, h]
    rw [BitVec.getLsbD_twoPow, BitVec.getLsbD_twoPow] at hbits
    simpa [bit_lt, eq_comm] using hbits
  · intro h
    exact UInt32.toBitVec_inj.mp (by rw [value_toBitVec, value_toBitVec, h])

variable {f g : ProtectionFlags}

theorem has_eq (f : ProtectionFlags) (protection : Protection) :
    f.has protection = f.flags.toBitVec.getLsbD (bit protection) := by
  have hand : (f.flags &&& protection.value = 0) ↔
      f.flags.toBitVec &&& BitVec.twoPow 32 (bit protection) = 0 := by
    rw [← value_toBitVec, ← UInt32.toBitVec_and, ← UInt32.toBitVec_inj]
    rfl
  rw [has, hasFlag, bne, Bool.eq_iff_iff, Bool.not_eq_true', beq_eq_false_iff_ne, ne_eq, hand,
    BitVec.and_twoPow]
  cases f.flags.toBitVec.getLsbD (bit protection) with
  | false => simp
  | true =>
    have hne : BitVec.twoPow 32 (bit protection) ≠ 0 := by
      rw [← value_toBitVec]
      cases protection <;> decide
    simpa using hne

theorem has_add (p q : Protection) : (f.add p).has q = (f.has q || p.value = q.value) := by
  rw [has_eq, has_eq, add, UInt32.toBitVec_or, BitVec.getLsbD_or, value_toBitVec,
    BitVec.getLsbD_twoPow, decide_eq_true (bit_lt p), Bool.true_and]
  simp only [value_eq_iff]

theorem has_remove (p q : Protection) : (f.remove p).has q = (f.has q && p.value ≠ q.value) := by
  rw [has_eq, has_eq, remove, UInt32.toBitVec_and, UInt32.toBitVec_not, BitVec.getLsbD_and,
    BitVec.getLsbD_not, value_toBitVec, BitVec.getLsbD_twoPow, decide_eq_true (bit_lt p),
    decide_eq_true (bit_lt q), Bool.true_and, Bool.true_and]
  simp only [ne_eq, value_eq_iff, decide_not]

/-! ## Any changes in a row -/

/-- A call of `add` or of `remove`. -/
inductive Edit
  | add (protection : Protection)
  | remove (protection : Protection)
  deriving DecidableEq, Repr

def Edit.protection : Edit → Protection
  | .add protection | .remove protection => protection

def Edit.adds : Edit → Bool
  | .add _ => true
  | .remove _ => false

def edit (f : ProtectionFlags) : Edit → ProtectionFlags
  | .add protection => f.add protection
  | .remove protection => f.remove protection

def edited (f : ProtectionFlags) (edits : List Edit) : ProtectionFlags := edits.foldl edit f

/-- Whether a protection is there after the edits: the last one of its bit decides. -/
def settled (f : ProtectionFlags) (edits : List Edit) (protection : Protection) : Bool :=
  match edits.reverse.find? fun e => e.protection.value == protection.value with
  | some e => e.adds
  | none => f.has protection

theorem has_edited (f : ProtectionFlags) (edits : List Edit) (protection : Protection) :
    (f.edited edits).has protection = f.settled edits protection := by
  induction edits using List.reverseRecOn with
  | nil => rfl
  | append_singleton edits e ih =>
    have hlast : f.edited (edits ++ [e]) = (f.edited edits).edit e := by
      rw [edited, List.foldl_append]
      rfl
    rw [hlast, settled, List.reverse_append, List.reverse_singleton, List.singleton_append,
      List.find?_cons]
    by_cases hvalue : e.protection.value = protection.value
    · rw [beq_iff_eq.mpr hvalue]
      cases e with
      | add p => exact (has_add p protection).trans (by simp [Edit.adds, show p.value = _ from hvalue])
      | remove p =>
        exact (has_remove p protection).trans (by simp [Edit.adds, show p.value = _ from hvalue])
    · rw [beq_eq_false_iff_ne.mpr hvalue]
      cases e with
      | add p =>
        exact ((has_add p protection).trans (by simp [show ¬ p.value = _ from hvalue])).trans ih
      | remove p =>
        exact ((has_remove p protection).trans (by simp [show ¬ p.value = _ from hvalue])).trans ih

/-! ## The printed names -/

/-- The names that are printed. -/
def names (f : ProtectionFlags) : List (List Char) :=
  (printed.filter fun x => f.has x.1).map Prod.snd

theorem print_eq (f : ProtectionFlags) : f.print = joined separator f.names := by
  have hflat : ((printed.filter fun x => f.has x.1).flatMap fun x => x.2 ++ separator) =
      f.names.flatMap fun name => name ++ separator := by
    rw [names, List.flatMap_map]
  rw [print, hflat]
  by_cases hnames : f.names = []
  · rw [hnames]
    rfl
  · have htext := joined_eq_take separator hnames
    have hlen := congrArg List.length htext
    have hthree : separator.length = 3 := rfl
    rw [List.length_append, hthree] at hlen
    rw [if_neg (fun hnil => by rw [hnil] at hlen; cases hlen), ← hlen, ← htext, Nat.add_sub_cancel,
      List.take_left]

theorem names_spec {name : List Char} (hname : name ∈ f.names) : name ≠ [] ∧ ' ' ∉ name := by
  have hall : ∀ x ∈ printed, x.2 ≠ [] ∧ ' ' ∉ x.2 := by decide
  obtain ⟨x, hx, rfl⟩ := List.mem_map.mp hname
  exact hall x (List.mem_filter.mp hx).1

/-- A name is printed for one protection only. -/
theorem mem_names_iff {x : Protection × List Char} (hx : x ∈ printed) :
    x.2 ∈ f.names ↔ f.has x.1 = true := by
  have hnames : ∀ x ∈ printed, ∀ y ∈ printed, x.2 = y.2 → x = y := by decide
  refine ⟨fun hmem => ?_, fun hhas => List.mem_map_of_mem (List.mem_filter.mpr ⟨hx, hhas⟩)⟩
  obtain ⟨y, hy, heq⟩ := List.mem_map.mp hmem
  obtain ⟨hy, hhas⟩ := List.mem_filter.mp hy
  rwa [← hnames y hy x hx heq]

theorem exists_printed (protection : Protection) : ∃ x ∈ printed, x.1 = protection := by
  rw [← List.mem_map]
  cases protection <;> decide

theorem print_eq_iff : f.print = g.print ↔ ∀ protection, f.has protection = g.has protection := by
  constructor
  · intro h protection
    rw [print_eq, print_eq] at h
    have hnames : f.names = g.names :=
      joined_injective (fun _ => names_spec) (fun _ => names_spec) h
    obtain ⟨x, hx, rfl⟩ := exists_printed protection
    rw [Bool.eq_iff_iff, ← mem_names_iff hx, ← mem_names_iff hx, hnames]
  · intro h
    rw [print_eq, print_eq, names, names]
    simp only [h]

/-- After any additions and removals the last one of each bit has settled it, and the flags are printed
like others exactly when these have the same protections. -/
theorem edited_print_iff (f g : ProtectionFlags) (edits : List Edit) :
    (∀ protection, (f.edited edits).has protection = f.settled edits protection) ∧
      ((f.edited edits).print = g.print ↔
        ∀ protection, f.settled edits protection = g.has protection) := by
  refine ⟨has_edited f edits, ?_⟩
  rw [print_eq_iff]
  simp only [has_edited]

end ProtectionFlags
end Wincpp
