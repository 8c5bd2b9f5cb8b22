import CCore.Strings

/-!
# The name of a run loop

`cc_run_loop_new` copies the name it is given into a field of twenty bytes, with `string_copy`,
which would cut it to nineteen characters and a NUL.  But the capacity it passes is
`sizeof(name)`, and `name` is the parameter there, not the field: a pointer, which has eight bytes.
So seven characters are kept, of every name, and a name that is no longer than that does not show
it (`keepsName_iff`).

The field is larger than the capacity, so the copy stays inside it for every name.
-/

namespace CCore
namespace RunLoop
namespace Naming

open Strings

/-- The size of a pointer. -/
def sizeofPointer : ℕ := 8

/-- `cc_run_loop_t`, as far as `cc_run_loop_new` writes it itself, without its links.  `name` is
the field of twenty bytes. -/
structure CcRunLoop where
  isRunning : Bool
  stop : Bool
  name : List UInt8
  deriving DecidableEq

/-- `cc_run_loop_new`.  `loop` is what `cc_alloc` returns. -/
def ccRunLoopNew (loop : CcRunLoop) (name : CString) : Option CcRunLoop :=
  (stringCopy loop.name name sizeofPointer).map fun name =>
    let loop := { loop with name := name }
    let loop := { loop with stop := true }
    let loop := { loop with isRunning := false }
    { loop with stop := false }

/-- **As much of the name is kept as fits**: whatever the memory holds, no byte outside the field
is written, and the string in the field is the front of the name, of nineteen characters if it has
as many. -/
def KeepsName (name : CString) : Prop :=
  ∀ loop : CcRunLoop, loop.name.length = 20 → ∃ loop', ccRunLoopNew loop name = some loop' ∧
    loop'.name.length = 20 ∧ name.chars.take (min name.chars.length 19) ++ [0] <+: loop'.name

/-- What is kept in fact. -/
theorem ccRunLoopNew_name (loop : CcRunLoop) (hfield : loop.name.length = 20) (name : CString) :
    ∃ loop', ccRunLoopNew loop name = some loop' ∧ loop'.name.length = 20 ∧
      name.chars.take 7 ++ [0] <+: loop'.name := by
  have hfits : sizeofPointer ≤ loop.name.length := by
    rw [hfield]
    decide
  obtain ⟨field, hcopy, hlength, hprefix, -⟩ := stringCopy_fits name (by decide) hfits
  rw [ccRunLoopNew, hcopy]
  exact ⟨_, rfl, hlength.trans hfield, hprefix⟩

/-- **When the name is kept.**  It has at most seven characters. -/
theorem keepsName_iff (name : CString) : KeepsName name ↔ name.chars.length ≤ 7 := by
  constructor
  · intro hkeeps
    by_contra hlong
    rw [not_le] at hlong
    have hfield : (List.replicate 20 (0 : UInt8)).length = 20 := List.length_replicate
    obtain ⟨loop, hloop, -, hcut⟩ := ccRunLoopNew_name ⟨false, false, _⟩ hfield name
    obtain ⟨loop', hloop', -, hname⟩ := hkeeps ⟨false, false, _⟩ hfield
    obtain rfl : loop = loop' := Option.some.inj (hloop.symm.trans hloop')
    -- the NUL behind the seven characters would be a character of the name
    have hfront : name.chars.take 7 ++ [0] <+: name.chars.take (min name.chars.length 19) := by
      refine List.prefix_of_prefix_length_le hcut ((List.prefix_append _ _).trans hname) ?_
      rw [List.length_append, List.length_take, List.length_take, List.length_singleton]
      omega
    have hnul : 0 ∈ name.chars.take 7 ++ [0] :=
      List.mem_append_right _ (List.mem_singleton.mpr rfl)
    exact name.nul_notMem (List.mem_of_mem_take (hfront.subset hnul))
  · intro hshort loop hfield
    obtain ⟨loop', hloop', hlength, hprefix⟩ := ccRunLoopNew_name loop hfield name
    rw [List.take_of_length_le hshort] at hprefix
    rw [List.take_of_length_le (by omega)]
    exact ⟨loop', hloop', hlength, hprefix⟩

/-- A loop with the name `run_loop` is called `run_loo`. -/
theorem not_keepsName_runLoop :
    ¬ KeepsName ⟨['r', 'u', 'n', '_', 'l', 'o', 'o', 'p'].map Char.toUInt8, by decide⟩ := by
  intro hkeeps
  obtain ⟨loop, hloop, -, hname⟩ := hkeeps ⟨false, false, List.replicate 20 0⟩ (by decide)
  obtain rfl := Option.some.inj (hloop.symm.trans rfl)
  revert hname
  decide

end Naming
end RunLoop
end CCore
