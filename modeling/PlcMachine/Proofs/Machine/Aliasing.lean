import PlcMachine.Proofs.Machine.Bits
import PlcMachine.Proofs.Machine.History

/-! # Operands that overlap

Operands that go by different names overlap exactly if they name a common bit. A store is seen through
all operands that overlap with its own and through no others.
-/

namespace PlcMachine.Machine

variable {m : Machine} {op : Operand}

namespace Aliasing

def outer (byte width : UInt32) : Operand := .memory ⟨⟨.outerData, ⟨byte, 0⟩, width⟩, false⟩

def inner (byte width : UInt32) : Operand := .memory ⟨⟨.localData, ⟨byte, 0⟩, width⟩, false⟩

def word : Parameter := .scalar "w" 0 ⟨0, 0⟩ 16

/-- A controller in a block whose formal parameter stands for the first word of its caller's local data. -/
def callee : Machine :=
  (ofSpecs ⟨0⟩ ⟨16, 4, 4, 1, 1, 1, 1⟩).run
    [.begin ⟨.organization, 1, "", 4, []⟩, .store (inner 2 8) (.scalar 3),
      .enter ⟨⟨.function, 1, "", 2, [word]⟩, false, none, none, [⟨word, inner 0 16, .inOut⟩]⟩]

theorem disjoint_slot : callee.Disjoint (.slot 0) (outer 2 8) := by
  rintro ⟨home, i⟩ ⟨l, hl, -, hspans⟩ ⟨l', hl', -, hspans'⟩
  have hslot : callee.unslot (.slot 0) = .ok (outer 0 16) := by decide +kernel
  cases hslot.symm.trans hl
  cases hl'
  have hlt := ((Access.spans_of_bytes rfl).mp hspans).2
  have hle := ((Access.spans_of_bytes rfl).mp hspans').1
  exact absurd (Nat.lt_of_le_of_lt hle hlt) (by decide)

end Aliasing

end PlcMachine.Machine
