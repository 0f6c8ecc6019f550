import RV32Pipeline.Rtl.Define

/-!
# The branch target buffer of `BTB.v`

128 direct-mapped entries, indexed by bits 8 to 2 of a PC and tagged by bits 31 to 9. Bit 32 of a
target says that the entry belongs to a `jal`.
-/

namespace RV32Pipeline

/-- The arrays `btb_tags`, `btb_targets`, and `btb_valid`. -/
structure Btb where
  btbTags : BitVec 7 → BitVec 23
  btbTargets : BitVec 7 → BitVec 33
  btbValid : BitVec 7 → Bool

namespace Btb

/-- The index of a PC, `lookup_index` and `update_index`. -/
def index (pc : Word) : BitVec 7 := pc.extractLsb' 2 7

/-- The tag of a PC, `lookup_tag` and `update_tag`. -/
def tag (pc : Word) : BitVec 23 := pc.extractLsb' 9 23

/-- The output `hit`. -/
def hit (b : Btb) (pcIn : Word) : Bool :=
  b.btbTags (index pcIn) == tag pcIn && b.btbValid (index pcIn)

/-- The output `target_addr`. -/
def targetAddr (b : Btb) (pcIn : Word) : BitVec 33 :=
  if b.hit pcIn then b.btbTargets (index pcIn) else 0#33

/-- The buffer after reset. -/
def empty : Btb := ⟨fun _ => 0#23, fun _ => 0#33, fun _ => false⟩

/-- The buffer with the entry of `branchPC` replaced. -/
def update (b : Btb) (branchPC : Word) (branchTarget : BitVec 33) : Btb where
  btbTags := Function.update b.btbTags (index branchPC) (tag branchPC)
  btbTargets := Function.update b.btbTargets (index branchPC) branchTarget
  btbValid := Function.update b.btbValid (index branchPC) true

/-- The buffer after a clock edge. -/
def next (rst validIn : Bool) (branchPC : Word) (branchTarget : BitVec 33) (b : Btb) : Btb :=
  if rst then empty else if validIn then b.update branchPC branchTarget else b

end Btb

end RV32Pipeline
