import Z80.Alu.Adjust

/-! The flag functions in tabulated form, one entry for each argument. -/
namespace Z80.Alu

def flagTable (flags : Byte → Flags) : List Byte :=
  (List.range 256).map fun i => (flags (.ofNat 8 i)).toByte

def valueTable : List Byte := flagTable .ofValue

def parityTable : List Byte := flagTable .ofParity

def testTable : List Byte := flagTable .ofTest

/-- Adjusted AF, indexed by A with the carry, subtraction and half-carry flags above it. -/
def daaTable : List Word :=
  (List.range 2048).map fun i =>
    let k := BitVec.ofNat 11 i
    let r := daa (k.setWidth 8) { c := k.getLsbD 8, n := k.getLsbD 9, h := k.getLsbD 10 }
    .ofBytes r.value r.flags.toByte

end Z80.Alu
