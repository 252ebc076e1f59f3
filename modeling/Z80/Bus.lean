import Z80.Word

/-! The bus. A processor reaches memory and ports only through these four accesses,
and each of them may change the device behind it. -/
namespace Z80

class Bus (β : Type) where
  read : β → Word → Byte × β
  write : β → Word → Byte → β
  input : β → Word → Byte × β
  output : β → Word → Byte → β

end Z80
