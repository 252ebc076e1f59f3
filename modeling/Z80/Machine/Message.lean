import Z80.Word
import Z80.Time

/-! What a machine reports about itself. -/
namespace Z80

inductive Message where
  | reset (time : Ticks)
  | nmi (pc : Word)
  | int (mode : Byte) (pc : Word)
  | stop (time : Ticks)
  deriving DecidableEq

namespace Message

def hexDigit (d : BitVec 4) : Char :=
  ['0', '1', '2', '3', '4', '5', '6', '7', '8', '9', 'A', 'B', 'C', 'D', 'E', 'F'].get d.toFin

def hexAddress (w : Word) : String :=
  "0x" ++ String.ofList ([12, 8, 4, 0].map fun k => hexDigit (w.extractLsb' k 4))

def decimal (n : BitVec w) : String := toString n.toNat

def level : Message → String
  | reset _ => "DEBUG"
  | nmi _ | int .. | stop _ => "TRACE"

def text : Message → String
  | reset t => "z80 reset at " ++ decimal t
  | nmi pc => "z80 nmi at pc " ++ hexAddress pc
  | int mode pc => "z80 int im " ++ decimal mode ++ " at pc " ++ hexAddress pc
  | stop t => "z80 stop requested at " ++ decimal t

def render (m : Message) : String := m.level ++ ": " ++ m.text

end Message

end Z80
