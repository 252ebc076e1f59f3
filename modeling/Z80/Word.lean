/-! Machine words. Bytes and addresses are bit vectors, so every sum wraps just as
the registers do and no operation needs a mask of its own. -/
namespace Z80

abbrev Byte := BitVec 8
abbrev Word := BitVec 16

def Word.ofBytes (high low : Byte) : Word := high ++ low

def Word.high (w : Word) : Byte := w.extractLsb' 8 8

def Word.low (w : Word) : Byte := w.extractLsb' 0 8

@[simp] theorem Word.high_ofBytes (h l : Byte) : (Word.ofBytes h l).high = h :=
  BitVec.extractLsb'_append_eq_left

@[simp] theorem Word.low_ofBytes (h l : Byte) : (Word.ofBytes h l).low = l :=
  BitVec.extractLsb'_append_eq_right

@[simp] theorem Word.ofBytes_high_low (w : Word) : Word.ofBytes w.high w.low = w :=
  (BitVec.extractLsb'_append_extractLsb'_eq_extractLsb' (x := w) rfl).trans
    BitVec.extractLsb'_eq_self

def Word.withHigh (w : Word) (b : Byte) : Word := .ofBytes b w.low

def Word.withLow (w : Word) (b : Byte) : Word := .ofBytes w.high b

@[simp] theorem Word.high_withHigh (w : Word) (b : Byte) : (w.withHigh b).high = b := by
  simp [withHigh]

@[simp] theorem Word.low_withHigh (w : Word) (b : Byte) : (w.withHigh b).low = w.low := by
  simp [withHigh]

@[simp] theorem Word.high_withLow (w : Word) (b : Byte) : (w.withLow b).high = w.high := by
  simp [withLow]

@[simp] theorem Word.low_withLow (w : Word) (b : Byte) : (w.withLow b).low = b := by
  simp [withLow]

def Word.displace (w : Word) (d : Byte) : Word := w + d.signExtend 16

end Z80
