import ProtoSchema.Segment.Basic

/-! # Words

A word starts with a letter or an underscore and goes on with letters, digits and underscores, all
of them ASCII. The longest one counts, and it is a name unless it is reserved as a whole. -/

namespace ProtoSchema.Word

def isStart (c : Char) : Bool := c.isAlpha || c == '_'

def isPart (c : Char) : Bool := c.isAlphanum || c == '_'

def scan : Scanner := fun c cs =>
  if isStart c then
    some (.token (.ofWord (String.ofList (c :: cs.takeWhile isPart))), runLength isPart cs)
  else none

theorem scan_bounded : Scanner.Bounded scan := by
  intro c cs k n h
  unfold scan at h
  split at h
  · cases h
    exact runLength_le _ _
  · cases h

end ProtoSchema.Word
