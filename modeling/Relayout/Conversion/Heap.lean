import Relayout.Conversion.Plan

/-!
# Buffers and windows

Callers hand over views of buffers, or arrays of bytes that lie in buffers. Both
are windows. Windows of one buffer may overlap, and then what is written through
one of them is seen through the other.
-/

namespace Relayout

/-- The `length` bytes of a buffer from `start` on. -/
structure Window where
  buffer : Nat
  start : Nat
  length : Nat
  deriving DecidableEq, Repr

/-- What a caller hands over. -/
inductive Handle where
  | view (window : Window)
  | bytes (window : Window)
  deriving DecidableEq, Repr

/-- The window through which a handle is accessed. -/
def Handle.window : Handle → Window
  | view window => window
  | bytes window => window

/-- The buffers, by number. -/
structure Heap where
  buffer : Nat → Memory

namespace Heap

/-- The bytes in a window. -/
def shown (h : Heap) (w : Window) : Memory :=
  ⟨(h.buffer w.buffer).bytes.extract w.start (w.start + w.length)⟩

/-- The heap with other bytes in a window. -/
def put (h : Heap) (w : Window) (m : Memory) : Heap where
  buffer i :=
    if i = w.buffer then ⟨Memory.overwrite (h.buffer i).bytes w.start m.bytes.toList⟩
    else h.buffer i

/-- A source window beside a destination window. -/
def source (h : Heap) (src dst : Window) : Source :=
  ⟨src.length, fun m => (h.put dst m).shown src⟩

end Heap

end Relayout
