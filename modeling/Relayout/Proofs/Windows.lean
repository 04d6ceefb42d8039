import Relayout.Conversion.Heap
import Relayout.Proofs.Slices

/-!
# Windows of buffers

Putting other bytes into a window changes the buffers there and nowhere else. What
another window shows afterwards are the new bytes where the two share them, and the
former ones elsewhere.
-/

namespace Relayout

/-- The byte at `i` of one window is the byte at `j` of the other. -/
def Window.Shares (w w' : Window) (i j : Nat) : Prop :=
  i < w.length ∧ j < w'.length ∧ w.buffer = w'.buffer ∧ w.start + i = w'.start + j

namespace Heap

variable {h h' : Heap} {w w' : Window} {m m' : Memory}

def Holds (h : Heap) (w : Window) : Prop :=
  w.start + w.length ≤ (h.buffer w.buffer).size

instance (h : Heap) (w : Window) : Decidable (h.Holds w) :=
  inferInstanceAs (Decidable (w.start + w.length ≤ (h.buffer w.buffer).size))

theorem ext (hbytes : ∀ b p : Nat, (h.buffer b).bytes[p]? = (h'.buffer b).bytes[p]?) : h = h' := by
  obtain ⟨buffer⟩ := h
  obtain ⟨buffer'⟩ := h'
  refine congrArg Heap.mk (funext fun b => ?_)
  have hbuffer : (buffer b).bytes = (buffer' b).bytes := Array.ext_getElem? (hbytes b)
  rcases hb : buffer b with ⟨bytes⟩
  rcases hb' : buffer' b with ⟨bytes'⟩
  rw [hb, hb'] at hbuffer
  exact congrArg Memory.mk hbuffer

theorem size_shown (holds : h.Holds w) : (h.shown w).size = w.length := by
  simp only [Holds, Memory.size] at holds
  simp only [shown, Memory.size, Array.size_extract]
  omega

theorem size_shown_le (h : Heap) (w : Window) : (h.shown w).size ≤ w.length := by
  simp only [shown, Memory.size, Array.size_extract]
  omega

theorem getElem?_shown (h : Heap) (w : Window) {i : Nat} (hi : i < w.length) :
    (h.shown w).bytes[i]? = (h.buffer w.buffer).bytes[w.start + i]? := by
  rw [shown, Array.getElem?_extract]
  by_cases hs : w.start + i < (h.buffer w.buffer).bytes.size
  · rw [if_pos (by omega)]
  · rw [if_neg (by omega), Array.getElem?_eq_none (by omega)]

/-- **A byte after a window was filled** is the new one in the window, and the former one
outside. -/
theorem getElem?_put (holds : h.Holds w) (hm : m.size = w.length) (b p : Nat) :
    ((h.put w m).buffer b).bytes[p]? =
      if b = w.buffer ∧ w.start ≤ p ∧ p < w.start + w.length then m.bytes[p - w.start]?
      else (h.buffer b).bytes[p]? := by
  by_cases hb : b = w.buffer
  · subst hb
    have hlength : m.bytes.toList.length = w.length := by rw [Array.length_toList]; exact hm
    have hfits : w.start + m.bytes.toList.length ≤ (h.buffer w.buffer).bytes.size :=
      hlength ▸ holds
    simp only [put, if_true, Memory.getElem?_overwrite _ hfits, hlength, true_and,
      Array.getElem?_toList]
  · simp [put, hb]

/-- No buffer becomes longer or shorter. -/
theorem size_buffer_put (b : Nat) : ((h.put w m).buffer b).size = (h.buffer b).size := by
  rw [put]
  simp only
  split
  · exact Memory.size_overwrite _ _ _
  · rfl

theorem holds_put : (h.put w m).Holds w' ↔ h.Holds w' := by
  rw [Holds, Holds, size_buffer_put]

theorem size_shown_put : ((h.put w' m).shown w).size = (h.shown w).size := by
  have hsize := size_buffer_put (h := h) (w := w') (m := m) w.buffer
  simp only [Memory.size] at hsize
  simp only [shown, Memory.size, Array.size_extract, hsize]

/-- What a window shows of a byte that it shares with the window that was filled. -/
theorem getElem?_shown_of_shares (holds : h.Holds w') (hm : m.size = w'.length) {i j : Nat}
    (hij : w.Shares w' i j) : ((h.put w' m).shown w).bytes[i]? = m.bytes[j]? := by
  obtain ⟨hi, hj, hb, hp⟩ := hij
  rw [getElem?_shown _ _ hi, getElem?_put holds hm, if_pos ⟨hb, by omega, by omega⟩]
  congr 1
  omega

/-- What a window shows of any other byte. -/
theorem getElem?_shown_of_not_shares (holds : h.Holds w') (hm : m.size = w'.length) {i : Nat}
    (hi : ∀ j, ¬w.Shares w' i j) :
    ((h.put w' m).shown w).bytes[i]? = (h.shown w).bytes[i]? := by
  by_cases hlt : i < w.length
  · rw [getElem?_shown _ _ hlt, getElem?_shown _ _ hlt, getElem?_put holds hm, if_neg]
    rintro ⟨hb, hlo, hhi⟩
    exact hi (w.start + i - w'.start) ⟨hlt, by omega, hb, by omega⟩
  · simp only [shown]
    rw [Array.getElem?_eq_none (by rw [Array.size_extract]; omega),
      Array.getElem?_eq_none (by rw [Array.size_extract]; omega)]

theorem shown_put (holds : h.Holds w) (hm : m.size = w.length) : (h.put w m).shown w = m := by
  have hbytes : ((h.put w m).shown w).bytes = m.bytes := by
    refine Array.ext_getElem? fun i => ?_
    by_cases hi : i < w.length
    · exact getElem?_shown_of_shares holds hm ⟨hi, hi, rfl, rfl⟩
    · have hsize := size_shown (holds_put.mpr holds : (h.put w m).Holds w)
      rw [Array.getElem?_eq_none (by rw [Memory.size] at hsize; omega),
        Array.getElem?_eq_none (by rw [Memory.size] at hm; omega)]
  exact congrArg Memory.mk hbytes

theorem put_shown (holds : h.Holds w) : h.put w (h.shown w) = h := by
  refine ext fun b p => ?_
  rw [getElem?_put holds (size_shown holds)]
  split
  · rename_i hin
    obtain ⟨rfl, hlo, hhi⟩ := hin
    rw [getElem?_shown _ _ (by omega)]
    congr 1
    omega
  · rfl

theorem put_put (holds : h.Holds w) (hm : m.size = w.length) (hm' : m'.size = w.length) :
    (h.put w m).put w m' = h.put w m' := by
  refine ext fun b p => ?_
  rw [getElem?_put (holds_put.mpr holds) hm', getElem?_put holds hm', getElem?_put holds hm]
  split <;> rfl

end Heap

end Relayout
