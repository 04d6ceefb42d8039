import Mathlib
import Relayout.Memory
import Relayout.Proofs.Exact

/-!
# Loads and stores of bytes

What a load sees after a store: its own bytes if it reads where they were
written, and the former ones if it reads elsewhere.
-/

namespace Relayout.Memory

open Relayout.Num

variable {m m' : Memory} {start start' : Num} {width width' o o' : Nat} {new : List UInt8}

/-- A memory whose positions are all exact numbers. No longer one can be made. -/
def Addressable (m : Memory) : Prop :=
  m.size < exactLimit

/-- The bytes from `o` on, `width` of them. -/
def slice (m : Memory) (o width : Nat) : List UInt8 :=
  (m.bytes.extract o (o + width)).toList

theorem length_slice (h : o + width ≤ m.size) : (m.slice o width).length = width := by
  simp only [size] at h
  simp only [slice, Array.length_toList, Array.size_extract]
  omega

theorem getElem?_slice (i : Nat) :
    (m.slice o width)[i]? = if i < width then m.bytes[o + i]? else none := by
  rw [slice, Array.getElem?_toList, Array.getElem?_extract]
  by_cases hi : i < width
  · by_cases hs : o + i < m.bytes.size
    · rw [if_pos (by omega), if_pos hi]
    · rw [if_neg (by omega), if_pos hi, Array.getElem?_eq_none (by omega)]
  · rw [if_neg (by omega), if_neg hi]

/-! ## Positions -/

theorem position_eq_ok : m.position start width = .ok o ↔
    start.index? = some o ∧ o + width ≤ m.size := by
  rw [position]
  cases h : start.index? with
  | none => simp
  | some p =>
      by_cases hp : p + width ≤ m.size
      · simp only [if_pos hp, Except.ok.injEq, Option.some.injEq]
        constructor
        · rintro rfl
          exact ⟨rfl, hp⟩
        · exact fun h => h.1
      · simp only [if_neg hp, Option.some.injEq, reduceCtorEq, false_iff]
        rintro ⟨rfl, h⟩
        exact hp h

theorem position_of_is (hm : m.Addressable) (ho : start.Is o) (h : o + width ≤ m.size) :
    m.position start width = .ok o := by
  refine position_eq_ok.mpr ⟨ho.index? ?_, h⟩
  rw [Addressable] at hm
  omega

theorem load_eq_ok {bytes : List UInt8} : m.load start width = .ok bytes ↔
    ∃ o, m.position start width = .ok o ∧ m.slice o width = bytes := by
  rw [load]
  cases m.position start width with
  | error e => simp [Except.map]
  | ok o => simp [Except.map, slice]

theorem load_of_is (hm : m.Addressable) (ho : start.Is o) (h : o + width ≤ m.size) :
    m.load start width = .ok (m.slice o width) :=
  load_eq_ok.mpr ⟨o, position_of_is hm ho h, rfl⟩

theorem length_of_load {bytes : List UInt8} (h : m.load start width = .ok bytes) :
    bytes.length = width := by
  obtain ⟨o, ho, rfl⟩ := load_eq_ok.mp h
  exact length_slice (position_eq_ok.mp ho).2

theorem store_eq_ok : m.store start new = .ok m' ↔
    ∃ o, m.position start new.length = .ok o ∧ m' = ⟨overwrite m.bytes o new⟩ := by
  rw [store]
  cases m.position start new.length with
  | error e => simp [Except.map]
  | ok o => simp [Except.map, eq_comm]

/-! ## Overwritten bytes -/

theorem getElem?_overwrite (bytes : Array UInt8) (h : o + new.length ≤ bytes.size) (i : Nat) :
    (overwrite bytes o new)[i]? =
      if o ≤ i ∧ i < o + new.length then new[i - o]? else bytes[i]? := by
  induction new generalizing bytes o with
  | nil =>
      simp only [overwrite, List.length_nil, Nat.add_zero]
      rw [if_neg (by omega)]
  | cons b rest ih =>
      rw [List.length_cons] at h
      rw [overwrite, ih _ (by rw [Array.size_setIfInBounds]; omega), List.length_cons]
      by_cases heq : i = o
      · subst heq
        rw [if_neg (by omega), if_pos (by omega), Array.getElem?_setIfInBounds_self,
          if_pos (by omega)]
        simp
      · rw [Array.getElem?_setIfInBounds_ne (by omega)]
        by_cases hin : o + 1 ≤ i ∧ i < o + 1 + rest.length
        · obtain ⟨k, rfl⟩ : ∃ k, i = o + 1 + k := ⟨i - (o + 1), by omega⟩
          have hk : o + 1 + k - o = k + 1 := by omega
          rw [if_pos hin, if_pos (by omega), hk, List.getElem?_cons_succ]
          congr 1
          omega
        · rw [if_neg hin, if_neg (by omega)]

/-- A store does not touch what lies outside it. -/
theorem getElem?_of_store (h : m.store start new = .ok m') {i : Nat}
    (hi : ∀ o, start.index? = some o → ¬(o ≤ i ∧ i < o + new.length)) :
    m'.bytes[i]? = m.bytes[i]? := by
  obtain ⟨o, ho, rfl⟩ := store_eq_ok.mp h
  obtain ⟨hindex, hsize⟩ := position_eq_ok.mp ho
  rw [getElem?_overwrite _ hsize, if_neg (hi o hindex)]

/-- A load sees the bytes stored at its own place. -/
theorem load_of_store (h : m.store start new = .ok m') :
    m'.load start new.length = .ok new := by
  obtain ⟨o, ho, rfl⟩ := store_eq_ok.mp h
  obtain ⟨hindex, hsize⟩ := position_eq_ok.mp ho
  refine load_eq_ok.mpr ⟨o, position_eq_ok.mpr ⟨hindex, ?_⟩, ?_⟩
  · exact hsize.trans_eq (size_overwrite m.bytes o new).symm
  · apply List.ext_getElem?
    intro i
    rw [getElem?_slice, getElem?_overwrite _ hsize]
    by_cases hi : i < new.length
    · rw [if_pos hi, if_pos (by omega), Nat.add_sub_cancel_left]
    · rw [if_neg hi, List.getElem?_eq_none (by omega)]

/-- A byte of a slice is the memory's. -/
theorem getElem?_of_slice {bytes : List UInt8} (h : m.slice o bytes.length = bytes) {i : Nat}
    (hlo : o ≤ i) (hhi : i < o + bytes.length) : m.bytes[i]? = bytes[i - o]? := by
  have hget : (m.slice o bytes.length)[i - o]? = _ := getElem?_slice (i - o)
  rw [h, if_pos (by omega), Nat.add_sub_cancel' hlo] at hget
  exact hget.symm

/-- Storing what is there already changes nothing. -/
theorem store_of_load (h : m.load start new.length = .ok new) : m.store start new = .ok m := by
  obtain ⟨o, ho, hslice⟩ := load_eq_ok.mp h
  obtain ⟨-, hsize⟩ := position_eq_ok.mp ho
  refine store_eq_ok.mpr ⟨o, ho, ?_⟩
  have heq : overwrite m.bytes o new = m.bytes := by
    apply Array.ext_getElem?
    intro i
    rw [getElem?_overwrite _ hsize]
    by_cases hi : o ≤ i ∧ i < o + new.length
    · rw [if_pos hi, getElem?_of_slice hslice hi.1 hi.2]
    · rw [if_neg hi]
  rw [heq]

end Relayout.Memory
