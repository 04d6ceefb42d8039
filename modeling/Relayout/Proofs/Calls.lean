import Relayout.Proofs.Ranges
import Relayout.Proofs.Windows

/-!
# Calls on windows

A call reads through one window and writes through another. It finds in the source
window what the buffer holds at the moment, also where the two windows share bytes.
Two pairs of calls are in step: a call and its repetition, if the source window shows
the same afterwards, and two calls whose source windows show the same and share alike.
-/

namespace Relayout

open Relayout.Num

/-- A store lays its bytes over those of the memory. -/
theorem Memory.getElem?_store {m m' : Memory} {start : Num} {new : List UInt8}
    (h : m.store start new = .ok m') :
    ∃ o, start.index? = some o ∧ o + new.length ≤ m.size ∧
      ∀ i : Nat, m'.bytes[i]? =
        if o ≤ i ∧ i < o + new.length then new[i - o]? else m.bytes[i]? := by
  obtain ⟨o, ho, rfl⟩ := store_eq_ok.mp h
  obtain ⟨hindex, hfits⟩ := position_eq_ok.mp ho
  exact ⟨o, hindex, hfits, getElem?_overwrite m.bytes hfits⟩

/-- Whether a store takes place depends on the size of the memory alone. -/
theorem Memory.store_of_size {m₁ m₂ n₂ : Memory} {start : Num} {new : List UInt8}
    (hsize : m₂.size ≤ m₁.size) (h : m₂.store start new = .ok n₂) :
    ∃ n₁, m₁.store start new = .ok n₁ := by
  obtain ⟨o, ho, -⟩ := store_eq_ok.mp h
  obtain ⟨hindex, hfits⟩ := position_eq_ok.mp ho
  exact ⟨_, store_eq_ok.mpr ⟨o, position_eq_ok.mpr ⟨hindex, by omega⟩, rfl⟩⟩

namespace Heap

variable {heap heap' : Heap} {src dst src' dst' : Window} {m m' : Memory}

/-- **What the source window shows in two states** is the same if the shared bytes are. -/
theorem shown_congr (holds : heap.Holds dst) (holds' : heap'.Holds dst')
    (hm : m.size = dst.length) (hm' : m'.size = dst'.length)
    (hsource : heap'.shown src' = heap.shown src)
    (halike : ∀ i j, src'.Shares dst' i j ↔ src.Shares dst i j)
    (hshared : ∀ i j, src.Shares dst i j → m'.bytes[j]? = m.bytes[j]?) :
    (heap'.put dst' m').shown src' = (heap.put dst m).shown src := by
  refine congrArg Memory.mk (Array.ext_getElem? fun i => ?_)
  show ((heap'.put dst' m').shown src').bytes[i]? = ((heap.put dst m).shown src).bytes[i]?
  by_cases hij : ∃ j, src.Shares dst i j
  · obtain ⟨j, hij⟩ := hij
    rw [getElem?_shown_of_shares holds hm hij,
      getElem?_shown_of_shares holds' hm' ((halike i j).mpr hij), hshared i j hij]
  · rw [not_exists] at hij
    rw [getElem?_shown_of_not_shares holds hm hij,
      getElem?_shown_of_not_shares holds' hm' fun j hj => hij j ((halike i j).mp hj), hsource]

/-- A window that shares no byte with the one that is filled shows the same. -/
theorem shown_put_of_apart (holds : heap.Holds dst) (hm : m.size = dst.length)
    (hapart : ∀ i j, ¬src.Shares dst i j) : (heap.put dst m).shown src = heap.shown src :=
  congrArg Memory.mk (Array.ext_getElem? fun i =>
    getElem?_shown_of_not_shares holds hm fun j => hapart i j)

/-- The bytes that two windows share, in a state and before it. -/
theorem shared_of_shown (holds : heap.Holds dst) (hm : m.size = dst.length)
    (h : (heap.put dst m).shown src = heap.shown src) {i j : Nat} (hij : src.Shares dst i j) :
    m.bytes[j]? = (heap.shown dst).bytes[j]? := by
  have hput := getElem?_shown_of_shares holds hm hij
  have hbefore := getElem?_shown_of_shares holds (size_shown holds) hij
  rw [put_shown holds] at hbefore
  rw [← hput, h, hbefore]

end Heap

namespace Trail

variable {t : Trail} {heap heap' : Heap} {src dst src' dst' : Window}

/-- **A call and its repetition**, when the trail is held by what the call left and the source
window shows the same then. -/
theorem keeps_again (holds : heap.Holds dst) {left : Memory} (hleft : left.size = dst.length)
    (held : t.All (Step.Held left)) (hsource : (heap.put dst left).shown src = heap.shown src) :
    t.All (Step.Keeps (heap.source src dst) ((heap.put dst left).source src dst) fun m m' =>
      m' = left ∧ m.size = dst.length ∧
        ∀ i : Nat, m.bytes[i]? = (heap.shown dst).bytes[i]? ∨ m.bytes[i]? = left.bytes[i]?) := by
  intro step hstep
  cases step with
  | report event => trivial
  | read start width =>
      rintro m m' ⟨hm', hm, hbytes⟩
      have hshown : (heap.put dst m).shown src = (heap.put dst left).shown src := by
        refine Heap.shown_congr holds holds hleft hm rfl (fun _ _ => Iff.rfl) fun i j hij => ?_
        have hkept := Heap.shared_of_shown holds hleft hsource hij
        rcases hbytes j with h | h
        · rw [h, hkept]
        · exact h
      show (((heap.put dst left).put dst m').shown src).load start width =
        ((heap.put dst m).shown src).load start width
      rw [hm', Heap.put_put holds hleft hleft, hshown]
  | write start bytes =>
      rintro m m' n' ⟨hm', hm, hbytes⟩ hn'
      have hheld : left.load start bytes.length = .ok bytes := held _ hstep
      rw [hm'] at hn'
      have hsame : n' = left := Except.ok.inj (hn'.symm.trans (Memory.store_of_load hheld))
      have hle : left.size ≤ m.size := by omega
      obtain ⟨n, hn⟩ := Memory.store_of_size hle hn'
      refine ⟨n, hn, hsame, (Memory.size_of_store hn).trans hm, fun i => ?_⟩
      obtain ⟨o, ho, -, hover⟩ := Memory.getElem?_store hn
      obtain ⟨o', ho', -, hover'⟩ := Memory.getElem?_store hn'
      obtain rfl : o = o' := Option.some.inj (ho.symm.trans ho')
      rw [hover]
      split
      · rename_i hin
        have hwritten := hover' i
        rw [hsame, if_pos hin] at hwritten
        exact .inr hwritten.symm
      · exact hbytes i

/-- **Two calls whose source windows show the same and share alike.** -/
theorem keeps_alike (holds : heap.Holds dst) (holds' : heap'.Holds dst')
    (hsource : heap'.shown src' = heap.shown src)
    (halike : ∀ i j, src'.Shares dst' i j ↔ src.Shares dst i j) {lo hi : Nat}
    (within : t.All (Step.WritesWithin lo hi)) (haddr : dst.length < exactLimit)
    (hhi : hi ≤ dst.length) :
    t.All (Step.Keeps (heap.source src dst) (heap'.source src' dst') fun m m' =>
      m.size = dst.length ∧ m'.size = dst'.length ∧
        ∀ i j, src.Shares dst i j → m'.bytes[j]? = m.bytes[j]?) := by
  intro step hstep
  cases step with
  | report event => trivial
  | read start width =>
      rintro m m' ⟨hm, hm', hshared⟩
      exact congrArg (·.load start width)
        (Heap.shown_congr holds holds' hm hm' hsource halike hshared)
  | write start bytes =>
      rintro m m' n' ⟨hm, hm', hshared⟩ hn'
      have hadd : m.Addressable := by rwa [Memory.Addressable, hm]
      obtain ⟨n, hn⟩ := store_of_within hadd (within _ hstep) (by rwa [hm])
      refine ⟨n, hn, (Memory.size_of_store hn).trans hm, (Memory.size_of_store hn').trans hm',
        fun i j hij => ?_⟩
      obtain ⟨o, ho, -, hover⟩ := Memory.getElem?_store hn
      obtain ⟨o', ho', -, hover'⟩ := Memory.getElem?_store hn'
      obtain rfl : o = o' := Option.some.inj (ho.symm.trans ho')
      rw [hover, hover']
      split
      · rfl
      · exact hshared i j hij

/-! ## Replays through a window -/

/-- The replay of a trail through a window. -/
def through (t : Trail) (heap : Heap) (w : Window) : Converter.Call :=
  let r := t.on (heap.shown w)
  ⟨heap.put w r.memory, r.events, r.stop⟩

variable {w w' : Window}

theorem shown_through (holds : heap.Holds w) :
    (t.through heap w).heap.shown w = (t.on (heap.shown w)).memory :=
  Heap.shown_put holds ((size_on t _).trans (Heap.size_shown holds))

theorem holds_through : (t.through heap w).heap.Holds w' ↔ heap.Holds w' :=
  Heap.holds_put

/-- A window that holds every write already is not changed by the replay. -/
theorem through_of_held (holds : heap.Holds w) (held : t.All (Step.Held (heap.shown w))) :
    t.through heap w = ⟨heap, t.reports, t.stop⟩ := by
  rw [through, on_of_held held]
  simp only [Heap.put_shown holds]

/-- A replay changes no byte, in any buffer, but those that it writes in the window. -/
theorem getElem?_through (holds : heap.Holds w) {b p : Nat}
    (h : ¬(b = w.buffer ∧ ∃ i ∈ t.written, p = w.start + i)) :
    ((t.through heap w).heap.buffer b).bytes[p]? = (heap.buffer b).bytes[p]? := by
  rw [through, Heap.getElem?_put holds ((size_on t _).trans (Heap.size_shown holds))]
  split
  · rename_i hin
    obtain ⟨rfl, hlo, hhi⟩ := hin
    obtain ⟨i, rfl⟩ := Nat.exists_eq_add_of_le hlo
    have hi : i ∉ t.written := fun hi => h ⟨rfl, i, hi, rfl⟩
    rw [Nat.add_sub_cancel_left, getElem?_on hi, Heap.getElem?_shown _ _ (by omega)]
  · rfl

end Trail

namespace Converter

variable {c : Converter} {policy : UnknownTagPolicy} {s d : Num}

/-- What a converter does under a policy, once its ranges are accepted. -/
def program (c : Converter) (policy : UnknownTagPolicy) (s d : Num) : Program :=
  fun src m => c.compiled.plan.run c.config.byteOrder policy src s d m

/-- **An accepted call in step with a trail replays it** through its window. -/
theorem applyIn_eq {t : Trail} {src₀ : Source} {m₀ : Memory} {R : Memory → Memory → Prop}
    (follows : (c.program c.config.unknownTag s d).Follows src₀ t m₀) {heap : Heap}
    {src dst : Handle} (holds : heap.Holds dst.window)
    (hchecks : c.checkRanges src.window.length dst.window.length s d = .ok ())
    (keeps : t.All (Step.Keeps src₀ (heap.source src.window dst.window) R))
    (hR : R m₀ (heap.shown dst.window)) :
    c.applyIn heap src dst s d = t.through heap dst.window := by
  have hrun : c.apply (heap.source src.window dst.window) (heap.shown dst.window) s d =
      t.on (heap.shown dst.window) := by
    rw [apply, runAs, Heap.size_shown holds]
    simp only [Heap.source, hchecks]
    exact follows _ R _ keeps hR
  rw [applyIn, hrun, Trail.through]

end Converter

end Relayout
