import Relayout.Proofs.Trail

/-!
# What a replay leaves behind

Outside the written positions a replay leaves every byte as it was. If no two
writes of a trail meet and all of them fit into the memory, the replay ends as
the trail does, and each write can still be read back afterwards. A memory that
holds all writes of a trail already is not changed by its replay.
-/

namespace Relayout

open Relayout.Num

/-! ## Properties of steps -/

namespace Step

def positions : Step → List Nat
  | write start bytes =>
    match start.index? with
    | some o => List.range' o bytes.length
    | none => []
  | _ => []

/-- A read lies between two positions. -/
def ReadsWithin (lo hi : Nat) : Step → Prop
  | read start width => ∃ o, start.Is o ∧ lo ≤ o ∧ o + width ≤ hi
  | _ => True

/-- A write lies between two positions. -/
def WritesWithin (lo hi : Nat) : Step → Prop
  | write start bytes => ∃ o, start.Is o ∧ lo ≤ o ∧ o + bytes.length ≤ hi
  | _ => True

/-- What a step writes is what the memory has there. -/
def Held (m : Memory) : Step → Prop
  | write start bytes => m.load start bytes.length = .ok bytes
  | _ => True

def event? : Step → Option Event
  | report event => some event
  | _ => none

theorem ReadsWithin.mono {lo hi lo' hi' : Nat} {step : Step} (h : step.ReadsWithin lo hi)
    (hlo : lo' ≤ lo) (hhi : hi ≤ hi') : step.ReadsWithin lo' hi' := by
  cases step with
  | read start width =>
      obtain ⟨o, ho, h1, h2⟩ := h
      exact ⟨o, ho, by omega, by omega⟩
  | write start bytes => trivial
  | report event => trivial

theorem WritesWithin.mono {lo hi lo' hi' : Nat} {step : Step} (h : step.WritesWithin lo hi)
    (hlo : lo' ≤ lo) (hhi : hi ≤ hi') : step.WritesWithin lo' hi' := by
  cases step with
  | write start bytes =>
      obtain ⟨o, ho, h1, h2⟩ := h
      exact ⟨o, ho, by omega, by omega⟩
  | read start width => trivial
  | report event => trivial

theorem size_on (step : Step) (m : Memory) : (step.on m).memory.size = m.size := by
  cases step with
  | read start width => rfl
  | report event => rfl
  | write start bytes =>
      rw [on]
      cases h : m.store start bytes with
      | ok m' => exact Memory.size_of_store h
      | error d => rfl

theorem positions_write {start : Num} {o : Nat} (ho : start.Is o) (hlimit : o < exactLimit)
    (bytes : List UInt8) : (write start bytes).positions = List.range' o bytes.length := by
  simp only [positions, ho.index? hlimit]

end Step

namespace Trail

def All (P : Step → Prop) (t : Trail) : Prop :=
  ∀ step ∈ t.steps, P step

def written (t : Trail) : List Nat :=
  t.steps.flatMap Step.positions

def reports (t : Trail) : List Event :=
  t.steps.filterMap Step.event?

variable {P Q : Step → Prop} {t u : Trail}

theorem All.imp (h : t.All P) (himp : ∀ step, P step → Q step) : t.All Q :=
  fun step hstep => himp step (h step hstep)

theorem all_done : done.All P := by simp [All, done]

theorem all_stopped (f : Fault) : (stopped f).All P := by simp [All, stopped]

theorem all_writing {start : Num} {bytes : List UInt8} (h : P (.write start bytes)) :
    (writing start bytes).All P := by
  simpa [All, writing] using h

theorem All.andThen (ht : t.All P) (hu : u.All P) : (t.andThen u).All P := by
  obtain ⟨steps, _ | f⟩ := t
  · intro step hstep
    rcases List.mem_append.mp hstep with h | h
    · exact ht step h
    · exact hu step h
  · exact ht

theorem all_iterate {part : Nat → Trail} {i count : Nat}
    (h : ∀ j, i ≤ j → j < i + count → (part j).All P) : (iterate part i count).All P := by
  induction count generalizing i with
  | zero => exact all_done
  | succ count ih =>
      rw [iterate]
      refine (h i (Nat.le_refl i) (by omega)).andThen (ih fun j hij hj => ?_)
      exact h j (by omega) (by omega)

theorem all_reading {src : Memory} {start : Num} {width : Nat} {next : List UInt8 → Trail}
    (hread : P (.read start width))
    (hnext : ∀ bytes, src.load start width = .ok bytes → (next bytes).All P) :
    (reading src start width next).All P := by
  rw [reading]
  cases h : src.load start width with
  | ok bytes =>
      intro step hstep
      rcases List.mem_cons.mp hstep with rfl | hstep
      · exact hread
      · exact hnext bytes h step hstep
  | error d => simpa [All] using hread

theorem written_andThen (h : t.stop = none) : (t.andThen u).written = t.written ++ u.written := by
  obtain ⟨steps, stop⟩ := t
  cases h
  simp [andThen, written]

theorem stop_andThen (h : t.stop = none) : (t.andThen u).stop = u.stop := by
  obtain ⟨steps, stop⟩ := t
  cases h
  rfl

theorem andThen_of_stop {f : Fault} (h : t.stop = some f) : t.andThen u = t := by
  rw [andThen, h]

/-! ## Bytes that are not written -/

theorem size_on (t : Trail) (m : Memory) : (t.on m).memory.size = m.size := by
  obtain ⟨steps, stop⟩ := t
  rw [on]
  induction steps generalizing m with
  | nil => rfl
  | cons step rest ih =>
      rw [Step.replay]
      have hstep := step.size_on m
      rcases h : step.on m with ⟨m', events, _ | f⟩
      · rw [h] at hstep
        exact (ih m').trans hstep
      · rwa [h] at hstep

/-- **A replay changes no byte outside the written positions.** -/
theorem getElem?_on {i : Nat} (h : i ∉ t.written) (m : Memory) :
    (t.on m).memory.bytes[i]? = m.bytes[i]? := by
  obtain ⟨steps, stop⟩ := t
  rw [on]
  induction steps generalizing m with
  | nil => rfl
  | cons step rest ih =>
      simp only [written, List.flatMap_cons, List.mem_append, not_or] at h ih
      rw [Step.replay]
      cases step with
      | read start width => exact ih m h.2
      | report event => exact ih m h.2
      | write start bytes =>
          rw [Step.on]
          cases hstore : m.store start bytes with
          | error d => rfl
          | ok m' =>
              refine (ih m' h.2).trans (Memory.getElem?_of_store hstore fun o ho hi => h.1 ?_)
              simp only [Step.positions, ho]
              exact List.mem_range'_1.mpr hi

/-! ## Writes that fit -/

section Fits

variable {m : Memory} {lo hi : Nat}

/-- A write within a memory takes place. -/
theorem store_of_within {start : Num} {bytes : List UInt8} (hm : m.Addressable)
    (h : (Step.write start bytes).WritesWithin lo hi) (hsize : hi ≤ m.size) :
    ∃ m', m.store start bytes = .ok m' := by
  obtain ⟨o, ho, -, hfit⟩ := h
  exact ⟨_, Memory.store_eq_ok.mpr ⟨o, Memory.position_of_is hm ho (by omega), rfl⟩⟩

/-- **If every write fits, the replay ends as the trail does.** -/
theorem on_ends (hm : m.Addressable) (h : t.All (Step.WritesWithin lo hi)) (hsize : hi ≤ m.size) :
    (t.on m).stop = t.stop ∧ (t.on m).events = t.reports := by
  obtain ⟨steps, stop⟩ := t
  rw [on]
  induction steps generalizing m with
  | nil => exact ⟨rfl, rfl⟩
  | cons step rest ih =>
      have hrest : (⟨rest, stop⟩ : Trail).All (Step.WritesWithin lo hi) :=
        fun s hs => h s (List.mem_cons_of_mem _ hs)
      rw [Step.replay]
      cases step with
      | read start width => exact ih hm hsize hrest
      | report event =>
          obtain ⟨hstop, hevents⟩ := ih hm hsize hrest
          exact ⟨hstop, congrArg (event :: ·) hevents⟩
      | write start bytes =>
          obtain ⟨m', hstore⟩ := store_of_within hm (h _ List.mem_cons_self) hsize
          have hsize' := Memory.size_of_store hstore
          rw [Step.on, hstore]
          exact ih (by rwa [Memory.Addressable, hsize']) (hsize.trans_eq hsize'.symm) hrest

/-- Bytes that can be read before a replay and are not written by it can be read after it. -/
theorem load_on {start : Num} {width o : Nat} {bytes : List UInt8}
    (hload : m.load start width = .ok bytes) (hindex : start.index? = some o)
    (h : ∀ i ∈ List.range' o width, i ∉ t.written) :
    (t.on m).memory.load start width = .ok bytes := by
  obtain ⟨p, hp, rfl⟩ := Memory.load_eq_ok.mp hload
  obtain ⟨hstart, hfits⟩ := Memory.position_eq_ok.mp hp
  obtain rfl : p = o := Option.some.inj (hstart.symm.trans hindex)
  refine Memory.load_eq_ok.mpr ⟨p, Memory.position_eq_ok.mpr ⟨hstart, ?_⟩, ?_⟩
  · rwa [size_on]
  · apply List.ext_getElem?
    intro i
    rw [Memory.getElem?_slice, Memory.getElem?_slice]
    split
    · rename_i hi
      exact getElem?_on (h (p + i) (List.mem_range'_1.mpr (by omega))) m
    · rfl

/-- **If every write fits and no two meet, each can be read back after the replay.** -/
theorem held_on (hm : m.Addressable) (h : t.All (Step.WritesWithin lo hi)) (hsize : hi ≤ m.size)
    (hdisjoint : t.written.Nodup) : t.All (Step.Held (t.on m).memory) := by
  obtain ⟨steps, stop⟩ := t
  rw [on]
  induction steps generalizing m with
  | nil => exact fun step hstep => absurd hstep (List.not_mem_nil)
  | cons step rest ih =>
      have hrest : (⟨rest, stop⟩ : Trail).All (Step.WritesWithin lo hi) :=
        fun s hs => h s (List.mem_cons_of_mem _ hs)
      simp only [written, List.flatMap_cons, List.nodup_append] at hdisjoint ih
      obtain ⟨-, hnodup, hmeet⟩ := hdisjoint
      rw [Step.replay]
      intro s hs
      cases step with
      | read start width =>
          rcases List.mem_cons.mp hs with rfl | hs
          · trivial
          · exact ih hm hsize hrest hnodup s hs
      | report event =>
          rcases List.mem_cons.mp hs with rfl | hs
          · trivial
          · exact ih hm hsize hrest hnodup s hs
      | write start bytes =>
          have hwrite := h _ List.mem_cons_self
          obtain ⟨m', hstore⟩ := store_of_within hm hwrite hsize
          have hsize' := Memory.size_of_store hstore
          rw [Step.on, hstore]
          rcases List.mem_cons.mp hs with rfl | hs
          · -- the later writes do not meet this one
            obtain ⟨o, ho, -, hfit⟩ := hwrite
            have hlimit : o < exactLimit := by
              rw [Memory.Addressable] at hm
              omega
            have hindex := ho.index? hlimit
            refine load_on (t := ⟨rest, stop⟩) (Memory.load_of_store hstore) hindex fun i hi hmem => ?_
            rw [← Step.positions_write ho hlimit] at hi
            exact hmeet i hi i hmem rfl
          · exact ih (by rwa [Memory.Addressable, hsize']) (hsize.trans_eq hsize'.symm) hrest hnodup s hs

end Fits

/-- Memories that hold every write of a trail agree at the written positions. -/
theorem getElem?_of_held {m m' : Memory} (h : t.All (Step.Held m)) (h' : t.All (Step.Held m'))
    {i : Nat} (hi : i ∈ t.written) : m.bytes[i]? = m'.bytes[i]? := by
  obtain ⟨step, hstep, hpos⟩ := List.mem_flatMap.mp hi
  cases step with
  | read start width => exact absurd hpos List.not_mem_nil
  | report event => exact absurd hpos List.not_mem_nil
  | write start bytes =>
      have hload : m.load start bytes.length = .ok bytes := h _ hstep
      have hload' : m'.load start bytes.length = .ok bytes := h' _ hstep
      obtain ⟨o, ho, hslice⟩ := Memory.load_eq_ok.mp hload
      obtain ⟨o', ho', hslice'⟩ := Memory.load_eq_ok.mp hload'
      have hindex := (Memory.position_eq_ok.mp ho).1
      obtain rfl : o = o' :=
        Option.some.inj (hindex.symm.trans (Memory.position_eq_ok.mp ho').1)
      simp only [Step.positions, hindex] at hpos
      obtain ⟨hlo, hhi⟩ := List.mem_range'_1.mp hpos
      rw [Memory.getElem?_of_slice hslice hlo hhi, Memory.getElem?_of_slice hslice' hlo hhi]

/-- **A memory that holds every write of a trail is not changed by its replay.** -/
theorem on_of_held {m : Memory} (h : t.All (Step.Held m)) : t.on m = ⟨m, t.reports, t.stop⟩ := by
  obtain ⟨steps, stop⟩ := t
  rw [on]
  induction steps with
  | nil => rfl
  | cons step rest ih =>
      have hrest := ih fun s hs => h s (List.mem_cons_of_mem _ hs)
      rw [Step.replay]
      cases step with
      | read start width => exact hrest
      | report event =>
          simp only [Step.on, Run.andThen, hrest]
          rfl
      | write start bytes =>
          have hheld : m.load start bytes.length = .ok bytes := h _ List.mem_cons_self
          rw [Step.on, Memory.store_of_load hheld]
          exact hrest

end Trail

end Relayout
