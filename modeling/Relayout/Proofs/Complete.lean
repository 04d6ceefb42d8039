import Relayout.Proofs.Aligned
import Relayout.Proofs.Described
import Relayout.Proofs.Native
import Relayout.Proofs.Reads

/-!
# Complete source values

The extent of a pair follows the destination type through the parts that are
matched, with a payload offset of its own and without padding. The size of a
descriptor follows the source through all of its parts. Wherever both are
defined the extent lies within the size, at every pair that is matched on the
way down. So a source that holds a complete value is never refused, and the
items of an array are read each within its own bytes.
-/

namespace Relayout

open Relayout.Num

namespace Dest

/-! ## Pairs inside a pair -/

/-- The second pair is matched on the way down from the first one. -/
inductive Nested : Dest → Desc → Dest → Desc → Prop
  | whole (dest : Dest) (desc : Desc) : Nested dest desc dest desc
  | item {surface : Surface} {elem inner : Dest} {length : Num} {count : Nat}
      {elemDesc len innerDesc : Desc} (h : Nested elem elemDesc inner innerDesc) :
      Nested (.array surface elem length count) (.array elemDesc len) inner innerDesc
  | field {surface : Surface} {slots : List (Slot Dest)} {fields : List (Field Desc)}
      {s : Slot Dest} {f : Field Desc} {inner : Dest} {innerDesc : Desc} (hs : s ∈ slots)
      (hf : fields.find? (·.name = s.name) = some f) (h : Nested s.type f.type inner innerDesc) :
      Nested (.record surface slots) (.struct fields) inner innerDesc
  | payload {surface : Surface} {cases : List (Case Dest)} {payloadOffset decodedAt : Num}
      {ctors : List (Ctor Desc)} {c : Case Dest} {ctor : Ctor Desc} {inner : Dest}
      {innerDesc : Desc} (hc : c ∈ cases) (hctor : ctors.find? (·.name = c.name) = some ctor)
      (h : Nested c.type ctor.type inner innerDesc) :
      Nested (.variant surface cases payloadOffset decodedAt) (.variant ctors) inner innerDesc

/-- A pair that was matched, of a type that the combinators make and a valid
descriptor whose size is defined and whose sizes lie below the limit. -/
structure Gauged (dest : Dest) (desc : Desc) : Prop where
  made : dest.Made
  valid : desc.Valid
  small : desc.Small
  built : ∃ plan, Plan.Built dest desc plan
  size : ∃ x, desc.size = .ok x

section

variable {dest : Dest} {desc : Desc} {surface : Surface}

theorem Gauged.item {elem : Dest} {length : Num} {count : Nat} {elemDesc len : Desc}
    (h : Gauged (.array surface elem length count) (.array elemDesc len)) :
    Gauged elem elemDesc := by
  obtain ⟨plan, built⟩ := h.built
  obtain ⟨_, n, step, convert, heq, -, hconvert, hstep, -⟩ := Plan.built_array built
  cases heq
  refine ⟨h.made.part ⟨_, rfl, List.mem_singleton_self _⟩, ?_, ?_, ⟨convert, hconvert⟩,
    step, hstep⟩
  · cases h.valid with
    | array helem _ => exact helem
  · cases h.small with
    | array _ helem => exact helem

theorem Gauged.field {slots : List (Slot Dest)} {fields : List (Field Desc)} {s : Slot Dest}
    {f : Field Desc} (h : Gauged (.record surface slots) (.struct fields)) (hs : s ∈ slots)
    (hf : fields.find? (·.name = s.name) = some f) : Gauged s.type f.type := by
  obtain ⟨plan, built⟩ := h.built
  obtain ⟨x, hx⟩ := h.size
  obtain ⟨_, plans, heq, -, hplans⟩ := Plan.built_record built
  cases heq
  obtain ⟨f', convert, hf', hconvert⟩ := found_of_built hplans s hs
  obtain rfl : f' = f := Option.some.inj (hf'.symm.trans hf)
  have hmem := List.mem_of_find?_eq_some hf
  cases h.valid with
  | struct hoffsets hvalid =>
      cases h.small with
      | struct hsize hsmall =>
          obtain ⟨m, -, hends⟩ := Desc.struct_size hoffsets
            (fun f hf y hy => (Desc.size_is (hvalid f hf) (hsmall f hf) hy).1) hx (hsize x hx).ne_nan
          exact ⟨h.made.part (part_record.mpr ⟨s, hs, rfl⟩), hvalid f' hmem, hsmall f' hmem,
            ⟨convert, hconvert⟩, (hends f' hmem).1⟩

theorem Gauged.payload {cases : List (Case Dest)} {payloadOffset decodedAt : Num}
    {ctors : List (Ctor Desc)} {c : Case Dest} {ctor : Ctor Desc}
    (h : Gauged (.variant surface cases payloadOffset decodedAt) (.variant ctors)) (hc : c ∈ cases)
    (hctor : ctors.find? (·.name = c.name) = some ctor) : Gauged c.type ctor.type := by
  obtain ⟨plan, built⟩ := h.built
  obtain ⟨x, hx⟩ := h.size
  obtain ⟨_, maxAlign, arms, heq, -, -, hbuilt, -⟩ := Plan.built_variant built
  cases heq
  have hmem := List.mem_of_find?_eq_some hctor
  cases h.valid with
  | variant _ hvalid =>
      cases h.small with
      | variant hsize hsmall =>
          obtain ⟨m, a, -, -, -, hends⟩ := Desc.variant_size
            (fun k hk y hy => (Desc.size_is (hvalid k hk) (hsmall k hk) hy).1) hx (hsize x hx).ne_nan
          exact ⟨h.made.part ⟨_, rfl, List.mem_map_of_mem hc⟩, hvalid ctor hmem, hsmall ctor hmem,
            hbuilt c hc ctor hctor, (hends ctor hmem).2.2.1⟩

theorem Gauged.nested {inner : Dest} {innerDesc : Desc} (h : Gauged dest desc)
    (hnested : Nested dest desc inner innerDesc) : Gauged inner innerDesc := by
  induction hnested with
  | whole dest desc => exact h
  | item _ ih => exact ih h.item
  | field hs hf _ ih => exact ih (h.field hs hf)
  | payload hc hctor _ ih => exact ih (h.payload hc hctor)

/-! ## The extent lies within the size -/

theorem Gauged.size_is (h : Gauged dest desc) :
    ∃ x, desc.size = .ok x ∧ x.Is desc.bytes ∧ desc.bytes < exactLimit := by
  obtain ⟨x, hx⟩ := h.size
  exact ⟨x, hx, Desc.size_is h.valid h.small hx⟩

/-- All that is read of a value is measured exactly and lies within its size. -/
theorem Gauged.reach (h : Gauged dest desc) :
    dest.Measured desc ∧ dest.reach desc ≤ desc.bytes := by
  obtain ⟨plan, built⟩ := h.built
  obtain ⟨x, hx, his, hlimit⟩ := h.size_is
  exact reachFits_of_counted (counted_of_made h.made) built h.valid hx (small_of_is his hlimit)

theorem Gauged.extent_is (h : Gauged dest desc) :
    ∃ x, dest.sourceExtent desc = .ok x ∧ x.Is (dest.reach desc) := by
  obtain ⟨plan, built⟩ := h.built
  obtain ⟨-, -, -, hlimit⟩ := h.size_is
  obtain ⟨x, hx⟩ := (native_of_made h.made).hasExtent built
  have htracks := extentTracks_of_counted (counted_of_made h.made) h.valid h.small hx
  exact ⟨x, hx, htracks.is (h.reach.2.trans_lt hlimit)⟩

/-- Types into which a conversion reads all of the source value. -/
def ReadsWhole : Dest → Prop
  | .prim .. => True
  | .array .. => True
  | .record .. => False
  | .variant .. => False

/-- What is matched with an array, and what its plan is. -/
theorem Gauged.array {elem : Dest} {length : Num} {count : Nat}
    (h : Gauged (.array surface elem length count) desc) :
    ∃ elemDesc n, desc = .array elemDesc (.nat n) ∧ n.Is count ∧ length.Is count ∧
      desc.bytes = count * elemDesc.bytes := by
  obtain ⟨plan, built⟩ := h.built
  obtain ⟨x, hx, his, hlimit⟩ := h.size_is
  cases counted_of_made h.made with
  | array _ hlength =>
      obtain ⟨elemDesc, n, convert, rfl, hn, -, -⟩ := built_length hlength h.valid built
      obtain ⟨y, hy, hyn, -⟩ := h.item.size_is
      rw [Desc.size, hy] at hx
      cases hx
      have hprod := ((hn.mul_tracks hyn).of_small (small_of_is his hlimit)).2
      exact ⟨elemDesc, n, rfl, hn, hlength, his.unique hprod⟩

theorem Gauged.reach_eq (h : Gauged dest desc) (hwhole : dest.ReadsWhole) :
    dest.reach desc = desc.bytes := by
  cases dest with
  | prim surface source widensFrom codec => rw [Dest.reach]
  | array surface elem length count =>
      obtain ⟨elemDesc, n, rfl, -, -, hbytes⟩ := h.array
      rw [Dest.reach, hbytes]
  | record surface slots => exact hwhole.elim
  | variant surface cases payloadOffset decodedAt => exact hwhole.elim

/-- The extent of a pair and the size of its source are exact, and the extent is
at most the size; what reads the whole value has an extent as large as that. -/
def ExtentFits (dest : Dest) (desc : Desc) : Prop :=
  ∃ x y e n, dest.sourceExtent desc = .ok x ∧ desc.size = .ok y ∧ x.Is e ∧ y.Is n ∧ e ≤ n ∧
    (dest.ReadsWhole → e = n)

theorem Gauged.extentFits (h : Gauged dest desc) : dest.ExtentFits desc := by
  obtain ⟨x, hx, hxe⟩ := h.extent_is
  obtain ⟨y, hy, hyn, -⟩ := h.size_is
  exact ⟨x, y, _, _, hx, hy, hxe, hyn, h.reach.2, h.reach_eq⟩

/-! ## Items are read apart from one another -/

/-- The plan of an array takes its items at the distance of their size, and of an
array that lies within the source it reads each item between its own start and
the start of the next one. -/
def ItemsApart (dest : Dest) (desc : Desc) : Prop :=
  ∀ {surface : Surface} {elem : Dest} {length : Num} {count : Nat} {elemDesc len : Desc},
    dest = .array surface elem length count → desc = .array elemDesc len →
    ∀ plan, Plan.Built dest desc plan →
      ∃ convert step dstStep, plan = .array count convert step dstStep ∧
        ∀ (order : ByteOrder) (policy : UnknownTagPolicy) (src : Memory) (s d : Num) (n : Nat),
          src.Addressable → s.Is n → n + count * elemDesc.bytes ≤ src.size → ∀ i < count,
            Plan.Reads policy
              (convert.trail order policy src (s + .ofNat i * step) (d + .ofNat i * dstStep))
              (n + i * elemDesc.bytes) (n + (i + 1) * elemDesc.bytes)

theorem Gauged.itemsApart (h : Gauged dest desc) : dest.ItemsApart desc := by
  rintro surface elem length count elemDesc len rfl rfl plan built
  obtain ⟨_, _, heq, -, hlength, -⟩ := h.array
  cases heq
  obtain ⟨_, _, step, convert, heq, -, hconvert, hstep, rfl⟩ := Plan.built_array built
  cases heq
  have counted := counted_of_made h.item.made
  obtain ⟨hmeasured, hle⟩ := h.item.reach
  obtain ⟨y, hy, hstepIs, -⟩ := h.item.size_is
  cases hstep.symm.trans hy
  refine ⟨convert, step, elem.size, by rw [hlength.toNat?, Option.getD_some], ?_⟩
  intro order policy src s d n hsrc hn hfit i hi
  rw [Memory.Addressable] at hsrc
  by_cases hempty : count * elemDesc.bytes = 0
  · have hwidth := (Nat.mul_eq_zero.mp hempty).resolve_left (by omega)
    rw [Plan.idle_of_unread counted hconvert hmeasured (by omega)]
    exact Plan.reads_done _ _
  · obtain ⟨-, hcount⟩ := Plan.items_lt hempty (by omega)
    obtain ⟨hat, hend⟩ := hstepIs.item hi hcount.le (by omega)
    have hnext : (i + 1) * elemDesc.bytes = i * elemDesc.bytes + elemDesc.bytes := Nat.succ_mul _ _
    refine (Plan.reads_reach hsrc counted (History.sized_always src) hconvert hmeasured
      (hn.add hat (by omega)) (by omega)).mono (Nat.le_refl _) ?_
    omega

end

end Dest

namespace Sample

/-- Two samples one after the other. -/
def series : Dest :=
  (Dest.arrayOf dest 2).toOption.get (by decide +kernel)

/-- Two samples of the source, as they are read from their document. -/
def seriesDesc : Desc :=
  (Desc.decode (Desc.array source (.nat 2)).encode).toOption.get (by decide +kernel)

def seriesConverter : Converter :=
  (Converter.build series seriesDesc options).result.toOption.get (by decide +kernel)

/-- The size of the two samples of the source. -/
def seriesSize : Num :=
  seriesDesc.size.toOption.get (by decide +kernel)

theorem series_made : series.Made := by
  have hmade : Dest.arrayOf dest 2 = .ok series := eq_ok_get _
  exact .array made hmade

end Sample

namespace Converter

/-- **A complete source value is never refused.** If a converter from a descriptor
was built and the size of the descriptor is defined, the extent of the source is at
most that size, and so it is for every pair inside. A memory that holds so many
bytes from a natural position on passes the source range check, and the items of an
array are read each within its own bytes. -/
theorem complete_accepted {dest : Dest} (made : dest.Made) {document : Text} {desc : Desc}
    (hdesc : Desc.decode document = .ok desc) (small : desc.Small) {options : Layer}
    {c : Converter} (hbuild : (build dest desc options).result = .ok c) {x : Num}
    (hx : desc.size = .ok x) :
    ∃ e k, c.sourceSize.Is e ∧ x.Is k ∧ e ≤ k ∧ (dest.ReadsWhole → e = k) ∧
      (∀ (src : Memory) (s : Num) (n : Nat), src.Addressable → s.Is n → n + k ≤ src.size →
        checkRange .source src.size s c.sourceSize = .ok ()) ∧
      ∀ inner innerDesc, dest.Nested desc inner innerDesc →
        inner.ExtentFits innerDesc ∧ inner.ItemsApart innerDesc := by
  have built := builtFor_of_build hbuild
  have gauged : dest.Gauged desc :=
    ⟨made, Desc.valid_of_decode hdesc, small, ⟨_, built.plan⟩, x, hx⟩
  obtain ⟨y, z, e, k, hy, hz, hye, hzk, hle, hwhole⟩ := gauged.extentFits
  cases hy.symm.trans built.extent
  cases hz.symm.trans hx
  refine ⟨e, k, hye, hzk, hle, hwhole, fun src s n hsrc hs hfit => ?_, fun inner innerDesc h => ?_⟩
  · exact (checkRange_ok hsrc (tracks_of_is hye)).mpr ⟨n, hs, by omega⟩
  · exact ⟨(gauged.nested h).extentFits, (gauged.nested h).itemsApart⟩

/-- Two samples of twelve bytes: the extent is the size, and 24 bytes pass the check. -/
theorem complete_accepted_sample :
    Sample.series.Made ∧
      Desc.decode (Desc.array Sample.source (.nat 2)).encode = .ok Sample.seriesDesc ∧
      Sample.seriesDesc.Small ∧
      (build Sample.series Sample.seriesDesc Sample.options).result = .ok Sample.seriesConverter ∧
      Sample.seriesDesc.size = .ok Sample.seriesSize ∧ Sample.seriesSize.Is 24 ∧
      Sample.seriesConverter.sourceSize.Is 24 ∧
      checkRange .source (Memory.zeros 24).size 0 Sample.seriesConverter.sourceSize = .ok () ∧
      Sample.series.ItemsApart Sample.seriesDesc := by
  have small : Sample.seriesDesc.Small := by decide +kernel
  have hsize : Sample.seriesSize.Is 24 := by
    rw [Is]
    decide +kernel
  have hextent : Sample.seriesConverter.sourceSize.Is 24 := by
    rw [Is]
    decide +kernel
  have hmemory : (Memory.zeros 24).Addressable := by
    rw [Memory.Addressable]
    decide
  obtain ⟨e, k, he, hk, -, -, hcheck, hnested⟩ :=
    complete_accepted Sample.series_made (eq_ok_get _) small (eq_ok_get _) (eq_ok_get _)
  obtain rfl := hk.unique hsize
  refine ⟨Sample.series_made, eq_ok_get _, small, eq_ok_get _, eq_ok_get _, hsize, hextent,
    hcheck _ _ 0 hmemory (is_ofNat (Nat.zero_le _)) (by decide), (hnested _ _ (.whole _ _)).2⟩

end Converter

end Relayout
