import Relayout.Proofs.History
import Relayout.Proofs.Reads

/-!
# Runs abreast

Two runs of one plan go abreast if related memories let their sources show the same
bytes in two windows, and if writes that face each other keep the memories related.
Both then end alike, report the same and leave related memories. Which writes face
each other is left open: those at one position do, and so do those at the same
distance from two places.
-/

namespace Relayout

open Relayout.Num

/-! ## Runs that end alike -/

/-- Two runs end alike, report the same, and leave related memories. -/
structure Run.Alike (R : Memory → Memory → Prop) (r r' : Run) : Prop where
  stop : r.stop = r'.stop
  events : r.events = r'.events
  memory : R r.memory r'.memory

namespace Run

variable {R : Memory → Memory → Prop} {r r' : Run} {f f' : Memory → Run}

theorem Alike.andThen (h : r.Alike R r') (hf : ∀ m m', R m m' → (f m).Alike R (f' m')) :
    (r.andThen f).Alike R (r'.andThen f') := by
  obtain ⟨m, events, stop⟩ := r
  obtain ⟨m', events', stop'⟩ := r'
  obtain ⟨hstop, hevents, hm⟩ := h
  cases hstop
  cases hevents
  cases stop with
  | some fault => exact ⟨rfl, rfl, hm⟩
  | none =>
      obtain ⟨hstop, hevents, hm⟩ := hf m m' hm
      exact ⟨hstop, congrArg (events ++ ·) hevents, hm⟩

theorem Alike.iterate {step step' : Nat → Memory → Run} {i count : Nat}
    (h : ∀ j, i ≤ j → j < i + count → ∀ m m', R m m' → (step j m).Alike R (step' j m'))
    {m m' : Memory} (hm : R m m') :
    (Run.iterate step i count m).Alike R (Run.iterate step' i count m') := by
  induction count generalizing i m m' with
  | zero => exact ⟨rfl, rfl, hm⟩
  | succ count ih =>
      rw [Run.iterate, Run.iterate]
      refine (h i (Nat.le_refl i) (by omega) m m' hm).andThen fun m m' hm => ih ?_ hm
      exact fun j hij hj => h j (by omega) (by omega)

theorem Alike.eq (h : r.Alike (· = ·) r') : r = r' := by
  obtain ⟨m, events, stop⟩ := r
  obtain ⟨hstop, hevents, hm⟩ := h
  cases hstop
  cases hevents
  cases hm
  rfl

end Run

/-! ## Memories that show the same bytes -/

namespace Memory

/-- The `width` bytes from `o` on in one memory are those from `o'` on in another. -/
structure SameWindow (o o' width : Nat) (m m' : Memory) : Prop where
  addressable : m.Addressable
  addressable' : m'.Addressable
  fits : o + width ≤ m.size
  fits' : o' + width ≤ m'.size
  same : m.slice o width = m'.slice o' width

variable {m m' : Memory} {o o' width : Nat}

theorem slice_eq_iff : m.slice o width = m'.slice o' width ↔
    ∀ i < width, m.bytes[o + i]? = m'.bytes[o' + i]? := by
  constructor
  · intro h i hi
    have hget := congrArg (·[i]?) h
    simpa only [getElem?_slice, if_pos hi] using hget
  · intro h
    apply List.ext_getElem?
    intro i
    rw [getElem?_slice, getElem?_slice]
    split
    · rename_i hi
      exact h i hi
    · rfl

namespace SameWindow

theorem part (h : SameWindow o o' width m m') {k l : Nat} (hk : k + l ≤ width) :
    SameWindow (o + k) (o' + k) l m m' := by
  obtain ⟨hm, hm', hfits, hfits', hsame⟩ := h
  refine ⟨hm, hm', by omega, by omega, slice_eq_iff.mpr fun i hi => ?_⟩
  rw [Nat.add_assoc, Nat.add_assoc]
  exact slice_eq_iff.mp hsame (k + i) (by omega)

/-- What is loaded at the same distance from both starts. -/
theorem load (h : SameWindow o o' width m m') {s s' : Num} {k l : Nat} (hs : s.Is (o + k))
    (hs' : s'.Is (o' + k)) (hle : k + l ≤ width) :
    ∃ bytes, bytes.length = l ∧ m.load s l = .ok bytes ∧ m'.load s' l = .ok bytes := by
  obtain ⟨hm, hm', hfits, hfits', hsame⟩ := h.part hle
  refine ⟨_, length_slice hfits, load_of_is hm hs hfits, ?_⟩
  rw [load_of_is hm' hs' hfits', hsame]

/-- Bytes that are stored at the same distance from both starts keep the windows the same. -/
theorem store (h : SameWindow o o' width m m') {k : Nat} {d d' : Num} (hd : d.Is (o + k))
    (hd' : d'.Is (o' + k)) {bytes : List UInt8} (hk : k + bytes.length ≤ width) :
    ∃ n n', m.store d bytes = .ok n ∧ m'.store d' bytes = .ok n' ∧ SameWindow o o' width n n' := by
  obtain ⟨hm, hm', hfits, hfits', hsame⟩ := h
  have hinside : o + k + bytes.length ≤ m.size := by omega
  have hinside' : o' + k + bytes.length ≤ m'.size := by omega
  have hstore : m.store d bytes = .ok ⟨overwrite m.bytes (o + k) bytes⟩ :=
    store_eq_ok.mpr ⟨_, position_of_is hm hd hinside, rfl⟩
  have hstore' : m'.store d' bytes = .ok ⟨overwrite m'.bytes (o' + k) bytes⟩ :=
    store_eq_ok.mpr ⟨_, position_of_is hm' hd' hinside', rfl⟩
  have hsize := size_of_store hstore
  have hsize' := size_of_store hstore'
  refine ⟨_, _, hstore, hstore', ?_, ?_, hsize ▸ hfits, hsize' ▸ hfits', ?_⟩
  · rwa [Addressable, hsize]
  · rwa [Addressable, hsize']
  · refine slice_eq_iff.mpr fun i hi => ?_
    have hbefore := slice_eq_iff.mp hsame i hi
    rw [getElem?_overwrite _ hinside, getElem?_overwrite _ hinside']
    by_cases hin : k ≤ i ∧ i < k + bytes.length
    · rw [if_pos (by omega), if_pos (by omega)]
      congr 1
      omega
    · rw [if_neg (by omega), if_neg (by omega)]
      exact hbefore

end SameWindow

/-- The `size` bytes from `start` on lie in the memory and are these. -/
def Shows (m : Memory) (start size : Num) (bytes : List UInt8) : Prop :=
  ∃ n k, start.Is n ∧ size.Is k ∧ n + k ≤ m.size ∧ m.slice n k = bytes

/-- Two memories that show the same bytes have the same window. -/
theorem Shows.window {size s s' : Num} {bytes : List UInt8} (hm : m.Addressable)
    (hm' : m'.Addressable) (h : m.Shows s size bytes) (h' : m'.Shows s' size bytes) :
    ∃ n n' k, s.Is n ∧ s'.Is n' ∧ size.Is k ∧ bytes.length = k ∧ SameWindow n n' k m m' := by
  obtain ⟨n, k, hn, hk, hfits, hbytes⟩ := h
  obtain ⟨n', k', hn', hk', hfits', hbytes'⟩ := h'
  obtain rfl := hk.unique hk'
  have hlength : bytes.length = k := hbytes ▸ length_slice hfits
  exact ⟨n, n', k, hn, hn', hk, hlength, hm, hm', hfits, hfits', hbytes.trans hbytes'.symm⟩

theorem SameWindow.shows (h : SameWindow o o' width m m') {size s s' : Num} (hs : s.Is o)
    (hs' : s'.Is o') (hsize : size.Is width) :
    ∃ bytes, m.Shows s size bytes ∧ m'.Shows s' size bytes :=
  ⟨_, ⟨o, width, hs, hsize, h.fits, rfl⟩, ⟨o', width, hs', hsize, h.fits', h.same.symm⟩⟩

end Memory

/-! ## The same distance from two places -/

/-- A distance from a position that lies at a distance itself. -/
theorem Num.Is.farther {x y : Num} {o k p : Nat} (hx : x.Is (o + k)) (hy : y.Is p)
    (h : o + (k + p) < exactLimit) : (x + y).Is (o + (k + p)) := by
  rw [← Nat.add_assoc]
  exact hx.add hy (by omega)

/-- So many bytes at `d` and at `d'` lie at the same distance from `o` and from `o'`,
within `width` bytes. -/
def Num.Beside (o o' width : Nat) (d d' : Num) (length : Nat) : Prop :=
  ∃ k, d.Is (o + k) ∧ d'.Is (o' + k) ∧ k + length ≤ width

/-! ## Plans abreast -/

namespace Plan

/-- Related memories let both sources show the same bytes in a window of theirs, and writes that
face each other keep them related. `facing d d' length` says so of so many bytes at `d` and `d'`. -/
structure InStep (src src' : Source) (n n' width : Nat) (facing : Num → Num → Nat → Prop)
    (R : Memory → Memory → Prop) : Prop where
  shows : ∀ {m m'}, R m m' → Memory.SameWindow n n' width (src.seen m) (src'.seen m')
  writes : ∀ {m m' d d' bytes}, R m m' → facing d d' bytes.length →
    (Run.ofStore m (m.store d bytes)).Alike R (.ofStore m' (m'.store d' bytes))

/-- Where two values of a type face each other, so do their parts. The items of an array need not
if nothing is ever written there. -/
structure Faces (facing : Num → Num → Nat → Prop) (faces : Dest → Num → Num → Prop) : Prop where
  prim : ∀ {p d d'}, faces (.ofPrim p) d d' → facing d d' p.size
  item : ∀ {surface elem length count d d'}, faces (.array surface elem length count) d d' →
    ∀ j < count, (elem.Settled ∧ elem.bytes = 0) ∨
      faces elem (d + .ofNat j * elem.size) (d' + .ofNat j * elem.size)
  slot : ∀ {surface slots d d'}, faces (.record surface slots) d d' →
    ∀ slot ∈ slots, faces slot.type (d + slot.offset) (d' + slot.offset)
  tag : ∀ {surface cases offset decodedAt d d'},
    faces (.variant surface cases offset decodedAt) d d' → facing d d' 4
  payload : ∀ {surface cases offset decodedAt d d'},
    faces (.variant surface cases offset decodedAt) d d' →
      ∀ c ∈ cases, faces c.type (d + offset) (d' + offset)

section

variable {order : ByteOrder} {policy : UnknownTagPolicy} {src src' : Source} {n n' width : Nat}
  {facing : Num → Num → Nat → Prop} {faces : Dest → Num → Num → Prop}
  {R : Memory → Memory → Prop}

/-- A conversion without steps leaves the memory as it is. -/
theorem run_of_idle {plan : Plan} {s d : Num}
    (h : ∀ src : History, plan.trail order policy src s d = .done) (m : Memory) :
    run order policy src plan s d m = .done m := by
  obtain ⟨found, hof⟩ := exists_run order policy src plan s d m
  have hrun := hof.follows.run_eq
  rw [h] at hrun
  exact hrun

/-- What is to be shown of the parts of a type: its runs go abreast at the same distance from both
starts of the source windows. -/
def Moves (order : ByteOrder) (policy : UnknownTagPolicy) (src src' : Source) (n n' width : Nat)
    (faces : Dest → Num → Num → Prop) (R : Memory → Memory → Prop) (dest : Dest) : Prop :=
  ∀ {desc : Desc} {plan : Plan} {s s' d d' : Num} {i : Nat}, Built dest desc plan →
    dest.Measured desc → s.Is (n + i) → s'.Is (n' + i) → i + dest.reach desc ≤ width →
    faces dest d d' → ∀ {m m' : Memory}, R m m' →
    (run order policy src plan s d m).Alike R (run order policy src' plan s' d' m')

theorem alike_unmatched (name : Text) (tag : Nat) {m m' : Memory} (hR : R m m') :
    (unmatched policy name tag m).Alike R (unmatched policy name tag m') := by
  cases policy with
  | fail => exact ⟨rfl, rfl, hR⟩
  | ignore => exact ⟨rfl, rfl, hR⟩

variable (step : InStep src src' n n' width facing R) (parts : Faces facing faces)

include step

/-- The windows of the sources end below the limit of exactness. -/
theorem InStep.limits {m m' : Memory} (hR : R m m') :
    n + width < exactLimit ∧ n' + width < exactLimit := by
  obtain ⟨hsrc, hsrc', hfits, hfits', -⟩ := step.shows hR
  exact ⟨hfits.trans_lt hsrc, hfits'.trans_lt hsrc'⟩

theorem InStep.storing (p : Prim) (x : Scalar) {d d' : Num} (hd : facing d d' p.size)
    {m m' : Memory} (hR : R m m') : (Run.ofStore m (p.store m order d x)).Alike R
      (.ofStore m' (p.store m' order d' x)) := by
  rw [storing_eq, storing_eq]
  rcases storing_cases order p x with ⟨e, h⟩ | ⟨-, h⟩ | ⟨bytes, hlength, h⟩
  · rw [h, h]
    exact ⟨rfl, rfl, hR⟩
  · rw [h, h]
    exact ⟨rfl, rfl, hR⟩
  · rw [h, h, Trail.on_writing, Trail.on_writing]
    exact step.writes hR (hlength ▸ hd)

theorem moves_fields {fields : List (Field Desc)} {slots : List (Slot Dest)}
    {plans : List (FieldPlan Plan)} (built : List.Forall₂ (SlotBuilt fields) slots plans)
    (measured : Dest.SlotsMeasured fields slots)
    (h : ∀ slot ∈ slots, Moves order policy src src' n n' width faces R slot.type)
    {s s' d d' : Num} {i : Nat} (hs : s.Is (n + i)) (hs' : s'.Is (n' + i))
    (hreach : i + Dest.slotsReach fields slots ≤ width)
    (hfaces : ∀ slot ∈ slots, faces slot.type (d + slot.offset) (d' + slot.offset))
    {m m' : Memory} (hR : R m m') : (runFields order policy src plans s d m).Alike R
      (runFields order policy src' plans s' d' m') := by
  induction built generalizing m m' with
  | nil =>
      rw [runFields, runFields]
      exact ⟨rfl, rfl, hR⟩
  | @cons slot plan slots plans hbuilt _ ih =>
      obtain ⟨hfirst, hrest⟩ := List.forall_mem_cons.mp h
      obtain ⟨hfacing, hothers⟩ := List.forall_mem_cons.mp hfaces
      obtain ⟨field, hfield, hfrom, hto, hconvert⟩ := hbuilt
      rw [Dest.SlotsMeasured] at measured
      obtain ⟨hoffset, hmeasured⟩ := measured.1 field hfield
      obtain ⟨hle, hles⟩ := Dest.le_slotsReach hfield slots
      obtain ⟨hlimit, hlimit'⟩ := step.limits hR
      rw [runFields, runFields, hfrom, hto]
      refine Run.Alike.andThen ?_ fun m m' hR => ih measured.2 hrest (by omega) hothers hR
      exact hfirst hconvert hmeasured (hs.farther hoffset (by omega))
        (hs'.farther hoffset (by omega)) (by omega) hfacing hR

include parts

theorem moves_prim (p : Prim) : Moves order policy src src' n n' width faces R (.ofPrim p) := by
  intro desc plan s s' d d' i built _ hs hs' hreach hfaces m m' hR
  rw [Dest.reach_prim] at hreach
  rcases built_prim built with ⟨rfl, rfl⟩ | ⟨q, hq, rfl, rfl⟩
  · rw [Desc.bytes_prim] at hreach
    by_cases hunit : p = .unit
    · rw [if_pos hunit, run, run]
      exact ⟨rfl, rfl, hR⟩
    · obtain ⟨bytes, hlength, hload, hload'⟩ := (step.shows hR).load hs hs' hreach
      rw [Prim.size, if_neg hunit, run, run, copy, copy, hload, hload']
      exact step.writes hR (hlength ▸ parts.prim hfaces)
  · rw [Desc.bytes_prim] at hreach
    have hunit := ne_unit_of_widens hq
    obtain ⟨bytes, -, hload, hload'⟩ := (step.shows hR).load hs hs' hreach
    rw [run, run, convertScalar, convertScalar, Scalar.load_eq, Scalar.load_eq, if_neg hunit,
      if_neg hunit, Memory.loadWord, Memory.loadWord, hload, hload']
    exact step.storing p _ (parts.prim hfaces) hR

theorem moves_array {surface : Surface} {elem : Dest} {length : Num} {count : Nat}
    (helem : 0 < count → elem.Counted) (hlength : length.Is count)
    (h : 0 < count → Moves order policy src src' n n' width faces R elem) :
    Moves order policy src src' n n' width faces R (.array surface elem length count) := by
  intro desc plan s s' d d' i built measured hs hs' hreach hfaces m m' hR
  obtain ⟨elemDesc, k, size, convert, rfl, -, hconvert, hsize, rfl⟩ := built_array built
  rw [Dest.reach] at hreach
  rw [Dest.Measured] at measured
  rw [hlength.toNat?, Option.getD_some, run, run]
  refine Run.Alike.iterate (fun j _ hj m m' hR => ?_) hR
  obtain ⟨hlimit, hlimit'⟩ := step.limits hR
  have hpos : 0 < count := by omega
  have hlast : j < count := by omega
  have hidle : (∀ (src : History) (s d : Num), convert.trail order policy src s d = .done) →
      ∀ s s' d d', (run order policy src convert s d m).Alike R
        (run order policy src' convert s' d' m') := by
    intro hidle s s' d d'
    rw [run_of_idle fun src => hidle src s d, run_of_idle fun src => hidle src s' d']
    exact ⟨rfl, rfl, hR⟩
  obtain ⟨⟨hmeasured, hle⟩, size', hsize', hsizeIs⟩ := measured hpos
  obtain rfl : size = size' := Except.ok.inj (hsize.symm.trans hsize')
  by_cases hempty : elemDesc.bytes = 0
  · -- there may be too many items to number them, but none of them is read
    exact hidle (idle_of_unread (helem hpos) hconvert hmeasured (by omega)) _ _ _ _
  · rcases parts.item hfaces j hlast with ⟨settled, hvacant⟩ | hitem
    · exact hidle (fun src s d => idle_of_empty settled hvacant src _ _ s d hconvert) _ _ _ _
    · have hcount := Nat.le_mul_of_pos_right count (Nat.pos_of_ne_zero hempty)
      obtain ⟨hat, hend⟩ := hsizeIs.item hlast (by omega) (by omega)
      exact h hpos hconvert hmeasured (hs.farther hat (by omega)) (hs'.farther hat (by omega))
        (by omega) hitem hR

theorem moves_variant {surface : Surface} {cases : List (Case Dest)} {offset decodedAt : Num}
    (h : ∀ c ∈ cases, Moves order policy src src' n n' width faces R c.type) :
    Moves order policy src src' n n' width faces R (.variant surface cases offset decodedAt) := by
  intro desc plan s s' d d' i built measured hs hs' hreach hfaces m m' hR
  obtain ⟨ctors, maxAlign, arms, rfl, rfl, hstart, -, harms⟩ := built_variant built
  rw [Dest.reach] at hreach
  rw [Dest.Measured] at measured
  rw [measured.payloadAt] at hstart
  rw [Dest.casesMeasured_iff] at measured
  have hpast := four_le_payloadStart ctors cases
  obtain ⟨bytes, -, hload, hload'⟩ := (step.shows hR).load hs hs' (l := 4) (by omega)
  rw [run, run, hstart, Memory.loadWord, Memory.loadWord, hload, hload']
  simp only [Except.map, runArm_eq]
  obtain ⟨hnone, hsome⟩ := harms (.ofNat (Word.ofBytes order bytes))
  cases htaken : taken ctors (.ofNat (Word.ofBytes order bytes)) cases with
  | none =>
      rw [hnone htaken]
      exact alike_unmatched _ _ hR
  | some found =>
      obtain ⟨c, ctor⟩ := found
      obtain ⟨arm, harm, hbuilt⟩ := hsome _ htaken
      obtain ⟨hmem, hctor, -⟩ := taken_spec htaken
      obtain ⟨-, hmeasured⟩ := measured c hmem ctor hctor
      have hle := Dest.le_casesReach hmem hctor
      obtain ⟨hlimit, hlimit'⟩ := step.limits hR
      have hpay : (Num.ofNat (payloadStart ctors cases)).Is (payloadStart ctors cases) :=
        is_ofNat (by omega)
      rw [harm]
      simp only [fillArm, hbuilt.payloadAt, Memory.storeWord]
      refine (step.writes hR ?_).andThen fun m m' hR => ?_
      · rw [Word.length_toBytes]
        exact parts.tag hfaces
      · have hfit : i + payloadStart ctors cases + c.type.reach ctor.type ≤ width := by omega
        exact h c hmem hbuilt.convert hmeasured (hs.farther hpay (by omega))
          (hs'.farther hpay (by omega)) hfit (parts.payload hfaces c hmem) hR

variable (order policy) in
/-- **Runs of one plan go abreast**, if their sources and the parts of their destinations do. -/
theorem moves_of_counted {dest : Dest} (counted : dest.Counted) :
    Moves order policy src src' n n' width faces R dest := by
  -- one lemma for each kind of node
  induction counted with
  | prim p => exact moves_prim step parts p
  | array helem hlength ih => exact moves_array step parts helem hlength ih
  | record _ ih =>
      intro desc plan s s' d d' i built measured hs hs' hreach hfaces m m' hR
      obtain ⟨fields, plans, rfl, rfl, hplans⟩ := built_record built
      rw [Dest.reach] at hreach
      rw [Dest.Measured] at measured
      rw [run, run]
      exact moves_fields step hplans measured ih hs hs' hreach (parts.slot hfaces) hR
  | variant _ ih => exact moves_variant step parts ih

end

/-! ## Places that face each other -/

theorem faces_same : Faces (fun d d' _ => d = d') fun _ d d' => d = d' where
  prim := id
  item := by
    rintro _ _ _ _ _ _ rfl _ -
    exact .inr rfl
  slot := by
    rintro _ _ _ _ rfl _ -
    rfl
  tag := id
  payload := by
    rintro _ _ _ _ _ _ rfl _ -
    rfl

/-- Values of a settled type face each other at the same distance from two places. -/
theorem faces_beside {o o' room : Nat} (hlimit : o + room < exactLimit)
    (hlimit' : o' + room < exactLimit) : Faces (Num.Beside o o' room) fun dest d d' =>
      dest.Settled ∧ Num.Beside o o' room d d' dest.bytes where
  prim := by
    rintro p d d' ⟨-, hbeside⟩
    have hbytes : (Dest.ofPrim p).bytes = p.size :=
      Dest.bytes_of_is (is_ofNat (by cases p <;> decide))
    rwa [hbytes] at hbeside
  item := by
    rintro surface elem length count d d' ⟨settled, k, hd, hd', hfit⟩ j hj
    cases settled with
    | array helem _ hsize hlimit =>
      have hitem := helem (by omega)
      have hbytes : (Dest.array surface elem length count).bytes = count * elem.bytes :=
        Dest.bytes_of_is hsize
      rw [hbytes] at hfit
      by_cases hempty : elem.bytes = 0
      · exact .inl ⟨hitem, hempty⟩
      · obtain ⟨-, hcount⟩ := items_lt (Nat.mul_ne_zero (by omega) hempty) hlimit
        obtain ⟨hat, hend⟩ := hitem.size_is.1.item hj hcount.le hlimit
        exact .inr ⟨hitem, _, hd.farther hat (by omega), hd'.farther hat (by omega), by omega⟩
  slot := by
    rintro surface slots d d' ⟨settled, k, hd, hd', hfit⟩ slot hslot
    cases settled with
    | @record _ _ size hslots hplaced hsize =>
      have hbytes : (Dest.record surface slots).bytes = size := Dest.bytes_of_is hsize
      rw [hbytes] at hfit
      obtain ⟨p, hp, -, hend⟩ := hplaced.of_mem hslot
      exact ⟨hslots slot hslot, _, hd.farther hp (by omega), hd'.farther hp (by omega), by omega⟩
  tag := by
    rintro surface cases offset decodedAt d d' ⟨settled, k, hd, hd', hfit⟩
    cases settled with
    | @variant _ _ _ p size _ _ htag _ hpn hsize =>
      have hbytes : (Dest.variant surface cases offset offset).bytes = size :=
        Dest.bytes_of_is hsize
      rw [hbytes] at hfit
      exact ⟨k, hd, hd', by omega⟩
  payload := by
    rintro surface cases offset decodedAt d d' ⟨settled, k, hd, hd', hfit⟩ c hc
    cases settled with
    | @variant _ _ _ p size hcases hoffset _ hfits _ hsize =>
      have hbytes : (Dest.variant surface cases offset offset).bytes = size :=
        Dest.bytes_of_is hsize
      rw [hbytes] at hfit
      have hpayload := hfits c hc
      exact ⟨hcases c hc, _, hd.farther hoffset (by omega), hd'.farther hoffset (by omega),
        by omega⟩

end Plan

end Relayout
