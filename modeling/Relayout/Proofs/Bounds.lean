import Relayout.Proofs.Interpret

/-!
# One range check is enough

A call that checks its ranges reports the one that is out of bounds before the
first byte moves. Once the ranges are accepted, no step of the plan leaves them:
every access succeeds, and only an unknown tag is left to stop the run.
-/

namespace Relayout

open Relayout.Num

def Fault.reason? : Fault → Option Reason
  | .failure f => some f.reason
  | .defect _ => none

/-- The trail keeps to `k` bytes of the source from `n` on and to `w` bytes of
the destination from `o` on, and it is stopped by an unknown tag alone. -/
structure Trail.Within (policy : UnknownTagPolicy) (t : Trail) (n k o w : Nat) : Prop where
  reads : t.All (Step.ReadsWithin n (n + k))
  writes : t.All (Step.WritesWithin o (o + w))
  ends : t.stop = none ∨ policy = .fail ∧ ∃ tag, t.stop = some (Fault.unknownTag tag)

namespace Converter

variable {c : Converter} {src dst : Memory} {s t : Num}

/-! ## Ranges that are refused -/

theorem checkRange_of_not {side : Side} {length : Nat} {start size : Num} {k : Nat}
    (hlength : length < exactLimit) (hsize : size.Tracks k) (h : ¬InRange length start size) :
    checkRange side length start size = .error (outside side length start size) := by
  cases hcheck : checkRange side length start size with
  | ok _ => exact absurd ((checkRange_iff hlength hsize).mp hcheck) h
  | error cause => rw [checkRange_error hcheck]

theorem apply_of_error {cause : Cause} (h : c.checkRanges src.size dst.size s t = .error cause) :
    c.apply src dst s t = .stopped dst (.failure cause.failure) := by
  rw [apply, runAs, h]

theorem convert_of_error {cause : Cause} {n : Nat} (hn : c.dest.size.Is n) (hlimit : n < exactLimit)
    (h : c.checkRanges src.size n s 0 = .error cause) :
    c.convert src s = .error (.failure cause.failure) := by
  rw [convert, hn.index? hlimit]
  simp only [h]

/-! ## Ranges that are accepted -/

section

variable {desc : Desc} (laid : c.dest.Laid) (valid : desc.Valid) (hsmall : desc.Small)
  (built : c.BuiltFor c.dest desc) (hsrc : src.Addressable)

include laid valid hsmall built hsrc

/-- A trail whose reach lies within the source and whose type fits keeps to both. -/
theorem trail_within {n o : Nat} (hn : s.Is n) (hfit : n + c.dest.reach desc ≤ src.size)
    (ho : t.Is o) (hend : o + c.dest.bytes < exactLimit) (policy : UnknownTagPolicy) :
    (c.trail policy src s t).Within policy n (c.dest.reach desc) o c.dest.bytes := by
  have hreads := trail_reads laid valid hsmall built hsrc hn hfit policy t
  have hwrites := trail_writes laid built policy src s ho hend
  exact ⟨hreads.within, hwrites.within, hreads.ends⟩

/-- The exact numbers of an accepted source range. -/
theorem source_inRange (h : InRange src.size s c.sourceSize) :
    ∃ n, s.Is n ∧ c.sourceSize.Is (c.dest.reach desc) ∧ n + c.dest.reach desc ≤ src.size ∧
      checkRange .source src.size s c.sourceSize = .ok () := by
  have hextent := Dest.sourceExtent_tracks laid valid hsmall built.extent
  have hcheck : checkRange .source src.size s c.sourceSize = .ok () :=
    (checkRange_iff hsrc hextent).mpr h
  obtain ⟨n, k, hn, hk, hfit⟩ := h
  rw [Memory.Addressable] at hsrc
  have hreach : c.dest.reach desc = k := hextent.eq_of_is hk (by omega)
  exact ⟨n, hn, hreach ▸ hk, hreach ▸ hfit, hcheck⟩

end

/-! ## Checked calls -/

/-- What becomes of an application that checks its ranges. -/
structure ApplyChecked (c : Converter) (src dst : Memory) (s t : Num) : Prop where
  /-- A source range that is out of bounds is reported, and nothing is written. -/
  source : ¬InRange src.size s c.sourceSize → c.apply src dst s t =
    .stopped dst (.failure (outside .source src.size s c.sourceSize).failure)
  /-- Then a destination range that is out of bounds is reported, and nothing is written. -/
  destination : InRange src.size s c.sourceSize → ¬InRange dst.size t c.dest.size →
    c.apply src dst s t =
      .stopped dst (.failure (outside .destination dst.size t c.dest.size).failure)
  /-- Within its ranges an application takes the steps of its trail, which keeps to them. -/
  inside : InRange src.size s c.sourceSize → InRange dst.size t c.dest.size →
    ∃ n k o w, s.Is n ∧ c.sourceSize.Is k ∧ t.Is o ∧ c.dest.size.Is w ∧
      c.apply src dst s t = (c.trail c.config.unknownTag src s t).on dst ∧
      (c.trail c.config.unknownTag src s t).Within c.config.unknownTag n k o w
  /-- Only an unknown tag stops it there, and only if the policy says so. -/
  ends : InRange src.size s c.sourceSize → InRange dst.size t c.dest.size →
    (c.apply src dst s t).stop = none ∨ c.config.unknownTag = .fail ∧
      ∃ tag, (c.apply src dst s t).stop = some (Fault.unknownTag tag)
  /-- Nothing else is reported as out of bounds. -/
  reported : (c.apply src dst s t).stop.bind Fault.reason? = some .outOfBounds ↔
    ¬(InRange src.size s c.sourceSize ∧ InRange dst.size t c.dest.size)

/-- What becomes of a conversion that checks its range. -/
structure ConvertChecked (c : Converter) (src : Memory) (s : Num) : Prop where
  /-- A source range that is out of bounds is reported. -/
  source : ¬InRange src.size s c.sourceSize → c.convert src s =
    .error (.failure (outside .source src.size s c.sourceSize).failure)
  /-- Within its range a conversion takes the steps of its trail, which keeps to
  the range and to the fresh memory. -/
  inside : InRange src.size s c.sourceSize →
    ∃ n k w, s.Is n ∧ c.sourceSize.Is k ∧ c.dest.size.Is w ∧
      c.convert src s = c.decoded ((c.trail .fail src s 0).on (.zeros w)) ∧
      (c.trail .fail src s 0).Within .fail n k 0 w
  /-- It yields a value there, or fails with an unknown tag under either policy. -/
  ends : InRange src.size s c.sourceSize →
    (∃ v, c.convert src s = .ok v) ∨ ∃ tag, c.convert src s = .error (Fault.unknownTag tag)

section

variable {desc : Desc} (laid : c.dest.Laid) (valid : desc.Valid) (hsmall : desc.Small)
  (built : c.BuiltFor c.dest desc) (hsrc : src.Addressable)

include laid valid hsmall built hsrc

theorem apply_source_outside (hbounds : c.config.boundsCheck = true)
    (h : ¬InRange src.size s c.sourceSize) : c.apply src dst s t =
      .stopped dst (.failure (outside .source src.size s c.sourceSize).failure) := by
  have hextent := Dest.sourceExtent_tracks laid valid hsmall built.extent
  refine apply_of_error ?_
  rw [checkRanges, if_pos hbounds, checkRange_of_not hsrc hextent h]
  rfl

theorem apply_destination_outside (hbounds : c.config.boundsCheck = true) (hdst : dst.Addressable)
    (hin : InRange src.size s c.sourceSize) (h : ¬InRange dst.size t c.dest.size) :
    c.apply src dst s t =
      .stopped dst (.failure (outside .destination dst.size t c.dest.size).failure) := by
  obtain ⟨-, -, -, -, hs⟩ := source_inRange laid valid hsmall built hsrc hin
  refine apply_of_error ?_
  rw [checkRanges, if_pos hbounds, hs, checkRange_of_not hdst (tracks_of_is laid.size_is.1) h]
  rfl

/-- In range, the exact numbers of the ranges bound the trail that is replayed. -/
theorem apply_inside (hdst : dst.Addressable) (hin : InRange src.size s c.sourceSize)
    (hin' : InRange dst.size t c.dest.size) :
    ∃ n k o w, s.Is n ∧ c.sourceSize.Is k ∧ t.Is o ∧ c.dest.size.Is w ∧ o + w ≤ dst.size ∧
      c.apply src dst s t = (c.trail c.config.unknownTag src s t).on dst ∧
      (c.trail c.config.unknownTag src s t).Within c.config.unknownTag n k o w := by
  obtain ⟨hsize, hlimit⟩ := laid.size_is
  obtain ⟨n, hn, hk, hfit, hs⟩ := source_inRange laid valid hsmall built hsrc hin
  have hd : checkRange .destination dst.size t c.dest.size = .ok () :=
    (checkRange_iff hdst (tracks_of_is hsize)).mpr hin'
  obtain ⟨o, ho, hfit'⟩ := (checkRange_ok hdst (tracks_of_is hsize)).mp hd
  refine ⟨n, _, o, _, hn, hk, ho, hsize, hfit', runAs_eq (checkRanges_of_ok hs hd), ?_⟩
  exact trail_within laid valid hsmall built hsrc hn hfit ho (Nat.lt_of_le_of_lt hfit' hdst) _

theorem apply_ends (hdst : dst.Addressable) (hin : InRange src.size s c.sourceSize)
    (hin' : InRange dst.size t c.dest.size) :
    (c.apply src dst s t).stop = none ∨ c.config.unknownTag = .fail ∧
      ∃ tag, (c.apply src dst s t).stop = some (Fault.unknownTag tag) := by
  obtain ⟨n, k, o, w, -, -, -, -, hfit, happly, hwithin⟩ :=
    apply_inside laid valid hsmall built hsrc hdst hin hin'
  rw [happly, (Trail.on_ends hdst hwithin.writes hfit).1]
  exact hwithin.ends

theorem applyChecked_of_valid (hbounds : c.config.boundsCheck = true) (hdst : dst.Addressable) :
    c.ApplyChecked src dst s t := by
  have hsource : ¬InRange src.size s c.sourceSize → c.apply src dst s t = _ :=
    apply_source_outside laid valid hsmall built hsrc hbounds
  have hdestination : InRange src.size s c.sourceSize → ¬InRange dst.size t c.dest.size → _ :=
    apply_destination_outside laid valid hsmall built hsrc hbounds hdst
  have hends : InRange src.size s c.sourceSize → InRange dst.size t c.dest.size → _ :=
    apply_ends laid valid hsmall built hsrc hdst
  constructor
  case source => exact hsource
  case destination => exact hdestination
  case ends => exact hends
  case inside =>
    intro hin hin'
    obtain ⟨n, k, o, w, hn, hk, ho, hw, -, happly, hwithin⟩ :=
      apply_inside laid valid hsmall built hsrc hdst hin hin'
    exact ⟨n, k, o, w, hn, hk, ho, hw, happly, hwithin⟩
  case reported =>
    constructor
    · -- an unknown tag is reported for another reason
      rintro hreported ⟨hin, hin'⟩
      rcases hends hin hin' with hstop | ⟨-, tag, hstop⟩
      · rw [hstop] at hreported
        cases hreported
      · rw [hstop] at hreported
        cases hreported
    · intro h
      by_cases hin : InRange src.size s c.sourceSize
      · rw [hdestination hin fun hin' => h ⟨hin, hin'⟩]
        rfl
      · rw [hsource hin]
        rfl

theorem convertChecked_of_valid (hbounds : c.config.boundsCheck = true) :
    c.ConvertChecked src s := by
  obtain ⟨hsize, hlimit⟩ := laid.size_is
  have hextent := Dest.sourceExtent_tracks laid valid hsmall built.extent
  have hchecks : c.checkRanges src.size c.dest.bytes s 0 =
      checkRange .source src.size s c.sourceSize := by
    rw [checkRanges_fresh hsize hlimit, if_pos hbounds]
  have hzero : (0 : Num).Is 0 := is_ofNat (Nat.zero_le _)
  have hwithin : ∀ {n : Nat}, s.Is n → n + c.dest.reach desc ≤ src.size →
      (c.trail .fail src s 0).Within .fail n (c.dest.reach desc) 0 c.dest.bytes := fun hn hfit =>
    trail_within laid valid hsmall built hsrc hn hfit hzero (by omega) .fail
  refine ⟨fun h => ?_, fun hin => ?_, fun hin => ?_⟩
  · refine convert_of_error hsize hlimit ?_
    rw [hchecks, checkRange_of_not hsrc hextent h]
  · obtain ⟨n, hn, hk, hfit, hs⟩ := source_inRange laid valid hsmall built hsrc hin
    exact ⟨n, _, _, hn, hk, hsize, convert_eq built.strict hsize hlimit (hchecks.trans hs), hwithin hn hfit⟩
  · obtain ⟨n, hn, -, hfit, hs⟩ := source_inRange laid valid hsmall built hsrc hin
    have hconvert := (convert_of_valid laid valid hsmall built hsrc hn hfit hs).2
    rcases (hwithin hn hfit).ends with hstop | ⟨-, tag, hstop⟩
    · rw [hstop] at hconvert
      exact Or.inl hconvert
    · rw [hstop] at hconvert
      exact Or.inr ⟨tag, hconvert⟩

end

/-- **One range check is enough.** A call that checks its ranges either reports
a range that is out of bounds and leaves the destination as it was, or keeps to
its ranges and is stopped by an unknown tag alone. -/
theorem calls_checked {dest : Dest} (made : dest.Made) (small : dest.Small) {document : Text}
    {desc : Desc} (hdesc : Desc.decode document = .ok desc) (hsmall : desc.Small) {options : Layer}
    {c : Converter} (hbuild : (build dest desc options).result = .ok c)
    (hbounds : c.config.boundsCheck = true) {src dst : Memory} (hsrc : src.Addressable)
    (hdst : dst.Addressable) (s t : Num) :
    c.ApplyChecked src dst s t ∧ c.ConvertChecked src s := by
  have laid := Dest.laid_of_made made small
  have valid := Desc.valid_of_decode hdesc
  have built := builtFor_of_build hbuild
  cases built.same
  exact ⟨applyChecked_of_valid laid valid hsmall built hsrc hbounds hdst,
    convertChecked_of_valid laid valid hsmall built hsrc hbounds⟩

theorem calls_checked_sample :
    Sample.converter.config.boundsCheck = true ∧
      Sample.converter.ApplyChecked Sample.bytes (.zeros 16) 0 4 ∧
      Sample.converter.ConvertChecked Sample.bytes 0 := by
  have hbounds : Sample.converter.config.boundsCheck = true := by decide +kernel
  have hdst : (Memory.zeros 16).Addressable := by
    rw [Memory.Addressable]
    decide
  exact ⟨hbounds, calls_checked Sample.made Sample.small Sample.decoded Sample.desc_small
    Sample.built hbounds Sample.addressable hdst 0 4⟩

/-- The flag 1 and a reading of an unknown tag. -/
def unknownReading : Memory :=
  ⟨#[1, 0, 0, 0, 9, 0, 0, 0, 0, 0, 0, 0]⟩

/-- A conversion fails with an unknown tag although unknown tags are ignored: it
would have no value to yield. -/
theorem convert_fails_when_ignored :
    Sample.dest.Made ∧ Sample.dest.Small ∧ Desc.decode Sample.source.encode = .ok Sample.desc ∧
      Sample.desc.Small ∧
      (build Sample.dest Sample.desc Sample.options).result = .ok Sample.converter ∧
      Sample.converter.config.boundsCheck = true ∧ Sample.converter.config.unknownTag = .ignore ∧
      InRange unknownReading.size 0 Sample.converter.sourceSize ∧
      ∃ f, Sample.converter.convert unknownReading 0 = .error f ∧
        f.reason? = some .unknownTag := by
  have hrange : InRange unknownReading.size 0 Sample.converter.sourceSize := by
    refine ⟨0, 10, is_ofNat (Nat.zero_le _), ?_, by decide⟩
    rw [Is]
    decide +kernel
  have hreason : (error? (Sample.converter.convert unknownReading 0)).bind Fault.reason? =
      some .unknownTag := by
    decide +kernel
  obtain ⟨f, hconvert, hreason⟩ := Option.bind_eq_some_iff.mp hreason
  exact ⟨Sample.made, Sample.small, Sample.decoded, Sample.desc_small, Sample.built,
    by decide +kernel, by decide +kernel, hrange, f, error?_eq_some.mp hconvert, hreason⟩

end Converter

end Relayout
