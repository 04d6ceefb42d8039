import Relayout.Desc.Codec
import Relayout.Proofs.History

/-!
# Converters and their ranges

A converter that was built carries the plan of its pair and the extent of the
source. Its range checks compare doubles. For sizes that the layout can compute
they accept just the ranges that begin at a natural number and end within the
memory, both taken as exact numbers.
-/

namespace Relayout

open Relayout.Num

/-- The `size` bytes from `start` on lie within `length` bytes. -/
def InRange (length : Nat) (start size : Num) : Prop :=
  ∃ n k, start.Is n ∧ size.Is k ∧ n + k ≤ length

namespace Converter

/-! ## What was built -/

/-- A converter that was built has the plan and the extent of its pair. -/
structure BuiltFor (c : Converter) (dest : Dest) (desc : Desc) : Prop where
  same : c.dest = dest
  plan : Plan.Built dest desc c.compiled.plan
  strict : c.compiled.strict = c.compiled.plan
  extent : dest.sourceExtent desc = .ok c.sourceSize

theorem builtFor_of_build {dest : Dest} {desc : Desc} {options : Layer} {c : Converter}
    (h : (build dest desc options).result = .ok c) : c.BuiltFor dest desc := by
  obtain ⟨config, -, h⟩ := Traced.result_bind_eq_ok.mp h
  obtain ⟨compiled, hcompiled, h⟩ := Traced.result_bind_eq_ok.mp h
  cases h
  obtain ⟨hplan, hstrict, hextent⟩ := Compiled.build_ok hcompiled
  exact ⟨rfl, ⟨[], hplan⟩, hstrict, hextent⟩

/-- A build comes to a converter with the options it was given. -/
theorem config_of_build {dest : Dest} {desc : Desc} {options : Layer} {c : Converter}
    (h : (build dest desc options).result = .ok c) : options.resolve = .ok c.config := by
  obtain ⟨config, hconfig, h⟩ := Traced.result_bind_eq_ok.mp h
  obtain ⟨compiled, -, h⟩ := Traced.result_bind_eq_ok.mp h
  cases h
  exact Plan.result_ofCause.mp hconfig

def trail (c : Converter) (policy : UnknownTagPolicy) (src : History) (s d : Num) : Trail :=
  c.compiled.plan.trail c.config.byteOrder policy src s d

/-- Once the ranges are accepted, an application replays its trail. -/
theorem runAs_eq {c : Converter} {policy : UnknownTagPolicy} {src dst : Memory} {s d : Num}
    (h : c.checkRanges src.size dst.size s d = .ok ()) :
    c.runAs policy src dst s d = (c.trail policy src s d).on dst := by
  rw [runAs, h]
  exact Plan.run_eq c.config.byteOrder policy src c.compiled.plan s d dst

/-- What a conversion makes of its run: the fault, or the value that was written. -/
def decoded (c : Converter) (r : Run) : Except Fault Value :=
  match r.stop with
  | some f => .error f
  | none => c.dest.decode r.memory c.config.byteOrder 0

/-- Once the ranges are accepted, a conversion replays the strict trail on fresh memory. -/
theorem convert_eq {c : Converter} (strict : c.compiled.strict = c.compiled.plan) {src : Memory}
    {s : Num} {n : Nat} (hn : c.dest.size.Is n) (hlimit : n < exactLimit)
    (h : c.checkRanges src.size n s 0 = .ok ()) :
    c.convert src s = c.decoded ((c.trail .fail src s 0).on (.zeros n)) := by
  rw [convert, hn.index? hlimit, strict]
  simp only [h]
  rw [Plan.run_eq, trail, decoded]
  split
  · rename_i hrun
    rw [hrun]
  · rename_i hrun
    rw [hrun]

/-! ## Range checks -/

variable {side : Side} {length : Nat} {start size : Num} {k : Nat}

/-- What a failed range check reports. -/
def outside (side : Side) (length : Nat) (start size : Num) : Cause :=
  .outOfBounds side start (start + size) (.ofNat length)

theorem checkRange_error {cause : Cause} (h : checkRange side length start size = .error cause) :
    cause = outside side length start size := by
  simp only [checkRange] at h
  split at h
  · cases h
    rfl
  · cases h

theorem checkRange_ok (hlength : length < exactLimit) (hsize : size.Tracks k) :
    checkRange side length start size = .ok () ↔ ∃ n, start.Is n ∧ n + k ≤ length := by
  have hlen := is_ofNat hlength.le
  simp only [checkRange, Bool.or_eq_true, Bool.not_eq_true']
  constructor
  · intro h
    split at h
    · cases h
    · rename_i hok
      simp only [not_or, Bool.not_eq_false, Bool.not_eq_true] at hok
      obtain ⟨⟨hwhole, hpos⟩, hend⟩ := hok
      obtain ⟨n, hn⟩ := isWhole_not_lt_iff.mp ⟨hwhole, hpos⟩
      have hlt := lt_iff hlen hlength ((tracks_of_is hn).add hsize)
      rw [hend] at hlt
      simp only [Bool.false_eq_true, false_iff] at hlt
      exact ⟨n, hn, by omega⟩
  · rintro ⟨n, hn, hle⟩
    obtain ⟨hwhole, hpos⟩ := isWhole_not_lt_iff.mpr ⟨n, hn⟩
    have hlt := lt_iff hlen hlength ((tracks_of_is hn).add hsize)
    rw [if_neg]
    simp only [hwhole, hpos, hlt, Bool.true_eq_false, Bool.false_eq_true, false_or]
    omega

/-- **A range check accepts exactly the ranges within the memory.** -/
theorem checkRange_iff (hlength : length < exactLimit) (hsize : size.Tracks k) :
    checkRange side length start size = .ok () ↔ InRange length start size := by
  rw [checkRange_ok hlength hsize]
  constructor
  · rintro ⟨n, hn, hle⟩
    exact ⟨n, k, hn, hsize.is (by omega), hle⟩
  · rintro ⟨n, j, hn, hj, hle⟩
    rw [hsize.eq_of_is hj (by omega)]
    exact ⟨n, hn, hle⟩

/-- Ranges that are accepted one by one are accepted together. -/
theorem checkRanges_of_ok {c : Converter} {srcLength dstLength : Nat} {s d : Num}
    (hs : checkRange .source srcLength s c.sourceSize = .ok ())
    (hd : checkRange .destination dstLength d c.dest.size = .ok ()) :
    c.checkRanges srcLength dstLength s d = .ok () := by
  rw [checkRanges, hs, hd]
  split
  · rfl
  · rfl

end Converter

/-! ## A sample pair -/

theorem eq_ok_get {ε α : Type} {x : Except ε α} (h : x.toOption.isSome = true) :
    x = .ok (x.toOption.get h) := by
  cases x with
  | ok a => rfl
  | error e => cases h

theorem eq_ok_unit {ε : Type} {x : Except ε Unit} (h : x.isOk = true) : x = .ok () := by
  cases x with
  | ok a => rfl
  | error e => cases h

/-- What went wrong, if anything did. -/
def error? {ε α : Type} : Except ε α → Option ε
  | .error e => some e
  | .ok _ => none

theorem error?_eq_some {ε α : Type} {x : Except ε α} {e : ε} :
    error? x = some e ↔ x = .error e := by
  cases x with
  | ok a => simp [error?]
  | error e => simp [error?]

namespace Sample

/-- A reading is either idle or a level. -/
def reading : Except Dest.Invalid Dest :=
  Dest.variantOf [("idle", .ofPrim .unit), ("level", .ofPrim .int32)] [("level", 7)]

/-- A flag and a reading. -/
def dest : Dest :=
  .recordOf [("flag", .ofPrim .byte), ("reading", reading.toOption.get (by decide +kernel))]

/-- In the source the reading comes first, is always a level, and is narrower. -/
def source : Desc :=
  .struct [⟨"reading", 4, .variant [⟨"level", 3, .prim "short"⟩]⟩, ⟨"flag", 0, .prim "byte"⟩]

/-- The descriptor, as it is read from its document. -/
def desc : Desc :=
  (Desc.decode source.encode).toOption.get (by decide +kernel)

/-- Unknown tags are ignored. -/
def options : Layer :=
  ⟨none, none, some (.str "ignore")⟩

def converter : Converter :=
  (Converter.build dest desc options).result.toOption.get (by decide +kernel)

/-- The flag 1 and the level -2. -/
def bytes : Memory :=
  ⟨#[1, 0, 0, 0, 3, 0, 0, 0, 0xFE, 0xFF, 0, 0]⟩

theorem made : dest.Made := by
  have hreading : ∀ d, reading = .ok d → d.Made := by
    intro d hd
    refine .variant (by decide +kernel) ?_ hd
    simpa using ⟨Dest.Made.prim _, Dest.Made.prim _⟩
  refine .record (by decide +kernel) ?_
  simpa using ⟨Dest.Made.prim _, hreading _ (eq_ok_get _)⟩

theorem small : dest.Small := by decide +kernel

theorem decoded : Desc.decode source.encode = .ok desc :=
  eq_ok_get _

theorem desc_small : desc.Small := by decide +kernel

theorem built : (Converter.build dest desc options).result = .ok converter :=
  eq_ok_get _

theorem addressable : bytes.Addressable := by
  rw [Memory.Addressable]
  decide

theorem extent : converter.sourceSize.Is 10 := by
  rw [Is]
  decide +kernel

end Sample

end Relayout
