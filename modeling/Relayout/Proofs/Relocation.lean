import Relayout.Proofs.Abreast
import Relayout.Proofs.Frame
import Relayout.Proofs.Interpret

/-!
# Conversions that are moved

A conversion depends on nothing but the bytes of its extent, and not on where anything
lies. What is converted into fresh memory needs no more than these bytes. What is
written into a window also depends on which of them are written over meanwhile: two
calls do the same if their source and destination windows share bytes alike.
-/

namespace Relayout

open Relayout.Num

/-! ## Windows that change in a part -/

namespace Memory

variable {before m m' : Memory} {o width : Nat}

/-- A memory differs from the former one in the `width` bytes from `o` on at most. -/
structure ChangedIn (o width : Nat) (before m : Memory) : Prop where
  size : m.size = before.size
  outside : ∀ i : Nat, ¬(o ≤ i ∧ i < o + width) → m.bytes[i]? = before.bytes[i]?

theorem ChangedIn.store (h : ChangedIn o width before m) {k : Nat} {d : Num} (hd : d.Is (o + k))
    {bytes : List UInt8} (hk : k + bytes.length ≤ width) (hlimit : o + width < exactLimit)
    (hstore : m.store d bytes = .ok m') : ChangedIn o width before m' := by
  refine ⟨(size_of_store hstore).trans h.size, fun i hi => ?_⟩
  obtain ⟨p, hp, -, hover⟩ := getElem?_store hstore
  have hlt : o + k < exactLimit := by omega
  obtain rfl : o + k = p := Option.some.inj ((hd.index? hlt).symm.trans hp)
  rw [hover, if_neg (by omega)]
  exact h.outside i hi

end Memory

/-- Byte `i` from `s` on in one window is byte `j` from `t` on in the other. -/
def Window.Meets (w w' : Window) (s t : Num) (i j : Nat) : Prop :=
  ∃ n o, s.Is n ∧ t.Is o ∧ w.Shares w' (n + i) (o + j)

theorem Window.meets_iff {w w' : Window} {s t : Num} {n o : Nat} (hs : s.Is n) (ht : t.Is o)
    {i j : Nat} : w.Meets w' s t i j ↔ w.Shares w' (n + i) (o + j) := by
  constructor
  · rintro ⟨n', o', hs', ht', h⟩
    rwa [hs.unique hs', ht.unique ht']
  · exact fun h => ⟨n, o, hs, ht, h⟩

namespace Heap

variable {heap heap' : Heap} {src src' dst dst' : Window} {n n' width o o' room : Nat}

/-- What a window shows of a byte that is not among those that change. -/
theorem getElem?_shown_of_changedIn (holds : heap.Holds dst) {m : Memory}
    (h : Memory.ChangedIn o room (heap.shown dst) m) {i : Nat}
    (hi : ∀ j < room, ¬src.Shares dst i (o + j)) :
    ((heap.put dst m).shown src).bytes[i]? = (heap.shown src).bytes[i]? := by
  have hm : m.size = dst.length := h.size.trans (size_shown holds)
  by_cases hij : ∃ j, src.Shares dst i j
  · obtain ⟨j, hij⟩ := hij
    have hout : ¬(o ≤ j ∧ j < o + room) := by
      rintro ⟨hlo, hhi⟩
      obtain ⟨p, rfl⟩ := Nat.exists_eq_add_of_le hlo
      exact hi p (by omega) hij
    have hbefore := getElem?_shown_of_shares holds (size_shown holds) hij
    rw [put_shown holds] at hbefore
    rw [getElem?_shown_of_shares holds hm hij, h.outside j hout, hbefore]
  · rw [not_exists] at hij
    exact getElem?_shown_of_not_shares holds hm hij

/-- Two calls find the same at their places: the same bytes in both source windows, the same
bytes in both destination windows, and the former are shared with the latter alike. -/
structure Twins (heap heap' : Heap) (src src' dst dst' : Window) (n n' width o o' room : Nat) :
    Prop where
  holds : heap.Holds dst
  holds' : heap'.Holds dst'
  source : Memory.SameWindow n n' width (heap.shown src) (heap'.shown src')
  target : Memory.SameWindow o o' room (heap.shown dst) (heap'.shown dst')
  alike : ∀ i < width, ∀ j < room,
    src.Shares dst (n + i) (o + j) ↔ src'.Shares dst' (n' + i) (o' + j)

/-- What both destination windows hold meanwhile: still the same bytes at the places, and
elsewhere the former ones. -/
structure Meanwhile (o o' room : Nat) (before before' m m' : Memory) : Prop where
  same : Memory.SameWindow o o' room m m'
  changed : Memory.ChangedIn o room before m
  changed' : Memory.ChangedIn o' room before' m'

/-- **Twin calls are in step.** -/
theorem Twins.inStep (h : Twins heap heap' src src' dst dst' n n' width o o' room) :
    Plan.InStep (heap.source src dst) (heap'.source src' dst') n n' width
      (Num.Beside o o' room) (Meanwhile o o' room (heap.shown dst) (heap'.shown dst')) := by
  obtain ⟨holds, holds', hsource, htarget, halike⟩ := h
  constructor
  case shows =>
    rintro m m' ⟨hsame, hchanged, hchanged'⟩
    have hsize : ((heap.put dst m).shown src).size = (heap.shown src).size := size_shown_put
    have hsize' : ((heap'.put dst' m').shown src').size = (heap'.shown src').size :=
      size_shown_put
    obtain ⟨haddr, haddr', hfits, hfits', hbytes⟩ := hsource
    refine ⟨?_, ?_, hsize ▸ hfits, hsize' ▸ hfits', Memory.slice_eq_iff.mpr fun i hi => ?_⟩
    · exact hsize.trans_lt haddr
    · exact hsize'.trans_lt haddr'
    show ((heap.put dst m).shown src).bytes[n + i]? = ((heap'.put dst' m').shown src').bytes[n' + i]?
    by_cases hij : ∃ j < room, src.Shares dst (n + i) (o + j)
    · -- the byte is written over in both calls or in neither
      obtain ⟨j, hj, hij⟩ := hij
      rw [getElem?_shown_of_shares holds (hchanged.size.trans (size_shown holds)) hij,
        getElem?_shown_of_shares holds' (hchanged'.size.trans (size_shown holds'))
          ((halike i hi j hj).mp hij)]
      exact Memory.slice_eq_iff.mp hsame.same j hj
    · have hout : ∀ j < room, ¬src.Shares dst (n + i) (o + j) := fun j hj h => hij ⟨j, hj, h⟩
      rw [getElem?_shown_of_changedIn holds hchanged hout,
        getElem?_shown_of_changedIn holds' hchanged' fun j hj h =>
          hout j hj ((halike i hi j hj).mpr h)]
      exact Memory.slice_eq_iff.mp hbytes i hi
  case writes =>
    rintro m m' d d' bytes ⟨hsame, hchanged, hchanged'⟩ ⟨k, hd, hd', hk⟩
    have hlimit : o + room < exactLimit := htarget.fits.trans_lt htarget.addressable
    have hlimit' : o' + room < exactLimit := htarget.fits'.trans_lt htarget.addressable'
    obtain ⟨p, p', hstore, hstore', hp⟩ := hsame.store hd hd' hk
    rw [hstore, hstore']
    exact ⟨rfl, rfl, hp, hchanged.store hd hk hlimit hstore,
      hchanged'.store hd' hk hlimit' hstore'⟩

/-- What a call finds in its source window has the length of the window. -/
theorem sized_of {found : History} {p : Program} {t : Trail} {m : Memory}
    (hof : found.Of (heap.source src dst) p t m) : found.Sized (heap.shown src).size := by
  intro place
  obtain ⟨m', -, hplace⟩ := hof.moments place
  rw [hplace]
  exact size_shown_put

end Heap

/-! ## Calls -/

namespace Converter

/-- Two calls at places that held the same bytes. The first was to write at `t` in a window, the
second at `t'` in another. -/
structure SameEnds (c : Converter) (call call' : Call) (w w' : Window) (t t' : Num) : Prop where
  /-- Nothing but an unknown tag stops them. -/
  ends : call.stop = none ∨
    c.config.unknownTag = .fail ∧ ∃ tag, call.stop = some (Fault.unknownTag tag)
  /-- Both end the same way. -/
  stop : call.stop = call'.stop
  /-- Both report the same. -/
  events : call.events = call'.events
  /-- Both leave the same bytes. -/
  bytes : ∃ after, (call.heap.shown w).Shows t c.dest.size after ∧
    (call'.heap.shown w').Shows t' c.dest.size after

/-- With the extent and the value in its windows, a call runs the program of its converter. -/
theorem apply_eq_program {c : Converter} {heap : Heap} {src dst : Window} {s t : Num}
    {n k o w : Nat} (hn : s.Is n) (hk : c.sourceSize.Is k) (hsrc : src.length < exactLimit)
    (hfits : n + k ≤ (heap.shown src).size) (ho : t.Is o) (hw : c.dest.size.Is w)
    (hdst : (heap.shown dst).Addressable) (hinside : o + w ≤ (heap.shown dst).size) :
    c.apply (heap.source src dst) (heap.shown dst) s t =
      c.program c.config.unknownTag s t (heap.source src dst) (heap.shown dst) := by
  have hlength := Heap.size_shown_le heap src
  have hchecks : c.checkRanges src.length (heap.shown dst).size s t = .ok () :=
    checkRanges_of_ok ((checkRange_ok hsrc (tracks_of_is hk)).mpr ⟨n, hn, by omega⟩)
      ((checkRange_ok hdst (tracks_of_is hw)).mpr ⟨o, ho, hinside⟩)
  rw [apply, runAs]
  simp only [Heap.source, hchecks]
  rfl

section

variable {c : Converter} {desc : Desc} {s s' t t' : Num} {n n' k o o' w : Nat}
  (made : c.dest.Made) (valid : desc.Valid) (built : c.BuiltFor c.dest desc)

include made valid built

/-- The extent of a range within the source is exact, and so is all that is read. -/
theorem measured_of_is (hk : c.sourceSize.Is k) (hlimit : k < exactLimit) :
    c.dest.Measured desc ∧ c.dest.reach desc = k := by
  have counted := Dest.counted_of_made made
  obtain ⟨measured, hreach⟩ :=
    (Dest.extentMeasures_of_counted counted built.plan valid built.extent).2 (small_of_is hk hlimit)
  exact ⟨measured, hreach.unique hk⟩

/-- The same source bytes are converted to the same value, or fail alike. -/
theorem convert_moved {src src' : Memory} (hn : s.Is n) (hn' : s'.Is n') (hk : c.sourceSize.Is k)
    (hsame : Memory.SameWindow n n' k src src') : c.convert src s = c.convert src' s' := by
  obtain ⟨haddr, haddr', hfits, hfits', -⟩ := id hsame
  obtain ⟨measured, hreach⟩ :=
    measured_of_is made valid built hk (by rw [Memory.Addressable] at haddr; omega)
  cases hsize : c.dest.size.index? with
  | none => rw [convert, convert, hsize]
  | some size =>
      have hchecks : c.checkRanges src.size size s 0 = c.checkRanges src'.size size s' 0 := by
        rw [checkRanges, checkRanges, (checkRange_ok haddr (tracks_of_is hk)).mpr ⟨n, hn, hfits⟩,
          (checkRange_ok haddr' (tracks_of_is hk)).mpr ⟨n', hn', hfits'⟩]
      have step : Plan.InStep src src' n n' k (fun d d' _ => d = d') Eq := by
        refine ⟨fun _ => hsame, ?_⟩
        rintro m _ d _ bytes rfl rfl
        exact ⟨rfl, rfl, rfl⟩
      have hrun : c.compiled.plan.run c.config.byteOrder .fail src s 0 (.zeros size) =
          c.compiled.plan.run c.config.byteOrder .fail src' s' 0 (.zeros size) :=
        (Plan.moves_of_counted _ _ step Plan.faces_same (Dest.counted_of_made made) built.plan
          measured hn hn' (i := 0) (by omega) rfl rfl).eq
      rw [convert, convert, hsize, built.strict]
      simp only [hchecks, hrun]

omit made valid in
/-- Once the extent lies in the source window and the value in the destination window, nothing
but an unknown tag stops a run. -/
theorem program_ends (settled : c.dest.Settled) (measured : c.dest.Measured desc) {heap : Heap}
    {src dst : Window} (haddr : (heap.shown src).Addressable)
    (hroom : (heap.shown dst).Addressable) (hn : s.Is n)
    (hfits : n + c.dest.reach desc ≤ (heap.shown src).size) (ho : t.Is o)
    (hinside : o + c.dest.bytes ≤ (heap.shown dst).size) (policy : UnknownTagPolicy) :
    (c.program policy s t (heap.source src dst) (heap.shown dst)).stop = none ∨
      policy = .fail ∧ ∃ tag, (c.program policy s t (heap.source src dst) (heap.shown dst)).stop =
        some (Fault.unknownTag tag) := by
  obtain ⟨found, hof⟩ := Plan.exists_run c.config.byteOrder policy (heap.source src dst)
    c.compiled.plan s t (heap.shown dst)
  have hreads : Plan.Reads policy (c.trail policy found s t) n (n + c.dest.reach desc) :=
    Plan.reads_reach haddr settled.counted (Heap.sized_of hof) built.plan measured hn hfits
  have hwithin : (c.trail policy found s t).All (Step.WritesWithin o (o + c.dest.bytes)) :=
    (Plan.writes_footprint settled built.plan ho (hinside.trans_lt hroom)).within
  have hrun : c.program policy s t (heap.source src dst) (heap.shown dst) =
      (c.trail policy found s t).on (heap.shown dst) := hof.follows.run_eq
  rw [hrun, (Trail.on_ends hroom hwithin hinside).1]
  exact hreads.ends

/-- Calls at twin places end alike. -/
theorem applyIn_moved {heap heap' : Heap} {src src' dst dst' : Handle} (hn : s.Is n)
    (hn' : s'.Is n') (hk : c.sourceSize.Is k) (ho : t.Is o) (ho' : t'.Is o')
    (hw : c.dest.size.Is w) (hsrc : src.window.length < exactLimit)
    (hsrc' : src'.window.length < exactLimit)
    (twins : Heap.Twins heap heap' src.window src'.window dst.window dst'.window n n' k o o' w) :
    c.SameEnds (c.applyIn heap src dst s t) (c.applyIn heap' src' dst' s' t') dst.window
      dst'.window t t' := by
  have step := twins.inStep
  obtain ⟨holds, holds', ⟨haddr, haddr', hfits, hfits', -⟩, htarget, -⟩ := twins
  obtain ⟨hroom, hroom', hinside, hinside', -⟩ := id htarget
  have hlimit : o + w < exactLimit := hinside.trans_lt hroom
  have hlimit' : o' + w < exactLimit := hinside'.trans_lt hroom'
  have settled := Dest.settled_of_made made (small_of_is hw (by omega))
  obtain rfl := settled.size_is.1.unique hw
  have hextent : n + k < exactLimit := hfits.trans_lt haddr
  obtain ⟨measured, rfl⟩ := measured_of_is made valid built hk (by omega)
  have hrun := apply_eq_program hn hk hsrc hfits ho hw hroom hinside
  have hrun' := apply_eq_program hn' hk hsrc' hfits' ho' hw hroom' hinside'
  have hbegin : Heap.Meanwhile o o' c.dest.bytes (heap.shown dst.window)
      (heap'.shown dst'.window) (heap.shown dst.window) (heap'.shown dst'.window) :=
    ⟨htarget, ⟨rfl, fun _ _ => rfl⟩, ⟨rfl, fun _ _ => rfl⟩⟩
  obtain ⟨hstop, hevents, hsame, hchanged, hchanged'⟩ :=
    Plan.moves_of_counted c.config.byteOrder c.config.unknownTag step
      (Plan.faces_beside hlimit hlimit') settled.counted built.plan measured hn hn' (i := 0)
      (by omega) ⟨settled, 0, ho, ho', by omega⟩ hbegin
  obtain ⟨after, hshows, hshows'⟩ := hsame.shows ho ho' hw
  have hends := program_ends built settled measured haddr hroom hn hfits ho hinside
    c.config.unknownTag
  constructor
  case ends =>
    rw [applyIn, hrun]
    exact hends
  case stop =>
    rw [applyIn, applyIn, hrun, hrun']
    exact hstop
  case events =>
    rw [applyIn, applyIn, hrun, hrun']
    exact hevents
  case bytes =>
    have hleft : (c.applyIn heap src dst s t).heap.shown dst.window =
        (c.apply (heap.source src.window dst.window) (heap.shown dst.window) s t).memory :=
      Heap.shown_put holds (hrun ▸ hchanged.size.trans (Heap.size_shown holds))
    have hright : (c.applyIn heap' src' dst' s' t').heap.shown dst'.window =
        (c.apply (heap'.source src'.window dst'.window) (heap'.shown dst'.window) s' t').memory :=
      Heap.shown_put holds' (hrun' ▸ hchanged'.size.trans (Heap.size_shown holds'))
    rw [hleft, hright, hrun, hrun']
    exact ⟨after, hshows, hshows'⟩

end

/-- **A conversion depends on the bytes of its extent alone, and not on where anything lies.**
Two source windows that show the same bytes for the extent are converted alike. Applied to
destination windows that show the same bytes where the value goes, both calls end the same way
and leave the same bytes there, if the former bytes are shared with the latter alike. -/
theorem position_independent {dest : Dest} (made : dest.Made) {document : Text} {desc : Desc}
    (hdesc : Desc.decode document = .ok desc) {options : Layer} {c : Converter}
    (hbuild : (build dest desc options).result = .ok c) {heap heap' : Heap} {src src' : Handle}
    (hsrc : src.window.length < exactLimit) (hsrc' : src'.window.length < exactLimit) {s s' : Num}
    {seen : List UInt8} (hseen : (heap.shown src.window).Shows s c.sourceSize seen)
    (hseen' : (heap'.shown src'.window).Shows s' c.sourceSize seen) :
    c.convertIn heap src s = c.convertIn heap' src' s' ∧
      ∀ dst dst' : Handle, heap.Holds dst.window → heap'.Holds dst'.window →
        dst.window.length < exactLimit → dst'.window.length < exactLimit → ∀ t t' before,
        (heap.shown dst.window).Shows t c.dest.size before →
        (heap'.shown dst'.window).Shows t' c.dest.size before →
        (∀ i < seen.length, ∀ j < before.length, src.window.Meets dst.window s t i j ↔
          src'.window.Meets dst'.window s' t' i j) →
        c.SameEnds (c.applyIn heap src dst s t) (c.applyIn heap' src' dst' s' t') dst.window
          dst'.window t t' := by
  have valid := Desc.valid_of_decode hdesc
  have built := builtFor_of_build hbuild
  cases built.same
  have haddr : ∀ {heap : Heap} {w : Window}, w.length < exactLimit → (heap.shown w).Addressable :=
    fun hw => (Heap.size_shown_le _ _).trans_lt hw
  obtain ⟨n, n', k, hn, hn', hk, hlength, hsame⟩ := hseen.window (haddr hsrc) (haddr hsrc') hseen'
  refine ⟨convert_moved made valid built hn hn' hk hsame, ?_⟩
  intro dst dst' holds holds' hdst hdst' t t' before hbefore hbefore' halike
  obtain ⟨o, o', w, ho, ho', hw, hlength', hplaces⟩ :=
    hbefore.window (haddr hdst) (haddr hdst') hbefore'
  refine applyIn_moved made valid built hn hn' hk ho ho' hw hsrc hsrc'
    ⟨holds, holds', hsame, hplaces, fun i hi j hj => ?_⟩
  have hij := halike i (hlength ▸ hi) j (hlength' ▸ hj)
  rwa [Window.meets_iff hn ho, Window.meets_iff hn' ho'] at hij

/-- The buffers of the sample, three bytes farther in longer ones. -/
def movedHeap : Heap :=
  ⟨fun b => ⟨#[7, 7, 7] ++ (Sample.shared.buffer b).bytes ++ #[7]⟩⟩

/-- The sample is converted alike at both places. Applied in place, a source byte is written over
before it is read, at both places. -/
theorem position_independent_sample :
    Sample.converter.convertIn Sample.shared (.view ⟨0, 0, 12⟩) 0 =
        Sample.converter.convertIn movedHeap (.bytes ⟨1, 2, 14⟩) 1 ∧
      Sample.converter.SameEnds
        (Sample.converter.applyIn Sample.shared (.view ⟨0, 0, 12⟩) (.bytes ⟨0, 4, 16⟩) 0 4)
        (Sample.converter.applyIn movedHeap (.bytes ⟨1, 2, 14⟩) (.view ⟨1, 5, 19⟩) 1 6)
        ⟨0, 4, 16⟩ ⟨1, 5, 19⟩ 4 6 := by
  have hroom : Sample.converter.dest.size.Is 12 := by
    unfold Is
    decide +kernel
  have hat : ∀ n : Nat, n ≤ 6 → (Num.ofNat n).Is n := fun n hn =>
    is_ofNat (hn.trans (by decide))
  have hs : (0 : Num).Is 0 := hat 0 (by decide)
  have hs' : (1 : Num).Is 1 := hat 1 (by decide)
  have ht : (4 : Num).Is 4 := hat 4 (by decide)
  have ht' : (6 : Num).Is 6 := hat 6 (by decide)
  have hseen : (Sample.shared.shown (Handle.view ⟨0, 0, 12⟩).window).Shows 0
      Sample.converter.sourceSize [1, 0, 0, 0, 3, 0, 0, 0, 0xFE, 0xFF] :=
    ⟨0, 10, hs, Sample.extent, by decide, by decide⟩
  have hseen' : (movedHeap.shown (Handle.bytes ⟨1, 2, 14⟩).window).Shows 1
      Sample.converter.sourceSize [1, 0, 0, 0, 3, 0, 0, 0, 0xFE, 0xFF] :=
    ⟨1, 10, hs', Sample.extent, by decide, by decide⟩
  obtain ⟨hconvert, happly⟩ := position_independent Sample.made Sample.decoded Sample.built
    (by decide) (by decide) hseen hseen'
  refine ⟨hconvert, happly (.bytes ⟨0, 4, 16⟩) (.view ⟨1, 5, 19⟩) (by decide) (by decide)
    (by decide) (by decide) 4 6 ([0xFE, 0xFF] ++ List.replicate 10 0)
    ⟨4, 12, ht, hroom, by decide, by decide⟩ ⟨6, 12, ht', hroom, by decide, by decide⟩
    fun i hi j hj => ?_⟩
  change i < 10 at hi
  change j < 12 at hj
  rw [Window.meets_iff hs ht, Window.meets_iff hs' ht']
  simp only [Window.Shares, Handle.window, true_and]
  omega

/-! ### Where it does matter -/

namespace Crossed

def dest : Dest :=
  .recordOf [("a", .ofPrim .int32), ("b", .ofPrim .int32)]

/-- The same numbers, the second one first. -/
def source : Desc :=
  .struct [⟨"a", 4, .prim "int"⟩, ⟨"b", 0, .prim "int"⟩]

def desc : Desc :=
  (Desc.decode source.encode).toOption.get (by decide +kernel)

def converter : Converter :=
  (build dest desc ⟨none, none, none⟩).result.toOption.get (by decide +kernel)

/-- Every buffer holds 1 and 2. -/
def heap : Heap :=
  ⟨fun _ => ⟨#[1, 0, 0, 0, 2, 0, 0, 0]⟩⟩

end Crossed

namespace Unsized

/-- One number, in a record of its own. -/
def dest : Dest :=
  (Dest.arrayOf (.recordOf [("a", .ofPrim .int32)]) 1).toOption.get (by decide +kernel)

/-- Beside the number lies what has an inherited name for its type. -/
def source : Desc :=
  .array (.struct [⟨"a", 0, .prim "int"⟩, ⟨"x", 4, .prim "toString"⟩]) (.nat 1)

def desc : Desc :=
  (Desc.decode source.encode).toOption.get (by decide +kernel)

def converter : Converter :=
  (build dest desc ⟨none, none, none⟩).result.toOption.get (by decide +kernel)

/-- A source in one buffer, and zeros in the others. -/
def heap (b : UInt8) : Heap :=
  ⟨fun i => if i = 0 then ⟨#[b, 0, 0, 0]⟩ else .zeros 4⟩

end Unsized

/-- Applied in place, the first number is written over before it is read. And an extent that is not
a number bounds nothing: any source is in range then, whatever its bytes. -/
theorem position_matters :
    (Crossed.dest.Made ∧ Desc.decode Crossed.source.encode = .ok Crossed.desc ∧
      (build Crossed.dest Crossed.desc ⟨none, none, none⟩).result = .ok Crossed.converter ∧
      Crossed.converter.config.boundsCheck = true ∧
      (∀ b, ∀ size ∈ [Crossed.converter.sourceSize, Crossed.converter.dest.size],
        (Crossed.heap.shown ⟨b, 0, 8⟩).Shows 0 size [1, 0, 0, 0, 2, 0, 0, 0]) ∧
      (Crossed.converter.applyIn Crossed.heap (.bytes ⟨0, 0, 8⟩) (.bytes ⟨0, 0, 8⟩) 0 0).heap.shown
        ⟨0, 0, 8⟩ = ⟨#[2, 0, 0, 0, 2, 0, 0, 0]⟩ ∧
      (Crossed.converter.applyIn Crossed.heap (.bytes ⟨0, 0, 8⟩) (.bytes ⟨1, 0, 8⟩) 0 0).heap.shown
        ⟨1, 0, 8⟩ = ⟨#[2, 0, 0, 0, 1, 0, 0, 0]⟩) ∧
    Unsized.dest.Made ∧ Desc.decode Unsized.source.encode = .ok Unsized.desc ∧
      (build Unsized.dest Unsized.desc ⟨none, none, none⟩).result = .ok Unsized.converter ∧
      Unsized.converter.config.boundsCheck = true ∧ Unsized.converter.sourceSize = .nan ∧
      ∀ b ∈ [1, 2], (Unsized.converter.applyIn (Unsized.heap b) (.bytes ⟨0, 0, 4⟩)
        (.bytes ⟨1, 0, 4⟩) 0 0).heap.shown ⟨1, 0, 4⟩ = ⟨#[b, 0, 0, 0]⟩ := by
  have hs : (0 : Num).Is 0 := is_ofNat (Nat.zero_le _)
  refine ⟨⟨?_, eq_ok_get _, eq_ok_get _, by decide +kernel, fun b => ?_, by decide +kernel,
    by decide +kernel⟩, ?_, eq_ok_get _, eq_ok_get _, by decide +kernel, by decide +kernel,
    by decide +kernel⟩
  · exact .record (by decide +kernel) (by simpa using Dest.Made.prim _)
  · have hsizes : ∀ size ∈ [Crossed.converter.sourceSize, Crossed.converter.dest.size],
        size.Is 8 := by
      unfold Is
      decide +kernel
    exact fun size hsize => ⟨0, 8, hs, hsizes size hsize, Nat.le_refl 8, rfl⟩
  · exact .array (.record (by decide +kernel) (by simpa using Dest.Made.prim _)) (eq_ok_get _)

end Converter

end Relayout
