import Relayout.Proofs.DescLayout
import Relayout.Dest.Basic

/-!
# Layout of destination types

`Made` singles out the types that the combinators make, and `Small` those whose
sizes lie below the limit of exactness. Together they give `Laid`: every size
and offset is a natural number, the slots of a record follow one another
without overlap, and every payload of a variant lies between the tag and the
end. Whatever moves bytes into a destination relies on `Laid` alone.
-/

namespace Relayout.Dest

open Relayout.Num

/-! ## Types made by the combinators -/

/-- A type that the combinators make. The parts of a record or a variant are
the entries of one object, so their names differ. -/
inductive Made : Dest → Prop
  | prim (p : Prim) : Made (ofPrim p)
  | array {elem made : Dest} {length : Num} (helem : Made elem)
      (hmade : arrayOf elem length = .ok made) : Made made
  | record {parts : List (Text × Dest)} (names : (parts.map Prod.fst).Nodup)
      (hparts : ∀ part ∈ parts, Made part.2) : Made (recordOf parts)
  | variant {parts : List (Text × Dest)} {ids : List (Text × Num)} {made : Dest}
      (names : (parts.map Prod.fst).Nodup) (hparts : ∀ part ∈ parts, Made part.2)
      (hmade : variantOf parts ids = .ok made) : Made made

/-- Every size and every length in the type lies below the limit of exactness. -/
inductive Small : Dest → Prop
  | prim {surface : Surface} {source : Text} {widensFrom : List Text} {codec : Prim}
      (hsize : surface.size.Small) : Small (.prim surface source widensFrom codec)
  | array {surface : Surface} {elem : Dest} {length : Num} {count : Nat}
      (hsize : surface.size.Small) (hlength : length.Small) (helem : Small elem) :
      Small (.array surface elem length count)
  | record {surface : Surface} {slots : List (Slot Dest)} (hsize : surface.size.Small)
      (hslots : ∀ s ∈ slots, Small s.type) : Small (.record surface slots)
  | variant {surface : Surface} {cases : List (Case Dest)} {payloadOffset decodedAt : Num}
      (hsize : surface.size.Small) (hcases : ∀ c ∈ cases, Small c.type) :
      Small (.variant surface cases payloadOffset decodedAt)

/-! ### Checking sizes -/

def sizeFits (x : Num) : Bool :=
  x.lt (.ofNat exactLimit)

mutual

def fits : Dest → Bool
  | .prim surface .. => sizeFits surface.size
  | .array surface elem length _ => sizeFits surface.size && sizeFits length && fits elem
  | .record surface slots => sizeFits surface.size && slotsFit slots
  | .variant surface cases .. => sizeFits surface.size && casesFit cases

def slotsFit : List (Slot Dest) → Bool
  | [] => true
  | s :: rest => fits s.type && slotsFit rest

def casesFit : List (Case Dest) → Bool
  | [] => true
  | c :: rest => fits c.type && casesFit rest

end

theorem slotsFit_iff {slots : List (Slot Dest)} :
    slotsFit slots = true ↔ ∀ s ∈ slots, s.type.fits = true := by
  induction slots with
  | nil => simp [slotsFit]
  | cons s rest ih => rw [slotsFit, Bool.and_eq_true, ih, List.forall_mem_cons]

theorem casesFit_iff {cases : List (Case Dest)} :
    casesFit cases = true ↔ ∀ c ∈ cases, c.type.fits = true := by
  induction cases with
  | nil => simp [casesFit]
  | cons c rest ih => rw [casesFit, Bool.and_eq_true, ih, List.forall_mem_cons]

mutual

theorem small_of_fits : ∀ {d : Dest}, d.fits = true → d.Small
  | .prim .., h => .prim h
  | .array surface elem length count, h => by
      rw [fits, Bool.and_eq_true, Bool.and_eq_true] at h
      exact .array h.1.1 h.1.2 (small_of_fits h.2)
  | .record surface slots, h => by
      rw [fits, Bool.and_eq_true] at h
      exact .record h.1 (small_of_slotsFit h.2)
  | .variant surface cases payloadOffset decodedAt, h => by
      rw [fits, Bool.and_eq_true] at h
      exact .variant h.1 (small_of_casesFit h.2)

theorem small_of_slotsFit : ∀ {slots : List (Slot Dest)}, slotsFit slots = true →
    ∀ s ∈ slots, s.type.Small
  | [], _ => by simp
  | s :: rest, h => by
      rw [slotsFit, Bool.and_eq_true] at h
      exact List.forall_mem_cons.mpr ⟨small_of_fits h.1, small_of_slotsFit h.2⟩

theorem small_of_casesFit : ∀ {cases : List (Case Dest)}, casesFit cases = true →
    ∀ c ∈ cases, c.type.Small
  | [], _ => by simp
  | c :: rest, h => by
      rw [casesFit, Bool.and_eq_true] at h
      exact List.forall_mem_cons.mpr ⟨small_of_fits h.1, small_of_casesFit h.2⟩

end

theorem Small.fits {d : Dest} (h : d.Small) : d.fits = true := by
  induction h with
  | prim hsize => exact hsize
  | array hsize hlength _ ih =>
      rw [Dest.fits, Bool.and_eq_true, Bool.and_eq_true]
      exact ⟨⟨hsize, hlength⟩, ih⟩
  | record hsize _ ih =>
      rw [Dest.fits, Bool.and_eq_true, slotsFit_iff]
      exact ⟨hsize, ih⟩
  | variant hsize _ ih =>
      rw [Dest.fits, Bool.and_eq_true, casesFit_iff]
      exact ⟨hsize, ih⟩

instance : DecidablePred Small := fun _ => decidable_of_iff _ ⟨small_of_fits, Small.fits⟩

/-! ## Exact layouts -/

/-- The bytes of a value, as a natural number. -/
def bytes (d : Dest) : Nat :=
  d.size.toNat?.getD 0

theorem bytes_of_is {d : Dest} {n : Nat} (h : d.size.Is n) : d.bytes = n := by
  rw [bytes, h.toNat?, Option.getD_some]

/-- Slots that follow one another between two positions, each decoded where it is filled. -/
def Placed : List (Slot Dest) → (start finish : Nat) → Prop
  | [], start, finish => start ≤ finish
  | s :: rest, start, finish =>
    ∃ o, s.offset.Is o ∧ s.decodedAt = s.offset ∧ start ≤ o ∧
      Placed rest (o + s.type.bytes) finish

/-- A type with an exact layout, in which no two parts overlap. -/
inductive Laid : Dest → Prop
  | prim (p : Prim) : Laid (ofPrim p)
  | array {surface : Surface} {elem : Dest} {length : Num} {count : Nat} (helem : Laid elem)
      (hlength : length.Is count) (hcount : count < exactLimit)
      (hsize : surface.size.Is (count * elem.bytes)) (hlimit : count * elem.bytes < exactLimit) :
      Laid (.array surface elem length count)
  | record {surface : Surface} {slots : List (Slot Dest)} {n : Nat}
      (hslots : ∀ s ∈ slots, Laid s.type) (hplaced : Placed slots 0 n)
      (hsize : surface.size.Is n) (hlimit : n < exactLimit) : Laid (.record surface slots)
  | variant {surface : Surface} {cases : List (Case Dest)} {payloadOffset : Num} {p n : Nat}
      (hcases : ∀ c ∈ cases, Laid c.type) (hoffset : payloadOffset.Is p) (htag : 4 ≤ p)
      (hfits : ∀ c ∈ cases, p + c.type.bytes ≤ n) (hpn : p ≤ n)
      (hids : cases.Pairwise fun c c' => c.id ≠ c'.id)
      (hsize : surface.size.Is n) (hlimit : n < exactLimit) :
      Laid (.variant surface cases payloadOffset payloadOffset)

/-- A type with an exact layout wherever it has bytes: nothing is asked of the
items of an empty array, nor of how many items without bytes there are. -/
inductive Settled : Dest → Prop
  | prim (p : Prim) : Settled (ofPrim p)
  | array {surface : Surface} {elem : Dest} {length : Num} {count : Nat}
      (helem : 0 < count → Settled elem) (hlength : length.Is count)
      (hsize : surface.size.Is (count * elem.bytes)) (hlimit : count * elem.bytes < exactLimit) :
      Settled (.array surface elem length count)
  | record {surface : Surface} {slots : List (Slot Dest)} {n : Nat}
      (hslots : ∀ s ∈ slots, Settled s.type) (hplaced : Placed slots 0 n)
      (hsize : surface.size.Is n) (hlimit : n < exactLimit) : Settled (.record surface slots)
  | variant {surface : Surface} {cases : List (Case Dest)} {payloadOffset : Num} {p n : Nat}
      (hcases : ∀ c ∈ cases, Settled c.type) (hoffset : payloadOffset.Is p) (htag : 4 ≤ p)
      (hfits : ∀ c ∈ cases, p + c.type.bytes ≤ n) (hpn : p ≤ n) (hsize : surface.size.Is n)
      (hlimit : n < exactLimit) : Settled (.variant surface cases payloadOffset payloadOffset)

theorem Settled.size_is {d : Dest} (h : Settled d) : d.size.Is d.bytes ∧ d.bytes < exactLimit := by
  have pair : ∀ {d : Dest} {n : Nat}, d.size.Is n → n < exactLimit →
      d.size.Is d.bytes ∧ d.bytes < exactLimit := fun hn hlimit =>
    bytes_of_is hn ▸ ⟨hn, hlimit⟩
  cases h with
  | prim p =>
      have hp : p.size < exactLimit := by cases p <;> decide
      exact pair (is_ofNat hp.le) hp
  | array helem hlength hsize hlimit => exact pair hsize hlimit
  | record hslots hplaced hsize hlimit => exact pair hsize hlimit
  | variant hcases hoffset htag hfits hpn hsize hlimit => exact pair hsize hlimit

theorem Laid.settled {d : Dest} (h : Laid d) : Settled d := by
  induction h with
  | prim p => exact .prim p
  | array _ hlength _ hsize hlimit ih => exact .array (fun _ => ih) hlength hsize hlimit
  | record _ hplaced hsize hlimit ih => exact .record ih hplaced hsize hlimit
  | variant _ hoffset htag hfits hpn _ hsize hlimit ih =>
      exact .variant ih hoffset htag hfits hpn hsize hlimit

theorem Laid.size_is {d : Dest} (h : Laid d) : d.size.Is d.bytes ∧ d.bytes < exactLimit :=
  h.settled.size_is

theorem Placed.mono {slots : List (Slot Dest)} {start finish finish' : Nat}
    (h : Placed slots start finish) (hle : finish ≤ finish') : Placed slots start finish' := by
  induction slots generalizing start with
  | nil => exact Nat.le_trans h hle
  | cons s rest ih =>
      obtain ⟨o, ho, hdec, hstart, hrest⟩ := h
      exact ⟨o, ho, hdec, hstart, ih hrest⟩

theorem Placed.le {slots : List (Slot Dest)} {start finish : Nat}
    (h : Placed slots start finish) : start ≤ finish := by
  induction slots generalizing start with
  | nil => exact h
  | cons s rest ih =>
      obtain ⟨o, -, -, hstart, hrest⟩ := h
      have := ih hrest
      omega

theorem Placed.of_mem {slots : List (Slot Dest)} {start finish : Nat}
    (h : Placed slots start finish) {slot : Slot Dest} (hslot : slot ∈ slots) :
    ∃ o, slot.offset.Is o ∧ start ≤ o ∧ o + slot.type.bytes ≤ finish := by
  induction slots generalizing start with
  | nil => cases hslot
  | cons s rest ih =>
      obtain ⟨o, ho, -, hstart, hrest⟩ := h
      rcases List.mem_cons.mp hslot with rfl | hslot
      · exact ⟨o, ho, hstart, hrest.le⟩
      · obtain ⟨p, hp, hle, hend⟩ := ih hrest hslot
        exact ⟨p, hp, by omega, hend⟩

/-! ## Alignments -/

theorem widestAlign_is {parts : List (Text × Dest)}
    (hparts : ∀ part ∈ parts, ∃ a, IsAlignment a ∧ part.2.align.Is a) {widest : Num} {w : Nat}
    (hw : widest.Is w) (hwa : IsAlignment w) :
    ∃ a, IsAlignment a ∧ (widestAlign parts widest).Is a := by
  induction parts generalizing widest w with
  | nil => exact ⟨w, hwa, hw⟩
  | cons part rest ih =>
      obtain ⟨a, haa, ha⟩ := hparts part List.mem_cons_self
      exact ih (fun q hq => hparts q (List.mem_cons_of_mem _ hq)) (hw.max hwa ha haa) (hwa.max haa)

/-- What the combinator makes of an array. -/
theorem arrayOf_eq {elem made : Dest} {length : Num} (h : arrayOf elem length = .ok made) :
    ∃ name count, length.Is count ∧
      made = .array ⟨name, elem.size * length, elem.align⟩ elem length count := by
  simp only [arrayOf] at h
  split at h
  · rename_i count hcount
    cases h
    exact ⟨_, count, is_of_toNat? hcount, rfl⟩
  · cases h

/-- What the combinator makes of a variant. -/
theorem variantOf_eq {parts : List (Text × Dest)} {ids : List (Text × Num)} {made : Dest}
    (h : variantOf parts ids = .ok made) :
    ∃ name cases, makeCases ids parts 0 [] = .ok cases ∧
      made = .variant ⟨name, ((Desc.tagSize.alignTo (widestAlign parts 1)) +
          parts.foldl (fun m part => m.max part.2.size) 0).alignTo
            (Desc.tagSize.max (widestAlign parts 1)), Desc.tagSize.max (widestAlign parts 1)⟩
        cases (Desc.tagSize.alignTo (widestAlign parts 1))
        (Desc.tagSize.alignTo (widestAlign parts 1)) := by
  obtain ⟨cases, hcases, hmade⟩ := bind_eq_ok.mp h
  cases hmade
  exact ⟨_, cases, hcases, rfl⟩

theorem align_of_made {d : Dest} (h : Made d) : ∃ a, IsAlignment a ∧ d.align.Is a := by
  have hone : (1 : Num).Is 1 := is_ofNat (by decide)
  have hfour := Desc.tagSize_is
  have h1 : IsAlignment 1 := Or.inl rfl
  have h4 : IsAlignment 4 := Or.inr (Or.inr (Or.inl rfl))
  induction h with
  | prim p =>
      have hsize : p.size = 0 ∨ IsAlignment p.size := by
        cases p <;> simp [Prim.size, Prim.source, PrimName.size, IsAlignment]
      have hp : p.size ≤ exactLimit := by cases p <;> decide
      have hmax : ((Num.ofNat p.size).max 1).Is (p.size.max 1) :=
        ((tracks_ofNat _).max (tracks_of_is hone)).is (by cases p <;> decide)
      refine ⟨p.size.max 1, ?_, hmax⟩
      rcases hsize with h0 | ha
      · rw [h0]
        exact h1
      · exact ha.max h1
  | array helem hmade ih =>
      obtain ⟨name, count, -, rfl⟩ := arrayOf_eq hmade
      exact ih
  | record names hparts ih => exact widestAlign_is ih hone h1
  | variant names hparts hmade ih =>
      obtain ⟨name, cases, -, rfl⟩ := variantOf_eq hmade
      obtain ⟨a, haa, ha⟩ := widestAlign_is ih hone h1
      exact ⟨_, h4.max haa, hfour.max h4 ha haa⟩

/-! ## Slots and cases -/

theorem placeSlots_placed {parts : List (Text × Dest)}
    (halign : ∀ part ∈ parts, ∃ a, IsAlignment a ∧ part.2.align.Is a)
    (hsize : ∀ part ∈ parts, part.2.size.Is part.2.bytes) {offset : Num} {n : Nat}
    (hn : offset.Tracks n) :
    ∃ m, (placeSlots parts offset).2.Tracks m ∧ n ≤ m ∧
      (m < exactLimit → Placed (placeSlots parts offset).1 n m) := by
  induction parts generalizing offset n with
  | nil => exact ⟨n, hn, Nat.le_refl n, fun _ => Nat.le_refl n⟩
  | cons part rest ih =>
      obtain ⟨name, type⟩ := part
      obtain ⟨a, haa, ha⟩ := halign _ List.mem_cons_self
      have htype := hsize _ List.mem_cons_self
      have hoff := hn.alignTo ha haa
      obtain ⟨m, hm, hle, hrest⟩ := ih (fun q hq => halign q (List.mem_cons_of_mem _ hq))
        (fun q hq => hsize q (List.mem_cons_of_mem _ hq)) (hoff.add (tracks_of_is htype))
      have hup := le_roundUp (n := n) haa
      refine ⟨m, hm, by omega, fun hlimit => ?_⟩
      exact ⟨roundUp n a, hoff.is (by omega), rfl, hup, hrest hlimit⟩

/-- The slots bear the names and types of the parts in order. -/
theorem placeSlots_parts (parts : List (Text × Dest)) (offset : Num) :
    (placeSlots parts offset).1.map (fun s => (s.name, s.type)) = parts := by
  induction parts generalizing offset with
  | nil => rfl
  | cons part rest ih =>
      obtain ⟨name, type⟩ := part
      simp only [placeSlots, List.map_cons, ih]

/-- The cases that are made bear the names and types of the parts in order, and
no two bear one tag. -/
theorem makeCases_spec {ids : List (Text × Num)} {parts : List (Text × Dest)} {i : Nat}
    {made cases : List (Case Dest)} (h : makeCases ids parts i made = .ok cases)
    (hmade : made.Pairwise fun c c' => c.id ≠ c'.id) :
    ∃ new, cases = made ++ new ∧ new.map (fun c => (c.name, c.type)) = parts ∧
      cases.Pairwise fun c c' => c.id ≠ c'.id := by
  induction parts generalizing i made with
  | nil =>
      cases h
      exact ⟨[], by simp, rfl, hmade⟩
  | cons part rest ih =>
      obtain ⟨name, type⟩ := part
      rw [makeCases] at h
      obtain ⟨id, -, h⟩ := bind_eq_ok.mp h
      split at h
      · rename_i n hn
        split at h
        · rename_i hlt
          split at h
          · cases h
          · rename_i hfree
            -- the tag is free, so it differs from those of all earlier cases
            have hnew : (made ++ [(⟨name, n.toUInt32, type⟩ : Case Dest)]).Pairwise
                fun c c' => c.id ≠ c'.id := by
              refine List.pairwise_append.mpr ⟨hmade, List.pairwise_singleton _ _, ?_⟩
              intro c hc c' hc'
              rw [List.mem_singleton] at hc'
              subst hc'
              intro heq
              have hne := List.find?_eq_none.mp hfree c hc
              simp only [decide_eq_true_eq] at hne
              apply hne
              rw [heq]
              exact UInt32.toNat_ofNat_of_lt' hlt
            obtain ⟨new, hcases, hparts, hids⟩ := ih h hnew
            exact ⟨⟨name, n.toUInt32, type⟩ :: new, by simpa using hcases, by simp [hparts], hids⟩
        · cases h
      · cases h

/-- The largest of the sizes of the parts. -/
theorem largest_tracks {parts : List (Text × Dest)}
    (hsize : ∀ part ∈ parts, part.2.size.Is part.2.bytes) {largest : Num} {n : Nat}
    (hn : largest.Tracks n) :
    ∃ m, (parts.foldl (fun m part => m.max part.2.size) largest).Tracks m ∧ n ≤ m ∧
      ∀ part ∈ parts, part.2.bytes ≤ m := by
  induction parts generalizing largest n with
  | nil => exact ⟨n, hn, Nat.le_refl n, by simp⟩
  | cons part rest ih =>
      obtain ⟨m, hm, hle, hrest⟩ := ih (fun q hq => hsize q (List.mem_cons_of_mem _ hq))
        (hn.max (tracks_of_is (hsize _ List.mem_cons_self)))
      have hmax : n ≤ m ∧ part.2.bytes ≤ m := Nat.max_le.mp hle
      refine ⟨m, hm, hmax.1, fun q hq => ?_⟩
      rcases List.mem_cons.mp hq with rfl | hq
      · exact hmax.2
      · exact hrest q hq

section

variable {parts : List (Text × Dest)}

/-- Parts are laid out if what is made of them is, when both bear the same names and types. -/
theorem laid_parts {τ : Type} {name : τ → Text} {type : τ → Dest} {made : List τ}
    (hmap : made.map (fun m => (name m, type m)) = parts)
    (h : ∀ m ∈ made, (name m, type m) ∈ parts → Laid (type m)) : ∀ part ∈ parts, Laid part.2 := by
  intro part hpart
  have hmem := hmap.symm ▸ hpart
  obtain ⟨m, hm, rfl⟩ := List.mem_map.mp hmem
  exact h m hm hpart

/-- The slots of a record whose size lies below the limit are placed exactly. -/
theorem record_placed (halign : ∀ part ∈ parts, ∃ a, IsAlignment a ∧ part.2.align.Is a)
    (hparts : ∀ part ∈ parts, part.2.size.Is part.2.bytes)
    (hsize : (recordOf parts).size.Small) :
    ∃ n, Placed (placeSlots parts 0).1 0 n ∧ (recordOf parts).size.Is n ∧ n < exactLimit := by
  have hzero : (0 : Num).Is 0 := is_ofNat (Nat.zero_le _)
  have hone : (1 : Num).Is 1 := is_ofNat (by decide)
  obtain ⟨a, haa, ha⟩ := widestAlign_is halign hone (Or.inl rfl)
  obtain ⟨m, hm, -, hplaced⟩ := placeSlots_placed halign hparts (tracks_of_is hzero)
  obtain ⟨hlimit, his⟩ := (hm.alignTo ha haa).of_small hsize
  have hup := le_roundUp (n := m) haa
  exact ⟨_, (hplaced (by omega)).mono hup, his, hlimit⟩

/-- The payloads of a variant whose size lies below the limit fit behind the tag. -/
theorem variant_placed (halign : ∀ part ∈ parts, ∃ a, IsAlignment a ∧ part.2.align.Is a)
    (hparts : ∀ part ∈ parts, part.2.size.Is part.2.bytes) {ids : List (Text × Num)} {made : Dest}
    (hmade : variantOf parts ids = .ok made) (hsize : made.size.Small) :
    ∃ surface cases payloadOffset p n, made = .variant surface cases payloadOffset payloadOffset ∧
      cases.map (fun c => (c.name, c.type)) = parts ∧ payloadOffset.Is p ∧ 4 ≤ p ∧
      (∀ c ∈ cases, p + c.type.bytes ≤ n) ∧ p ≤ n ∧
      (cases.Pairwise fun c c' => c.id ≠ c'.id) ∧ surface.size.Is n ∧ n < exactLimit := by
  have hzero : (0 : Num).Is 0 := is_ofNat (Nat.zero_le _)
  have hone : (1 : Num).Is 1 := is_ofNat (by decide)
  have h4 : IsAlignment 4 := Or.inr (Or.inr (Or.inl rfl))
  obtain ⟨name, cases, hcases, rfl⟩ := variantOf_eq hmade
  obtain ⟨new, rfl, hnew, hids⟩ := makeCases_spec hcases List.Pairwise.nil
  obtain ⟨a, haa, ha⟩ := widestAlign_is halign hone (Or.inl rfl)
  have hpay := (tracks_of_is Desc.tagSize_is).alignTo ha haa
  obtain ⟨m, hm, -, hle⟩ := largest_tracks hparts (tracks_of_is hzero)
  have hwidest := Desc.tagSize_is.max h4 ha haa
  have h4a := h4.max haa
  obtain ⟨hlimit, his⟩ := ((hpay.add hm).alignTo hwidest h4a).of_small hsize
  have hup := le_roundUp (n := roundUp 4 a + m) h4a
  have htag := le_roundUp (n := 4) haa
  refine ⟨_, cases, _, roundUp 4 a, roundUp (roundUp 4 a + m) (Nat.max 4 a), rfl, ?_⟩
  refine ⟨hnew, hpay.is (by omega), htag, fun c hc => ?_, by omega, hids, his, hlimit⟩
  have := hle (c.name, c.type) (hnew ▸ List.mem_map_of_mem hc)
  dsimp only at this
  omega

theorem laid_record (halign : ∀ part ∈ parts, ∃ a, IsAlignment a ∧ part.2.align.Is a)
    (hlaid : ∀ part ∈ parts, Laid part.2) (hsize : (recordOf parts).size.Small) :
    Laid (recordOf parts) := by
  have hmap := placeSlots_parts parts 0
  obtain ⟨n, hplaced, his, hlimit⟩ :=
    record_placed halign (fun q hq => (hlaid q hq).size_is.1) hsize
  refine .record (fun s hs => ?_) hplaced his hlimit
  exact hlaid (s.name, s.type) (hmap ▸ List.mem_map_of_mem hs)

theorem laid_variant (halign : ∀ part ∈ parts, ∃ a, IsAlignment a ∧ part.2.align.Is a)
    (hlaid : ∀ part ∈ parts, Laid part.2) {ids : List (Text × Num)} {made : Dest}
    (hmade : variantOf parts ids = .ok made) (hsize : made.size.Small) : Laid made := by
  obtain ⟨surface, cases, payloadOffset, p, n, rfl, hmap, hoffset, htag, hfits, hpn, hids, his,
    hlimit⟩ := variant_placed halign (fun q hq => (hlaid q hq).size_is.1) hmade hsize
  refine .variant (fun c hc => ?_) hoffset htag hfits hpn hids his hlimit
  exact hlaid (c.name, c.type) (hmap ▸ List.mem_map_of_mem hc)

end

/-- **The combinators lay out exactly what stays below the limit.** -/
theorem laid_of_made {d : Dest} (made : Made d) (small : Small d) : Laid d := by
  induction made with
  | prim p => exact .prim p
  | array helem hmade ih =>
      obtain ⟨name, count, hcount, rfl⟩ := arrayOf_eq hmade
      cases small with
      | array hsize hlength hsmall =>
          have laid := ih hsmall
          have hlt := ((tracks_of_is hcount).of_small hlength).1
          have hprod := laid.size_is.1.mul_tracks hcount
          rw [Nat.mul_comm] at hprod
          obtain ⟨hlimit, his⟩ := hprod.of_small hsize
          exact .array laid hcount hlt his hlimit
  | @record parts names hparts ih =>
      cases small with
      | record hsize hslots =>
          have hlaid := laid_parts (placeSlots_parts parts 0) fun s hs hpart =>
            ih _ hpart (hslots s hs)
          exact laid_record (fun q hq => align_of_made (hparts q hq)) hlaid hsize
  | @variant parts ids made names hparts hmade ih =>
      obtain ⟨name, cases, hcases, rfl⟩ := variantOf_eq hmade
      obtain ⟨new, rfl, hnew, -⟩ := makeCases_spec hcases List.Pairwise.nil
      cases small with
      | variant hsize hsmall =>
          have hlaid := laid_parts hnew fun c hc hpart => ih _ hpart (hsmall c hc)
          exact laid_variant (fun q hq => align_of_made (hparts q hq)) hlaid hmade hsize

/-! ## Types with natural lengths -/

/-- Every array in the type has a natural number of items. Nothing is asked of its
layout, nor of the items of an empty array. -/
inductive Counted : Dest → Prop
  | prim (p : Prim) : Counted (ofPrim p)
  | array {surface : Surface} {elem : Dest} {length : Num} {count : Nat}
      (helem : 0 < count → Counted elem) (hlength : length.Is count) :
      Counted (.array surface elem length count)
  | record {surface : Surface} {slots : List (Slot Dest)} (hslots : ∀ s ∈ slots, Counted s.type) :
      Counted (.record surface slots)
  | variant {surface : Surface} {cases : List (Case Dest)} {payloadOffset decodedAt : Num}
      (hcases : ∀ c ∈ cases, Counted c.type) :
      Counted (.variant surface cases payloadOffset decodedAt)

theorem Settled.counted {dest : Dest} (settled : dest.Settled) : dest.Counted := by
  induction settled with
  | prim p => exact .prim p
  | array _ hlength _ _ ih => exact .array ih hlength
  | record _ _ _ _ ih => exact .record ih
  | variant _ _ _ _ _ _ _ ih => exact .variant ih

/-- The combinators only make arrays of natural lengths, however large these are. -/
theorem counted_of_made {dest : Dest} (made : dest.Made) : dest.Counted := by
  induction made with
  | prim p => exact .prim p
  | array _ hmade ih =>
      obtain ⟨name, count, hcount, rfl⟩ := arrayOf_eq hmade
      exact .array (fun _ => ih) hcount
  | @record parts names _ ih =>
      refine .record fun s hs => ?_
      exact ih (s.name, s.type) (placeSlots_parts parts 0 ▸ List.mem_map_of_mem hs)
  | @variant parts ids made names _ hmade ih =>
      obtain ⟨name, cases, hcases, rfl⟩ := variantOf_eq hmade
      obtain ⟨new, rfl, hmap, -⟩ := makeCases_spec hcases List.Pairwise.nil
      refine .variant fun c hc => ?_
      exact ih (c.name, c.type) (hmap ▸ List.mem_map_of_mem hc)

end Relayout.Dest
