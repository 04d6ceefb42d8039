import Relayout.Proofs.Exact
import Relayout.Desc.Layout

/-!
# Layout of source descriptors

Every alignment is one of 1, 2, 4 and 8, unless an inherited name stands in the
place of a primitive's: then it is not-a-number. A descriptor that a document
can state is `Valid`: its lengths, offsets and tags are natural numbers. If
moreover every size in it lies below the limit of exactness, the sizes are
exact: a struct reaches past the end of each field, and a variant past each
payload.
-/

namespace Relayout

/-- A chain comes to a value when both of its parts do. -/
theorem bind_eq_ok {ε α β : Type} {x : Except ε α} {f : α → Except ε β} {b : β} :
    x >>= f = .ok b ↔ ∃ a, x = .ok a ∧ f a = .ok b := by
  cases x with
  | error e => simp [bind, Except.bind]
  | ok a => simp [bind, Except.bind]

/-- The position of a field from the start of its struct. -/
def Field.start {τ : Type} (f : Field τ) : Nat :=
  f.offset.toNat?.getD 0

theorem Field.start_is {τ : Type} {f : Field τ} (h : ∃ o, f.offset.Is o) : f.offset.Is f.start := by
  obtain ⟨o, ho⟩ := h
  rwa [Field.start, ho.toNat?, Option.getD_some]

theorem PrimName.ofName?_name (q : PrimName) : ofName? q.name = some q := by
  cases q <;> decide

namespace Desc

open Relayout.Num

theorem tagSize_is : tagSize.Is 4 := is_ofNat (n := 4) (by decide)

theorem primSize_name (q : PrimName) : primSize q.name = .ok (.ofNat q.size) := by
  rw [primSize, PrimName.ofName?_name]

/-- What may be found under a name. -/
theorem primSize_ok {name : Text} {x : Num} (h : primSize name = .ok x) :
    x = .nan ∨ ∃ p, PrimName.ofName? name = some p ∧ x = .ofNat p.size := by
  rw [primSize] at h
  split at h
  · rename_i p hp
    cases h
    exact .inr ⟨p, hp, rfl⟩
  · split at h
    · cases h
      exact .inl rfl
    · cases h

/-! ## Alignments -/

/-- One of the alignments, or not-a-number. -/
def Aligns (x : Num) : Prop :=
  x = .nan ∨ ∃ a, IsAlignment a ∧ x.Is a

theorem aligns_of_is {x : Num} {a : Nat} (h : x.Is a) (ha : IsAlignment a) : Aligns x :=
  .inr ⟨a, ha, h⟩

theorem Aligns.max {x y : Num} (hx : Aligns x) (hy : Aligns y) : Aligns (x.max y) := by
  rcases hx with rfl | ⟨a, ha, hx⟩
  · exact .inl (nan_max y)
  · rcases hy with rfl | ⟨b, hb, hy⟩
    · exact .inl (max_nan x)
    · exact aligns_of_is (hx.max ha hy hb) (ha.max hb)

theorem aligns_tagSize : Aligns tagSize :=
  aligns_of_is tagSize_is (Or.inr (Or.inr (Or.inl rfl)))

mutual

theorem align_aligns : ∀ {d : Desc} {x : Num}, align d = .ok x → Aligns x
  | prim name, x, h => by
      rw [align] at h
      obtain ⟨size, hs, h⟩ := bind_eq_ok.mp h
      cases h
      rcases primSize_ok hs with rfl | ⟨p, -, rfl⟩
      · exact .inl rfl
      · have hone : (1 : Num).Is 1 := is_ofNat (by decide)
        have hmax := (tracks_ofNat p.size).max (tracks_of_is hone)
        refine aligns_of_is (a := p.size.max 1) (hmax.is ?_) ?_
        · cases p <;> decide
        · cases p <;> simp [PrimName.size, IsAlignment]
  | nat value, x, h => by
      rw [align] at h
      cases h
  | array elem len, x, h => by
      rw [align] at h
      exact align_aligns h
  | struct fields, x, h => by
      rw [align] at h
      exact alignFields_aligns h (aligns_of_is (is_ofNat (by decide)) (Or.inl rfl))
  | variant ctors, x, h => by
      rw [align] at h
      exact alignCtors_aligns h aligns_tagSize

theorem alignFields_aligns : ∀ {fields : List (Field Desc)} {widest x : Num},
    alignFields fields widest = .ok x → Aligns widest → Aligns x
  | [], widest, x, h, hw => by
      rw [alignFields] at h
      cases h
      exact hw
  | f :: rest, widest, x, h, hw => by
      rw [alignFields] at h
      obtain ⟨y, ha, h⟩ := bind_eq_ok.mp h
      exact alignFields_aligns h (hw.max (align_aligns ha))

theorem alignCtors_aligns : ∀ {ctors : List (Ctor Desc)} {widest x : Num},
    alignCtors ctors widest = .ok x → Aligns widest → Aligns x
  | [], widest, x, h, hw => by
      rw [alignCtors] at h
      cases h
      exact hw
  | c :: rest, widest, x, h, hw => by
      rw [alignCtors] at h
      obtain ⟨y, ha, h⟩ := bind_eq_ok.mp h
      exact alignCtors_aligns h (hw.max (align_aligns ha))

end

/-- The alignment of a value as a natural number. -/
def alignment (d : Desc) : Nat :=
  match d.align with
  | .ok x => x.toNat?.getD 1
  | .error _ => 1

/-- The alignment, if there is one, is a number. -/
def Definite (d : Desc) : Prop :=
  d.align ≠ .ok .nan

instance : DecidablePred Definite := fun d => inferInstanceAs (Decidable (d.align ≠ .ok .nan))

theorem definite_of_is {d : Desc} {x : Num} {a : Nat} (h : d.align = .ok x) (ha : x.Is a) :
    d.Definite :=
  fun hnan => ha.ne_nan (Except.ok.inj (h.symm.trans hnan))

theorem alignment_spec {d : Desc} {x : Num} (definite : d.Definite) (h : d.align = .ok x) :
    IsAlignment d.alignment ∧ x.Is d.alignment := by
  rcases align_aligns h with rfl | ⟨a, haa, ha⟩
  · exact absurd h definite
  · have heq : d.alignment = a := by
      rw [alignment, h]
      simp only
      rw [ha.toNat?, Option.getD_some]
    exact heq ▸ ⟨haa, ha⟩

theorem isAlignment_alignment (d : Desc) : IsAlignment d.alignment := by
  by_cases hnan : d.align = .ok .nan
  · rw [alignment, hnan]
    exact .inl rfl
  · cases h : d.align with
    | ok x => exact (alignment_spec hnan h).1
    | error e =>
        rw [alignment, h]
        exact .inl rfl

/-- The widest alignment is defined exactly if every field has one. -/
theorem alignFields_defined {fields : List (Field Desc)} (widest : Num) :
    (∃ x, alignFields fields widest = .ok x) ↔ ∀ f ∈ fields, ∃ a, f.type.align = .ok a := by
  induction fields generalizing widest with
  | nil => simp [alignFields]
  | cons f rest ih =>
      rw [alignFields, List.forall_mem_cons]
      constructor
      · rintro ⟨x, hx⟩
        obtain ⟨a, ha, hx⟩ := bind_eq_ok.mp hx
        exact ⟨⟨a, ha⟩, (ih _).mp ⟨x, hx⟩⟩
      · rintro ⟨⟨a, ha⟩, hrest⟩
        obtain ⟨x, hx⟩ := (ih (widest.max a)).mpr hrest
        exact ⟨x, bind_eq_ok.mpr ⟨a, ha, hx⟩⟩

/-- The widest alignment is defined exactly if every payload has one. -/
theorem alignCtors_defined {ctors : List (Ctor Desc)} (widest : Num) :
    (∃ x, alignCtors ctors widest = .ok x) ↔ ∀ k ∈ ctors, ∃ a, k.type.align = .ok a := by
  induction ctors generalizing widest with
  | nil => simp [alignCtors]
  | cons k rest ih =>
      rw [alignCtors, List.forall_mem_cons]
      constructor
      · rintro ⟨x, hx⟩
        obtain ⟨a, ha, hx⟩ := bind_eq_ok.mp hx
        exact ⟨⟨a, ha⟩, (ih _).mp ⟨x, hx⟩⟩
      · rintro ⟨⟨a, ha⟩, hrest⟩
        obtain ⟨x, hx⟩ := (ih (widest.max a)).mpr hrest
        exact ⟨x, bind_eq_ok.mpr ⟨a, ha, hx⟩⟩

theorem alignCtors_nan (ctors : List (Ctor Desc)) {x : Num}
    (h : alignCtors ctors .nan = .ok x) : x = .nan := by
  induction ctors with
  | nil =>
      rw [alignCtors] at h
      cases h
      rfl
  | cons c rest ih =>
      rw [alignCtors] at h
      obtain ⟨y, -, h⟩ := bind_eq_ok.mp h
      exact ih h

/-- If the widest alignment is a number, so is that of each payload. -/
theorem alignCtors_definite {ctors : List (Ctor Desc)} {widest x : Num}
    (h : alignCtors ctors widest = .ok x) (hx : x ≠ .nan) : ∀ c ∈ ctors, c.type.Definite := by
  induction ctors generalizing widest with
  | nil => simp
  | cons c rest ih =>
      rw [alignCtors] at h
      obtain ⟨y, ha, h⟩ := bind_eq_ok.mp h
      refine List.forall_mem_cons.mpr ⟨fun hnan => hx ?_, ih h⟩
      obtain rfl := Except.ok.inj (ha.symm.trans hnan)
      exact alignCtors_nan rest (max_nan widest ▸ h)

/-- The widest alignment is at least that of each constructor. -/
theorem alignCtors_spec {ctors : List (Ctor Desc)} {widest x : Num} {w : Nat}
    (h : alignCtors ctors widest = .ok x) (hx : x ≠ .nan) (hw : widest.Is w)
    (hwa : IsAlignment w) :
    ∃ a, IsAlignment a ∧ x.Is a ∧ w ≤ a ∧ ∀ c ∈ ctors, c.type.alignment ≤ a := by
  have hdefinite := alignCtors_definite h hx
  induction ctors generalizing widest w with
  | nil =>
      rw [alignCtors] at h
      cases h
      exact ⟨w, hwa, hw, Nat.le_refl w, by simp⟩
  | cons c rest ih =>
      obtain ⟨hfirst, hothers⟩ := List.forall_mem_cons.mp hdefinite
      rw [alignCtors] at h
      obtain ⟨y, ha, h⟩ := bind_eq_ok.mp h
      obtain ⟨hca, hc⟩ := alignment_spec hfirst ha
      obtain ⟨a, haa, hx, hle, hrest⟩ := ih h (hw.max hwa hc hca) (hwa.max hca) hothers
      have hmax : w ≤ a ∧ c.type.alignment ≤ a := Nat.max_le.mp hle
      refine ⟨a, haa, hx, hmax.1, fun c' hc' => ?_⟩
      rcases List.mem_cons.mp hc' with rfl | hc'
      · exact hmax.2
      · exact hrest c' hc'

theorem alignFields_ne_nan {fields : List (Field Desc)} (h : ∀ f ∈ fields, f.type.Definite)
    {widest x : Num} {w : Nat} (hw : widest.Is w) (hwa : IsAlignment w)
    (hx : alignFields fields widest = .ok x) : x ≠ .nan := by
  induction fields generalizing widest w with
  | nil =>
      rw [alignFields] at hx
      cases hx
      exact hw.ne_nan
  | cons f rest ih =>
      obtain ⟨hfirst, hrest⟩ := List.forall_mem_cons.mp h
      rw [alignFields] at hx
      obtain ⟨y, hy, hx⟩ := bind_eq_ok.mp hx
      obtain ⟨hfa, hf⟩ := alignment_spec hfirst hy
      exact ih hrest (hw.max hwa hf hfa) (hwa.max hfa) hx

theorem alignCtors_ne_nan {ctors : List (Ctor Desc)} (h : ∀ c ∈ ctors, c.type.Definite)
    {widest x : Num} {w : Nat} (hw : widest.Is w) (hwa : IsAlignment w)
    (hx : alignCtors ctors widest = .ok x) : x ≠ .nan := by
  induction ctors generalizing widest w with
  | nil =>
      rw [alignCtors] at hx
      cases hx
      exact hw.ne_nan
  | cons c rest ih =>
      obtain ⟨hfirst, hrest⟩ := List.forall_mem_cons.mp h
      rw [alignCtors] at hx
      obtain ⟨y, hy, hx⟩ := bind_eq_ok.mp hx
      obtain ⟨hca, hc⟩ := alignment_spec hfirst hy
      exact ih hrest (hw.max hwa hc hca) (hwa.max hca) hx

/-! ## Valid descriptors -/

/-- What a document can state: lengths, offsets and tags are natural numbers,
the tags of at most 32 bits. -/
inductive Valid : Desc → Prop
  | prim (name : Text) : Valid (.prim name)
  | nat {value : Num} (hvalue : ∃ n, value.Is n) : Valid (.nat value)
  | array {elem len : Desc} (helem : Valid elem) (hlen : Valid len) : Valid (.array elem len)
  | struct {fields : List (Field Desc)} (hoffsets : ∀ f ∈ fields, ∃ o, f.offset.Is o)
      (hfields : ∀ f ∈ fields, Valid f.type) : Valid (.struct fields)
  | variant {ctors : List (Ctor Desc)} (hids : ∀ c ∈ ctors, ∃ n, c.id.Is n ∧ n < twoPow 32)
      (hctors : ∀ c ∈ ctors, Valid c.type) : Valid (.variant ctors)

/-- Every size that is defined in the descriptor lies below the limit of exactness. -/
inductive Small : Desc → Prop
  | prim {name : Text} (hsize : ∀ x, size (.prim name) = .ok x → x.Small) : Small (.prim name)
  | nat (value : Num) : Small (.nat value)
  | array {elem len : Desc} (hsize : ∀ x, size (.array elem len) = .ok x → x.Small)
      (helem : Small elem) : Small (.array elem len)
  | struct {fields : List (Field Desc)} (hsize : ∀ x, size (.struct fields) = .ok x → x.Small)
      (hfields : ∀ f ∈ fields, Small f.type) : Small (.struct fields)
  | variant {ctors : List (Ctor Desc)} (hsize : ∀ x, size (.variant ctors) = .ok x → x.Small)
      (hctors : ∀ c ∈ ctors, Small c.type) : Small (.variant ctors)

/-- Where all sizes are numbers, so are the alignments. -/
theorem Small.definite {d : Desc} (h : d.Small) : d.Definite := by
  induction h with
  | @prim name hsize =>
      intro hnan
      rw [align] at hnan
      obtain ⟨x, hx, hmax⟩ := bind_eq_ok.mp hnan
      rcases primSize_ok hx with rfl | ⟨p, -, rfl⟩
      · exact absurd (hsize _ (by rwa [size])) not_small_nan
      · revert hmax
        cases p <;> decide
  | nat value => exact fun h => by cases h
  | array _ _ ih =>
      intro hnan
      rw [align] at hnan
      exact ih hnan
  | struct _ _ ih =>
      intro hnan
      rw [align] at hnan
      exact alignFields_ne_nan ih (is_ofNat (by decide)) (Or.inl rfl) hnan rfl
  | variant _ _ ih =>
      intro hnan
      rw [align] at hnan
      exact alignCtors_ne_nan ih tagSize_is (Or.inr (Or.inr (Or.inl rfl))) hnan rfl

/-! ### Checking sizes -/

/-- The size, if it is defined, lies below the limit of exactness. -/
def sizeFits (d : Desc) : Bool :=
  match d.size with
  | .ok x => x.lt (.ofNat exactLimit)
  | .error _ => true

theorem sizeFits_iff {d : Desc} : d.sizeFits = true ↔ ∀ x, d.size = .ok x → x.Small := by
  rw [sizeFits]
  cases d.size with
  | ok x => simp [Num.Small]
  | error e => simp

mutual

def fits : Desc → Bool
  | prim name => sizeFits (prim name)
  | nat _ => true
  | array elem len => sizeFits (array elem len) && fits elem
  | struct fields => sizeFits (struct fields) && fieldsFit fields
  | variant ctors => sizeFits (variant ctors) && ctorsFit ctors

def fieldsFit : List (Field Desc) → Bool
  | [] => true
  | f :: rest => fits f.type && fieldsFit rest

def ctorsFit : List (Ctor Desc) → Bool
  | [] => true
  | c :: rest => fits c.type && ctorsFit rest

end

theorem fieldsFit_iff {fields : List (Field Desc)} :
    fieldsFit fields = true ↔ ∀ f ∈ fields, f.type.fits = true := by
  induction fields with
  | nil => simp [fieldsFit]
  | cons f rest ih => rw [fieldsFit, Bool.and_eq_true, ih, List.forall_mem_cons]

theorem ctorsFit_iff {ctors : List (Ctor Desc)} :
    ctorsFit ctors = true ↔ ∀ c ∈ ctors, c.type.fits = true := by
  induction ctors with
  | nil => simp [ctorsFit]
  | cons c rest ih => rw [ctorsFit, Bool.and_eq_true, ih, List.forall_mem_cons]

mutual

theorem small_of_fits : ∀ {d : Desc}, d.fits = true → d.Small
  | prim name, h => by
      rw [fits] at h
      exact .prim (sizeFits_iff.mp h)
  | nat value, _ => .nat value
  | array elem len, h => by
      rw [fits, Bool.and_eq_true] at h
      exact .array (sizeFits_iff.mp h.1) (small_of_fits h.2)
  | struct fields, h => by
      rw [fits, Bool.and_eq_true] at h
      exact .struct (sizeFits_iff.mp h.1) (small_of_fieldsFit h.2)
  | variant ctors, h => by
      rw [fits, Bool.and_eq_true] at h
      exact .variant (sizeFits_iff.mp h.1) (small_of_ctorsFit h.2)

theorem small_of_fieldsFit : ∀ {fields : List (Field Desc)}, fieldsFit fields = true →
    ∀ f ∈ fields, f.type.Small
  | [], _ => by simp
  | f :: rest, h => by
      rw [fieldsFit, Bool.and_eq_true] at h
      exact List.forall_mem_cons.mpr ⟨small_of_fits h.1, small_of_fieldsFit h.2⟩

theorem small_of_ctorsFit : ∀ {ctors : List (Ctor Desc)}, ctorsFit ctors = true →
    ∀ c ∈ ctors, c.type.Small
  | [], _ => by simp
  | c :: rest, h => by
      rw [ctorsFit, Bool.and_eq_true] at h
      exact List.forall_mem_cons.mpr ⟨small_of_fits h.1, small_of_ctorsFit h.2⟩

end

theorem Small.fits {d : Desc} (h : d.Small) : d.fits = true := by
  induction h with
  | prim hsize => exact sizeFits_iff.mpr hsize
  | nat value => rfl
  | array hsize _ ih =>
      rw [Desc.fits, Bool.and_eq_true]
      exact ⟨sizeFits_iff.mpr hsize, ih⟩
  | struct hsize _ ih =>
      rw [Desc.fits, Bool.and_eq_true, fieldsFit_iff]
      exact ⟨sizeFits_iff.mpr hsize, ih⟩
  | variant hsize _ ih =>
      rw [Desc.fits, Bool.and_eq_true, ctorsFit_iff]
      exact ⟨sizeFits_iff.mpr hsize, ih⟩

instance : DecidablePred Small := fun _ => decidable_of_iff _ ⟨small_of_fits, Small.fits⟩

/-! ## Exact sizes -/

/-- The bytes of a value as a natural number. -/
def bytes (d : Desc) : Nat :=
  match d.size with
  | .ok x => x.toNat?.getD 0
  | .error _ => 0

theorem bytes_of_is {d : Desc} {x : Num} {n : Nat} (h : d.size = .ok x) (hx : x.Is n) :
    d.bytes = n := by
  rw [bytes, h]
  simp only
  rw [hx.toNat?, Option.getD_some]

theorem bytes_prim (q : PrimName) : (prim q.name).bytes = q.size := by
  refine bytes_of_is (x := .ofNat q.size) ?_ (is_ofNat (by cases q <;> decide))
  rw [size, primSize_name]

theorem lengthOf_ok {len : Desc} {x : Num} (h : lengthOf len = .ok x) : len = .nat x := by
  cases len with
  | nat value =>
      cases h
      rfl
  | _ => cases h

theorem endOfFields_spec {fields : List (Field Desc)} (hoffsets : ∀ f ∈ fields, ∃ o, f.offset.Is o)
    (hfields : ∀ f ∈ fields, ∀ x, f.type.size = .ok x → x.Is f.type.bytes) {finish x : Num}
    {n : Nat} (h : endOfFields fields finish = .ok x) (hn : finish.Tracks n) :
    ∃ m, x.Tracks m ∧ n ≤ m ∧
      ∀ f ∈ fields, (∃ y, f.type.size = .ok y) ∧ f.start + f.type.bytes ≤ m := by
  induction fields generalizing finish n with
  | nil =>
      rw [endOfFields] at h
      cases h
      exact ⟨n, hn, Nat.le_refl n, by simp⟩
  | cons f rest ih =>
      rw [endOfFields] at h
      obtain ⟨y, hy, h⟩ := bind_eq_ok.mp h
      have hend := (tracks_of_is (Field.start_is (hoffsets f List.mem_cons_self))).add
        (tracks_of_is (hfields f List.mem_cons_self y hy))
      obtain ⟨m, hm, hle, hrest⟩ := ih (fun g hg => hoffsets g (List.mem_cons_of_mem _ hg))
        (fun g hg => hfields g (List.mem_cons_of_mem _ hg)) h (hn.max hend)
      have hmax : n ≤ m ∧ f.start + f.type.bytes ≤ m := Nat.max_le.mp hle
      refine ⟨m, hm, hmax.1, fun g hg => ?_⟩
      rcases List.mem_cons.mp hg with rfl | hg
      · exact ⟨⟨y, hy⟩, hmax.2⟩
      · exact hrest g hg

theorem largestPayload_spec {ctors : List (Ctor Desc)}
    (hctors : ∀ c ∈ ctors, ∀ x, c.type.size = .ok x → x.Is c.type.bytes) {largest x : Num}
    {n : Nat} (h : largestPayload ctors largest = .ok x) (hn : largest.Tracks n) :
    ∃ m, x.Tracks m ∧ n ≤ m ∧ ∀ c ∈ ctors, (∃ y, c.type.size = .ok y) ∧ c.type.bytes ≤ m := by
  induction ctors generalizing largest n with
  | nil =>
      rw [largestPayload] at h
      cases h
      exact ⟨n, hn, Nat.le_refl n, by simp⟩
  | cons c rest ih =>
      rw [largestPayload] at h
      obtain ⟨y, hy, h⟩ := bind_eq_ok.mp h
      obtain ⟨m, hm, hle, hrest⟩ := ih (fun g hg => hctors g (List.mem_cons_of_mem _ hg)) h
        (hn.max (tracks_of_is (hctors c List.mem_cons_self y hy)))
      have hmax : n ≤ m ∧ c.type.bytes ≤ m := Nat.max_le.mp hle
      refine ⟨m, hm, hmax.1, fun g hg => ?_⟩
      rcases List.mem_cons.mp hg with rfl | hg
      · exact ⟨⟨y, hy⟩, hmax.2⟩
      · exact hrest g hg

/-- A struct reaches past the end of each field. -/
theorem struct_size {fields : List (Field Desc)} (hoffsets : ∀ f ∈ fields, ∃ o, f.offset.Is o)
    (hfields : ∀ f ∈ fields, ∀ x, f.type.size = .ok x → x.Is f.type.bytes) {x : Num}
    (h : size (.struct fields) = .ok x) (hx : x ≠ .nan) :
    ∃ n, x.Tracks n ∧
      ∀ f ∈ fields, (∃ y, f.type.size = .ok y) ∧ f.start + f.type.bytes ≤ n := by
  rw [size] at h
  obtain ⟨finish, hfinish, h⟩ := bind_eq_ok.mp h
  obtain ⟨widest, hwidest, h⟩ := bind_eq_ok.mp h
  cases h
  rcases align_aligns hwidest with rfl | ⟨a, haa, ha⟩
  · exact absurd (alignTo_nan finish) hx
  · obtain ⟨m, hm, -, hends⟩ :=
      endOfFields_spec hoffsets hfields hfinish (tracks_of_is (is_ofNat (Nat.zero_le _)))
    have hup := le_roundUp (n := m) haa
    exact ⟨_, hm.alignTo ha haa, fun f hf => ⟨(hends f hf).1, (hends f hf).2.trans hup⟩⟩

/-- A variant reaches past the end of each payload, and past its tag. -/
theorem variant_size {ctors : List (Ctor Desc)}
    (hctors : ∀ c ∈ ctors, ∀ x, c.type.size = .ok x → x.Is c.type.bytes) {x : Num}
    (h : size (.variant ctors) = .ok x) (hx : x ≠ .nan) :
    ∃ n a, x.Tracks n ∧ IsAlignment a ∧ roundUp 4 a ≤ n ∧
      ∀ c ∈ ctors, c.type.Definite ∧ c.type.alignment ≤ a ∧ (∃ y, c.type.size = .ok y) ∧
        roundUp 4 a + c.type.bytes ≤ n := by
  rw [size] at h
  obtain ⟨payload, hpayload, h⟩ := bind_eq_ok.mp h
  obtain ⟨offset, hoffset, h⟩ := bind_eq_ok.mp h
  obtain ⟨widest, hwidest, h⟩ := bind_eq_ok.mp h
  cases h
  rw [payloadOffset] at hoffset
  obtain ⟨inner, hinner, hoffset⟩ := bind_eq_ok.mp hoffset
  cases hoffset
  have hdefinite : inner ≠ .nan := by
    rintro rfl
    rw [alignTo_nan, nan_add, nan_alignTo] at hx
    exact hx rfl
  obtain ⟨a, haa, ha, -, hle⟩ := alignCtors_spec hinner hdefinite (is_ofNat (by decide)) (Or.inl rfl)
  obtain ⟨b, hba, hb⟩ := (align_aligns hwidest).resolve_left fun hnan =>
    hx (by rw [hnan, alignTo_nan])
  obtain ⟨m, hm, -, hends⟩ :=
    largestPayload_spec hctors hpayload (tracks_of_is (is_ofNat (Nat.zero_le _)))
  have hstart := (tracks_of_is tagSize_is).alignTo ha haa
  have hup := le_roundUp (n := roundUp 4 a + m) hba
  refine ⟨_, a, (hstart.add hm).alignTo hb hba, haa, by omega, fun c hc => ?_⟩
  have := (hends c hc).2
  exact ⟨alignCtors_definite hinner hdefinite c hc, hle c hc, (hends c hc).1, by omega⟩

/-- **Sizes below the limit are exact.** -/
theorem size_is {d : Desc} (valid : d.Valid) (small : d.Small) {x : Num} (h : d.size = .ok x) :
    x.Is d.bytes ∧ d.bytes < exactLimit := by
  have pair : ∀ {d : Desc} {x : Num} {n : Nat}, d.size = .ok x → x.Tracks n → x.Small →
      x.Is d.bytes ∧ d.bytes < exactLimit := by
    intro d x n hx hn hsmall
    obtain ⟨hlimit, his⟩ := hn.of_small hsmall
    exact bytes_of_is hx his ▸ ⟨his, hlimit⟩
  induction valid generalizing x with
  | prim name =>
      cases small with
      | prim hsize =>
          rcases primSize_ok (by rwa [size] at h) with rfl | ⟨p, -, rfl⟩
          · exact absurd (hsize _ h) not_small_nan
          · exact pair h (tracks_ofNat p.size) (hsize _ h)
  | nat hvalue =>
      rw [size] at h
      cases h
  | @array elem len helem hlen ih _ =>
      cases small with
      | array hsize hsmall =>
          have heq := h
          rw [size] at heq
          obtain ⟨length, hlength, heq⟩ := bind_eq_ok.mp heq
          obtain ⟨y, hy, heq⟩ := bind_eq_ok.mp heq
          cases heq
          obtain rfl := lengthOf_ok hlength
          cases hlen with
          | nat hvalue =>
              obtain ⟨n, hn⟩ := hvalue
              exact pair h (hn.mul_tracks (ih hsmall hy).1) (hsize _ h)
  | @struct fields hoffsets hfields ih =>
      cases small with
      | struct hsize hsmall =>
          obtain ⟨n, hn, -⟩ := struct_size hoffsets (fun f hf y hy => (ih f hf (hsmall f hf) hy).1) h
            (hsize x h).ne_nan
          exact pair h hn (hsize x h)
  | @variant ctors hids hctors ih =>
      cases small with
      | variant hsize hsmall =>
          obtain ⟨n, a, hn, -⟩ := variant_size (fun c hc y hy => (ih c hc (hsmall c hc) hy).1) h
            (hsize x h).ne_nan
          exact pair h hn (hsize x h)

end Desc

end Relayout
