import Relayout.Proofs.Interpret
import Relayout.Proofs.Mirror
import Relayout.Proofs.Native

/-!
# Conversion from the mirror

A type can always be converted from its mirror, whatever the options. Each part
is matched with its own mirror, at the same offset and under the same tag, so
the value that is interpreted is the one that the destination type itself
decodes from the source bytes; and so is the first unknown tag.
-/

namespace Relayout

open Relayout.Num

/-- In lists that match pairwise by distinct names, a partner is found by name. -/
theorem find?_of_mem_zip {α β : Type} {R : α → β → Prop} {name : α → Text} {name' : β → Text}
    (hR : ∀ a b, R a b → name a = name' b) {l : List α} {l' : List β} (h : List.Forall₂ R l l')
    (hnames : (l.map name).Nodup) {a : α} {b : β} (hab : (a, b) ∈ l.zip l') :
    l'.find? (fun b => name' b = name a) = some b := by
  induction h with
  | nil => cases hab
  | @cons first partner l l' hfirst _ ih =>
      rw [List.map_cons, List.nodup_cons] at hnames
      rw [List.zip_cons_cons] at hab
      rcases List.mem_cons.mp hab with heq | hab
      · cases heq
        rw [List.find?_cons_of_pos]
        exact decide_eq_true (hR _ _ hfirst).symm
      · have hne : name' partner ≠ name a := fun heq =>
          hnames.1 ((hR _ _ hfirst).trans heq ▸ List.mem_map_of_mem (List.of_mem_zip hab).1)
        rw [List.find?_cons_of_neg]
        · exact ih hnames.2 hab
        · simpa using hne

/-- What holds of all pairs holds of each part and the one found by its name. -/
theorem forall₂_found {α β : Type} {R P : α → β → Prop} {name : α → Text} {name' : β → Text}
    (hR : ∀ a b, R a b → name a = name' b) {l : List α} {l' : List β} (h : List.Forall₂ R l l')
    (hnames : (l.map name).Nodup) (hP : ∀ p ∈ l.zip l', P p.1 p.2) :
    List.Forall₂ (fun a b => l'.find? (fun b => name' b = name a) = some b ∧ R a b ∧ P a b) l l' :=
  List.forall₂_iff_zip.mpr ⟨h.length_eq, fun hab =>
    ⟨find?_of_mem_zip hR h hnames hab, List.forall₂_zip h hab, hP _ hab⟩⟩

namespace Dest

variable {d : Dest} {desc : Desc}

/-! ## The build succeeds -/

/-- The pair can be matched at any path, and the source can be measured. -/
def Buildable (d : Dest) (desc : Desc) : Prop :=
  (∀ path, ∃ plan, (Plan.build d desc path).result = .ok plan) ∧ ∃ x, d.sourceExtent desc = .ok x

theorem buildSlots_result {all fields : List (Field Desc)} {slots : List (Slot Dest)}
    (h : List.Forall₂ (fun s f => all.find? (·.name = s.name) = some f ∧ s.type.Laid ∧
      Buildable s.type f.type) slots fields)
    {size : Num} {start n : Nat} (hplaced : Placed slots start n) (hsize : size.Is n)
    (hlimit : n < exactLimit) (path : List Text) :
    ∃ plans, (Plan.buildSlots size all path slots).result = .ok plans := by
  induction h generalizing start with
  | nil => exact ⟨[], rfl⟩
  | @cons s f slots fields hfound _ ih =>
      obtain ⟨hf, hlaid, hbuild, -⟩ := hfound
      obtain ⟨o, ho, -, -, hrest⟩ := hplaced
      have hle := hrest.le
      have hzero : (0 : Num).Is 0 := is_ofNat (Nat.zero_le _)
      have hend := ho.add hlaid.size_is.1 (by omega)
      have hfits : (s.offset.lt 0 || size.lt (s.offset + s.type.size)) = false := by
        rw [lt_of_is ho hzero, lt_of_is hsize hend, Bool.or_eq_false_iff]
        exact ⟨decide_eq_false (by omega), decide_eq_false (by omega)⟩
      obtain ⟨plan, hplan⟩ := hbuild (path ++ [s.name])
      obtain ⟨plans, hplans⟩ := ih hrest
      refine ⟨⟨s.name, f.offset, s.offset, plan⟩ :: plans, ?_⟩
      rw [Plan.buildSlots, hfits, hf]
      exact Traced.result_bind_eq_ok.mpr ⟨plan, Plan.result_inPart.mpr hplan,
        Traced.result_bind_eq_ok.mpr ⟨plans, hplans, rfl⟩⟩

theorem slotsExtent_result {all fields : List (Field Desc)} {slots : List (Slot Dest)}
    (h : List.Forall₂ (fun s f => all.find? (·.name = s.name) = some f ∧ s.type.Laid ∧
      Buildable s.type f.type) slots fields)
    (finish : Num) : ∃ x, slotsExtent all slots finish = .ok x := by
  induction h generalizing finish with
  | nil => exact ⟨finish, rfl⟩
  | @cons s f slots fields hfound _ ih =>
      obtain ⟨hf, -, -, x, hx⟩ := hfound
      obtain ⟨y, hy⟩ := ih (finish.max (f.offset + x))
      refine ⟨y, ?_⟩
      rw [slotsExtent, hf]
      simp only [hx]
      exact hy

theorem buildCases_result {all ctors : List (Ctor Desc)} {cases : List (Case Dest)}
    (h : List.Forall₂ (fun c ctor => all.find? (·.name = c.name) = some ctor ∧
      SameShape c.type ctor.type ∧ Buildable c.type ctor.type) cases ctors)
    {size payloadOffset : Num} {p n : Nat} (hsize : size.Is n) (hlimit : n < exactLimit)
    (hoffset : payloadOffset.Is p) (hfits : ∀ c ∈ cases, p + c.type.bytes ≤ n) (path : List Text)
    (widest : Num) (arms : List (Arm Plan)) :
    ∃ table, (Plan.buildCases size payloadOffset all path cases widest arms).result =
      .ok table := by
  induction h generalizing widest arms with
  | nil => exact ⟨_, rfl⟩
  | @cons c ctor cases ctors hfound _ ih =>
      obtain ⟨hctor, hshape, hbuild, -⟩ := hfound
      obtain ⟨_, k, -, -, hk, -⟩ := hshape.size
      have hle := hfits c List.mem_cons_self
      rw [bytes_of_is hk] at hle
      have hend := hoffset.add hk (by omega)
      have hin : size.lt (payloadOffset + c.type.size) = false := by
        rw [lt_of_is hsize hend]
        exact decide_eq_false (by omega)
      obtain ⟨a, ha, -⟩ := hshape.align_is
      obtain ⟨plan, hplan⟩ := hbuild (path ++ [c.name])
      obtain ⟨table, htable⟩ := ih (fun g hg => hfits g (List.mem_cons_of_mem _ hg)) (widest.max a)
        (Plan.setArm ⟨ctor.id, c.id, payloadOffset, plan⟩ arms)
      refine ⟨table, ?_⟩
      rw [Plan.buildCases, hctor]
      simp only [hin]
      exact Traced.result_bind_eq_ok.mpr ⟨a, Plan.result_ofCause.mpr ha,
        Traced.result_bind_eq_ok.mpr ⟨plan, Plan.result_inPart.mpr hplan, htable⟩⟩

theorem casesExtent_result {all ctors : List (Ctor Desc)} {cases : List (Case Dest)}
    (h : List.Forall₂ (fun c ctor => all.find? (·.name = c.name) = some ctor ∧
      SameShape c.type ctor.type ∧ Buildable c.type ctor.type) cases ctors) (widest payload : Num) :
    ∃ x, casesExtent all cases widest payload = .ok x := by
  induction h generalizing widest payload with
  | nil => exact ⟨_, rfl⟩
  | @cons c ctor cases ctors hfound _ ih =>
      obtain ⟨hctor, hshape, -, x, hx⟩ := hfound
      obtain ⟨a, ha, -⟩ := hshape.align_is
      obtain ⟨y, hy⟩ := ih (widest.max a) (payload.max x)
      refine ⟨y, ?_⟩
      rw [casesExtent, hctor]
      simp only [ha, hx]
      exact hy

theorem buildable_array {surface : Surface} {elem : Dest} {elemDesc : Desc} {length : Num}
    {count : Nat} (hlength : length.Is count) (hshape : SameShape elem elemDesc)
    (h : Buildable elem elemDesc) :
    Buildable (.array surface elem length count) (.array elemDesc (.nat length)) := by
  obtain ⟨x, -, hx, -⟩ := hshape.size
  refine ⟨fun path => ?_, length * x, ?_⟩
  · obtain ⟨plan, hplan⟩ := h.1 (path ++ [Text.ofString "[]"])
    obtain ⟨hwhole, hpos⟩ := isWhole_not_lt_iff.mpr ⟨count, hlength⟩
    have hcheck : Plan.checkLength length (.nat length) path = .ok () := by
      rw [Plan.checkLength, hwhole, hpos, eqv_of_is hlength hlength, decide_eq_true rfl]
      rfl
    refine ⟨.array (length.toNat?.getD 0) plan x elem.size, ?_⟩
    rw [Plan.build]
    exact Traced.result_bind_eq_ok.mpr ⟨(), Plan.result_ofCause.mpr hcheck,
      Traced.result_bind_eq_ok.mpr ⟨plan, Plan.result_inPart.mpr hplan,
        Traced.result_bind_eq_ok.mpr ⟨x, Plan.result_ofCause.mpr hx, rfl⟩⟩⟩
  · rw [sourceExtent, hx]
    rfl

theorem buildable_record {surface : Surface} {slots : List (Slot Dest)}
    {fields : List (Field Desc)} {n : Nat}
    (h : List.Forall₂ (fun s f => fields.find? (·.name = s.name) = some f ∧ s.type.Laid ∧
      Buildable s.type f.type) slots fields)
    (hplaced : Placed slots 0 n) (hsize : surface.size.Is n) (hlimit : n < exactLimit) :
    Buildable (.record surface slots) (.struct fields) := by
  constructor
  · intro path
    obtain ⟨plans, hplans⟩ := buildSlots_result h hplaced hsize hlimit path
    refine ⟨.record plans, ?_⟩
    rw [Plan.build]
    exact Traced.result_bind_eq_ok.mpr ⟨plans, hplans,
      Traced.result_bind_eq_ok.mpr ⟨(), rfl, rfl⟩⟩
  · rw [sourceExtent]
    exact slotsExtent_result h 0

theorem buildable_variant {surface : Surface} {cases : List (Case Dest)}
    {payloadOffset decodedAt : Num} {ctors : List (Ctor Desc)} {p n : Nat}
    (h : List.Forall₂ (fun c ctor => ctors.find? (·.name = c.name) = some ctor ∧
      SameShape c.type ctor.type ∧ Buildable c.type ctor.type) cases ctors)
    (hsize : surface.size.Is n) (hlimit : n < exactLimit) (hoffset : payloadOffset.Is p)
    (hfits : ∀ c ∈ cases, p + c.type.bytes ≤ n) :
    Buildable (.variant surface cases payloadOffset decodedAt) (.variant ctors) := by
  constructor
  · intro path
    obtain ⟨⟨maxAlign, arms⟩, htable⟩ :=
      buildCases_result h hsize hlimit hoffset hfits path 1 []
    refine ⟨.variant surface.name maxAlign arms, ?_⟩
    rw [Plan.build]
    exact Traced.result_bind_eq_ok.mpr ⟨(maxAlign, arms), htable, rfl⟩
  · obtain ⟨⟨maxAlign, payload⟩, hextent⟩ := casesExtent_result h 1 0
    refine ⟨Desc.tagSize.max (Desc.tagSize.alignTo maxAlign + payload), ?_⟩
    rw [sourceExtent, hextent]
    rfl

/-- A type and its mirror can be matched. -/
theorem Mirrors.buildable (h : d.Mirrors desc) (laid : d.Laid) : d.Buildable desc := by
  induction h with
  | @prim p hshape =>
      refine ⟨fun path => ⟨Plan.copyOf (.ofNat p.size), ?_⟩, ?_⟩
      · rw [ofPrim, Plan.build]
        exact Plan.result_ofCause.mpr (by rw [Plan.buildPrim, if_pos rfl])
      · obtain ⟨x, -, hx, -⟩ := hshape.size
        exact ⟨x, by rw [ofPrim, sourceExtent, hx]⟩
  | array hshape hlength helem ih =>
      cases laid with
      | array hlaid => exact buildable_array hlength helem.shape (ih hlaid)
  | record hshape hnames hoffsets htypes ih =>
      cases laid with
      | record hlaid hplaced hsize hlimit =>
          have hall := forall₂_found (P := fun s f => s.type.Laid ∧ s.type.Buildable f.type)
            (fun _ _ hsf => hsf.1) hoffsets hnames fun p hp =>
              have hs := hlaid p.1 (List.of_mem_zip hp).1
              ⟨hs, ih p hp hs⟩
          have hparts := hall.imp fun s f hsf => And.intro hsf.1 hsf.2.2
          exact buildable_record hparts hplaced hsize hlimit
  | variant hshape hpayload hnames htags htypes ih =>
      cases laid with
      | variant hlaid hoffset htag hfits hpn hids hsize hlimit =>
          have hall := forall₂_found
            (P := fun c ctor => c.type.SameShape ctor.type ∧ c.type.Buildable ctor.type)
            (fun _ _ hc => hc.1) htags hnames fun p hp =>
              ⟨(htypes p hp).shape, ih p hp (hlaid p.1 (List.of_mem_zip hp).1)⟩
          have hparts := hall.imp fun c ctor hc => And.intro hc.1 hc.2.2
          exact buildable_variant hparts hsize hlimit hoffset hfits

/-! ## What is interpreted is what is decoded -/

variable {order : ByteOrder} {src : Memory}

theorem mapM_eq_decodeItems {expected : Nat → Except Fault Value} {item : Num → Except Fault Value}
    {start step : Num} {i count : Nat}
    (h : ∀ j, i ≤ j → j < i + count → expected j = item (start + Num.ofNat j * step)) :
    (List.range' i count).mapM expected = decodeItems item start step i count := by
  induction count generalizing i with
  | zero => rfl
  | succ count ih =>
      rw [List.range'_succ, List.mapM_cons, decodeItems, h i (Nat.le_refl i) (by omega),
        ih fun j hij hj => h j (by omega) (by omega)]

/-- Interpreting the source type and decoding the destination type yield the same. -/
def Interprets (order : ByteOrder) (src : Memory) (d : Dest) (desc : Desc) : Prop :=
  ∀ {s : Num} {n : Nat}, s.Is n → n + d.bytes ≤ src.size →
    d.interpret order src desc n = d.decode src order s

theorem interpretSlots_eq (hsrc : src.Addressable) {all fields : List (Field Desc)}
    {slots : List (Slot Dest)}
    (h : List.Forall₂ (fun s f => all.find? (·.name = s.name) = some f ∧
      (s.name = f.name ∧ ∃ o, s.offset.Is o ∧ f.offset.Is o) ∧ Interprets order src s.type f.type)
      slots fields)
    {start finish : Nat} (hplaced : Placed slots start finish) {s : Num} {n : Nat} (hn : s.Is n)
    (hfit : n + finish ≤ src.size) :
    interpretSlots order src all slots n = decodeSlots src order slots s := by
  rw [Memory.Addressable] at hsrc
  induction h generalizing start with
  | nil => rw [interpretSlots, decodeSlots]
  | @cons slot f slots fields hfound _ ih =>
      obtain ⟨hf, ⟨-, o, ho, hfo⟩, hinterprets⟩ := hfound
      obtain ⟨o', ho', hdecoded, -, hrest⟩ := hplaced
      cases ho.unique ho'
      have hle := hrest.le
      have hstart : f.start = o := by rw [Field.start, hfo.toNat?, Option.getD_some]
      rw [interpretSlots, decodeSlots, hf, hdecoded]
      simp only [hstart, hinterprets (hn.add ho (by omega)) (by omega), ih hrest]

/-- All payloads begin where the widest of them allows, for every constructor is matched. -/
theorem matchedAlign_is {all ctors : List (Ctor Desc)} {cases : List (Case Dest)}
    (h : List.Forall₂ (fun c ctor => all.find? (·.name = c.name) = some ctor ∧
      SameShape c.type ctor.type) cases ctors) {x z : Num} {w : Nat}
    (hz : Desc.alignCtors ctors x = .ok z) (hx : x.Is w) (hw : IsAlignment w) :
    z.Is (Plan.matchedAlign all cases w) ∧ IsAlignment (Plan.matchedAlign all cases w) := by
  induction h generalizing x w with
  | nil =>
      cases hz
      exact ⟨hx, hw⟩
  | @cons c ctor cases ctors hfound _ ih =>
      obtain ⟨hctor, hshape⟩ := hfound
      obtain ⟨y, hy, hya, -, haa⟩ := hshape.align_is
      rw [Desc.alignCtors, hy] at hz
      rw [Plan.matchedAlign, hctor]
      exact ih hz (hx.max hw hya haa) (hw.max haa)

theorem interpretCase_eq_none {all ctors : List (Ctor Desc)} {cases : List (Case Dest)} {tag : Nat}
    (h : List.Forall₂ (fun c ctor => all.find? (·.name = c.name) = some ctor ∧
      (ctor.id.eqv (.ofNat tag) = true ↔ c.id.toNat = tag)) cases ctors)
    (htag : ∀ c ∈ cases, c.id.toNat ≠ tag) (n : Nat) :
    interpretCase order src all (.ofNat tag) cases n = none := by
  induction h with
  | nil => rw [interpretCase]
  | @cons c ctor cases ctors hfound _ ih =>
      have hne : ¬ctor.id.eqv (.ofNat tag) = true := fun heqv =>
        htag c List.mem_cons_self (hfound.2.mp heqv)
      rw [interpretCase, hfound.1, Option.filter_some, if_neg hne,
        ih fun g hg => htag g (List.mem_cons_of_mem _ hg)]
      rfl

/-- The last constructor with the tag and the first case with it belong
together, for no two cases share a tag. -/
theorem interpretCase_eq_decodeCase {all ctors : List (Ctor Desc)} {cases : List (Case Dest)}
    {tag : Nat} {s : Num} {n : Nat}
    (h : List.Forall₂ (fun c ctor => all.find? (·.name = c.name) = some ctor ∧
      (ctor.id.eqv (.ofNat tag) = true ↔ c.id.toNat = tag) ∧
      c.type.interpret order src ctor.type n = c.type.decode src order s) cases ctors)
    (hids : cases.Pairwise fun c c' => c.id ≠ c'.id) :
    (interpretCase order src all (.ofNat tag) cases n).getD (.error (.unknownTag tag)) =
      decodeCase src order tag cases s := by
  induction h with
  | nil => rfl
  | @cons c ctor cases ctors hfound hrest ih =>
      obtain ⟨hctor, hid, hpayload⟩ := hfound
      obtain ⟨hfirst, hids⟩ := List.pairwise_cons.mp hids
      rw [interpretCase, decodeCase, hctor, Option.filter_some]
      by_cases htag : c.id.toNat = tag
      · have hnone : interpretCase order src all (.ofNat tag) cases n = none := by
          refine interpretCase_eq_none (hrest.imp fun c ctor hc => ⟨hc.1, hc.2.1⟩)
            (fun g hg heq => ?_) n
          exact hfirst g hg (UInt32.toNat_inj.mp (htag.trans heq.symm))
        rw [if_pos (hid.mpr htag), if_pos htag, hnone, Option.none_or, Option.map_some,
          Option.getD_some, hpayload]
      · rw [if_neg fun heqv => htag (hid.mp heqv), if_neg htag, Option.map_none, Option.or_none]
        exact ih hids

/-- The payloads of a type and of its mirror begin at the same distance from the tag. -/
theorem payloadStart_eq {ctors : List (Ctor Desc)} {cases : List (Case Dest)}
    (h : List.Forall₂ (fun c ctor => ctors.find? (·.name = c.name) = some ctor ∧
      SameShape c.type ctor.type) cases ctors)
    {x : Num} {q : Nat} (hx : Desc.payloadOffset ctors = .ok x) (hq : x.Is q)
    (hlimit : q < exactLimit) : Plan.payloadStart ctors cases = q := by
  obtain ⟨z, hz, hx⟩ := bind_eq_ok.mp hx
  cases hx
  have hone : (1 : Num).Is 1 := is_ofNat (by decide)
  obtain ⟨hza, haa⟩ := matchedAlign_is h hz hone (Or.inl rfl)
  have hroundUp := (tracks_of_is Desc.tagSize_is).alignTo hza haa
  exact hroundUp.eq_of_is hq hlimit

theorem interprets_variant (hsrc : src.Addressable) {surface : Surface} {cases : List (Case Dest)}
    {payloadOffset decodedAt : Num} {ctors : List (Ctor Desc)} {q total : Nat}
    (hstart : Plan.payloadStart ctors cases = q) (htag : 4 ≤ q) (hpn : q ≤ total)
    (hids : cases.Pairwise fun c c' => c.id ≠ c'.id) {s : Num} {n : Nat} (hn : s.Is n)
    (hfit : n + total ≤ src.size)
    (h : List.Forall₂ (fun c ctor => ctors.find? (·.name = c.name) = some ctor ∧
      ctor.id = .ofNat c.id.toNat ∧ c.type.interpret order src ctor.type (n + q) =
        c.type.decode src order (s + decodedAt)) cases ctors) :
    (Dest.variant surface cases payloadOffset decodedAt).interpret order src (.variant ctors) n =
      (Dest.variant surface cases payloadOffset decodedAt).decode src order s := by
  have hword : src.wordAt order n 4 < Word.range 4 := Memory.wordAt_lt order (by omega)
  have hrange : Word.range 4 ≤ exactLimit := by decide
  -- tags are whole numbers of 32 bits on both sides, so they are compared exactly
  have hparts := h.imp fun c ctor hc => by
    have hid : ctor.id.eqv (.ofNat (src.wordAt order n 4)) = true ↔
        c.id.toNat = src.wordAt order n 4 := by
      have hlt : c.id.toNat < Word.range 4 := UInt32.toNat_lt c.id
      rw [hc.2.1, eqv_of_is (is_ofNat (by omega)) (is_ofNat (by omega)), decide_eq_true_eq]
    exact And.intro hc.1 (And.intro hid hc.2.2)
  rw [interpret, decode, Memory.loadWord_of_is hsrc order hn (by omega), hstart]
  exact interpretCase_eq_decodeCase hparts hids

/-- **Interpreting the mirror is decoding the type.** -/
theorem Mirrors.interprets (h : d.Mirrors desc) (laid : d.Laid) (hsrc : src.Addressable) :
    Interprets order src d desc := by
  have hlimit' : src.size < exactLimit := hsrc
  induction h with
  | @prim p hshape =>
      intro s n hn hfit
      have hp : p.size ≤ exactLimit := by cases p <;> decide
      have hbytes : (ofPrim p).bytes = p.source.size := bytes_of_is (is_ofNat hp)
      rw [hbytes] at hfit
      rw [interpret_prim, decode_prim_of_word (Memory.wordAt_lt order hfit) fun _ =>
        Memory.loadWord_of_is hsrc order hn hfit]
  | @array surface elem length count elemDesc hshape hlength helem ih =>
      intro s n hn hfit
      cases laid with
      | array hlaid _ hcount hsize hlimit =>
          have hbytes : (Dest.array surface elem length count).bytes = count * elem.bytes :=
            bytes_of_is hsize
          rw [hbytes] at hfit
          rw [interpret, decode, helem.shape.bytes_eq, mapM_eq_decodeItems fun j _ hj => ?_]
          obtain ⟨hat, hend⟩ := hlaid.size_is.1.item (j := j) (by omega) hcount.le hlimit
          exact ih hlaid (hn.add hat (by omega)) (by omega)
  | @record surface slots fields hshape hnames hoffsets htypes ih =>
      intro s n hn hfit
      cases laid with
      | @record _ _ total hlaid hplaced hsize hlimit =>
          have hbytes : (Dest.record surface slots).bytes = total := bytes_of_is hsize
          rw [hbytes] at hfit
          have hall := forall₂_found (P := fun s f => Interprets order src s.type f.type)
            (fun _ _ hsf => hsf.1) hoffsets hnames fun p hp =>
              ih p hp (hlaid p.1 (List.of_mem_zip hp).1)
          rw [interpret, decode, interpretSlots_eq hsrc hall hplaced hn hfit]
  | @variant surface cases payloadOffset decodedAt ctors hshape hpayload hnames htags htypes ih =>
      intro s n hn hfit
      cases laid with
      | @variant _ _ _ q total hlaid hoffset htag hfits hpn hids hsize hlimit =>
          have hbytes : (Dest.variant surface cases payloadOffset payloadOffset).bytes = total :=
            bytes_of_is hsize
          rw [hbytes] at hfit
          have hall := forall₂_found
            (P := fun c ctor => c.type.SameShape ctor.type ∧
              c.type.interpret order src ctor.type (n + q) =
                c.type.decode src order (s + payloadOffset))
            (fun _ _ hc => hc.1) htags hnames fun p hp => by
              have hc := (List.of_mem_zip hp).1
              have hle := hfits p.1 hc
              exact ⟨(htypes p hp).shape,
                ih p hp (hlaid p.1 hc) (hn.add hoffset (by omega)) (by omega)⟩
          obtain ⟨x, k, hx, hk, hk'⟩ := hpayload
          cases hk'.unique hoffset
          have hstart := payloadStart_eq (hall.imp fun c ctor hc => ⟨hc.1, hc.2.2.1⟩) hx hk
            (by omega)
          exact interprets_variant hsrc hstart htag hpn hids hn hfit
            (hall.imp fun c ctor hc => ⟨hc.1, hc.2.1.2, hc.2.2.2⟩)

end Dest

namespace Converter

theorem build_of_buildable {dest : Dest} {desc : Desc} (h : dest.Buildable desc) {options : Layer}
    {config : Config} (hconfig : options.resolve = .ok config) :
    ∃ c, (build dest desc options).result = .ok c ∧ c.config = config := by
  obtain ⟨hbuild, size, hsize⟩ := h
  obtain ⟨plan, hplan⟩ := hbuild []
  have hcompiled : (Compiled.once dest desc []).result = .ok ⟨plan, plan, size⟩ :=
    Traced.result_bind_eq_ok.mpr ⟨plan, hplan,
      Traced.result_bind_eq_ok.mpr ⟨size, Plan.result_ofCause.mpr hsize, rfl⟩⟩
  refine ⟨⟨dest, ⟨plan, plan, size⟩, config⟩, ?_, rfl⟩
  rw [build_of_resolve dest desc hconfig, hcompiled]
  rfl

/-- A conversion from the mirror decodes the source as the type does, and fails
with an unknown tag alone. -/
theorem convert_of_mirrors {c : Converter} {desc : Desc} (laid : c.dest.Laid)
    (hmirrors : c.dest.Mirrors desc) (built : c.BuiltFor c.dest desc) {src : Memory}
    (hsrc : src.Addressable) (hsize : c.dest.bytes ≤ src.size) :
    c.convert src 0 = c.dest.decode src c.config.byteOrder 0 ∧
      ((∃ v, c.convert src 0 = .ok v) ∨ ∃ tag, c.convert src 0 = .error (Fault.unknownTag tag)) := by
  have hzero : (0 : Num).Is 0 := is_ofNat (Nat.zero_le _)
  have valid := hmirrors.valid
  have hsmall := hmirrors.small
  obtain ⟨x, hx, -⟩ := hmirrors.shape.size_is
  have hreach : c.dest.reach desc ≤ c.dest.bytes := by
    obtain ⟨plan, hplan⟩ := built.plan
    rw [← hmirrors.shape.bytes_eq]
    exact Dest.reach_le_bytes laid built.plan valid hsmall hx
  have hextent := Dest.sourceExtent_tracks laid valid hsmall built.extent
  have hrange : checkRange .source src.size 0 c.sourceSize = .ok () :=
    (checkRange_ok hsrc hextent).mpr ⟨0, hzero, by omega⟩
  obtain ⟨hinterpret, hends⟩ :=
    convert_of_valid laid valid hsmall built hsrc hzero (by omega) hrange
  refine ⟨hinterpret.trans (hmirrors.interprets laid hsrc hzero (by omega)), ?_⟩
  have hreads := trail_reads laid valid hsmall built hsrc hzero (by omega) .fail 0
  rcases hreads.ends with hstop | ⟨-, tag, hstop⟩
  · rw [hstop] at hends
    exact Or.inl hends
  · rw [hstop] at hends
    exact Or.inr ⟨tag, hends⟩

/-- **Conversion from the mirror is lossless.** A type has a mirror, which is
laid out as the type at every depth. A converter from it can be built with any
valid options, and what it yields is what the type decodes from the source
itself: the same value, or the same unknown tag. -/
theorem convert_mirror {dest : Dest} (made : dest.Made) (small : dest.Small) :
    ∃ desc, dest.mirror = .ok desc ∧ dest.Mirrors desc ∧
      ∀ {options : Layer} {config : Config}, options.resolve = .ok config →
        ∃ c, (build dest desc options).result = .ok c ∧ c.config = config ∧
          ∀ src : Memory, src.Addressable → dest.bytes ≤ src.size →
            c.convert src 0 = dest.decode src config.byteOrder 0 ∧
              ((∃ v, c.convert src 0 = .ok v) ∨
                ∃ tag, c.convert src 0 = .error (Fault.unknownTag tag)) := by
  have laid := Dest.laid_of_made made small
  obtain ⟨desc, hdesc, hmirrors⟩ := Dest.exists_mirror made small
  refine ⟨desc, hdesc, hmirrors, fun {options config} hconfig => ?_⟩
  obtain ⟨c, hbuild, rfl⟩ := build_of_buildable (hmirrors.buildable laid) hconfig
  refine ⟨c, hbuild, rfl, fun src hsrc hsize => ?_⟩
  have built := builtFor_of_build hbuild
  cases built.same
  exact convert_of_mirrors laid hmirrors built hsrc hsize

/-- The flag 1 and the level 2, as the sample type lays them out. -/
def Sample.own : Memory :=
  ⟨#[1, 0, 0, 0, 7, 0, 0, 0, 2, 0, 0, 0]⟩

/-- Converted from its mirror, the sample type comes to the flag and the level. -/
theorem convert_mirror_sample :
    ∃ desc c, Sample.dest.mirror = .ok desc ∧ Sample.dest.Mirrors desc ∧
      (build Sample.dest desc Sample.options).result = .ok c ∧
      c.convert Sample.own 0 =
        .ok (.ofFields [("flag", .int 1), ("reading", .tagged "level" (.int 2))]) := by
  have hconfig : Sample.options.resolve.toOption.isSome = true := by decide +kernel
  have hsize : Sample.dest.bytes ≤ Sample.own.size := by decide +kernel
  have haddressable : Sample.own.Addressable := by
    rw [Memory.Addressable]
    decide
  obtain ⟨desc, hdesc, hmirrors, h⟩ := convert_mirror Sample.made Sample.small
  obtain ⟨c, hbuild, hsame, hconvert⟩ := h (eq_ok_get hconfig)
  rw [← hsame] at hconvert
  refine ⟨desc, c, hdesc, hmirrors, hbuild, (hconvert Sample.own haddressable hsize).1.trans ?_⟩
  rw [hsame]
  with_unfolding_all rfl

end Converter

end Relayout
