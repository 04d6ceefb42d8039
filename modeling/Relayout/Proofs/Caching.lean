import Relayout.Conversion.Cache
import Relayout.Proofs.Alike
import Relayout.Proofs.Lenient

/-!
# Transparent caches

Whatever was asked of a cache before, its answers are those of fresh builds: `Session`
runs a cache over requests and keeps the naive account of them, the pairs that were
got since the cache was last cleared. One step preserves the invariant `Sound`, which
ties the tables and the counter of the cache to that account, and the result is read
off from it. It rests on two facts: descriptors share a document only if they are
alike, and alike descriptors are built alike.
-/

namespace Relayout

/-! ## What a match reports -/

/-- The event is a remark on a part that a match leaves out. -/
def Event.IsRemark : Event → Prop
  | fieldIgnored .. => True
  | ctorSkipped .. => True
  | _ => False

namespace Traced

variable {α β : Type}

/-- Nothing is reported but remarks. -/
def Remarks (x : Traced α) : Prop :=
  ∀ e ∈ x.events, e.IsRemark

theorem remarks_pure (a : α) : (Traced.pure a).Remarks := by
  rintro e ⟨⟩

theorem remarks_fail (f : Failure) : (Traced.fail f : Traced α).Remarks := by
  rintro e ⟨⟩

theorem remarks_ofCause (x : Except Cause α) : (ofCause x).Remarks := by
  cases x with
  | ok a => exact remarks_pure a
  | error c => exact remarks_fail c.failure

theorem Remarks.bind {x : Traced α} {f : α → Traced β} (hx : x.Remarks) (hf : ∀ a, (f a).Remarks) :
    (x >>= f).Remarks := by
  cases h : x.result with
  | error e =>
      rw [bind_of_error h]
      exact hx
  | ok a =>
      rw [bind_of_ok h]
      intro e he
      rcases List.mem_append.mp he with he | he
      · exact hx e he
      · exact hf a e he

end Traced

namespace Plan

open Traced

theorem remarks_ignoredFields (slots : List (Slot Dest)) (fields : List (Field Desc))
    (path : List Text) : (emitAll (ignoredFields slots fields path)).Remarks := by
  intro e he
  obtain ⟨f, -, rfl⟩ := List.mem_map.mp he
  trivial

mutual

/-- A match reports nothing but remarks. -/
theorem remarks_build : ∀ (dest : Dest) (desc : Desc) (path : List Text),
    (build dest desc path).Remarks
  | .prim .., desc, path => by
      rw [build]
      exact remarks_ofCause _
  | .array surface elem length _, desc, path => by
      cases desc with
      | array elemDesc len =>
          rw [build]
          exact (remarks_ofCause _).bind fun _ => Remarks.bind (remarks_build elem elemDesc _)
            fun _ => (remarks_ofCause _).bind fun _ => remarks_pure _
      | _ => exact remarks_fail _
  | .record surface slots, desc, path => by
      cases desc with
      | struct fields =>
          rw [build]
          exact (remarks_buildSlots surface.size fields path slots).bind fun _ =>
            (remarks_ignoredFields slots fields path).bind fun _ => remarks_pure _
      | _ => exact remarks_fail _
  | .variant surface cases payloadOffset _, desc, path => by
      cases desc with
      | variant ctors =>
          rw [build]
          exact (remarks_buildCases surface.size payloadOffset ctors path cases 1 []).bind fun _ =>
            remarks_pure _
      | _ => exact remarks_fail _

theorem remarks_buildSlots (size : Num) (fields : List (Field Desc)) (path : List Text) :
    ∀ slots : List (Slot Dest), (buildSlots size fields path slots).Remarks
  | [] => by
      rw [buildSlots]
      exact remarks_pure _
  | s :: rest => by
      rw [buildSlots]
      split
      · exact remarks_fail _
      · split
        · exact remarks_fail _
        · exact Remarks.bind (remarks_build s.type _ _) fun _ =>
            (remarks_buildSlots size fields path rest).bind fun _ => remarks_pure _

theorem remarks_buildCases (size payloadOffset : Num) (ctors : List (Ctor Desc)) (path : List Text) :
    ∀ (cases : List (Case Dest)) (widest : Num) (arms : List (Arm Plan)),
      (buildCases size payloadOffset ctors path cases widest arms).Remarks
  | [], _, _ => by
      rw [buildCases]
      exact remarks_pure _
  | c :: rest, _, _ => by
      have hskip : (emit (.ctorSkipped path c.name)).Remarks := by
        intro e he
        rw [List.mem_singleton.mp he]
        trivial
      rw [buildCases]
      split
      · exact hskip.bind fun _ => remarks_buildCases size payloadOffset ctors path rest _ _
      · split
        · exact remarks_fail _
        · exact (remarks_ofCause _).bind fun _ => Remarks.bind (remarks_build c.type _ _) fun _ =>
            remarks_buildCases size payloadOffset ctors path rest _ _

end

end Plan

theorem Compiled.remarks_once (dest : Dest) (desc : Desc) (path : List Text) :
    (Compiled.once dest desc path).Remarks :=
  (Plan.remarks_build dest desc path).bind fun _ => (Traced.remarks_ofCause _).bind fun _ =>
    Traced.remarks_pure _

/-! ## What a cache keeps -/

namespace Cache

variable {ι : Type} [DecidableEq ι]

/-- What is kept for a destination type and a document. -/
def kept? (c : Cache ι) (identity : ι) (key : Text) : Option Compiled :=
  (c.shapes identity).find? key

theorem kept?_setShapes (c : Cache ι) (i j : ι) (t : Table Text Compiled) (key : Text) :
    (c.setShapes i t).kept? j key = if i = j then t.find? key else c.kept? j key := by
  rw [kept?, kept?, shapes, shapes, setShapes, Table.find?_put]
  split <;> rfl

/-- That there is a table for a type tells nobody anything. -/
theorem kept?_opened (c : Cache ι) (i j : ι) (key : Text) :
    (c.setShapes i (c.shapes i)).kept? j key = c.kept? j key := by
  rw [kept?_setShapes]
  split
  · rename_i hij
    rw [kept?, hij]
  · rfl

theorem kept?_keep (c : Cache ι) (i j : ι) (document document' : Text) (compiled : Compiled) :
    (c.keep i document compiled).kept? j document' =
      if i = j ∧ document = document' then some compiled else c.kept? j document' := by
  have hkeep : (c.keep i document compiled).kept? j document' =
      (c.setShapes i ((c.shapes i).put document compiled)).kept? j document' := rfl
  rw [hkeep, kept?_setShapes, Table.find?_put]
  by_cases hij : i = j
  · subst hij
    by_cases hdocument : document = document'
    · rw [if_pos rfl, if_pos hdocument, if_pos ⟨rfl, hdocument⟩]
    · rw [if_pos rfl, if_neg hdocument, if_neg fun h => hdocument h.2]
      rfl
  · rw [if_neg hij, if_neg fun h => hij h.1]

section Get

variable {c : Cache ι} {i : ι} {dest : Dest} {desc : Desc}

theorem get_of_kept {compiled : Compiled} (h : c.kept? i desc.encode = some compiled) :
    c.get i dest desc = (c.setShapes i (c.shapes i),
      ⟨[.cacheHit dest.name desc.display], .ok ⟨dest, compiled, c.config⟩⟩) := by
  rw [kept?] at h
  simp only [get, h]

theorem get_of_built {events : List Event} {compiled : Compiled}
    (h : c.kept? i desc.encode = none)
    (hbuild : Compiled.once dest desc [] = ⟨events, .ok compiled⟩) :
    c.get i dest desc =
      ((c.setShapes i (c.shapes i)).keep i desc.encode compiled,
        ⟨.cacheMiss dest.name desc.display :: events, .ok ⟨dest, compiled, c.config⟩⟩) := by
  rw [kept?] at h
  simp only [get, h, Compiled.build_eq, hbuild]

theorem get_of_failed {events : List Event} {f : Failure} (h : c.kept? i desc.encode = none)
    (hbuild : Compiled.once dest desc [] = ⟨events, .error f⟩) :
    c.get i dest desc = (c.setShapes i (c.shapes i),
      ⟨.cacheMiss dest.name desc.display :: events, .error f⟩) := by
  rw [kept?] at h
  simp only [get, h, Compiled.build_eq, hbuild]

/-- How a request is answered: by what is kept, by a build that is kept from now on,
or by the failure of a build. -/
theorem get_cases (c : Cache ι) (i : ι) (dest : Dest) (desc : Desc) :
    (∃ compiled, c.kept? i desc.encode = some compiled ∧
      c.get i dest desc = (c.setShapes i (c.shapes i),
        ⟨[.cacheHit dest.name desc.display], .ok ⟨dest, compiled, c.config⟩⟩)) ∨
    (∃ events compiled, c.kept? i desc.encode = none ∧
      Compiled.once dest desc [] = ⟨events, .ok compiled⟩ ∧
      c.get i dest desc = ((c.setShapes i (c.shapes i)).keep i desc.encode compiled,
        ⟨.cacheMiss dest.name desc.display :: events, .ok ⟨dest, compiled, c.config⟩⟩)) ∨
    ∃ events f, c.kept? i desc.encode = none ∧
      Compiled.once dest desc [] = ⟨events, .error f⟩ ∧
      c.get i dest desc = (c.setShapes i (c.shapes i),
        ⟨.cacheMiss dest.name desc.display :: events, .error f⟩) := by
  cases hkept : c.kept? i desc.encode with
  | some compiled => exact Or.inl ⟨compiled, rfl, get_of_kept hkept⟩
  | none =>
      rcases hbuild : Compiled.once dest desc [] with ⟨events, f | compiled⟩
      · exact Or.inr (Or.inr ⟨events, f, rfl, rfl, get_of_failed hkept hbuild⟩)
      · exact Or.inr (Or.inl ⟨events, compiled, rfl, rfl, get_of_built hkept hbuild⟩)

end Get

/-! ## Caches that answer alike -/

/-- Caches that keep the same, wherever their tables are. -/
structure Same (c c' : Cache ι) : Prop where
  config : c.config = c'.config
  count : c.count = c'.count
  kept : ∀ i key, c.kept? i key = c'.kept? i key

theorem same_opened (c : Cache ι) (i : ι) : (c.setShapes i (c.shapes i)).Same c :=
  ⟨rfl, rfl, c.kept?_opened i⟩

theorem Same.keep {c c' : Cache ι} (h : c.Same c') (i : ι) (document : Text) (compiled : Compiled) :
    (c.keep i document compiled).Same (c'.keep i document compiled) :=
  ⟨h.config, congrArg (· + 1) h.count, fun j document' => by rw [kept?_keep, kept?_keep, h.kept]⟩

theorem Same.clear {c c' : Cache ι} (h : c.Same c') : c.clear.Same c'.clear :=
  ⟨h.config, rfl, fun _ _ => rfl⟩

theorem Same.symm {c c' : Cache ι} (h : c.Same c') : c'.Same c :=
  ⟨h.config.symm, h.count.symm, fun i key => (h.kept i key).symm⟩

theorem Same.trans {c c' c'' : Cache ι} (h : c.Same c') (h' : c'.Same c'') : c.Same c'' :=
  ⟨h.config.trans h'.config, h.count.trans h'.count, fun i key => (h.kept i key).trans (h'.kept i key)⟩

/-- They answer every request alike, and keep the same afterwards. -/
theorem Same.get {c c' : Cache ι} (h : c.Same c') (i : ι) (dest : Dest) (desc : Desc) :
    (c.get i dest desc).2 = (c'.get i dest desc).2 ∧
      (c.get i dest desc).1.Same (c'.get i dest desc).1 := by
  have hopened : (c.setShapes i (c.shapes i)).Same (c'.setShapes i (c'.shapes i)) :=
    (c.same_opened i).trans (h.trans (c'.same_opened i).symm)
  have hsame := h.kept i desc.encode
  rcases c'.get_cases i dest desc with ⟨compiled, hkept, hget⟩ | ⟨events, compiled, hkept, hbuild, hget⟩ |
    ⟨events, f, hkept, hbuild, hget⟩
  · rw [hget, get_of_kept (hsame.trans hkept), h.config]
    exact ⟨rfl, hopened⟩
  · rw [hget, get_of_built (hsame.trans hkept) hbuild, h.config]
    exact ⟨rfl, hopened.keep i desc.encode compiled⟩
  · rw [hget, get_of_failed (hsame.trans hkept) hbuild]
    exact ⟨rfl, hopened⟩

end Cache

/-! ## Sessions -/

/-- What is asked of a cache: the converter for a pair, or to forget all builds. -/
inductive Request (ι : Type) where
  | get (identity : ι) (desc : Desc)
  | clear

/-- A cache with an account of its answers: the pairs that were got since it was last
cleared, and all converters that were ever handed out. -/
structure Session (ι : Type) where
  cache : Cache ι
  got : List (ι × Desc)
  handed : List (ι × Desc × Converter)

namespace Session

variable {ι : Type} [DecidableEq ι] (dests : ι → Dest)

/-- A session with a cache that nothing was asked of yet. -/
def start (c : Cache ι) : Session ι :=
  ⟨c, [], []⟩

/-- Serve a request. Every identity stands for one destination type. -/
def step (s : Session ι) : Request ι → Session ι
  | .clear => { s with cache := s.cache.clear, got := [] }
  | .get i desc =>
    let (cache, answer) := s.cache.get i (dests i) desc
    match answer.result with
    | .ok c => ⟨cache, s.got ++ [(i, desc)], s.handed ++ [(i, desc, c)]⟩
    | .error _ => { s with cache }

def run (s : Session ι) (requests : List (Request ι)) : Session ι :=
  requests.foldl (step dests) s

/-- What the cache answers if it is asked for a pair next. -/
def answer (s : Session ι) (i : ι) (desc : Desc) : Traced Converter :=
  (s.cache.get i (dests i) desc).2

/-- The pair was got since the last clearing, with this descriptor or one like it. -/
def Got (s : Session ι) (i : ι) (desc : Desc) : Prop :=
  ∃ d, (i, d) ∈ s.got ∧ d.Alike desc

/-- The pairs that were got since the last clearing, alike descriptors counted as one. -/
def pairs (s : Session ι) : Set (ι × Desc) :=
  {p | ∃ d, (p.1, d) ∈ s.got ∧ p.2 = d.plain}

def key (p : ι × Desc) : ι × Text :=
  (p.1, p.2.encode)

/-- Sessions whose caches keep the same go on answering alike. -/
theorem same_step {s t : Session ι} (h : s.cache.Same t.cache) (request : Request ι) :
    (s.step dests request).cache.Same (t.step dests request).cache := by
  cases request with
  | clear => exact h.clear
  | get i desc =>
      obtain ⟨hanswer, hcache⟩ := h.get i (dests i) desc
      simp only [step, hanswer]
      split
      · exact hcache
      · exact hcache

theorem same_run {s t : Session ι} (h : s.cache.Same t.cache) (requests : List (Request ι)) :
    (s.run dests requests).cache.Same (t.run dests requests).cache := by
  induction requests generalizing s t with
  | nil => exact h
  | cons request rest ih => exact ih (same_step dests h request)

/-! ## The invariant -/

/-- The cache is what the account of the session says: it keeps the builds of the
pairs that were got, counts each of them once, and whoever was handed a converter
can do with it what a fresh one does. -/
structure Sound (options : Layer) (s : Session ι) : Prop where
  config : options.resolve = .ok s.cache.config
  kept : ∀ i document compiled, s.cache.kept? i document = some compiled →
    ∃ d, (i, d) ∈ s.got ∧ d.encode = document ∧
      (Compiled.once (dests i) d []).result = .ok compiled
  present : ∀ i d, (i, d) ∈ s.got → s.cache.kept? i d.encode ≠ none
  finite : ∀ i d, (i, d) ∈ s.got → d.Finite
  count : s.cache.count = (s.got.map key).toFinset.card
  handed : ∀ i d c, (i, d, c) ∈ s.handed →
    ∃ fresh, (Converter.build (dests i) d options).result = .ok fresh ∧ c.Interchangeable fresh

theorem sound_start {options : Layer} {c : Cache ι} (h : Cache.empty options = .ok c) :
    (start c).Sound dests options := by
  rw [Cache.empty] at h
  cases hresolve : options.resolve with
  | error cause =>
      rw [hresolve] at h
      cases h
  | ok config =>
      rw [hresolve] at h
      cases h
      exact ⟨hresolve, by rintro i document compiled ⟨⟩, by rintro i d ⟨⟩, by rintro i d ⟨⟩, rfl,
        by rintro i d c ⟨⟩⟩

namespace Sound

variable {dests} {options : Layer} {s : Session ι} (sound : s.Sound dests options)

include sound

theorem fresh_result (dest : Dest) (desc : Desc) :
    (Converter.build dest desc options).result =
      (Compiled.once dest desc []).result.map fun compiled => ⟨dest, compiled, s.cache.config⟩ := by
  rw [Converter.build_of_resolve dest desc sound.config]

/-- What is found for a pair was built for an alike one. -/
theorem hit {i : ι} {desc : Desc} (finite : desc.Finite) {compiled : Compiled}
    (h : s.cache.kept? i desc.encode = some compiled) :
    s.Got i desc ∧ ∃ fresh, (Compiled.once (dests i) desc []).result = .ok fresh ∧
      compiled.Alike fresh := by
  obtain ⟨d, hd, hencode, hbuild⟩ := sound.kept i _ compiled h
  have halike : d.Alike desc := (Desc.encode_eq_iff (sound.finite i d hd) finite).mp hencode
  have hagree := Compiled.once_alike (dests i) halike []
  rw [hbuild] at hagree
  refine ⟨⟨d, hd, halike⟩, ?_⟩
  cases hfresh : (Compiled.once (dests i) desc []).result with
  | error f =>
      rw [hfresh] at hagree
      cases hagree
  | ok fresh =>
      rw [hfresh] at hagree
      cases hagree with
      | ok h => exact ⟨fresh, rfl, h⟩

/-- A pair was got exactly if something is found for it. -/
theorem got_iff {i : ι} {desc : Desc} (finite : desc.Finite) :
    s.Got i desc ↔ s.cache.kept? i desc.encode ≠ none := by
  constructor
  · rintro ⟨d, hd, halike⟩
    rw [← (Desc.encode_eq_iff (sound.finite i d hd) finite).mpr halike]
    exact sound.present i d hd
  · intro h
    obtain ⟨compiled, hkept⟩ := Option.ne_none_iff_exists'.mp h
    exact (sound.hit finite hkept).1

end Sound

/-! ## One step -/

section Step

variable {dests} {options : Layer} {s : Session ι}

theorem step_of_ok {i : ι} {desc : Desc} {c : Converter}
    (h : (s.answer dests i desc).result = .ok c) :
    s.step dests (.get i desc) =
      ⟨(s.cache.get i (dests i) desc).1, s.got ++ [(i, desc)], s.handed ++ [(i, desc, c)]⟩ := by
  rw [answer] at h
  simp only [step, h]

theorem step_of_error {i : ι} {desc : Desc} {f : Failure}
    (h : (s.answer dests i desc).result = .error f) :
    s.step dests (.get i desc) = { s with cache := (s.cache.get i (dests i) desc).1 } := by
  rw [answer] at h
  simp only [step, h]

/-- A failure leaves at most a table behind that holds nothing. -/
theorem same_of_failed {i : ι} {desc : Desc} {f : Failure}
    (h : (s.answer dests i desc).result = .error f) :
    (s.step dests (.get i desc)).cache.Same s.cache := by
  rw [step_of_error h]
  rcases s.cache.get_cases i (dests i) desc with ⟨compiled, -, hget⟩ | ⟨events, compiled, -, -, hget⟩ |
    ⟨events, f', -, -, hget⟩
  · rw [answer, hget] at h
    cases h
  · rw [answer, hget] at h
    cases h
  · rw [hget]
    exact s.cache.same_opened i

/-- A key that was there is counted no more than before. -/
theorem card_of_present {i : ι} {desc d : Desc} (hd : (i, d) ∈ s.got)
    (hencode : d.encode = desc.encode) :
    ((s.got ++ [(i, desc)]).map key).toFinset.card = (s.got.map key).toFinset.card := by
  have hmem : key (i, desc) ∈ (s.got.map key).toFinset := by
    rw [List.mem_toFinset]
    exact List.mem_map.mpr ⟨(i, d), hd, by rw [key, key, hencode]⟩
  congr 1
  rw [List.map_append, List.map_singleton, List.toFinset_append, List.toFinset_cons,
    List.toFinset_nil, insert_empty_eq, Finset.union_singleton, Finset.insert_eq_of_mem hmem]

/-- A key that was not there is counted. -/
theorem card_of_absent (sound : s.Sound dests options) {i : ι} {desc : Desc}
    (h : s.cache.kept? i desc.encode = none) :
    ((s.got ++ [(i, desc)]).map key).toFinset.card = (s.got.map key).toFinset.card + 1 := by
  have hmem : key (i, desc) ∉ (s.got.map key).toFinset := by
    rw [List.mem_toFinset]
    intro hmem
    obtain ⟨⟨j, d⟩, hd, hkey⟩ := List.mem_map.mp hmem
    obtain ⟨rfl, hencode⟩ := Prod.mk.inj hkey
    exact sound.present j d hd (hencode ▸ h)
  rw [List.map_append, List.map_singleton, List.toFinset_append, List.toFinset_cons,
    List.toFinset_nil, insert_empty_eq, Finset.union_singleton, Finset.card_insert_of_notMem hmem]

end Step

namespace Sound

variable {dests} {options : Layer} {s : Session ι} (sound : s.Sound dests options)

include sound

/-- Nothing is said of where the tables of the cache are. -/
theorem of_same {cache : Cache ι} (h : cache.Same s.cache) :
    ({ s with cache } : Session ι).Sound dests options where
  config := by rw [h.config, sound.config]
  kept := fun i document compiled hkept => sound.kept i document compiled (h.kept i document ▸ hkept)
  present := fun i d hd => by rw [h.kept i d.encode]; exact sound.present i d hd
  finite := sound.finite
  count := by rw [h.count, sound.count]
  handed := sound.handed

/-- A pair is got: all that was kept is kept, and the build of the pair. -/
theorem extend {i : ι} {desc : Desc} (finite : desc.Finite) {cache : Cache ι} {c fresh : Converter}
    (hconfig : cache.config = s.cache.config)
    (hkept : ∀ j document compiled, cache.kept? j document = some compiled →
      s.cache.kept? j document = some compiled ∨
        i = j ∧ desc.encode = document ∧ (Compiled.once (dests i) desc []).result = .ok compiled)
    (hpresent : ∀ j document, s.cache.kept? j document ≠ none → cache.kept? j document ≠ none)
    (hnew : cache.kept? i desc.encode ≠ none)
    (hcount : cache.count = ((s.got ++ [(i, desc)]).map key).toFinset.card)
    (hfresh : (Converter.build (dests i) desc options).result = .ok fresh)
    (hsame : c.Interchangeable fresh) :
    (⟨cache, s.got ++ [(i, desc)], s.handed ++ [(i, desc, c)]⟩ : Session ι).Sound dests options where
  config := by rw [hconfig, sound.config]
  kept := by
    intro j document compiled h
    rcases hkept j document compiled h with hold | ⟨rfl, rfl, hbuild⟩
    · obtain ⟨d, hd, hencode, hbuild⟩ := sound.kept j document compiled hold
      exact ⟨d, List.mem_append_left _ hd, hencode, hbuild⟩
    · exact ⟨desc, List.mem_append_right _ List.mem_cons_self, rfl, hbuild⟩
  present := by
    intro j d hd
    rcases List.mem_append.mp hd with hd | hd
    · exact hpresent j d.encode (sound.present j d hd)
    · cases List.mem_singleton.mp hd
      exact hnew
  finite := by
    intro j d hd
    rcases List.mem_append.mp hd with hd | hd
    · exact sound.finite j d hd
    · cases List.mem_singleton.mp hd
      exact finite
  count := hcount
  handed := by
    intro j d c' hc
    rcases List.mem_append.mp hc with hc | hc
    · exact sound.handed j d c' hc
    · cases List.mem_singleton.mp hc
      exact ⟨fresh, hfresh, hsame⟩

theorem step_clear : (s.step dests .clear).Sound dests options where
  config := sound.config
  kept := by rintro i document compiled ⟨⟩
  present := by rintro i d ⟨⟩
  finite := by rintro i d ⟨⟩
  count := rfl
  handed := sound.handed

theorem step_get (i : ι) {desc : Desc} (finite : desc.Finite) :
    (s.step dests (.get i desc)).Sound dests options := by
  have hresult := sound.fresh_result (dests i) desc
  have hopened := s.cache.same_opened i
  rcases s.cache.get_cases i (dests i) desc with ⟨compiled, hkept, hget⟩ |
    ⟨events, compiled, hkept, hbuild, hget⟩ | ⟨events, f, -, -, hget⟩
  · -- a hit changes the account only
    obtain ⟨⟨d, hd, halike⟩, built, hbuild, hsame⟩ := sound.hit finite hkept
    have hencode := (Desc.encode_eq_iff (sound.finite i d hd) finite).mpr halike
    have hanswer : (s.answer dests i desc).result = .ok ⟨dests i, compiled, s.cache.config⟩ := by
      rw [answer, hget]
    rw [step_of_ok hanswer, hget]
    rw [hbuild] at hresult
    refine sound.extend finite hopened.config ?_ ?_ ?_ ?_ hresult
      (Converter.interchangeable_of_alike _ _ hsame)
    · intro j document compiled h
      exact Or.inl (hopened.kept j document ▸ h)
    · intro j document h
      rwa [hopened.kept j document]
    · rw [hopened.kept, hkept]
      exact Option.some_ne_none _
    · rw [hopened.count, sound.count, card_of_present hd hencode]
  · have hanswer : (s.answer dests i desc).result = .ok ⟨dests i, compiled, s.cache.config⟩ := by
      rw [answer, hget]
    rw [step_of_ok hanswer, hget]
    rw [hbuild] at hresult
    refine sound.extend finite hopened.config ?_ ?_ ?_ ?_ hresult (.refl _)
    · intro j document kept h
      rw [Cache.kept?_keep, hopened.kept] at h
      split at h
      · rename_i hkey
        cases h
        exact Or.inr ⟨hkey.1, hkey.2, by rw [hbuild]⟩
      · exact Or.inl h
    · intro j document h
      rw [Cache.kept?_keep, hopened.kept]
      split
      · exact Option.some_ne_none _
      · exact h
    · rw [Cache.kept?_keep, if_pos ⟨rfl, rfl⟩]
      exact Option.some_ne_none _
    · show s.cache.count + 1 = _
      rw [card_of_absent sound hkept, sound.count]
  · have hanswer : (s.answer dests i desc).result = .error f := by
      rw [answer, hget]
    rw [step_of_error hanswer, hget]
    exact sound.of_same hopened

end Sound

theorem sound_run {options : Layer} {s : Session ι} (sound : s.Sound dests options)
    {requests : List (Request ι)} (finite : ∀ i d, .get i d ∈ requests → d.Finite) :
    (s.run dests requests).Sound dests options := by
  induction requests generalizing s with
  | nil => exact sound
  | cons request rest ih =>
      have hrest : ∀ i d, .get i d ∈ rest → d.Finite := fun i d h =>
        finite i d (List.mem_cons_of_mem _ h)
      cases request with
      | clear => exact ih sound.step_clear hrest
      | get i desc => exact ih (sound.step_get i (finite i desc List.mem_cons_self)) hrest

/-! ## What a session shows -/

/-- An answer is that of a fresh build: a converter that does the same, or the same failure. -/
structure Answers (answer fresh : Traced Converter) : Prop where
  returns : ∀ c, fresh.result = .ok c → ∃ c', answer.result = .ok c' ∧ c'.Interchangeable c
  fails : ∀ f, answer.result = .error f ↔ fresh.result = .error f

/-- Nobody can tell from a session that there is a cache, but for its events and its size. -/
structure Transparent (options : Layer) (s : Session ι) : Prop where
  /-- The next answer, for whatever pair, is that of a fresh build. -/
  answers : ∀ i d, d.Finite →
    Answers (s.answer dests i d) (Converter.build (dests i) d options)
  /-- A hit is reported, and nothing else, exactly for what was got since the last clearing. -/
  hit : ∀ i d, d.Finite → s.Got i d →
    (s.answer dests i d).events = [.cacheHit (dests i).name d.display]
  /-- Otherwise a miss is reported, and then what the match leaves out. -/
  miss : ∀ i d, d.Finite → ¬s.Got i d → ∃ remarks : List Event,
    (s.answer dests i d).events = .cacheMiss (dests i).name d.display :: remarks ∧
      ∀ e ∈ remarks, e.IsRemark
  /-- A failure leaves no trace: the size stays, and so does every later answer. -/
  failed : ∀ i d f, (s.answer dests i d).result = .error f →
    (s.step dests (.get i d)).cache.size = s.cache.size ∧
      ∀ requests j d', ((s.step dests (.get i d)).run dests requests).answer dests j d' =
        (s.run dests requests).answer dests j d'
  /-- The size is the number of pairs that were got since the last clearing. -/
  size : s.cache.size = s.pairs.ncard
  /-- Every converter that was ever handed out does what a fresh one does. -/
  handed : ∀ i d c, (i, d, c) ∈ s.handed →
    ∃ fresh, (Converter.build (dests i) d options).result = .ok fresh ∧ c.Interchangeable fresh

namespace Sound

variable {dests} {options : Layer} {s : Session ι} (sound : s.Sound dests options)

include sound

theorem answers {i : ι} {desc : Desc} (finite : desc.Finite) :
    Answers (s.answer dests i desc) (Converter.build (dests i) desc options) := by
  have hresult := sound.fresh_result (dests i) desc
  rcases s.cache.get_cases i (dests i) desc with ⟨compiled, hkept, hget⟩ |
    ⟨events, compiled, -, hbuild, hget⟩ | ⟨events, f, -, hbuild, hget⟩
  · obtain ⟨-, built, hbuild, hsame⟩ := sound.hit finite hkept
    rw [hbuild] at hresult
    rw [answer, hget]
    refine ⟨fun c hc => ⟨_, rfl, ?_⟩, fun f => ?_⟩
    · rw [hresult] at hc
      cases hc
      exact Converter.interchangeable_of_alike _ _ hsame
    · rw [hresult]
      simp [Except.map]
  · rw [hbuild] at hresult
    rw [answer, hget]
    exact ⟨fun c hc => ⟨c, hc ▸ hresult.symm, .refl c⟩, fun f => by rw [hresult]; rfl⟩
  · rw [hbuild] at hresult
    rw [answer, hget]
    refine ⟨fun c hc => ?_, fun f' => by rw [hresult]; rfl⟩
    rw [hresult] at hc
    cases hc

theorem events_of_got {i : ι} {desc : Desc} (finite : desc.Finite) (h : s.Got i desc) :
    (s.answer dests i desc).events = [.cacheHit (dests i).name desc.display] := by
  obtain ⟨compiled, hkept⟩ := Option.ne_none_iff_exists'.mp ((sound.got_iff finite).mp h)
  rw [answer, Cache.get_of_kept hkept]

theorem events_of_not_got {i : ι} {desc : Desc} (finite : desc.Finite) (h : ¬s.Got i desc) :
    ∃ remarks : List Event, (s.answer dests i desc).events =
        .cacheMiss (dests i).name desc.display :: remarks ∧ ∀ e ∈ remarks, e.IsRemark := by
  have hremarks := Compiled.remarks_once (dests i) desc []
  rcases s.cache.get_cases i (dests i) desc with ⟨compiled, hkept, -⟩ |
    ⟨events, compiled, -, hbuild, hget⟩ | ⟨events, f, -, hbuild, hget⟩
  · exact absurd (sound.hit finite hkept).1 h
  · rw [hbuild] at hremarks
    exact ⟨events, by rw [answer, hget], hremarks⟩
  · rw [hbuild] at hremarks
    exact ⟨events, by rw [answer, hget], hremarks⟩

/-- The keys of the cache are the documents of the pairs that were got. -/
theorem size_eq : s.cache.size = s.pairs.ncard := by
  have hinj : Set.InjOn key s.pairs := by
    rintro ⟨i, _⟩ ⟨d, hd, rfl⟩ ⟨j, _⟩ ⟨d', hd', rfl⟩ hkey
    obtain ⟨rfl, hencode⟩ := Prod.mk.inj hkey
    have hencode : d.plain.encode = d'.plain.encode := hencode
    rw [Desc.encode_plain, Desc.encode_plain] at hencode
    have halike : d.plain = d'.plain :=
      (Desc.encode_eq_iff (sound.finite i d hd) (sound.finite i d' hd')).mp hencode
    rw [halike]
  have hkeys : key '' s.pairs = ((s.got.map key).toFinset : Set (ι × Text)) := by
    ext ⟨i, document⟩
    simp only [Set.mem_image, List.coe_toFinset, List.mem_map, Set.mem_ofPred_eq]
    constructor
    · rintro ⟨⟨j, _⟩, ⟨d, hd, rfl⟩, hkey⟩
      exact ⟨(j, d), hd, by rw [← hkey, key, key, Desc.encode_plain]⟩
    · rintro ⟨⟨j, d⟩, hd, hkey⟩
      exact ⟨(j, d.plain), ⟨d, hd, rfl⟩, by rw [← hkey, key, key, Desc.encode_plain]⟩
  rw [Cache.size, sound.count, ← Set.ncard_coe_finset, ← hkeys, hinj.ncard_image]

theorem transparent_of_sound : s.Transparent dests options where
  answers := fun _ _ finite => sound.answers finite
  hit := fun _ _ finite h => sound.events_of_got finite h
  miss := fun _ _ finite h => sound.events_of_not_got finite h
  failed := by
    intro i d f h
    have hsame := same_of_failed h
    refine ⟨hsame.count, fun requests j d' => ?_⟩
    exact ((same_run dests hsame requests).get j (dests j) d').1
  size := sound.size_eq
  handed := sound.handed

end Sound

end Session

namespace Cache

variable {ι : Type} [DecidableEq ι]

/-- **A cache is transparent.** With valid options, after any requests for pairs of
any destination types and any descriptors with finite numbers, every answer is that of
a fresh build, and every converter handed out until then does what a fresh one does;
hits, misses and the size tell which pairs were got since the last clearing, and
failures leave no trace. It finds builds by the documents of descriptors, which
only alike ones share. -/
theorem transparent (dests : ι → Dest) {options : Layer} {c : Cache ι}
    (h : empty options = .ok c) (requests : List (Request ι))
    (finite : ∀ i d, .get i d ∈ requests → d.Finite) :
    ((Session.start c).run dests requests).Transparent dests options ∧
      ∀ d d' : Desc, d.Finite → d'.Finite → (d.encode = d'.encode ↔ d.Alike d') :=
  ⟨(Session.sound_run dests (Session.sound_start dests h) finite).transparent_of_sound,
    fun _ _ hd hd' => Desc.encode_eq_iff hd hd'⟩

/-- One pair before and after a clearing. -/
theorem transparent_sample :
    ((Session.start ⟨Sample.converter.config, [], 0⟩).run (fun _ : Unit => Sample.dest)
      [.get () Sample.source, .clear, .get () Sample.source]).Transparent
        (fun _ => Sample.dest) Sample.options := by
  have hoptions : Sample.options.resolve = .ok Sample.converter.config := by decide +kernel
  have hempty : (empty Sample.options : Except Cause (Cache Unit)) =
      .ok ⟨Sample.converter.config, [], 0⟩ := by
    rw [empty, hoptions]
    rfl
  have hliteral : ∀ n ≤ exactLimit, (Num.ofNat n).Finite := fun n hn =>
    Num.finite_of_is (Num.is_ofNat hn) hn
  have hfinite : Sample.source.Finite :=
    ⟨hliteral 4 (by decide), ⟨hliteral 3 (by decide), trivial, trivial⟩, hliteral 0 (by decide),
      trivial, trivial⟩
  refine (transparent (fun _ => Sample.dest) hempty _ ?_).1
  intro i d hd
  have hsource : d = Sample.source := by simpa using hd
  exact hsource ▸ hfinite

end Cache

end Relayout
