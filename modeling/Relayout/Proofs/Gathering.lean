import Mathlib.Data.List.Induction
import Relayout.Proofs.Chain

/-!
# The diagnostics of a chain

The links of a chain share diagnostics: a wrap has those of what it wraps, and
any two links may have some in common. Gathering goes from the outermost link
inward and takes each diagnostic when it meets it for the first time
(`gathers_allDiagnostics`). Diagnostics are told apart by their references, not
by what they say. A wrap repeats what its chain begins with, so no number of
wraps changes an answer about the failure inside (`chain_gathered`).
-/

namespace Relayout

namespace Diagnostic

/-! ## First occurrences -/

/-- The place at which a reference is first met. -/
def firstAt (entries : List Diagnostic) (ref : Nat) : Nat :=
  (entries.map Diagnostic.ref).idxOf ref

/-- No two different diagnostics share a reference. -/
def Coherent (entries : List Diagnostic) : Prop :=
  ∀ d ∈ entries, ∀ e ∈ entries, d.ref = e.ref → d = e

/-- What is kept of the entries if each diagnostic is taken once, where it is first met. -/
structure Gathers (kept entries : List Diagnostic) : Prop where
  /-- No diagnostic is taken twice. -/
  once : (kept.map Diagnostic.ref).Nodup
  /-- None is left out, be it one that says the same as another. -/
  complete : ∀ d ∈ entries, d.ref ∈ kept.map Diagnostic.ref
  /-- Nothing is taken but what is first met under its reference. -/
  sound : ∀ k ∈ kept, entries[firstAt entries k.ref]? = some k
  /-- They are taken in the order in which they are first met. -/
  ordered : kept.Pairwise fun k l => firstAt entries k.ref < firstAt entries l.ref

variable {entries kept : List Diagnostic} {d : Diagnostic}

/-- One more entry does not move what was met before it. -/
theorem firstAt_concat_of_mem {ref : Nat} (h : ref ∈ entries.map Diagnostic.ref) :
    firstAt (entries ++ [d]) ref = firstAt entries ref := by
  rw [firstAt, List.map_append, List.idxOf_append_of_mem h]
  rfl

/-- A diagnostic that was not met before is first met at the end. -/
theorem firstAt_concat_self (h : d.ref ∉ entries.map Diagnostic.ref) :
    firstAt (entries ++ [d]) d.ref = entries.length := by
  rw [firstAt, List.map_append, List.idxOf_append_of_notMem h]
  simp

theorem firstAt_lt_length {ref : Nat} (h : ref ∈ entries.map Diagnostic.ref) :
    firstAt entries ref < entries.length := by
  simpa only [firstAt, List.length_map] using List.idxOf_lt_length_of_mem h

namespace Gathers

/-- What is taken is what is first met under its reference. -/
theorem mem_iff (h : Gathers kept entries) :
    d ∈ kept ↔ entries[firstAt entries d.ref]? = some d := by
  refine ⟨h.sound d, fun hd => ?_⟩
  obtain ⟨k, hk, href⟩ := List.mem_map.mp (h.complete d (List.mem_of_getElem? hd))
  have hsound := h.sound k hk
  rw [href, hd] at hsound
  exact Option.some.inj hsound ▸ hk

theorem unique {kept' : List Diagnostic} (h : Gathers kept entries) (h' : Gathers kept' entries) :
    kept = kept' := by
  have hperm : kept.Perm kept' :=
    (List.perm_ext_iff_of_nodup h.once.of_map h'.once.of_map).mpr fun _ =>
      h.mem_iff.trans h'.mem_iff.symm
  exact hperm.eq_of_pairwise (fun _ _ _ _ hlt hgt => absurd hgt (Nat.lt_asymm hlt))
    h.ordered h'.ordered

theorem mem_entries (h : Gathers kept entries) (hd : d ∈ kept) : d ∈ entries :=
  List.mem_of_getElem? (h.sound d hd)

/-- Where references tell all diagnostics apart, all of them are taken. -/
theorem mem_iff_of_coherent (h : Gathers kept entries) (hc : Coherent entries) :
    d ∈ kept ↔ d ∈ entries := by
  refine ⟨h.mem_entries, fun hd => ?_⟩
  obtain ⟨k, hk, href⟩ := List.mem_map.mp (h.complete d hd)
  exact hc k (h.mem_entries hk) d hd href ▸ hk

/-! ### One more entry -/

theorem nil : Gathers [] [] where
  once := List.nodup_nil
  complete := fun _ h => absurd h List.not_mem_nil
  sound := fun _ h => absurd h List.not_mem_nil
  ordered := List.Pairwise.nil

theorem ref_mem (h : Gathers kept entries) {k : Diagnostic} (hk : k ∈ kept) :
    k.ref ∈ entries.map Diagnostic.ref :=
  List.mem_map_of_mem (h.mem_entries hk)

theorem sound_concat (h : Gathers kept entries) (d : Diagnostic) {k : Diagnostic} (hk : k ∈ kept) :
    (entries ++ [d])[firstAt (entries ++ [d]) k.ref]? = some k := by
  rw [firstAt_concat_of_mem (h.ref_mem hk),
    List.getElem?_append_left (firstAt_lt_length (h.ref_mem hk))]
  exact h.sound k hk

theorem ordered_concat (h : Gathers kept entries) (d : Diagnostic) :
    kept.Pairwise fun k l =>
      firstAt (entries ++ [d]) k.ref < firstAt (entries ++ [d]) l.ref := by
  refine h.ordered.imp_of_mem fun hk hl hlt => ?_
  rwa [firstAt_concat_of_mem (h.ref_mem hk), firstAt_concat_of_mem (h.ref_mem hl)]

/-- A diagnostic that was met before is passed over. -/
theorem concat_met (h : Gathers kept entries) (hd : d.ref ∈ entries.map Diagnostic.ref) :
    Gathers kept (entries ++ [d]) where
  once := h.once
  complete := by
    intro e he
    rcases List.mem_append.mp he with he | he
    · exact h.complete e he
    · obtain ⟨e', he', href⟩ := List.mem_map.mp hd
      rw [List.mem_singleton.mp he, ← href]
      exact h.complete e' he'
  sound := fun _ hk => h.sound_concat d hk
  ordered := h.ordered_concat d

/-- A diagnostic that was not met before is taken. -/
theorem concat_new (h : Gathers kept entries) (hd : d.ref ∉ entries.map Diagnostic.ref) :
    Gathers (kept ++ [d]) (entries ++ [d]) where
  once := by
    rw [List.map_append, List.map_singleton, ← List.concat_eq_append]
    refine h.once.concat fun hmem => ?_
    obtain ⟨k, hk, href⟩ := List.mem_map.mp hmem
    exact hd (href ▸ h.ref_mem hk)
  complete := by
    intro e he
    rw [List.map_append, List.mem_append]
    rcases List.mem_append.mp he with he | he
    · exact Or.inl (h.complete e he)
    · exact Or.inr (List.mem_map_of_mem he)
  sound := by
    intro k hk
    rcases List.mem_append.mp hk with hk | hk
    · exact h.sound_concat d hk
    · rw [List.mem_singleton.mp hk, firstAt_concat_self hd]
      exact List.getElem?_concat_length
  ordered := by
    refine List.pairwise_append.mpr ⟨h.ordered_concat d, List.pairwise_singleton _ _, ?_⟩
    intro k hk l hl
    rw [List.mem_singleton.mp hl, firstAt_concat_self hd, firstAt_concat_of_mem (h.ref_mem hk)]
    exact firstAt_lt_length (h.ref_mem hk)

end Gathers

end Diagnostic

namespace Failure

open Diagnostic (Gathers Coherent)

/-! ## What has been seen -/

/-- References are seen if they were seen before or are those of an entry. -/
theorem mem_unseen_snd {seen : List Nat} {entries : List Diagnostic} {ref : Nat} :
    ref ∈ (unseen seen entries).2 ↔ ref ∈ seen ∨ ref ∈ entries.map Diagnostic.ref := by
  induction entries generalizing seen with
  | nil => simp [unseen]
  | cons d rest ih =>
      by_cases hd : d.ref ∈ seen
      · rw [unseen, if_pos hd, ih, List.map_cons, List.mem_cons]
        constructor
        · exact Or.imp_right Or.inr
        · rintro (hseen | rfl | hrest)
          · exact Or.inl hseen
          · exact Or.inl hd
          · exact Or.inr hrest
      · simp only [unseen, if_neg hd, ih, List.mem_cons, List.map_cons, or_assoc, or_left_comm]

/-- Entries are read one list after the other. -/
theorem unseen_append (seen : List Nat) (front rest : List Diagnostic) :
    unseen seen (front ++ rest) =
      ((unseen seen front).1 ++ (unseen (unseen seen front).2 rest).1,
        (unseen (unseen seen front).2 rest).2) := by
  induction front generalizing seen with
  | nil => rfl
  | cons d front ih =>
      by_cases hd : d.ref ∈ seen
      · simp only [List.cons_append, unseen, if_pos hd, ih]
      · simp only [List.cons_append, unseen, if_neg hd, ih]

/-- Of entries that all have been seen, none is taken. -/
theorem unseen_of_seen {seen : List Nat} {entries : List Diagnostic}
    (h : ∀ d ∈ entries, d.ref ∈ seen) : unseen seen entries = ([], seen) := by
  induction entries with
  | nil => rfl
  | cons d rest ih =>
      rw [unseen, if_pos (h d List.mem_cons_self)]
      exact ih fun e he => h e (List.mem_cons_of_mem _ he)

/-- **Reading gathers**: by induction on what has been read, one more entry at a time. -/
theorem gathers_unseen (entries : List Diagnostic) : Gathers (unseen [] entries).1 entries := by
  induction entries using List.reverseRecOn with
  | nil => exact Gathers.nil
  | append_singleton entries d ih =>
      have hseen : d.ref ∈ (unseen [] entries).2 ↔ d.ref ∈ entries.map Diagnostic.ref := by
        rw [mem_unseen_snd, or_iff_right List.not_mem_nil]
      rw [unseen_append]
      by_cases hd : d.ref ∈ entries.map Diagnostic.ref
      · simpa only [unseen, if_pos (hseen.mpr hd), List.append_nil] using ih.concat_met hd
      · simpa only [unseen, if_neg (mt hseen.mp hd)] using ih.concat_new hd

/-! ## The entries of a chain -/

/-- The diagnostics of all links, the outermost first, with all repetitions. -/
def entries (f : Failure) : List Diagnostic :=
  f.chain.flatMap diagnostics

theorem entries_wrap (inner : Failure) (message : Text) (context : Json.Members) :
    (inner.wrap message context).entries = inner.diagnostics ++ inner.entries :=
  rfl

/-- The entries of a chain begin with the diagnostics of its outermost link. -/
theorem diagnostics_prefix_entries : ∀ f : Failure, f.diagnostics <+: f.entries
  | mk _ _ _ _ _ none => List.prefix_append _ _
  | mk _ _ _ _ _ (some _) => List.prefix_append _ _

/-- The chain is read as the one list of its entries. -/
theorem diagnosticsAfter_eq (seen : List Nat) :
    ∀ f : Failure, diagnosticsAfter seen f = (unseen seen f.entries).1
  | mk _ _ _ ds _ none => by
      show (unseen seen ds).1 = (unseen seen (ds ++ [])).1
      rw [List.append_nil]
  | mk _ _ _ ds _ (some cause) => by
      show (unseen seen ds).1 ++ diagnosticsAfter (unseen seen ds).2 cause =
        (unseen seen (ds ++ cause.entries)).1
      rw [unseen_append, diagnosticsAfter_eq _ cause]

/-- **The diagnostics of a failure are gathered from its chain.** -/
theorem gathers_allDiagnostics (f : Failure) : Gathers f.allDiagnostics f.entries := by
  rw [allDiagnostics, diagnosticsAfter_eq]
  exact gathers_unseen f.entries

/-! ## Wraps -/

/-- A failure inside wraps, the innermost first. -/
def wrapAll (f : Failure) (wraps : List (Text × Json.Members)) : Failure :=
  wraps.foldl (fun inner (message, context) => inner.wrap message context) f

/-- What one wrap does not change, no number of wraps changes. -/
theorem answer_wrapAll {α : Type} (answer : Failure → α)
    (h : ∀ inner message context, answer (inner.wrap message context) = answer inner)
    (f : Failure) (wraps : List (Text × Json.Members)) : answer (f.wrapAll wraps) = answer f := by
  induction wraps generalizing f with
  | nil => rfl
  | cons w wraps ih => exact (ih (f.wrap w.1 w.2)).trans (h f w.1 w.2)

/-- A wrap repeats what the chain inside begins with, so that nothing new is met in it. -/
theorem allDiagnostics_wrap (inner : Failure) (message : Text) (context : Json.Members) :
    (inner.wrap message context).allDiagnostics = inner.allDiagnostics := by
  obtain ⟨deeper, hentries⟩ := diagnostics_prefix_entries inner
  have hrepeat : unseen (unseen [] inner.diagnostics).2 inner.diagnostics =
      ([], (unseen [] inner.diagnostics).2) :=
    unseen_of_seen fun d hd => mem_unseen_snd.mpr (Or.inr (List.mem_map_of_mem hd))
  rw [allDiagnostics, allDiagnostics, diagnosticsAfter_eq, diagnosticsAfter_eq, entries_wrap,
    ← hentries]
  simp only [unseen_append, hrepeat, List.nil_append]

/-- **A failure tells each diagnostic of its chain once, in the order in which they are first met
from the outermost link inward.** Equal diagnostics under different references are all told. However
often the failure is wrapped, its diagnostics, its root cause and its reason stay. -/
theorem chain_gathered (f : Failure) (wraps : List (Text × Json.Members)) :
    (∀ kept, Gathers kept f.entries ↔ kept = f.allDiagnostics) ∧
    (Coherent f.entries → ∀ d, d ∈ f.allDiagnostics ↔ d ∈ f.entries) ∧
    (f.wrapAll wraps).allDiagnostics = f.allDiagnostics ∧
    (f.wrapAll wraps).rootCause = f.rootCause ∧
    ∀ reason, (f.wrapAll wraps).hasReason reason = f.hasReason reason := by
  have hgathers := gathers_allDiagnostics f
  refine ⟨fun kept => ⟨fun h => h.unique hgathers, fun h => h ▸ hgathers⟩,
    fun hc _ => hgathers.mem_iff_of_coherent hc, ?_, ?_, fun reason => ?_⟩
  · exact answer_wrapAll allDiagnostics allDiagnostics_wrap f wraps
  · exact answer_wrapAll rootCause (fun _ _ _ => rfl) f wraps
  · exact answer_wrapAll (fun g => g.hasReason reason) (fun _ _ _ => rfl) f wraps

namespace Sample

/-- A diagnostic that says the same under every reference. -/
def missing (ref : Nat) : Diagnostic :=
  (Cause.missingField "x" []).diagnostic ref

/-- Two links that share a diagnostic; the outer one has another one twice. -/
def sharing : Failure :=
  .mk .invalidConfig "outer" none [missing 2, missing 0, missing 2] true
    (some (.mk .missingField "inner" none [missing 1, missing 0] false none))

end Sample

/-- Three diagnostics that say the same are told, each once, in the order in which they are met. -/
theorem chain_gathered_sample :
    Coherent Sample.sharing.entries ∧
    (∀ d, d ∈ Sample.sharing.allDiagnostics ↔ d ∈ Sample.sharing.entries) ∧
    Gathers [Sample.missing 2, Sample.missing 0, Sample.missing 1] Sample.sharing.entries ∧
    (Sample.sharing.wrapAll [("a", []), ("b", [("path", .arr [])])]).allDiagnostics =
      [Sample.missing 2, Sample.missing 0, Sample.missing 1] := by
  have hsame : ∀ d ∈ Sample.sharing.entries, d = Sample.missing d.ref := by
    show ∀ d ∈ [2, 0, 2, 1, 0].map Sample.missing, d = Sample.missing d.ref
    exact List.forall_mem_map.mpr fun _ _ => rfl
  have hc : Coherent Sample.sharing.entries := by
    intro d hd e he href
    rw [hsame d hd, hsame e he, href]
  obtain ⟨hgathers, hmem, hwraps, -⟩ :=
    chain_gathered Sample.sharing [("a", []), ("b", [("path", .arr [])])]
  exact ⟨hc, hmem hc, (hgathers _).mpr rfl, hwraps⟩

end Failure

end Relayout
