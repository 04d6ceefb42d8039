import Mathlib.Data.List.Induction
import Relayout.Config.Load
import Relayout.Proofs.Ranges

/-!
# Which layer a setting comes from

Four layers may state a setting: overrides, a file, the environment, and the
defaults. The announced priority looks through them in this order, for each
setting by itself. What is loaded follows it except in one case: a file that is
read states every setting, since the defaults fill what it does not mention, and
so it hides the environment even where it says nothing.
-/

namespace Relayout

/-- The settings by name. -/
inductive Setting where
  | littleEndian
  | boundsCheck
  | unknownTag
  deriving DecidableEq, Repr

namespace Settings

variable {α : Type}

/-- The value for a setting. -/
def get (s : Settings α) : Setting → α
  | .littleEndian => s.littleEndian
  | .boundsCheck => s.boundsCheck
  | .unknownTag => s.unknownTag

theorem get_toLayer (s : Settings Json) (x : Setting) : s.toLayer.get x = some (s.get x) := by
  cases x <;> rfl

theorem get_override (under : Settings Json) (layer : Layer) (x : Setting) :
    (under.override layer).get x = (Json.stated (layer.get x)).getD (under.get x) := by
  cases x <;> rfl

/-- A setting of merged layers is the one of the last layer that states it. -/
theorem get_merge (layers : List Layer) (x : Setting) :
    (merge layers).get x =
      ((layers.reverse.findSome? fun layer => Json.stated (layer.get x)).getD
        (Config.default.toSettings.get x)) := by
  induction layers using List.reverseRecOn with
  | nil => rfl
  | append_singleton layers layer ih =>
      rw [merge, List.foldl_append, List.reverse_append, List.reverse_singleton,
        List.singleton_append, List.findSome?_cons]
      show ((merge layers).override layer).get x = _
      rw [get_override, ih]
      cases Json.stated (layer.get x) with
      | none => rfl
      | some v => rfl

end Settings

namespace Config

theorem get_toLayer (c : Config) (x : Setting) : c.toLayer.get x = some (c.toSettings.get x) := by
  cases x <;> rfl

/-- A configuration states each of its settings: none is null. -/
theorem stated_get (c : Config) (x : Setting) :
    Json.stated (some (c.toSettings.get x)) = some (c.toSettings.get x) := by
  cases x <;> rfl

end Config

/-! ## What the layers state -/

/-- A truth value in words. -/
def Text.truth? (t : Text) : Option Bool :=
  let word := t.trim.toLower
  if [Text.ofString "1", Text.ofString "true", Text.ofString "yes"].contains word then some true
  else if [Text.ofString "0", Text.ofString "false", Text.ofString "no"].contains word then
    some false
  else none

namespace Setting

/-- The end of the setting's variable. -/
def suffix : Setting → Text
  | littleEndian => "_LITTLE_ENDIAN"
  | boundsCheck => "_BOUNDS_CHECK"
  | unknownTag => "_UNKNOWN_TAG"

/-- The setting's name, its words joined by capitals. -/
def camel : Setting → Text
  | littleEndian => "littleEndian"
  | boundsCheck => "boundsCheck"
  | unknownTag => "unknownTag"

/-- The setting's name, its words joined by low lines. -/
def snake : Setting → Text
  | littleEndian => "little_endian"
  | boundsCheck => "bounds_check"
  | unknownTag => "unknown_tag"

/-- The value that a text spells for the setting. -/
def spelled? : Setting → Text → Option Json
  | unknownTag, t => (UnknownTagPolicy.ofName? t).map fun policy => .str policy.name
  | _, t => t.truth?.map .bool

/-- What the environment states. -/
def inEnvironment? (x : Setting) (env : Environment) : Option Json :=
  (Config.valueOf? env (Config.defaultPrefix ++ x.suffix)).bind x.spelled?

/-- What the object of a file states, under either name. An empty text says nothing. -/
def inMembers? (x : Setting) (members : Json.Members) : Option Json :=
  match Config.pick members x.camel x.snake with
  | some (.str []) => none
  | v => v

/-- What overrides state. -/
def inOverrides? (x : Setting) (overrides : Option Json) : Option Json :=
  Json.stated ((Config.overrideLayer overrides).get x)

/-- The value without any layer. -/
def fallback (x : Setting) : Json :=
  Config.default.toSettings.get x

end Setting

/-- The object in a JSON file. -/
def FileTree.object? (tree : FileTree) (path : Text) : Option Json.Members :=
  match tree.find? path with
  | some (.file content) =>
    match Json.parse? content with
    | some (.obj members) => some members
    | _ => none
  | _ => none

namespace Config

/-- The object of the file that loading reads, if it reads one. -/
def fileRead? (tree : FileTree) (options : LoadOptions) : Option Json.Members :=
  (fileToRead tree options.configFile).bind tree.object?

/-- **The announced priority**, for one setting: overrides, file, environment, default. -/
def prioritized (env : Environment) (tree : FileTree) (options : LoadOptions) (x : Setting) : Json :=
  ((((x.inOverrides? options.overrides).or ((fileRead? tree options).bind x.inMembers?)).or
    (x.inEnvironment? env)).getD x.fallback)

/-- A file is read that does not mention the setting, nothing overrides it, and the
environment states it. -/
structure Masked (env : Environment) (tree : FileTree) (options : LoadOptions) (x : Setting) :
    Prop where
  overrides : x.inOverrides? options.overrides = none
  file : ∃ members, fileRead? tree options = some members ∧ x.inMembers? members = none
  environment : ∃ v, x.inEnvironment? env = some v

/-! ## Reading each layer -/

theorem parseBool_ok {t : Text} {b fallback : Bool} (h : parseBool (some t) fallback = .ok b) :
    b = t.truth?.getD fallback := by
  cases t with
  | nil =>
      cases h
      rfl
  | cons u rest =>
      simp only [parseBool, ← List.contains_iff_mem] at h
      rw [Text.truth?]
      split at h
      · rename_i hyes
        cases h
        rw [if_pos hyes]
        rfl
      · rename_i hyes
        split at h
        · rename_i hno
          cases h
          rw [if_neg hyes, if_pos hno]
          rfl
        · cases h

theorem ofName?_eq_some {t : Text} {policy : UnknownTagPolicy}
    (h : UnknownTagPolicy.ofName? t = some policy) : policy.name = t := by
  simpa using List.find?_some h

theorem parsePolicy_ok {v : Json} {policy fallback : UnknownTagPolicy}
    (h : parsePolicy (some v) fallback = .ok policy) :
    (v = .str [] ∧ policy = fallback) ∨
      ∃ t, v = .str t ∧ UnknownTagPolicy.ofName? t = some policy := by
  unfold parsePolicy at h
  split at h
  · rename_i hnone
    cases hnone
  · rename_i hempty
    cases hempty
    cases h
    exact .inl ⟨rfl, rfl⟩
  · rename_i v' _ hv
    cases hv
    split at h
    · rename_i found hfound
      cases h
      cases v with
      | str t => exact .inr ⟨t, rfl, hfound⟩
      | _ => cases hfound
    · split at h <;> cases h

/-- A truth value from the environment is the stated one or the default. -/
theorem environment_bool {env : Environment} {x : Setting} {b fallback : Bool}
    (hx : x.spelled? = fun t => t.truth?.map .bool) (hfallback : x.fallback = .bool fallback)
    (h : parseBool (valueOf? env (defaultPrefix ++ x.suffix)) fallback = .ok b) :
    Json.bool b = (x.inEnvironment? env).getD x.fallback := by
  rw [Setting.inEnvironment?, hx, hfallback]
  cases hvalue : valueOf? env (defaultPrefix ++ x.suffix) with
  | none =>
      rw [hvalue] at h
      cases h
      rfl
  | some t =>
      rw [hvalue] at h
      rw [parseBool_ok h, Option.bind_some]
      cases t.truth? with
      | none => rfl
      | some b => rfl

/-- The policy from the environment is the stated one or the default. -/
theorem environment_policy {env : Environment} {policy : UnknownTagPolicy}
    (h : parsePolicy ((valueOf? env (defaultPrefix ++ Setting.unknownTag.suffix)).map Json.str)
      default.unknownTag = .ok policy) :
    Json.str policy.name =
      (Setting.unknownTag.inEnvironment? env).getD Setting.unknownTag.fallback := by
  rw [Setting.inEnvironment?]
  cases hvalue : valueOf? env (defaultPrefix ++ Setting.unknownTag.suffix) with
  | none =>
      rw [hvalue] at h
      cases h
      rfl
  | some t =>
      rw [hvalue] at h
      rcases parsePolicy_ok h with ⟨hempty, rfl⟩ | ⟨t', ht, hpolicy⟩
      · cases hempty
        rfl
      · cases ht
        rw [Option.bind_some, Setting.spelled?, hpolicy]
        rfl

/-- **The environment yields what it states, and the defaults otherwise.** -/
theorem get_fromEnvironment {env : Environment} {c : Config} (h : fromEnvironment env = .ok c)
    (x : Setting) : c.toSettings.get x = (x.inEnvironment? env).getD x.fallback := by
  rw [fromEnvironment] at h
  obtain ⟨littleEndian, hlittle, h⟩ := bind_eq_ok.mp h
  obtain ⟨boundsCheck, hbounds, h⟩ := bind_eq_ok.mp h
  obtain ⟨policy, hpolicy, h⟩ := bind_eq_ok.mp h
  cases h
  cases x with
  | littleEndian => exact environment_bool rfl rfl hlittle
  | boundsCheck => exact environment_bool rfl rfl hbounds
  | unknownTag => exact environment_policy hpolicy

/-- A truth value from an object is the stated one or the default. -/
theorem members_bool {members : Json.Members} {x : Setting} {b fallback : Bool}
    (hfallback : x.fallback = .bool fallback)
    (h : readBool (pick members x.camel x.snake) fallback = .ok b) :
    Json.bool b = (x.inMembers? members).getD x.fallback := by
  rw [Setting.inMembers?, hfallback]
  cases hpick : pick members x.camel x.snake with
  | none =>
      rw [hpick] at h
      cases h
      rfl
  | some v =>
      rw [hpick] at h
      cases v with
      | bool b' =>
          cases h
          rfl
      | _ => cases h

/-- The policy from an object is the stated one or the default. -/
theorem members_policy {members : Json.Members} {policy : UnknownTagPolicy}
    (h : parsePolicy (pick members Setting.unknownTag.camel Setting.unknownTag.snake)
      default.unknownTag = .ok policy) :
    Json.str policy.name =
      (Setting.unknownTag.inMembers? members).getD Setting.unknownTag.fallback := by
  rw [Setting.inMembers?]
  cases hpick : pick members Setting.unknownTag.camel Setting.unknownTag.snake with
  | none =>
      rw [hpick] at h
      cases h
      rfl
  | some v =>
      rw [hpick] at h
      rcases parsePolicy_ok h with ⟨rfl, rfl⟩ | ⟨t, rfl, hpolicy⟩
      · rfl
      · rw [← ofName?_eq_some hpolicy]
        cases policy <;> rfl

/-- **An object yields what it states, and the defaults otherwise.** -/
theorem get_fromMembers {members : Json.Members} {c : Config} (h : fromMembers members = .ok c)
    (x : Setting) : c.toSettings.get x = (x.inMembers? members).getD x.fallback := by
  rw [fromMembers] at h
  obtain ⟨littleEndian, hlittle, h⟩ := bind_eq_ok.mp h
  obtain ⟨boundsCheck, hbounds, h⟩ := bind_eq_ok.mp h
  obtain ⟨policy, hpolicy, h⟩ := bind_eq_ok.mp h
  cases h
  cases x with
  | littleEndian => exact members_bool rfl hlittle
  | boundsCheck => exact members_bool rfl hbounds
  | unknownTag => exact members_policy hpolicy

/-- A file that can be read holds an object. -/
theorem fromFile_ok {tree : FileTree} {path : Text} {c : Config} (h : fromFile tree path = .ok c) :
    ∃ members, tree.object? path = some members ∧ fromMembers members = .ok c := by
  rw [fromFile] at h
  rw [FileTree.object?]
  cases hfind : tree.find? path with
  | none =>
      rw [hfind] at h
      cases h
  | some entry =>
      rw [hfind] at h
      obtain ⟨entry', hentry, h⟩ := bind_eq_ok.mp h
      cases hentry
      simp only at h ⊢
      split at h
      · cases h
      · cases entry with
        | directory => cases h
        | file content =>
            obtain ⟨content', hcontent, h⟩ := bind_eq_ok.mp h
            cases hcontent
            simp only at h ⊢
            split at h
            · cases h
            · rename_i members hparse
              rw [hparse]
              exact ⟨members, rfl, h⟩
            · cases h

/-! ## All together -/

/-- What a run of loading has read. -/
theorem load_ok {env : Environment} {tree : FileTree} {options : LoadOptions} {s : Settings Json}
    (h : load env tree options = .ok s) :
    ∃ fromEnv base, fromEnvironment env = .ok fromEnv ∧
      s = Settings.merge [base.toLayer, overrideLayer options.overrides] ∧
      ((fileRead? tree options = none ∧ base = fromEnv.toSettings) ∨
        ∃ members c, fileRead? tree options = some members ∧ fromMembers members = .ok c ∧
          base = Settings.merge [fromEnv.toLayer, c.toLayer]) := by
  rw [load] at h
  obtain ⟨fromEnv, henv, h⟩ := bind_eq_ok.mp h
  rw [fileRead?]
  cases hpath : fileToRead tree options.configFile with
  | none =>
      rw [hpath] at h
      cases h
      exact ⟨fromEnv, fromEnv.toSettings, henv, rfl, .inl ⟨rfl, rfl⟩⟩
  | some path =>
      rw [hpath] at h
      obtain ⟨c, hc, h⟩ := bind_eq_ok.mp h
      cases h
      obtain ⟨members, hmembers, hread⟩ := fromFile_ok hc
      exact ⟨fromEnv, _, henv, rfl, .inr ⟨members, c, hmembers, hread, rfl⟩⟩

/-- What is loaded: the override, else what the one layer below states, else the default.
That layer is the file if one is read, and the environment otherwise. -/
theorem get_load {env : Environment} {tree : FileTree} {options : LoadOptions} {s : Settings Json}
    (h : load env tree options = .ok s) (x : Setting) :
    s.get x =
      ((x.inOverrides? options.overrides).or
        (match fileRead? tree options with
          | some members => x.inMembers? members
          | none => x.inEnvironment? env)).getD x.fallback := by
  obtain ⟨fromEnv, base, henv, rfl, hbase⟩ := load_ok h
  have hread : ∃ c : Config, base.get x = c.toSettings.get x ∧ c.toSettings.get x =
      (match fileRead? tree options with
        | some members => x.inMembers? members
        | none => x.inEnvironment? env).getD x.fallback := by
    rcases hbase with ⟨hfile, rfl⟩ | ⟨members, c, hfile, hc, rfl⟩
    · rw [hfile]
      exact ⟨fromEnv, rfl, get_fromEnvironment henv x⟩
    · refine ⟨c, ?_, hfile ▸ get_fromMembers hc x⟩
      rw [Settings.get_merge]
      simp [get_toLayer, stated_get]
  obtain ⟨c, hbase, hvalue⟩ := hread
  have hlayer : Json.stated (base.toLayer.get x) = some (c.toSettings.get x) := by
    rw [Settings.get_toLayer, hbase, stated_get]
  rw [Settings.get_merge]
  simp only [List.reverse_cons, List.reverse_nil, List.nil_append, List.singleton_append,
    List.findSome?_cons, hlayer, hvalue]
  rw [Setting.inOverrides?]
  cases Json.stated ((overrideLayer options.overrides).get x) with
  | some v => rfl
  | none => rfl

/-- **What is loaded follows the priority, except where a file masks the environment.** A masked
setting falls back to its default, whatever the environment states. Every other setting comes
from the first of overrides, file and environment that states it. -/
theorem load_prioritized {env : Environment} {tree : FileTree} {options : LoadOptions}
    {s : Settings Json} (h : load env tree options = .ok s) (x : Setting) :
    (Masked env tree options x → s.get x = x.fallback) ∧
      (¬Masked env tree options x → s.get x = prioritized env tree options x) := by
  rw [get_load h x, prioritized]
  constructor
  · rintro ⟨hover, ⟨members, hfile, hmembers⟩, -⟩
    rw [hover, hfile]
    simp [hmembers]
  · intro hmasked
    -- with a file the environment is not asked, so it must not be needed either
    cases hfile : fileRead? tree options with
    | none => simp
    | some members =>
        cases hover : x.inOverrides? options.overrides with
        | some v => simp
        | none =>
            cases hmembers : x.inMembers? members with
            | some v => simp [hmembers]
            | none =>
                cases henv : x.inEnvironment? env with
                | none => simp [hmembers]
                | some v => exact absurd ⟨hover, ⟨members, hfile, hmembers⟩, ⟨v, henv⟩⟩ hmasked

namespace Sample

/-- The environment asks for big-endian memories. -/
def bigEndian : Environment :=
  [("STRUCTCONV_LITTLE_ENDIAN", "false")]

/-- The default file only speaks of bounds. -/
def unchecked : FileTree :=
  ⟨["srv"], [("structconv.config.json", "\x7b\"boundsCheck\":false\x7d")], []⟩

/-- Nothing is named or overridden. -/
def plainly : LoadOptions :=
  ⟨none, none⟩

end Sample

/-- The file of the sample hides the byte order that the environment states, and nothing else. -/
theorem load_prioritized_sample : ∃ s : Settings Json,
    load Sample.bigEndian Sample.unchecked Sample.plainly = .ok s ∧
      s.get .littleEndian = .bool true ∧
      s.get .boundsCheck =
        prioritized Sample.bigEndian Sample.unchecked Sample.plainly .boundsCheck := by
  have h := eq_ok_get (x := load Sample.bigEndian Sample.unchecked Sample.plainly)
    (by decide +kernel)
  have hfile : (fileRead? Sample.unchecked Sample.plainly).any
      (fun members => (Setting.littleEndian.inMembers? members).isNone) = true := by
    decide +kernel
  obtain ⟨members, hmembers, hnone⟩ := (Option.any_eq_true _ _).mp hfile
  refine ⟨_, h, (load_prioritized h .littleEndian).1 ⟨rfl, ?_, ?_⟩,
    (load_prioritized h .boundsCheck).2 ?_⟩
  · exact ⟨members, hmembers, Option.isNone_iff_eq_none.mp hnone⟩
  · exact Option.isSome_iff_exists.mp (by decide +kernel)
  · rintro ⟨-, -, henv⟩
    exact absurd (Option.isSome_iff_exists.mpr henv) (by decide +kernel)

/-- The environment's byte order is lost although neither the file nor an override mentions one. -/
theorem environment_masked : ∃ s : Settings Json,
    load Sample.bigEndian Sample.unchecked Sample.plainly = .ok s ∧
      s.get .littleEndian ≠
        prioritized Sample.bigEndian Sample.unchecked Sample.plainly .littleEndian := by
  refine ⟨_, eq_ok_get (by decide +kernel), fun h => ?_⟩
  exact absurd (congrArg Json.holds h) (by decide +kernel)

end Config

end Relayout
