import Relayout.Conversion.Converter
import Relayout.Desc.Codec

/-!
# Converter caches

A cache keeps what was built for a pair. The destination counts as the same only
if it is the same type, known by an identity of type `ι`; descriptors count as
the same if their canonical documents are. Each destination type has a table of
its own, and a counter says how many builds are kept in all. Failed builds are
not kept.
-/

namespace Relayout

/-- A finite map as the list of its entries, each key once. -/
abbrev Table (κ α : Type) := List (κ × α)

namespace Table

variable {κ α : Type} [DecidableEq κ]

def find? (t : Table κ α) (key : κ) : Option α :=
  (List.find? (·.1 = key) t).map (·.2)

/-- Give a key a value; a key that is there keeps its place. -/
def put (key : κ) (value : α) : Table κ α → Table κ α
  | [] => [(key, value)]
  | (other, v) :: rest =>
    if other = key then (key, value) :: rest else (other, v) :: put key value rest

theorem find?_cons (other key : κ) (v : α) (t : Table κ α) :
    find? ((other, v) :: t) key = if other = key then some v else find? t key := by
  rw [find?, List.find?_cons]
  by_cases h : other = key
  · simp [h]
  · simp [h, find?]

/-- A key that was put has its new value, and all others have theirs. -/
theorem find?_put (key key' : κ) (value : α) (t : Table κ α) :
    find? (put key value t) key' = if key = key' then some value else find? t key' := by
  induction t with
  | nil => rw [put, find?_cons]
  | cons entry rest ih =>
    obtain ⟨other, v⟩ := entry
    rw [put]
    by_cases hother : other = key
    · rw [if_pos hother, find?_cons, find?_cons, hother]
      split <;> rfl
    · rw [if_neg hother, find?_cons, find?_cons, ih]
      by_cases hkey : key = key'
      · rw [if_pos hkey, if_pos hkey, if_neg (hkey ▸ hother)]
      · rw [if_neg hkey, if_neg hkey]

end Table

/-- Compiled pairs: for each destination type that was asked for a table of its
own, where they are found by the document of the descriptor. -/
structure Cache (ι : Type) where
  config : Config
  byDest : Table ι (Table Text Compiled)
  count : Nat

namespace Cache

variable {ι : Type} [DecidableEq ι]

/-- An empty cache whose converters all share one configuration. -/
def empty (options : Layer) : Except Cause (Cache ι) := do
  return ⟨← options.resolve, [], 0⟩

def size (c : Cache ι) : Nat :=
  c.count

/-- What is kept for a destination type. -/
def shapes (c : Cache ι) (identity : ι) : Table Text Compiled :=
  (c.byDest.find? identity).getD []

/-- Take a table in the place of the one for a destination type. -/
def setShapes (c : Cache ι) (identity : ι) (shapes : Table Text Compiled) : Cache ι :=
  { c with byDest := c.byDest.put identity shapes }

def keep (c : Cache ι) (identity : ι) (document : Text) (compiled : Compiled) : Cache ι :=
  { c.setShapes identity ((c.shapes identity).put document compiled) with count := c.count + 1 }

/-- The converter for a pair: the one that was kept, or a new one that is kept if
its build succeeds. The table of the destination type is there afterwards in any case. -/
def get (c : Cache ι) (identity : ι) (dest : Dest) (desc : Desc) :
    Cache ι × Traced Converter :=
  let document := desc.encode
  let shapes := c.shapes identity
  let opened := c.setShapes identity shapes
  match shapes.find? document with
  | some compiled =>
    (opened, ⟨[.cacheHit dest.name desc.display], .ok ⟨dest, compiled, c.config⟩⟩)
  | none =>
    let miss := Event.cacheMiss dest.name desc.display
    match Compiled.build c.config.unknownTag dest desc [] with
    | ⟨events, .ok compiled⟩ =>
      (opened.keep identity document compiled, ⟨miss :: events, .ok ⟨dest, compiled, c.config⟩⟩)
    | ⟨events, .error f⟩ => (opened, ⟨miss :: events, .error f⟩)

def clear (c : Cache ι) : Cache ι :=
  { c with byDest := [], count := 0 }

end Cache

end Relayout
