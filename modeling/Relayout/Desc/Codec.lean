import Relayout.Desc.Layout
import Relayout.Json.Parser
import Relayout.Json.Printer

/-!
# Descriptors as documents

Every descriptor has one canonical document: the members of each object stand
in alphabetical order, and lists keep theirs. Reading checks every node and
reports the first violation with its location; members that the grammar does not
name are dropped.
-/

namespace Relayout.Desc

/-! ## Writing -/

mutual

/-- The canonical JSON value of a descriptor. -/
def toJson : Desc → Json
  | prim name => .obj [("name", .str name), ("tag", .str "prim")]
  | nat value => .obj [("tag", .str "nat"), ("value", .num value)]
  | array elem len => .obj [("elem", toJson elem), ("len", toJson len), ("tag", .str "farr")]
  | struct fields => .obj [("fields", .arr (fieldsToJson fields)), ("tag", .str "struct")]
  | variant ctors => .obj [("ctors", .arr (ctorsToJson ctors)), ("tag", .str "variant")]

def fieldsToJson : List (Field Desc) → List Json
  | [] => []
  | f :: rest =>
    .obj [("name", .str f.name), ("offset", .num f.offset), ("type", toJson f.type)]
      :: fieldsToJson rest

def ctorsToJson : List (Ctor Desc) → List Json
  | [] => []
  | c :: rest =>
    .obj [("id", .num c.id), ("name", .str c.name), ("type", toJson c.type)] :: ctorsToJson rest

end

/-- The canonical document of a descriptor. -/
def encode (d : Desc) : Text :=
  d.toJson.print

/-! ## Reading -/

/-- How a document breaks the grammar, with the location of the offending part. -/
inductive Violation where
  | notObject (location : Text)
  | notText (location : Text)
  | notNatural (location : Text)
  | notList (location : Text)
  | tooWide (location : Text)
  | unknownTag (location : Text) (tag : Option Json)
  | notDocument

namespace Violation

def text : Violation → Text
  | notObject location => location ++ ": expected object"
  | notText location => location ++ " must be a string"
  | notNatural location => location ++ " must be a non-negative integer"
  | notList location => location ++ " must be an array"
  | tooWide location => location ++ " does not fit in 32 bits"
  | unknownTag location tag =>
    location ++ ": unknown tag " ++ (match tag with | some v => v.print | none => "undefined")
  | notDocument => "not JSON (malformed text)"

def cause (v : Violation) : Cause :=
  .invalidDescriptor v.text

end Violation

/-- A whole number that is not negative. -/
def readNatural (location : Text) : Option Json → Except Violation Num
  | some (.num x) => if x.isWhole && !(x.lt 0) then .ok x else .error (.notNatural location)
  | _ => .error (.notNatural location)

def readText (location : Text) : Option Json → Except Violation Text
  | some (.str t) => .ok t
  | _ => .error (.notText location)

/-- A constructor's tag: a whole number of at most 32 bits. -/
def readTag (location : Text) (v : Option Json) : Except Violation Num := do
  let id ← readNatural location v
  if Num.lt 0xFFFFFFFF id then throw (.tooWide location)
  return id

def itemAt (location : Text) (i : Nat) : Text :=
  location ++ "[" ++ Text.ofNat i ++ "]"

/-- What is found under a name is smaller than the object around it. -/
theorem sizeOf_lookup {name : Text} {members : Json.Members} {v : Json}
    (h : Json.lookup? name members = some v) : sizeOf v < sizeOf members := by
  simp only [Json.lookup?, Option.map_eq_some_iff] at h
  obtain ⟨⟨n, w⟩, hfound, hw⟩ := h
  have hmem := List.mem_of_find?_eq_some hfound
  have hsize := List.sizeOf_lt_of_mem hmem
  simp only at hw
  subst hw
  simp only [Prod.mk.sizeOf_spec] at hsize
  omega

mutual

/-- A descriptor from a JSON value. Members are checked in a fixed order, so the
first violation is the one reported. -/
def ofJson (node : Json) (location : Text) : Except Violation Desc :=
  match node with
  | .obj members =>
    match Json.lookup? "tag" members with
    | some (.str tag) =>
      if tag = Text.ofString "prim" then do
        return prim (← readText (location ++ ".name") (Json.lookup? "name" members))
      else if tag = Text.ofString "nat" then do
        return nat (← readNatural (location ++ ".value") (Json.lookup? "value" members))
      else if tag = Text.ofString "farr" then do
        let elem ←
          match _h : Json.lookup? "elem" members with
          | some v => ofJson v (location ++ ".elem")
          | none => throw (.notObject (location ++ ".elem"))
        let len ←
          match _h : Json.lookup? "len" members with
          | some v => ofJson v (location ++ ".len")
          | none => throw (.notObject (location ++ ".len"))
        return array elem len
      else if tag = Text.ofString "struct" then
        match _h : Json.lookup? "fields" members with
        | some (.arr items) => do
          return struct (← fieldsOfJson items (location ++ ".fields") 0)
        | _ => throw (.notList (location ++ ".fields"))
      else if tag = Text.ofString "variant" then
        match _h : Json.lookup? "ctors" members with
        | some (.arr items) => do
          return variant (← ctorsOfJson items (location ++ ".ctors") 0)
        | _ => throw (.notList (location ++ ".ctors"))
      else
        throw (.unknownTag location (some (.str tag)))
    | other => throw (.unknownTag location other)
  | _ => throw (.notObject location)
termination_by sizeOf node
decreasing_by
  all_goals
    have := sizeOf_lookup _h
    simp only [Json.obj.sizeOf_spec, Json.arr.sizeOf_spec] at *
    omega

/-- The fields of a struct, from position `i` of the list on. -/
def fieldsOfJson (items : List Json) (location : Text) (i : Nat) :
    Except Violation (List (Field Desc)) :=
  match items with
  | [] => .ok []
  | .obj members :: rest => do
    let here := itemAt location i
    let name ← readText (here ++ ".name") (Json.lookup? "name" members)
    let offset ← readNatural (here ++ ".offset") (Json.lookup? "offset" members)
    let type ←
      match _h : Json.lookup? "type" members with
      | some v => ofJson v (here ++ ".type")
      | none => throw (.notObject (here ++ ".type"))
    return ⟨name, offset, type⟩ :: (← fieldsOfJson rest location (i + 1))
  | _ :: _ => throw (.notObject (itemAt location i))
termination_by sizeOf items
decreasing_by
  · simp only [List.cons.sizeOf_spec]
    omega
  · have := sizeOf_lookup _h
    simp only [List.cons.sizeOf_spec, Json.obj.sizeOf_spec]
    omega

/-- The constructors of a variant, from position `i` of the list on. -/
def ctorsOfJson (items : List Json) (location : Text) (i : Nat) :
    Except Violation (List (Ctor Desc)) :=
  match items with
  | [] => .ok []
  | .obj members :: rest => do
    let here := itemAt location i
    let id ← readTag (here ++ ".id") (Json.lookup? "id" members)
    let name ← readText (here ++ ".name") (Json.lookup? "name" members)
    let type ←
      match _h : Json.lookup? "type" members with
      | some v => ofJson v (here ++ ".type")
      | none => throw (.notObject (here ++ ".type"))
    return ⟨name, id, type⟩ :: (← ctorsOfJson rest location (i + 1))
  | _ :: _ => throw (.notObject (itemAt location i))
termination_by sizeOf items
decreasing_by
  · simp only [List.cons.sizeOf_spec]
    omega
  · have := sizeOf_lookup _h
    simp only [List.cons.sizeOf_spec, Json.obj.sizeOf_spec]
    omega

end

/-- A descriptor from a JSON value that may be absent. -/
def ofJson? (node : Option Json) (location : Text) : Except Violation Desc :=
  match node with
  | some v => ofJson v location
  | none => .error (.notObject location)

def decode (document : Text) : Except Violation Desc :=
  match Json.parse? document with
  | some v => ofJson v "$"
  | none => .error .notDocument

end Relayout.Desc
