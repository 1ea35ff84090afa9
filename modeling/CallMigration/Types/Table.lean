import CallMigration.Types.Name

/-!
# Tables of known types

A `TypeTable` says which library types there are, what their supertypes are and what their methods
return. Its types stand in increasing order of their names, one entry for each.

* `TypeTable.insert`, `TypeTable.merge` : adding types; a second declaration extends the first.
* `TypeTable.ancestry` : a type and what it reaches through supertypes, nearest first.
* `TypeTable.isSubtype`, `TypeTable.returnType?` : the two questions asked of that list.
-/

namespace CallMigration

/-- A method as far as types are concerned. -/
structure MethodInfo where
  name : String
  params : List TypeName
  returns : TypeName
  isStatic : Bool
deriving DecidableEq, Repr, Inhabited

/-- A declared type. -/
structure TypeInfo where
  name : TypeName
  supertypes : List TypeName
  methods : List MethodInfo
deriving DecidableEq, Repr, Inhabited

/-- The declaration extended by another one: supertypes without repetition, methods in order. -/
def TypeInfo.extend (a b : TypeInfo) : TypeInfo :=
  { a with
    supertypes := b.supertypes.foldl (fun ss s => if ss.contains s then ss else ss ++ [s])
      a.supertypes
    methods := a.methods ++ b.methods }

/-- The known types. -/
structure TypeTable where
  /-- One entry for each name, in increasing order of the names. -/
  types : List TypeInfo
deriving DecidableEq, Repr, Inhabited

namespace TypeTable

def empty : TypeTable := ⟨[]⟩

/-- Adds a declaration to an increasing list of declarations. -/
def insertInto (info : TypeInfo) : List TypeInfo → List TypeInfo
  | [] => [info]
  | t :: ts =>
    if info.name = t.name then t.extend info :: ts
    else if info.name < t.name then info :: t :: ts
    else t :: insertInto info ts

/-- Adds a type; a second declaration of a name extends the first. -/
def insert (table : TypeTable) (info : TypeInfo) : TypeTable :=
  ⟨insertInto info table.types⟩

def insertAll (table : TypeTable) (infos : List TypeInfo) : TypeTable :=
  infos.foldl insert table

def merge (table other : TypeTable) : TypeTable :=
  table.insertAll other.types

def get? (table : TypeTable) (name : TypeName) : Option TypeInfo :=
  table.types.find? fun info => info.name == name

def contains (table : TypeTable) (name : TypeName) : Bool :=
  (table.get? name).isSome

def size (table : TypeTable) : Nat :=
  table.types.length

/-- Nothing is declared. -/
def isEmpty (table : TypeTable) : Bool :=
  table.types.isEmpty

/-! ## Supertypes -/

/-- The declared supertypes of a name; none for an undeclared one. -/
def supertypesOf (table : TypeTable) (name : TypeName) : List TypeName :=
  match table.get? name with
  | some info => info.supertypes
  | none => []

/-- The number of declared supertypes of all types together. -/
def edgeCount (table : TypeTable) : Nat :=
  table.types.foldl (fun total info => total + info.supertypes.length) 0

/-- Follows supertypes breadth first from the names in `queue`, for at most `steps` names;
`seen` holds the names met so far, in order. -/
def ascend (table : TypeTable) : Nat → List TypeName → List TypeName → List TypeName
  | 0, _, seen => seen
  | _ + 1, [], seen => seen
  | steps + 1, name :: queue, seen =>
    if seen.contains name then table.ascend steps queue seen
    else table.ascend steps (queue ++ table.supertypesOf name) (seen ++ [name])

/-- A type and every type it reaches through supertypes, nearest first. Each declared type is
expanded once, so `edgeCount` further names are enough. -/
def ancestry (table : TypeTable) (name : TypeName) : List TypeName :=
  table.ascend (table.edgeCount + 1) [name] []

/-- `sub` is `sup` or reaches it through declared supertypes. -/
def isSubtype (table : TypeTable) (sub sup : TypeName) : Bool :=
  sub == sup || (table.ancestry sub).contains sup

/-! ## Methods -/

/-- The return types of the methods that a type itself declares with a name and an arity. -/
def declaredReturns (table : TypeTable) (owner : TypeName) (name : String) (arity : Nat) :
    List TypeName :=
  match table.get? owner with
  | some info =>
    (info.methods.filter fun m => m.name == name && m.params.length == arity).map (·.returns)
  | none => []

def agreed? : List TypeName → Option TypeName
  | [] => none
  | t :: ts => if ts.all (· == t) then some t else none

/-- The return type of a call on `owner`: the nearest type that declares such methods decides, and
they have to agree. -/
def returnType? (table : TypeTable) (owner : TypeName) (name : String) (arity : Nat) :
    Option TypeName :=
  ((table.ancestry owner).map fun t => table.declaredReturns t name arity).find?
    (!·.isEmpty) |>.bind agreed?

def findInPackage? (table : TypeTable) (package simpleName : String) : Option TypeName :=
  let candidate := TypeName.ofWritten (package ++ "." ++ simpleName)
  if table.contains candidate then some candidate else none

end TypeTable

end CallMigration
