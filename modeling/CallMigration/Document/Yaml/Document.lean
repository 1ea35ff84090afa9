import CallMigration.Document.Yaml.Token

/-!
# YAML documents

* `Reading.node?` : a scalar or a collection.
* `parse?` : a whole document. Nothing at all is an empty scalar.
-/

namespace CallMigration.Yaml

/-- The tokens that are left, and the values that have names. -/
structure Reading where
  tokens : List Token
  anchors : List (String × Value)
deriving Inhabited

def nothing : Value := .plain ""

namespace Reading

def behind (r : Reading) (tokens : List Token) : Reading := { r with tokens }

/-- Takes the names and tags in front of a value: tells whether there are any, and the name. -/
def properties : List Token → Bool × Option String × List Token
  | .anchor name :: .tag :: ts => (true, some name, ts)
  | .tag :: .anchor name :: ts => (true, some name, ts)
  | .anchor name :: ts => (true, some name, ts)
  | .tag :: ts => (true, none, ts)
  | ts => (false, none, ts)

/-- The next token cannot begin a value in a mapping that is set off by its indentation. -/
def endsField : List Token → Bool
  | [] | .key :: _ | .value :: _ | .blockEnd :: _ => true
  | _ => false

/-- The next token cannot begin an element of a sequence that is set off by its indentation. -/
def endsElement : List Token → Bool
  | [] | .dash :: _ | .blockEnd :: _ => true
  | _ => false

/-- The next token cannot begin an element of a sequence that has no indentation of its own. -/
def endsLooseElement (ts : List Token) : Bool :=
  endsField ts || endsElement ts

/-- The next token cannot begin a value between brackets or braces. -/
def endsFlow : List Token → Bool
  | [] | .comma :: _ | .closeBracket :: _ | .closeBrace :: _ => true
  | _ => false

/-- The next token cannot begin a key between brackets or braces. -/
def endsFlowKey : List Token → Bool
  | .value :: _ => true
  | ts => endsFlow ts

mutual
/-- A scalar or a collection. Only outside of brackets it may be set off by its indentation, and only
as a part of a mapping it may be a sequence without indentation. -/
def node? : Nat → Bool → Bool → Reading → Option (Value × Reading)
  | 0, _, _, _ => none
  | steps + 1, isBlock, isLoose, r =>
    match r.tokens with
    | .alias name :: ts => (r.anchors.lookup name).map fun v => (v, r.behind ts)
    | ts =>
      let (hasProperties, name, ts) := properties ts
      match content? steps isBlock isLoose hasProperties (r.behind ts) with
      | none => none
      | some (v, r) =>
        some (v, match name with
          | some name => { r with anchors := (name, v) :: r.anchors }
          | none => r)

def content? : Nat → Bool → Bool → Bool → Reading → Option (Value × Reading)
  | 0, _, _, _, _ => none
  | steps + 1, isBlock, isLoose, hasProperties, r =>
    match r.tokens with
    | .scalar v :: ts => some (v, r.behind ts)
    | .openBracket :: ts =>
      (flowElements? steps [] (r.behind ts)).map fun (vs, r) => (.sequence vs, r)
    | .openBrace :: ts => (flowFields? steps [] (r.behind ts)).map fun (fs, r) => (.record fs, r)
    | .dash :: _ =>
      if isLoose then (looseElements? steps [] r).map fun (vs, r) => (.sequence vs, r)
      else if hasProperties then some (nothing, r)
      else none
    | .sequenceStart :: ts =>
      if isBlock then (elements? steps [] (r.behind ts)).map fun (vs, r) => (.sequence vs, r)
      else if hasProperties then some (nothing, r)
      else none
    | .mappingStart :: ts =>
      if isBlock then (fields? steps [] (r.behind ts)).map fun (fs, r) => (.record fs, r)
      else if hasProperties then some (nothing, r)
      else none
    | _ => if hasProperties then some (nothing, r) else none

/-- The elements of a sequence that is set off by its indentation. -/
def elements? : Nat → List Value → Reading → Option (List Value × Reading)
  | 0, _, _ => none
  | steps + 1, acc, r =>
    match r.tokens with
    | .blockEnd :: ts => some (acc.reverse, r.behind ts)
    | .dash :: ts =>
      if endsElement ts then elements? steps (nothing :: acc) (r.behind ts)
      else
        match node? steps true false (r.behind ts) with
        | some (v, r) => elements? steps (v :: acc) r
        | none => none
    | _ => none

def looseElements? : Nat → List Value → Reading → Option (List Value × Reading)
  | 0, _, _ => none
  | steps + 1, acc, r =>
    match r.tokens with
    | .dash :: ts =>
      if endsLooseElement ts then looseElements? steps (nothing :: acc) (r.behind ts)
      else
        match node? steps true false (r.behind ts) with
        | some (v, r) => looseElements? steps (v :: acc) r
        | none => none
    | _ => some (acc.reverse, r)

/-- The fields of a mapping that is set off by its indentation. -/
def fields? : Nat → List (String × Value) → Reading → Option (List (String × Value) × Reading)
  | 0, _, _ => none
  | steps + 1, acc, r =>
    match r.tokens with
    | .blockEnd :: ts => some (acc.reverse, r.behind ts)
    | .key :: ts =>
      match if endsField ts then some (nothing, r.behind ts) else node? steps true true (r.behind ts) with
      | none => none
      | some (key, r) =>
        match fieldValue? steps r, key.asText? with
        | some (v, r), some name => fields? steps ((name, v) :: acc) r
        | _, _ => none
    | _ => none

/-- The value of a field of a mapping that is set off by its indentation. -/
def fieldValue? : Nat → Reading → Option (Value × Reading)
  | 0, _ => none
  | steps + 1, r =>
    match r.tokens with
    | .value :: ts =>
      if endsField ts then some (nothing, r.behind ts) else node? steps true true (r.behind ts)
    | _ => some (nothing, r)

/-- The elements between brackets; `acc` has the last one first. A field stands for a mapping. -/
def flowElements? : Nat → List Value → Reading → Option (List Value × Reading)
  | 0, _, _ => none
  | steps + 1, acc, r =>
    match r.tokens with
    | .closeBracket :: ts => some (acc.reverse, r.behind ts)
    | ts =>
      let element : Option (Value × Reading) :=
        match ts with
        | .key :: ts => (flowField? steps (r.behind ts)).map fun (f, r) => (Value.record [f], r)
        | _ => node? steps false false r
      match element with
      | none => none
      | some (v, r) =>
        match r.tokens with
        | .comma :: ts => flowElements? steps (v :: acc) (r.behind ts)
        | .closeBracket :: ts => some ((v :: acc).reverse, r.behind ts)
        | _ => none

/-- A field between brackets or braces, behind the mark for its key. -/
def flowField? : Nat → Reading → Option ((String × Value) × Reading)
  | 0, _ => none
  | steps + 1, r =>
    match if endsFlowKey r.tokens then some (nothing, r) else node? steps false false r with
    | none => none
    | some (key, r) =>
      match key.asText?, r.tokens with
      | some name, .value :: ts =>
        if endsFlow ts then some ((name, nothing), r.behind ts)
        else (node? steps false false (r.behind ts)).map fun (v, r) => ((name, v), r)
      | some name, _ => some ((name, nothing), r)
      | none, _ => none

/-- The fields between braces; `acc` has the last one first. -/
def flowFields? : Nat → List (String × Value) → Reading → Option (List (String × Value) × Reading)
  | 0, _, _ => none
  | steps + 1, acc, r =>
    match r.tokens with
    | .closeBrace :: ts => some (acc.reverse, r.behind ts)
    | ts =>
      let field : Option ((String × Value) × Reading) :=
        match ts with
        | .key :: ts => flowField? steps (r.behind ts)
        | _ =>
          (node? steps false false r).bind fun (key, r) =>
            key.asText?.map fun name => ((name, nothing), r)
      match field with
      | none => none
      | some (f, r) =>
        match r.tokens with
        | .comma :: ts => flowFields? steps (f :: acc) (r.behind ts)
        | .closeBrace :: ts => some ((f :: acc).reverse, r.behind ts)
        | _ => none
end

def content (steps : Nat) (ts : List Token) : Option (Value × Reading) :=
  match ts with
  | [] | .directive :: _ | .documentStart :: _ | .documentEnd :: _ => some (nothing, ⟨ts, []⟩)
  | _ => node? steps true false ⟨ts, []⟩

/-- A document. Directives may stand in front of its mark only. -/
def document? (steps : Nat) (ts : List Token) : Option (Value × Reading) :=
  let isDirective : Token → Bool
    | .directive => true
    | _ => false
  match ts with
  | [] => some (nothing, ⟨[], []⟩)
  | .documentStart :: ts => content steps ts
  | .directive :: ts =>
    match ts.dropWhile isDirective with
    | .documentStart :: ts => content steps ts
    | _ => none
  | ts => node? steps true false ⟨ts, []⟩

end Reading

/-- Nothing but marks that a document ends. -/
def isFinished (ts : List Token) : Bool :=
  ts.all fun
    | .documentEnd => true
    | _ => false

/-- Reads a document; there has to be no second one. -/
def parse? (content : String) : Option Value := do
  let ts ← tokens? content
  let (v, r) ← Reading.document? (4 * ts.length + 4) ts
  if isFinished r.tokens then some v else none

end CallMigration.Yaml
