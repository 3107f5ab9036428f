import Mongolite.Library.JsonTexts
import Mongolite.Library.RNumeric

/-! # Requests as JSON

A request is put together as text, or as a list of which `toJSON` makes text.
`bson_or_json` lets `validate` check the text before `bson_new_from_json` makes a
document of it.
-/

namespace Mongolite

open Json

variable {δ : Type}

def codePoints (s : String) : List ℕ := s.toList.map Char.toNat

/-- What the package uses of jsonlite. `toJSON` encodes an ordinary string as a JSON string and a
number as some JSON value, and `fromJSON` makes a list of an object. -/
structure Jsonlite where
  validate : String → Bool
  quote : String → List Char
  number : Numeric → List Char
  numberValue : Numeric → Json
  fromJsonLength : String → Except String ℕ
  isLiteral_quote : ∀ s, IsLiteral (quote s) (codePoints s)
  parse_number : ∀ x, parse (number x) = some (numberValue x)
  isScalar_number : ∀ x, (numberValue x).isScalar
  fromJsonLength_object : ∀ s ms, parse s.toList = some (.object ms) →
    fromJsonLength s = .ok ms.length

/-- Every text of a value is valid, characters are escaped where they have to be, and the numbers
are zero and one. -/
def Jsonlite.ofBits : Jsonlite where
  validate s := (parse s.toList).isSome
  quote s := '"' :: (escape s.toList ++ ['"'])
  number x := if x = .real 1 then ['1'] else ['0']
  numberValue x := .number (if x = .real 1 then ['1'] else ['0'])
  fromJsonLength s :=
    match parse s.toList with
    | none => .error "parse error"
    | some (.object ms) => .ok ms.length
    | some _ => .ok 1
  isLiteral_quote s := ⟨_, rfl, stringBody_escape s.toList⟩
  parse_number x := by split_ifs <;> rfl
  isScalar_number x := by split_ifs <;> rfl
  fromJsonLength_object s ms h := by rw [h]

/-- `toJSON` of a list with these names, whose elements have these texts. A string of class `json`
is its own text. -/
def Jsonlite.toJSON (j : Jsonlite) (fields : List (String × List Char)) : String :=
  String.ofList (objectText (fields.map fun f => (j.quote f.1, f.2)))

/-- `toJSON` of a logical; `none` is `NA`. -/
def logicalText : Option Bool → List Char
  | some true => ['t', 'r', 'u', 'e']
  | some false => ['f', 'a', 'l', 's', 'e']
  | none => ['n', 'u', 'l', 'l']

def logicalValue : Option Bool → Json
  | some b => .bool b
  | none => .null

/-- `bson_or_json` of a string; `read` is `bson_new_from_json`. -/
def bsonOrJson (j : Jsonlite) (read : String → Except String δ) (x : String) :
    Except String δ :=
  if j.validate x then read x
  else .error ("Invalid JSON object: " ++ String.ofList (x.toList.take 200))

structure FindArgs where
  query : String
  sort : String
  fields : String
  skip : Numeric
  limit : Numeric
  noTimeout : Option Bool

def findFields (j : Jsonlite) (args : FindArgs) : List (String × List Char) :=
  [("projection", args.fields.toList), ("sort", args.sort.toList),
    ("skip", j.number args.skip), ("limit", j.number args.limit),
    ("noCursorTimeout", logicalText args.noTimeout)]

def findOpts (j : Jsonlite) (args : FindArgs) : String := j.toJSON (findFields j args)

/-- `mongo_collection_find`: the filter and the options that are sent. -/
def mongoCollectionFind (j : Jsonlite) (read : String → Except String δ) (args : FindArgs) :
    Except String (δ × δ) :=
  match bsonOrJson j read args.query with
  | .error e => .error e
  | .ok filter => (bsonOrJson j read (findOpts j args)).map fun opts => (filter, opts)

theorem parse_toJSON (j : Jsonlite) (fields : List (String × List Char))
    (ms : List (String × Json))
    (h : List.Forall₂ (fun f m => f.1 = m.1 ∧ parse f.2 = some m.2) fields ms) :
    parse (j.toJSON fields).toList = some (.object (ms.map fun m => (codePoints m.1, m.2))) := by
  rw [Jsonlite.toJSON, String.toList_ofList]
  refine parse_objectText (List.forall₂_map_left_iff.mpr (List.forall₂_map_right_iff.mpr ?_))
  refine h.imp ?_
  rintro ⟨name, text⟩ ⟨_, v⟩ ⟨rfl, hv⟩
  exact ⟨j.isLiteral_quote name, hv⟩

theorem parse_quote (j : Jsonlite) (s : String) :
    parse (j.quote s) = some (.string (codePoints s)) :=
  parse_of_isLiteral (j.isLiteral_quote s)

theorem parse_logicalText (x : Option Bool) : parse (logicalText x) = some (logicalValue x) := by
  rcases x with _ | _ | _ <;> rfl

/-- The string is a JSON value by itself. -/
def IsValue (s : String) : Prop := ∃ v, parse s.toList = some v

theorem parse_findOpts {j : Jsonlite} {args : FindArgs} {projection sort : Json}
    (hprojection : parse args.fields.toList = some projection)
    (hsort : parse args.sort.toList = some sort) :
    parse (findOpts j args).toList = some (.object [(codePoints "projection", projection),
      (codePoints "sort", sort), (codePoints "skip", j.numberValue args.skip),
      (codePoints "limit", j.numberValue args.limit),
      (codePoints "noCursorTimeout", logicalValue args.noTimeout)]) :=
  parse_toJSON j (findFields j args) [("projection", projection), ("sort", sort),
    ("skip", j.numberValue args.skip), ("limit", j.numberValue args.limit),
    ("noCursorTimeout", logicalValue args.noTimeout)]
    (.cons ⟨rfl, hprojection⟩ (.cons ⟨rfl, hsort⟩ (.cons ⟨rfl, j.parse_number args.skip⟩
      (.cons ⟨rfl, j.parse_number args.limit⟩ (.cons ⟨rfl, parse_logicalText args.noTimeout⟩
        .nil)))))

theorem read_of_bsonOrJson {j : Jsonlite} {read : String → Except String δ} {x : String}
    {d : δ} (h : bsonOrJson j read x = .ok d) : read x = .ok d := by
  unfold bsonOrJson at h
  split_ifs at h
  exact h

end Mongolite
