import Mongolite.Requests.Shape

/-! # The selection of a query

`mongo_collection_find` and `mongo_collection_mapreduce` send a query, a sort and
a limit, each in a request of its own. `mapreduce` copies the query as it is, but
writes the sort as an ordinary string.
-/

namespace Mongolite

open Json

variable {β : Type} {j : Jsonlite} {r : BsonJsonReader β}

/-- An R value, with the text that `toJSON` gives it and the value that this stands for. -/
structure Encoded where
  text : List Char
  value : Json
  parse_text : parse text = some value

/-- The arguments of `mongo_collection_mapreduce`; `none` is `NULL`. -/
structure MapReduceArgs where
  map : Encoded
  reduce : Encoded
  query : String
  sort : String
  limit : Option Numeric
  out : Option Encoded
  scope : Encoded

def inlineList (j : Jsonlite) : Encoded where
  text := objectText [(j.quote "inline", j.number (.real 1))]
  value := .object [(codePoints "inline", j.numberValue (.real 1))]
  parse_text := parse_objectText (.cons ⟨j.isLiteral_quote _, j.parse_number _⟩ .nil)

/-- `cmd$limit`, where that is set. -/
def limitField (j : Jsonlite) : Option Numeric → Except String (List (String × List Char))
  | none => .ok []
  | some limit =>
    match limit.exceeds 0 with
    | none => .error "missing value where TRUE/FALSE needed"
    | some true => .ok [("limit", j.number limit)]
    | some false => .ok []

/-- `cmd$sort`, where that is set: an ordinary string. -/
def sortField (j : Jsonlite) (sort : String) : Except String (List (String × List Char)) :=
  (j.fromJsonLength sort).map fun n => if n = 0 then [] else [("sort", j.quote sort)]

def mapreduceFields (j : Jsonlite) (name : String) (args : MapReduceArgs) :
    List (String × List Char) :=
  [("mapreduce", j.quote name), ("map", args.map.text), ("reduce", args.reduce.text),
    ("query", args.query.toList), ("out", (args.out.getD (inlineList j)).text),
    ("scope", args.scope.text)]

/-- `mongo_collection_mapreduce`: the command that is sent. -/
def mongoCollectionMapreduce (j : Jsonlite) (r : BsonJsonReader β) (name : String)
    (args : MapReduceArgs) : Except String (BsonFields β) :=
  match limitField j args.limit, sortField j args.sort with
  | .error e, _ => .error e
  | .ok _, .error e => .error e
  | .ok limit, .ok sort =>
    bsonOrJson j r.bsonNewFromJson (j.toJSON (mapreduceFields j name args ++ limit ++ sort))

/-- The command selects what the filter and the options of `find` select. -/
structure SameSelection (r : BsonJsonReader β) (sorts : Bool) (filter opts cmd : BsonFields β) :
    Prop where
  query : cmd.lookup (codePoints "query") = some (r.document filter)
  sort : cmd.lookup (codePoints "sort") = if sorts then opts.lookup (codePoints "sort") else none
  limit : cmd.lookup (codePoints "limit") = opts.lookup (codePoints "limit")

theorem lookup_members {ms : List (List ℕ × Json)} {fields : BsonFields β} (key : List ℕ)
    (v : Json) (h : r.members ms = .ok fields) (hv : ms.lookup key = some v) :
    ∃ b, r.value v = .ok b ∧ fields.lookup key = some b := by
  induction ms generalizing fields with
  | nil => cases hv
  | cons m ms ih =>
    obtain ⟨k, w⟩ := m
    obtain ⟨-, b, rest, hw, hms, rfl⟩ := BsonJsonReader.members_cons h
    by_cases hkey : key = k
    · subst hkey
      simp only [List.lookup_cons_self, Option.some.injEq] at hv ⊢
      exact ⟨b, by rw [← hv, hw], rfl⟩
    · have hbeq : (key == k) = false := by simpa using hkey
      rw [List.lookup_cons, hbeq] at hv ⊢
      exact ih hms hv

theorem lookup_members_none {ms : List (List ℕ × Json)} {fields : BsonFields β} (key : List ℕ)
    (h : r.members ms = .ok fields) (hv : ms.lookup key = none) :
    fields.lookup key = none := by
  induction ms generalizing fields with
  | nil =>
    cases h
    rfl
  | cons m ms ih =>
    obtain ⟨k, w⟩ := m
    obtain ⟨-, b, rest, -, hms, rfl⟩ := BsonJsonReader.members_cons h
    by_cases hkey : key = k
    · subst hkey
      simp at hv
    · have hbeq : (key == k) = false := by simpa using hkey
      rw [List.lookup_cons, hbeq] at hv ⊢
      exact ih hms hv

theorem members_of_bsonOrJson {x : String} {d : BsonFields β} {ms : List (List ℕ × Json)}
    (h : bsonOrJson j r.bsonNewFromJson x = .ok d) (hparse : parse x.toList = some (.object ms)) :
    r.members ms = .ok d := by
  have hread := read_of_bsonOrJson h
  rw [BsonJsonReader.bsonNewFromJson, hparse] at hread
  dsimp only at hread
  split_ifs at hread
  exact hread

/-- An embedded object is the document of its members, or else extended JSON. -/
theorem value_object_iff {ms : List (List ℕ × Json)} {d : BsonFields β} {b : β}
    (hd : r.members ms = .ok d) (hb : r.value (.object ms) = .ok b) :
    b = r.document d ↔ opensExtended ms = false ∨ r.ofExtended ms = .ok (r.document d) := by
  rw [BsonJsonReader.value, hd] at hb
  split_ifs at hb with hext
  · simp [hext, hb]
  · cases hb
    simp [hext]

theorem value_object_ne_value_string {ms : List (List ℕ × Json)} {s : List ℕ} {b : β}
    (hb : r.value (.object ms) = .ok b) : r.value (.string s) ≠ .ok b := by
  intro hs
  simp only [BsonJsonReader.value] at hb hs
  split_ifs at hb with hext
  · exact r.string_ne_extended s b ms hs hb
  · cases hms : r.members ms with
    | error e => simp [hms, Except.map] at hb
    | ok d =>
      simp only [hms, Except.map, Except.ok.injEq] at hb
      exact r.string_ne_document s b d hs hb

theorem find_selects {find : FindArgs} {opts : BsonFields β} {ss : List (List ℕ × Json)}
    (h : bsonOrJson j r.bsonNewFromJson (findOpts j find) = .ok opts)
    (hfields : IsValue find.fields)
    (hsort : parse find.sort.toList = some (.object ss)) :
    ∃ b c, r.value (.object ss) = .ok b ∧ opts.lookup (codePoints "sort") = some b ∧
      r.value (j.numberValue find.limit) = .ok c ∧ opts.lookup (codePoints "limit") = some c := by
  obtain ⟨projection, hprojection⟩ := hfields
  have hmembers := members_of_bsonOrJson h (parse_findOpts hprojection hsort)
  obtain ⟨b, hb, hsort⟩ := lookup_members (codePoints "sort") (.object ss) hmembers rfl
  obtain ⟨c, hc, hlimit⟩ :=
    lookup_members (codePoints "limit") (j.numberValue find.limit) hmembers rfl
  exact ⟨b, c, hb, hsort, hc, hlimit⟩

/-- The members that `mapreduce` encodes, of which the last is there when something sorts. -/
def mapreduceMembers (j : Jsonlite) (name : String) (args : MapReduceArgs) (limit : Numeric)
    (qs ss : List (List ℕ × Json)) : List (String × Json) :=
  [("mapreduce", .string (codePoints name)), ("map", args.map.value),
    ("reduce", args.reduce.value), ("query", .object qs),
    ("out", (args.out.getD (inlineList j)).value), ("scope", args.scope.value),
    ("limit", j.numberValue limit)] ++
      if ss.length = 0 then [] else [("sort", .string (codePoints args.sort))]

theorem lookup_mapreduceMembers_query (j : Jsonlite) (name : String) (args : MapReduceArgs)
    (limit : Numeric) (qs ss : List (List ℕ × Json)) :
    ((mapreduceMembers j name args limit qs ss).map fun m => (codePoints m.1, m.2)).lookup
      (codePoints "query") = some (.object qs) := by
  simp only [mapreduceMembers, List.cons_append, List.map_cons]
  rfl

theorem lookup_mapreduceMembers_limit (j : Jsonlite) (name : String) (args : MapReduceArgs)
    (limit : Numeric) (qs ss : List (List ℕ × Json)) :
    ((mapreduceMembers j name args limit qs ss).map fun m => (codePoints m.1, m.2)).lookup
      (codePoints "limit") = some (j.numberValue limit) := by
  simp only [mapreduceMembers, List.cons_append, List.map_cons]
  rfl

theorem lookup_mapreduceMembers_sort (j : Jsonlite) (name : String) (args : MapReduceArgs)
    (limit : Numeric) (qs ss : List (List ℕ × Json)) :
    ((mapreduceMembers j name args limit qs ss).map fun m => (codePoints m.1, m.2)).lookup
      (codePoints "sort") =
        if ss.length = 0 then none else some (.string (codePoints args.sort)) := by
  simp only [mapreduceMembers, List.cons_append, List.map_cons]
  split_ifs
  · rfl
  · simp only [List.nil_append, List.map_cons, List.map_nil]
    rfl

theorem mapreduce_members {name : String} {args : MapReduceArgs} {limit : Numeric}
    {cmd : BsonFields β} {qs ss : List (List ℕ × Json)}
    (h : mongoCollectionMapreduce j r name args = .ok cmd)
    (hlimit : args.limit = some limit) (hpositive : limit.exceeds 0 = some true)
    (hquery : parse args.query.toList = some (.object qs))
    (hsort : parse args.sort.toList = some (.object ss)) :
    r.members ((mapreduceMembers j name args limit qs ss).map fun m => (codePoints m.1, m.2)) =
      .ok cmd := by
  rw [mongoCollectionMapreduce, hlimit] at h
  simp only [limitField, hpositive, sortField, j.fromJsonLength_object _ _ hsort,
    Except.map] at h
  refine members_of_bsonOrJson h (parse_toJSON j _ _ ?_)
  have hfixed : List.Forall₂ (fun f m => f.1 = m.1 ∧ parse f.2 = some m.2)
      (mapreduceFields j name args ++ [("limit", j.number limit)])
      [("mapreduce", .string (codePoints name)), ("map", args.map.value),
        ("reduce", args.reduce.value), ("query", .object qs),
        ("out", (args.out.getD (inlineList j)).value), ("scope", args.scope.value),
        ("limit", j.numberValue limit)] :=
    .cons ⟨rfl, parse_quote j name⟩ (.cons ⟨rfl, args.map.parse_text⟩
      (.cons ⟨rfl, args.reduce.parse_text⟩ (.cons ⟨rfl, hquery⟩
        (.cons ⟨rfl, (args.out.getD (inlineList j)).parse_text⟩
          (.cons ⟨rfl, args.scope.parse_text⟩ (.cons ⟨rfl, j.parse_number limit⟩ .nil))))))
  refine List.rel_append hfixed ?_
  split_ifs
  · exact .nil
  · exact .cons ⟨rfl, parse_quote j args.sort⟩ .nil

/-- The command sorts as `find` does iff nothing sorts. -/
theorem lookup_sort_iff {name : String} {args : MapReduceArgs} {limit : Numeric}
    {opts cmd : BsonFields β} {qs ss : List (List ℕ × Json)} {s : β}
    (hmembers : r.members ((mapreduceMembers j name args limit qs ss).map
      fun m => (codePoints m.1, m.2)) = .ok cmd)
    (hs : r.value (.object ss) = .ok s) (hopts : opts.lookup (codePoints "sort") = some s) :
    cmd.lookup (codePoints "sort") =
      (if ss ≠ [] then opts.lookup (codePoints "sort") else none) ↔ ss = [] := by
  have hkey := lookup_mapreduceMembers_sort j name args limit qs ss
  rcases eq_or_ne ss [] with rfl | hne
  · simp [lookup_members_none _ hmembers hkey]
  · -- the text of the sort is a string, and no object is read as one
    rw [if_neg (by simpa using hne)] at hkey
    obtain ⟨b, hb, hlookup⟩ := lookup_members _ _ hmembers hkey
    rw [if_pos hne, hlookup, hopts, Option.some.injEq]
    refine ⟨?_, fun h => absurd h hne⟩
    rintro rfl
    exact absurd hb (value_object_ne_value_string hs)

/-- The command has the selection of `find` iff nothing sorts and the query is the same document
inside a command, where its first key may be that of a type. -/
theorem sameSelection_iff {name : String} {args : MapReduceArgs} {find : FindArgs}
    {filter opts cmd : BsonFields β} {qs ss : List (List ℕ × Json)}
    (hmapreduce : mongoCollectionMapreduce j r name { args with
      query := find.query, sort := find.sort, limit := some find.limit } = .ok cmd)
    (hfind : mongoCollectionFind j r.bsonNewFromJson find = .ok (filter, opts))
    (hquery : parse find.query.toList = some (.object qs))
    (hsort : parse find.sort.toList = some (.object ss)) (hfields : IsValue find.fields)
    (hlimit : find.limit.exceeds 0 = some true) :
    SameSelection r (ss ≠ []) filter opts cmd ↔
      ss = [] ∧ (opensExtended qs = false ∨ r.ofExtended qs = .ok (r.document filter)) := by
  obtain ⟨hfilter, hopts⟩ := find_cases hfind
  obtain ⟨s, l, hs, hsLookup, hl, hlLookup⟩ := find_selects hopts hfields hsort
  have hmembers := mapreduce_members hmapreduce rfl hlimit hquery hsort
  obtain ⟨q, hq, hqLookup⟩ := lookup_members _ _ hmembers (lookup_mapreduceMembers_query ..)
  obtain ⟨l', hl', hlLookup'⟩ := lookup_members _ _ hmembers (lookup_mapreduceMembers_limit ..)
  have hsame : q = r.document filter ↔ _ :=
    value_object_iff (members_of_bsonOrJson hfilter hquery) hq
  have hsortSame := lookup_sort_iff hmembers hs hsLookup
  rw [← hsame]
  constructor
  · rintro ⟨hsameQuery, hsameSort, -⟩
    rw [hqLookup, Option.some.injEq] at hsameQuery
    exact ⟨hsortSame.mp (by simpa using hsameSort), hsameQuery⟩
  · rintro ⟨hunsorted, rfl⟩
    refine ⟨hqLookup, by simpa using hsortSame.mpr hunsorted, ?_⟩
    rw [hlLookup', hlLookup, ← Except.ok.inj (hl.symm.trans hl')]

theorem parse_empty : parse "\x7b\x7d".toList = some (.object []) := parse_objectText .nil

/-- `NULL` in a list. -/
def nullEncoded : Encoded := ⟨['\x7b', '\x7d'], .object [], parse_empty⟩

def stringEncoded (j : Jsonlite) (s : String) : Encoded :=
  ⟨j.quote s, .string (codePoints s), parse_quote j s⟩

def emptyMapReduce : MapReduceArgs where
  map := stringEncoded .ofBits "function() \x7bemit(1, 1)\x7d"
  reduce := stringEncoded .ofBits "function(k, v) \x7breturn v[0]\x7d"
  query := "\x7b\x7d"
  sort := "\x7b\x7d"
  limit := none
  out := none
  scope := nullEncoded

def sortedFind (sort : String) : FindArgs where
  query := "\x7b\x7d"
  sort := sort
  fields := "\x7b\x7d"
  skip := .real 0
  limit := .real 1
  noTimeout := some false

theorem parse_ascending : parse "\x7b\"a\":1\x7d".toList =
    some (.object [(codePoints "a", .number ['1'])]) := by
  have htext : "\x7b\"a\":1\x7d".toList = objectText [("\"a\"".toList, ['1'])] := by decide
  have hname : IsLiteral "\"a\"".toList (codePoints "a") :=
    ⟨['a'], rfl, stringBody_of_all (by decide)⟩
  have hvalue : parse ['1'] = some (.number ['1']) := rfl
  rw [htext]
  exact parse_objectText (.cons ⟨hname, hvalue⟩ .nil)

/-- Two calls that do not sort have the same selection. -/
theorem sameSelection_unsorted : ∃ filter opts cmd,
    mongoCollectionMapreduce .ofBits .ofValues "c" { emptyMapReduce with
      query := "\x7b\x7d", sort := "\x7b\x7d", limit := some (.real 1) } = .ok cmd ∧
    mongoCollectionFind .ofBits BsonJsonReader.ofValues.bsonNewFromJson
      (sortedFind "\x7b\x7d") = .ok (filter, opts) ∧
    SameSelection .ofValues false filter opts cmd := by
  obtain ⟨cmd, hcmd⟩ := exists_ok (x := mongoCollectionMapreduce .ofBits .ofValues "c"
    { emptyMapReduce with query := "\x7b\x7d", sort := "\x7b\x7d", limit := some (.real 1) })
    (by decide +kernel)
  obtain ⟨⟨filter, opts⟩, hfind⟩ := exists_ok
    (x := mongoCollectionFind .ofBits BsonJsonReader.ofValues.bsonNewFromJson
      (sortedFind "\x7b\x7d")) (by decide +kernel)
  refine ⟨filter, opts, cmd, hcmd, hfind, ?_⟩
  refine (@sameSelection_iff _ .ofBits .ofValues "c" emptyMapReduce (sortedFind "\x7b\x7d") filter
    opts cmd [] [] hcmd hfind parse_empty parse_empty ⟨_, parse_empty⟩ ?_).mpr ⟨rfl, .inl rfl⟩
  decide

/-- With a sort, the command holds its text where the options of `find` hold a document. -/
theorem not_sameSelection_sorted : ∃ filter opts cmd,
    mongoCollectionMapreduce .ofBits .ofValues "c" { emptyMapReduce with
      query := "\x7b\x7d", sort := "\x7b\"a\":1\x7d", limit := some (.real 1) } = .ok cmd ∧
    mongoCollectionFind .ofBits BsonJsonReader.ofValues.bsonNewFromJson
      (sortedFind "\x7b\"a\":1\x7d") = .ok (filter, opts) ∧
    ¬ SameSelection .ofValues true filter opts cmd := by
  obtain ⟨cmd, hcmd⟩ := exists_ok (x := mongoCollectionMapreduce .ofBits .ofValues "c"
    { emptyMapReduce with
      query := "\x7b\x7d", sort := "\x7b\"a\":1\x7d", limit := some (.real 1) })
    (by decide +kernel)
  obtain ⟨⟨filter, opts⟩, hfind⟩ := exists_ok
    (x := mongoCollectionFind .ofBits BsonJsonReader.ofValues.bsonNewFromJson
      (sortedFind "\x7b\"a\":1\x7d"))
    (by decide +kernel)
  refine ⟨filter, opts, cmd, hcmd, hfind, ?_⟩
  obtain ⟨s, l, hs, hsLookup, -⟩ :=
    find_selects (find_cases hfind).2 ⟨_, parse_empty⟩ parse_ascending
  have hmembers := mapreduce_members hcmd rfl (by decide) parse_empty parse_ascending
  intro hsame
  exact List.cons_ne_nil _ _ ((lookup_sort_iff hmembers hs hsLookup).mp hsame.sort)

end Mongolite
