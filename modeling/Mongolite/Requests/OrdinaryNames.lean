import Mongolite.GridFS.Names
import Mongolite.Requests.Shape

/-! # Names that look like names

A name without a space, a tab or a brace is taken as one unless it happens to be
valid JSON, as a number or a word in quotes is. As a field to index it must not
be empty either, because jsonlite makes a name of its own then, and a file is
found by it unless an older one has the same name.
-/

namespace Mongolite

open Json

variable {δ : Type} {j : Jsonlite} {r : DocumentReader} {read : String → Except String δ}
  {queryMatches : String → FileDoc → Bool} {s : GridServer} {x : String}

/-- `cleannames` of a list of one element: an empty name is replaced. -/
def cleannames (name : String) : String := if name = "" then "1" else name

/-- `mongo_collection_create_index`: the key document that is sent. -/
def mongoCollectionCreateIndex (j : Jsonlite) (read : String → Except String δ) (field : String) :
    Except String δ :=
  if ¬ j.validate field then
    if field.toList.any fun c => c ∈ ['\x7b', '\x7d'] then
      .error "Index is not valid json or field name."
    else bsonOrJson j read (j.toJSON [(cleannames field, j.number (.real 1))])
  else bsonOrJson j read field

/-- A string of R with no space, tab or brace that does not start with `id:`. -/
structure OrdinaryName (x : String) : Prop where
  not_mem : ∀ c ∈ [' ', '\t', '\x7b', '\x7d'], c ∉ x.toList
  not_id : "id:".toList.isPrefixOf x.toList = false
  noNul : 0 ∉ codePoints x

theorem OrdinaryName.of_all (h : x.toList.all fun c => c ∉ ['\x00', ' ', '\t', '\x7b', '\x7d'])
    (hid : "id:".toList.isPrefixOf x.toList = false) : OrdinaryName x where
  not_mem c hmem hc :=
    of_decide_eq_true (List.all_eq_true.mp h c hc) (List.mem_cons_of_mem _ hmem)
  not_id := hid
  noNul := by
    rintro hnul
    obtain ⟨c, hc, hzero⟩ := List.mem_map.mp hnul
    obtain rfl : c = '\x00' := Char.toNat_inj.mp hzero
    exact of_decide_eq_true (List.all_eq_true.mp h _ hc) List.mem_cons_self

/-- On this server a name is taken as a name: a file stored under it is found by it, no file of
another name ever is, and its index has it as the only key, with the value one. -/
structure TakenAsName (j : Jsonlite) (r : DocumentReader)
    (queryMatches : String → FileDoc → Bool) (s : GridServer) (x : String) : Prop where
  name : nameRequest j r.bsonNewFromJson x = .ok (.inl x)
  uploaded : ∀ fate id uploadDate args doc s', args.name = x →
    rMongoGridfsUpload fate id uploadDate args s = some (.ok doc, s') →
      FoundUnder j.validate queryMatches s' x id
  written : ∀ fate id uploadDate args result doc, args.name = x →
    mongoGridfsWriteStream fate id uploadDate args s = some result → result.outcome = .ok doc →
      FoundUnder j.validate queryMatches result.server x id
  only : ∀ s' f, lookUp j.validate queryMatches s' x = .ok f → f.doc.filename = some x
  index : mongoCollectionCreateIndex j r.bsonNewFromJson x = .ok [(x, .ofInt32 1)]

theorem nameOrQuery_ordinary (validate : String → Bool) (hx : OrdinaryName x) :
    nameOrQuery validate x = .ok (if validate x then .query x else .name x) := by
  delta nameOrQuery
  simp only [hx.not_id, Bool.false_eq_true, if_false]
  split_ifs with hvalid hblank
  · rfl
  · obtain ⟨c, hc, hmem⟩ := List.any_eq_true.mp hblank
    refine absurd hc (hx.not_mem c ?_)
    simp only [List.mem_cons, List.not_mem_nil, or_false, decide_eq_true_eq] at hmem ⊢
    tauto
  · rfl

theorem nameRequest_ordinary_iff (hx : OrdinaryName x) :
    nameRequest j read x = .ok (.inl x) ↔ j.validate x = false := by
  rw [nameRequest, nameOrQuery_ordinary j.validate hx]
  cases hvalid : j.validate x with
  | false => exact iff_of_true rfl rfl
  | true =>
    refine iff_of_false ?_ Bool.noConfusion
    intro h
    cases hread : bsonOrJson j read x with
    | error e => simp [hread, Except.map] at h
    | ok d => simp [hread, Except.map] at h

theorem createIndex_ordinary (hx : OrdinaryName x) (hinvalid : j.validate x = false)
    (hjson : ∀ name, j.validate (j.toJSON [(name, j.number (.real 1))]) = true)
    (hone : j.numberValue (.real 1) = .number ['1']) :
    mongoCollectionCreateIndex j r.bsonNewFromJson x = .ok [(cleannames x, .ofInt32 1)] := by
  have hbraces : ¬ (x.toList.any fun c => c ∈ ['\x7b', '\x7d']) = true := by
    intro h
    obtain ⟨c, hc, hmem⟩ := List.any_eq_true.mp h
    refine hx.not_mem c ?_ hc
    simp only [List.mem_cons, List.not_mem_nil, or_false, decide_eq_true_eq] at hmem ⊢
    tauto
  have hparse := parse_toJSON j [(cleannames x, j.number (.real 1))]
    [(cleannames x, j.numberValue (.real 1))] (.cons ⟨rfl, j.parse_number _⟩ .nil)
  rw [hone] at hparse
  have hnul : '\x00' ∉ (cleannames x).toList := by
    rw [cleannames]
    split_ifs
    · decide
    · exact fun hmem => hx.noNul (List.mem_map_of_mem hmem)
  rw [mongoCollectionCreateIndex, hinvalid, if_pos Bool.false_ne_true, if_neg hbraces,
    bsonOrJson, hjson, if_pos rfl]
  exact DocumentReader.read_one hparse hnul

theorem TakenAsName.ne_empty (h : TakenAsName j r queryMatches s x) (hx : OrdinaryName x)
    (hjson : ∀ name, j.validate (j.toJSON [(name, j.number (.real 1))]) = true)
    (hone : j.numberValue (.real 1) = .number ['1']) : x ≠ "" := by
  rintro rfl
  have hindex := h.index
  rw [createIndex_ordinary hx ((nameRequest_ordinary_iff hx).mp h.name) hjson hone] at hindex
  have hkey : cleannames "" = "" :=
    congrArg Prod.fst (List.cons.inj (Except.ok.inj hindex)).1
  exact absurd hkey (by decide)

theorem TakenAsName.no_older (h : TakenAsName j r queryMatches s x)
    (hname : nameOrQuery j.validate x = .ok (.name x)) : ∀ d ∈ s.files, d.filename ≠ some x := by
  intro d hd hfilename
  obtain ⟨id, result, doc, hrun, hok, hnot⟩ :=
    not_foundUnder_of_older queryMatches hname hd hfilename
  exact hnot (h.written _ id 0 (emptyFile x) result doc rfl hrun hok)

/-- An ordinary name is taken as a name iff it is not valid JSON, not empty and not that of an
older file. -/
theorem takenAsName_iff (hx : OrdinaryName x)
    (hjson : ∀ name, j.validate (j.toJSON [(name, j.number (.real 1))]) = true)
    (hone : j.numberValue (.real 1) = .number ['1']) :
    TakenAsName j r queryMatches s x ↔
      j.validate x = false ∧ x ≠ "" ∧ ∀ d ∈ s.files, d.filename ≠ some x := by
  have hname (hinvalid : j.validate x = false) : nameOrQuery j.validate x = .ok (.name x) := by
    rw [nameOrQuery_ordinary j.validate hx, hinvalid]
    rfl
  constructor
  · intro h
    have hinvalid := (nameRequest_ordinary_iff hx).mp h.name
    exact ⟨hinvalid, h.ne_empty hx hjson hone, h.no_older (hname hinvalid)⟩
  · rintro ⟨hinvalid, hne, hold⟩
    constructor
    · exact (nameRequest_ordinary_iff hx).mpr hinvalid
    · rintro fate id uploadDate args doc s' rfl hrun
      exact (storedAs_of_upload hrun).foundUnder (hname hinvalid) hold
    · rintro fate id uploadDate args result doc rfl hrun hok
      exact (storedAs_of_write hrun hok).foundUnder (hname hinvalid) hold
    · exact fun s' f hfind => filename_of_lookUp (hname hinvalid) hfind
    · rw [createIndex_ordinary hx hinvalid hjson hone, cleannames, if_neg hne]

theorem ofBits_validate {text : String} {v : Json} (h : parse text.toList = some v) :
    Jsonlite.ofBits.validate text = true := by
  change (parse text.toList).isSome = true
  rw [h]
  rfl

theorem ofBits_validate_toJSON (name : String) :
    Jsonlite.ofBits.validate (Jsonlite.ofBits.toJSON [(name, Jsonlite.ofBits.number (.real 1))]) =
      true :=
  ofBits_validate (parse_toJSON .ofBits [(name, Jsonlite.ofBits.number (.real 1))]
    [(name, Jsonlite.ofBits.numberValue (.real 1))]
    (.cons ⟨rfl, Jsonlite.ofBits.parse_number (.real 1)⟩ .nil))

/-- A server with a file of another name. -/
def notesServer : GridServer := ⟨fun _ _ => none, [⟨1, 0, 1, 0, some "notes.txt", none, none⟩], 0⟩

theorem takenAsName_file :
    TakenAsName .ofBits .ofObjectIds (fun _ _ => false) notesServer "data.csv" :=
  (takenAsName_iff (.of_all (by decide) (by decide)) ofBits_validate_toJSON rfl).mpr
    ⟨by decide +kernel, by decide, by decide⟩

/-- Numbers, words, quoted names, bracketed numbers and the empty name are no names. -/
theorem not_takenAsName_json :
    ["123", "true", "null", "\"word\"", "[1]", ""].Forall fun x => OrdinaryName x ∧
      ¬ TakenAsName .ofBits .ofObjectIds (fun _ _ => false) notesServer x := by
  have hordinary : ∀ x ∈ ["123", "true", "null", "\"word\"", "[1]", ""], OrdinaryName x := by
    intro x hx
    simp only [List.mem_cons, List.not_mem_nil, or_false] at hx
    rcases hx with rfl | rfl | rfl | rfl | rfl | rfl
    all_goals exact .of_all (by decide) (by decide)
  have hvalid : ∀ x ∈ ["123", "true", "null", "\"word\"", "[1]"],
      Jsonlite.ofBits.validate x = true := by decide +kernel
  rw [List.forall_iff_forall_mem]
  intro x hmem
  have hx := hordinary x hmem
  refine ⟨hx, fun h => ?_⟩
  have hinvalid := (nameRequest_ordinary_iff hx).mp h.name
  simp only [List.mem_cons, List.not_mem_nil, or_false] at hmem
  rcases hmem with rfl | rfl | rfl | rfl | rfl | rfl
  case inr.inr.inr.inr.inr => exact h.ne_empty hx ofBits_validate_toJSON rfl rfl
  all_goals
    rw [hvalid _ (by decide)] at hinvalid
    cases hinvalid

end Mongolite
