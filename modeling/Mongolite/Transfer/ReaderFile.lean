import Mongolite.Bson.Reading

/-! # Reading a file of documents

`R_bson_reader_file` goes through the file twice: it counts the documents, then
opens the file again and converts as many.
-/

namespace Mongolite

variable {β : Type} {ok : ℕ → Prop} {read : ReadFunc} {r : BsonReader} {toR : Bson → β}
  {ds : List Bson} {t bs : List UInt8} {fuel len : ℕ}

/-- The counting pass; `none` means that it did not end within `fuel` rounds. -/
def countDocuments (read : ReadFunc) : ℕ → ℕ → BsonReader → Option (Except String ℕ)
  | 0, _, _ => none
  | fuel + 1, len, r =>
    andThen (bsonReaderRead read r) fun res =>
      if res.reachedEof then some (.ok len)
      else if res.doc.isNone then some (.error "Failed to read all documents")
      else countDocuments read fuel (len + 1) res.reader

/-- The reading pass, over as many documents as were counted. -/
def convertDocuments (read : ReadFunc) (toR : Bson → β) :
    ℕ → BsonReader → Option (Except String (List β))
  | 0, _ => some (.ok [])
  | len + 1, r =>
    andThen (bsonReaderRead read r) fun res =>
      if res.reachedEof then some (.error "Failed to read all documents")
      else
        match res.doc with
        | none => some (.error "Failed to read all documents")
        | some doc =>
          andThen (convertDocuments read toR len res.reader) fun out => some (.ok (toR doc :: out))

/-- `R_bson_reader_file` on a path that cannot be opened or holds these bytes, which the two passes
may read in different pieces. -/
def rBsonReaderFile (toR : Bson → β) (file : Except String (List UInt8)) (ready ready' : ℕ → ℕ) :
    Option (Except String (List β)) :=
  match file with
  | .error e => some (.error ("Error opening file: " ++ e))
  | .ok bytes =>
    andThen (some (bsonReaderNewFromHandle bsonReaderHandleFdRead ⟨bytes, ready, 0⟩)) fun reader =>
      andThen (countDocuments bsonReaderHandleFdRead (bytes.length + 1) 0 reader) fun len =>
        andThen (some (bsonReaderNewFromHandle bsonReaderHandleFdRead ⟨bytes, ready', 0⟩))
          (convertDocuments bsonReaderHandleFdRead toR len)

theorem countDocuments_spec (hread : Delivers read ok) (h : Holds ok False r ds t)
    (hfuel : ds.length < fuel) :
    countDocuments read fuel len r =
      some (if reportsEnd t then .ok (len + ds.length)
        else .error "Failed to read all documents") := by
  induction fuel generalizing r ds len with
  | zero => exact absurd hfuel (Nat.not_lt_zero _)
  | succ fuel ih =>
    rw [countDocuments]
    cases ds with
    | nil =>
      rcases read_rest hread h with ⟨hfalse, -⟩ | ⟨r', heq, -⟩
      · exact hfalse.elim
      · rw [heq, andThen_ok]
        cases reportsEnd t <;> simp
    | cons d ds =>
      rcases read_document hread h with ⟨hfalse, -⟩ | ⟨r', heq, hr'⟩
      · exact hfalse.elim
      · rw [heq, andThen_ok]
        simp only [Bool.false_eq_true, if_false, Option.isNone_some]
        rw [ih hr' (Nat.lt_of_succ_lt_succ hfuel), List.length_cons, Nat.add_assoc,
          Nat.add_comm 1]

theorem convertDocuments_spec (hread : Delivers read ok) (h : Holds ok False r ds t) :
    convertDocuments read toR ds.length r = some (.ok (ds.map toR)) := by
  induction ds generalizing r with
  | nil => rfl
  | cons d ds ih =>
    rw [List.length_cons, convertDocuments]
    rcases read_document hread h with ⟨hfalse, -⟩ | ⟨r', heq, hr'⟩
    · exact hfalse.elim
    · rw [heq, andThen_ok]
      simp only [Bool.false_eq_true, if_false]
      rw [ih hr', andThen_ok, List.map_cons]

theorem roomy_fdRead (h : bs.length < 2 ^ 31 ∨ Moderate bs) :
    Roomy (fun _ => True) False bs 1024 := by
  rcases h with hshort | hmod
  · exact .inr (.inl ⟨hshort, fun _ => trivial⟩)
  · exact .inl ⟨hmod, by decide, fun _ _ => trivial⟩

/-- Both passes see the documents of the file. A file that stops in a way the reader takes for its
end gives all of them, any other raises. -/
theorem rBsonReaderFile_spec (toR : Bson → β) (ready ready' : ℕ → ℕ)
    (hsize : bs.length < 2 ^ 31 ∨ Moderate bs) :
    rBsonReaderFile toR (.ok bs) ready ready' =
      some (if reportsEnd (bsonFraming.rest bs) then .ok ((bsonFraming.frames bs).map toR)
        else .error "Failed to read all documents") := by
  obtain ⟨r, heq, hr⟩ := holds_of_new ⟨bs, ready, 0⟩ delivers_fdRead (roomy_fdRead hsize)
  obtain ⟨r', heq', hr'⟩ := holds_of_new ⟨bs, ready', 0⟩ delivers_fdRead (roomy_fdRead hsize)
  rw [rBsonReaderFile, heq, heq', andThen_ok, countDocuments_spec delivers_fdRead hr
    (Nat.lt_succ_of_le (bsonFraming.length_frames_le bs))]
  split
  · rw [andThen_ok, Nat.zero_add, andThen_ok]
    exact convertDocuments_spec delivers_fdRead hr'
  · rfl

end Mongolite
