import Mongolite.Insert.Page

/-! # One page of `mongo_stream_out` at a time

The step lemmas of the page loop. A page of encodable rows is one ordered bulk
execution, any other page leaves the collection alone; the remaining rows are
streamed out from the world the page leaves.
-/

namespace Mongolite

variable {ρ δ : Type} {c : Codec ρ δ} {s : Server δ} {gate : Gate δ String} {rows : List ρ}
  {w : World δ}
  {stop : Bool} {n : ℕ}

def Reply.addTo (r : Reply) (s : Summary) : Summary :=
  ⟨r.nInserted + s.nInserted, r.nMatched + s.nMatched, r.nRemoved + s.nRemoved,
    r.nUpserted + s.nUpserted, r.writeErrors ++ s.writeErrors⟩

@[simp] theorem nInserted_addTo (r : Reply) (s : Summary) :
    (r.addTo s).nInserted = r.nInserted + s.nInserted := rfl

@[simp] theorem writeErrors_addTo (r : Reply) (s : Summary) :
    (r.addTo s).writeErrors = r.writeErrors ++ s.writeErrors := rfl

theorem summarise_error {rs : List (Option Reply)} {e : String} (h : summarise rs = .error e) :
    e = "values must be length 1" := by
  induction rs with
  | nil => simp [summarise] at h
  | cons r rs ih =>
    cases r with
    | none => simpa [summarise] using h.symm
    | some r =>
      cases hs : summarise rs with
      | error e' =>
        simp only [summarise, hs, Except.error.injEq] at h
        exact ih (h ▸ hs)
      | ok s => simp [summarise, hs] at h

theorem insertRows_of_encodable (hne : rows ≠ []) (h : c.Encodable rows) :
    insertRows c s stop rows w = bulkPage s stop (c.docsOf rows) w := by
  obtain ⟨ss, hss, he, hl, hd⟩ := mongoToJsonPage_of_encodable h
  have hne' : ss ≠ [] := by
    rw [← List.length_pos_iff, hl]
    exact List.length_pos_iff.mpr hne
  simp only [insertRows, hss, insertPage_of_encodable hne' he, hd]

theorem insertRows_inOneMessage (hne : rows ≠ []) (h : c.Encodable rows) :
    insertRows c gate.inOneMessage stop rows w = orderedPage gate stop (c.docsOf rows) w := by
  rw [insertRows_of_encodable hne h, bulkPage_inOneMessage]

theorem insertRows_of_not_encodable (s : Server δ) (w : World δ) (stop : Bool)
    (h : ¬ c.Encodable rows) :
    ∃ out w', insertRows c s stop rows w = (out, w') ∧ w'.docs = w.docs ∧
      (stop = true → ∃ e, out = .error (.raised e)) ∧ ∀ r, out = .ok r → r = none := by
  rw [insertRows]
  cases hj : mongoToJsonPage c rows with
  | error e => exact ⟨.error (.raised e), w, rfl, rfl, fun _ => ⟨e, rfl⟩, by simp⟩
  | ok ss =>
    refine insertPage_of_not_encodable fun hs => h fun r hr => ?_
    have hm : c.encode r ∈ ss.map c.encodeJson :=
      mongoToJsonPage_ok hj ▸ List.mem_map_of_mem hr
    obtain ⟨s, hs', he⟩ := List.mem_map.mp hm
    exact he ▸ hs s hs'

@[simp] theorem mongoStreamOut_nil :
    mongoStreamOut c s [] n stop w = (.ok ⟨0, 0, 0, 0, []⟩, w) := by
  simp [mongoStreamOut, runPages, summarise, Except.mapError]

theorem mongoStreamOut_of_ne_nil (hn : 0 < n) (hne : rows ≠ []) :
    mongoStreamOut c s rows n stop w =
      match insertRows c s stop (rows.take n) w with
      | (.error e, w') => (.error e, w')
      | (.ok reply, w') =>
        match mongoStreamOut c s (rows.drop n) n stop w' with
        | (.error e, w'') => (.error e, w'')
        | (.ok total, w'') =>
          match reply with
          | none => (.error (.raised "values must be length 1"), w'')
          | some r => (.ok (r.addTo total), w'') := by
  rw [mongoStreamOut, pages_cons hn hne, runPages]
  obtain ⟨out, w'⟩ := insertRows c s stop (rows.take n) w
  cases out with
  | error e => rfl
  | ok reply =>
    simp only [mongoStreamOut]
    obtain ⟨rs, w''⟩ := runPages (insertRows c s stop) (pages n (rows.drop n)) w'
    cases rs with
    | error e => rfl
    | ok rs =>
      cases hs : summarise rs with
      | error e =>
        obtain rfl := summarise_error hs
        cases reply <;> simp [summarise, hs, Except.mapError]
      | ok s => cases reply <;> simp [summarise, hs, Except.mapError, Reply.addTo]

theorem mongoStreamOut_of_error (hn : 0 < n) (hne : rows ≠ []) {e : Failure} {w' : World δ}
    (h : insertRows c s stop (rows.take n) w = (.error e, w')) :
    mongoStreamOut c s rows n stop w = (.error e, w') := by
  rw [mongoStreamOut_of_ne_nil hn hne, h]

theorem mongoStreamOut_of_reply (hn : 0 < n) (hne : rows ≠ []) {r : Reply} {w' : World δ}
    (h : insertRows c s stop (rows.take n) w = (.ok (some r), w')) :
    mongoStreamOut c s rows n stop w =
      ((mongoStreamOut c s (rows.drop n) n stop w').1.map r.addTo,
        (mongoStreamOut c s (rows.drop n) n stop w').2) := by
  rw [mongoStreamOut_of_ne_nil hn hne, h]
  simp only
  generalize mongoStreamOut c s (rows.drop n) n stop w' = out
  obtain ⟨_ | s, w''⟩ := out <;> rfl

theorem Codec.Encodable.take (h : c.Encodable rows) (k : ℕ) : c.Encodable (rows.take k) :=
  fun r hr => h r (List.mem_of_mem_take hr)

theorem Codec.Encodable.drop (h : c.Encodable rows) (k : ℕ) : c.Encodable (rows.drop k) :=
  fun r hr => h r (List.mem_of_mem_drop hr)

theorem docsOf_append (rs rs' : List ρ) : c.docsOf (rs ++ rs') = c.docsOf rs ++ c.docsOf rs' := by
  simp [Codec.docsOf]

theorem docsOf_take_append_drop (c : Codec ρ δ) (rows : List ρ) (k : ℕ) :
    c.docsOf rows = c.docsOf (rows.take k) ++ c.docsOf (rows.drop k) := by
  rw [← docsOf_append, List.take_append_drop]

theorem take_docsOf (h : c.Encodable rows) (k : ℕ) :
    (c.docsOf rows).take k = c.docsOf (rows.take k) := by
  induction rows generalizing k with
  | nil => simp [Codec.docsOf]
  | cons r rs ih =>
    obtain ⟨d, hd⟩ := Option.isSome_iff_exists.mp (h r List.mem_cons_self)
    have ht : c.Encodable rs := fun x hx => h x (List.mem_cons_of_mem _ hx)
    cases k with
    | zero => simp [Codec.docsOf]
    | succ k => simpa [Codec.docsOf, hd] using ih ht k

/-- Rows that are their own JSON text and their own document; the empty text does not parse. -/
def plainText : Codec String String where
  mongoToJson := .ok
  validateJson s := s ≠ ""
  bsonNewFromJson s := if s = "" then .error "Unexpected end of JSON text" else .ok s
  validate _ := none

/-- A unique index: a document that is already there is refused. -/
def uniqueIndex : Gate String String :=
  fun db d => if d ∈ db then some "E11000 duplicate key error" else none

end Mongolite
