import Mongolite.GridFS.Reading

/-! # Content written and read back

A write that succeeds has saved the file with all that the connection delivered.
Both readers find a file by its name or by a query, and return this content
whenever it is this file that they find.
-/

namespace Mongolite

variable {fate : ℕ → Fate} {old : List FileDoc} {d₀ : FileDoc} {m id : ℕ} {uploadDate : ℤ}
  {content : List UInt8} {s : GridServer} {x : FileIO} {args : WriteArgs}
  {validate : String → Bool} {queryMatches : String → FileDoc → Bool}

/-! ## Writing -/

theorem rNewWriteStream_spec (id : ℕ) (uploadDate : ℤ) (args : WriteArgs) :
    ∃ contentType metadata, rNewWriteStream id uploadDate args =
      ⟨⟨id, 0, defaultChunkSize, uploadDate, some args.name, contentType, metadata⟩, 0, 0, none,
        true, none⟩ := by
  unfold rNewWriteStream
  cases args.contentType with
  | none =>
    cases args.metadata with
    | none => exact ⟨_, _, rfl⟩
    | some metadata => exact ⟨_, _, rfl⟩
  | some contentType =>
    cases args.metadata with
    | none => exact ⟨_, _, rfl⟩
    | some metadata => exact ⟨_, _, rfl⟩

theorem written_rNewWriteStream (id : ℕ) (uploadDate : ℤ) (args : WriteArgs) (s : GridServer) :
    Written s.files (rNewWriteStream id uploadDate args).doc 0 []
      (rNewWriteStream id uploadDate args, s) := by
  obtain ⟨contentType, metadata, hnew⟩ := rNewWriteStream_spec id uploadDate args
  rw [hnew]
  constructor
  · exact Nat.zero_lt_succ _
  · rfl
  · rfl
  · simp
  · exact Nat.zero_le _
  · simp
  · simp
  · rintro p ⟨⟩
  · exact fun d hd => .inr hd

/-- What the pieces deliver before the first empty one. -/
def delivered (pieces : List (List UInt8)) : List UInt8 :=
  (pieces.takeWhile fun buf => buf ≠ []).flatten

theorem delivered_cons {buf : List UInt8} (hbuf : buf ≠ []) (pieces : List (List UInt8)) :
    delivered (buf :: pieces) = buf ++ delivered pieces := by
  rw [delivered, List.takeWhile_cons_of_pos (by simpa using hbuf), List.flatten_cons, delivered]

theorem delivered_eq_flatten {pieces : List (List UInt8)} (hpieces : ∀ buf ∈ pieces, buf ≠ []) :
    delivered pieces = pieces.flatten := by
  induction pieces with
  | nil => rfl
  | cons buf pieces ih =>
    rw [List.forall_mem_cons] at hpieces
    rw [delivered_cons hpieces.1, ih hpieces.2, List.flatten_cons]

theorem Written.saveChunk (fate : ℕ → Fate) (h : Written old d₀ m content x)
    (hdirty : x.1.isDirty = true) :
    ∃ r x', rStreamWriteChunk fate [] x = some (r, x') ∧
      ∀ n, r = .ok n → Saved old d₀ content x' := by
  simp only [rStreamWriteChunk, ne_eq, not_true_eq_false, if_false]
  rcases hsave : mongocGridfsFileSave fate x with ⟨_ | _, x'⟩
  · exact ⟨_, _, rfl, by rintro n ⟨⟩⟩
  · refine ⟨_, _, rfl, ?_⟩
    rintro n -
    exact h.save hdirty hsave

theorem Written.writePieces (fate : ℕ → Fate) (ending : Option String)
    (pieces : List (List UInt8)) (total : ℕ) (h : Written old d₀ m content x)
    (hdirty : x.1.isDirty = true) :
    ∃ r x', writePieces fate ending pieces total x = some (r, x') ∧
      ∀ n, r = .ok n → Saved old d₀ (content ++ delivered pieces) x' := by
  induction pieces generalizing m content total x with
  | nil =>
    obtain ⟨r, x', hchunk, hsaved⟩ := h.saveChunk fate hdirty
    rw [show delivered [] = [] from rfl, List.append_nil]
    unfold Mongolite.writePieces
    cases ending with
    | some e => exact ⟨_, _, rfl, by rintro n ⟨⟩⟩
    | none =>
      simp only [hchunk]
      cases r with
      | error e => exact ⟨_, _, rfl, by rintro n ⟨⟩⟩
      | ok len => exact ⟨_, _, rfl, fun n _ => hsaved len rfl⟩
  | cons buf pieces ih =>
    rw [Mongolite.writePieces]
    by_cases hbuf : buf = []
    · subst hbuf
      obtain ⟨r, x', hchunk, hsaved⟩ := h.saveChunk fate hdirty
      rw [show delivered ([] :: pieces) = [] from rfl, List.append_nil]
      simp only [hchunk]
      cases r with
      | error e => exact ⟨_, _, rfl, by rintro n ⟨⟩⟩
      | ok len => exact ⟨_, _, rfl, fun n _ => hsaved len rfl⟩
    · obtain ⟨len, x', hrun, hspec⟩ := h.writevLoop buf (buf.length + 2) 0
        (.inl (Nat.lt_succ_self _))
      rw [rStreamWriteChunk, if_pos hbuf, mongocGridfsFileWritev, hrun]
      cases len with
      | none => exact ⟨_, _, rfl, by rintro n ⟨⟩⟩
      | some n =>
        obtain ⟨hlen, hdirty', m', hwritten⟩ := hspec n rfl
        have hall : ¬ n < buf.length := by omega
        obtain ⟨r, x'', hrest, hsaved⟩ := ih (total + n) hwritten hdirty'
        refine ⟨r, x'', ?_, ?_⟩
        · simp only [if_neg hall, if_neg hbuf, hrest]
        · rwa [List.append_assoc, ← delivered_cons hbuf] at hsaved

theorem finFilestream_clean (h : x.1.isDirty = false) : finFilestream fate x = x.2 := by
  unfold finFilestream mongocGridfsFileSave
  rw [if_pos (by simp [h])]

/-- A write ends. Where it succeeds the file is saved with what was delivered. -/
theorem mongoGridfsWriteStream_spec (fate : ℕ → Fate) (id : ℕ) (uploadDate : ℤ) (args : WriteArgs)
    (s : GridServer) :
    ∃ r, mongoGridfsWriteStream fate id uploadDate args s = some r ∧ ∀ doc, r.outcome = .ok doc →
      ∃ f, doc = f.doc ∧ Saved s.files (rNewWriteStream id uploadDate args).doc
        (delivered args.source.pieces) (f, r.server) := by
  have hnew := written_rNewWriteStream id uploadDate args s
  have hdirty : (rNewWriteStream id uploadDate args).isDirty = true := by
    obtain ⟨contentType, metadata, hstream⟩ := rNewWriteStream_spec id uploadDate args
    rw [hstream]
  obtain ⟨r, x, hrun, hsaved⟩ := hnew.writePieces fate args.source.ending args.source.pieces 0
    hdirty
  unfold mongoGridfsWriteStream
  cases args.early with
  | some e => exact ⟨_, rfl, by rintro doc ⟨⟩⟩
  | none =>
    cases args.source.opening with
    | some e => exact ⟨_, rfl, by rintro doc ⟨⟩⟩
    | none =>
      simp only [hrun]
      cases r with
      | error e => exact ⟨_, rfl, by rintro doc ⟨⟩⟩
      | ok n =>
        cases args.closing with
        | some e => exact ⟨_, rfl, by rintro doc ⟨⟩⟩
        | none =>
          have hsaved := hsaved n rfl
          refine ⟨_, rfl, ?_⟩
          rintro doc ⟨⟩
          refine ⟨x.1, rfl, ?_⟩
          rw [finFilestream_clean hsaved.clean]
          exact hsaved

/-! ## Reading -/

/-- Under this name or query both readers return this content, and report its size. -/
def ReturnsContent (validate : String → Bool) (queryMatches : String → FileDoc → Bool)
    (s : GridServer) (y : String) (content : List UInt8) : Prop :=
  ∃ doc : FileDoc, doc.length = content.length ∧
    mongoGridfsReadStream validate queryMatches s y = some (.ok (content, doc)) ∧
    mongoGridfsDownload validate queryMatches s y = some (.ok (content, doc))

theorem mem_of_findSingleFile {name : FileName} {f : OpenFile}
    (hfind : findSingleFile queryMatches s name = .ok f) : ∃ d ∈ s.files, f = openFile d := by
  unfold findSingleFile at hfind
  cases name with
  | query json =>
    cases hd : s.files.find? (queryMatches json) with
    | none => simp [hd] at hfind
    | some d =>
      simp only [hd, Option.elim_some, Function.comp_apply, Except.ok.injEq] at hfind
      exact ⟨d, List.mem_of_find?_eq_some hd, hfind.symm⟩
  | name name =>
    cases hd : s.files.find? fun d => d.filename = some name with
    | none => simp [hd] at hfind
    | some d =>
      simp only [hd, Option.elim_some, Function.comp_apply, Except.ok.injEq] at hfind
      exact ⟨d, List.mem_of_find?_eq_some hd, hfind.symm⟩

theorem withFile_ok {y : String} {name : FileName} {f : OpenFile} {data : List UInt8}
    {body : OpenFile → Option (Except String (List UInt8))}
    (hname : nameOrQuery validate y = .ok name) (hfind : findSingleFile queryMatches s name = .ok f)
    (hbody : body f = some (.ok data)) :
    withFile validate queryMatches s y body = some (.ok (data, f.doc)) := by
  simp only [withFile, hname, hfind, hbody, andThen_ok]

theorem Saved.returnsContent (h : Saved old d₀ content x) {y : String} {name : FileName}
    {f : OpenFile} (hname : nameOrQuery validate y = .ok name)
    (hfind : findSingleFile queryMatches x.2 name = .ok f) (hid : f.doc.id = d₀.id) :
    ReturnsContent validate queryMatches x.2 y content := by
  obtain ⟨d, hd, rfl⟩ := mem_of_findSingleFile hfind
  have hdoc : d = d₀.withContent content := h.only d hd hid
  subst hdoc
  have hread := h.readAt.readChunks (content.length + 1) (Nat.lt_succ_self _)
  have hdown := h.readAt.downloadChunks (content.length + 1) (Nat.lt_succ_self _)
  exact ⟨d₀.withContent content, rfl, withFile_ok hname hfind hread, withFile_ok hname hfind hdown⟩

theorem Saved.findSingleFile (h : Saved old d₀ content x) {name : String}
    (hname : d₀.filename = some name) (hold : ∀ d ∈ old, d.filename ≠ some name) :
    findSingleFile queryMatches x.2 (.name name) = .ok (openFile (d₀.withContent content)) := by
  have hfound : ∀ d, x.2.files.find? (fun d => d.filename = some name) = some d →
      d = d₀.withContent content := by
    intro d hd
    have hmem := List.mem_of_find?_eq_some hd
    have hsame : d.filename = some name := by simpa using List.find?_some hd
    rcases h.own d hmem with hid | hmem'
    · exact h.only d hmem hid
    · exact absurd hsame (hold d hmem')
  cases hd : x.2.files.find? fun d => d.filename = some name with
  | none =>
    have hnone := List.find?_eq_none.mp hd _ h.mem
    exact absurd (decide_eq_true hname) hnone
  | some d =>
    simp only [Mongolite.findSingleFile, hd, hfound d hd]
    rfl

/-! ## Writing and then reading -/

/-- A write ends. Where it succeeds, the size it reports is that of the content that the connection
delivered, and this content is returned under every name or query by which this file is found. Its
own name is one, unless it may be a query or cannot be a name, or an older file has it. -/
theorem write_then_read (fate : ℕ → Fate) (id : ℕ) (uploadDate : ℤ) (args : WriteArgs)
    (s : GridServer) (hpieces : ∀ buf ∈ args.source.pieces, buf ≠ []) :
    ∃ r, mongoGridfsWriteStream fate id uploadDate args s = some r ∧ ∀ doc, r.outcome = .ok doc →
      doc.length = args.source.pieces.flatten.length ∧
      (∀ validate queryMatches y name f, nameOrQuery validate y = .ok name →
        findSingleFile queryMatches r.server name = .ok f → f.doc.id = id →
        ReturnsContent validate queryMatches r.server y args.source.pieces.flatten) ∧
      ∀ validate queryMatches, nameOrQuery validate args.name = .ok (.name args.name) →
        (∀ d ∈ s.files, d.filename ≠ some args.name) →
        ReturnsContent validate queryMatches r.server args.name args.source.pieces.flatten := by
  obtain ⟨contentType, metadata, hstream⟩ := rNewWriteStream_spec id uploadDate args
  obtain ⟨r, hrun, hok⟩ := mongoGridfsWriteStream_spec fate id uploadDate args s
  rw [delivered_eq_flatten hpieces, hstream] at hok
  refine ⟨r, hrun, ?_⟩
  intro doc hdoc
  obtain ⟨f, rfl, hsaved⟩ := hok doc hdoc
  refine ⟨by rw [hsaved.doc]; rfl, ?_, ?_⟩
  · intro validate queryMatches y name f hname hfind hid
    exact hsaved.returnsContent hname hfind hid
  · intro validate queryMatches hname hold
    exact hsaved.returnsContent hname (hsaved.findSingleFile rfl hold) rfl

def threeBytes (name : String) : WriteArgs :=
  ⟨none, name, none, none, ⟨none, [[1, 2], [3]], none⟩, none⟩

theorem write_then_read_three_bytes :
    ∃ r doc, mongoGridfsWriteStream (fun _ => .done) 1 0 (threeBytes "data")
        ⟨fun _ _ => none, [], 0⟩ = some r ∧ r.outcome = .ok doc ∧
      ReturnsContent (fun _ => false) (fun _ _ => false) r.server "data" [1, 2, 3] := by
  obtain ⟨r, hrun, hread⟩ := write_then_read (fun _ => .done) 1 0 (threeBytes "data")
    ⟨fun _ _ => none, [], 0⟩ (by decide)
  have hresult : mongoGridfsWriteStream (fun _ => .done) 1 0 (threeBytes "data")
      ⟨fun _ _ => none, [], 0⟩ = some ⟨_, _, _⟩ := rfl
  have hr := Option.some.inj (hrun.symm.trans hresult)
  subst hr
  have hname : nameOrQuery (fun _ => false) "data" = .ok (.name "data") := by decide
  exact ⟨_, _, hresult, rfl, (hread _ rfl).2.2 _ _ hname (by simp)⟩

/-- A name with a blank is no name to read by, and an older file of the same name is found first. -/
theorem write_then_read_other_name :
    (∃ r doc, mongoGridfsWriteStream (fun _ => .done) 1 0 (threeBytes "my data")
        ⟨fun _ _ => none, [], 0⟩ = some r ∧ r.outcome = .ok doc ∧
      ¬ ReturnsContent (fun _ => false) (fun _ _ => false) r.server "my data" [1, 2, 3]) ∧
    ∃ r doc, mongoGridfsWriteStream (fun _ => .done) 1 0 (threeBytes "data")
        ⟨fun _ _ => none, [⟨0, 0, 1, 0, some "data", none, none⟩], 0⟩ = some r ∧
      r.outcome = .ok doc ∧
      ¬ ReturnsContent (fun _ => false) (fun _ _ => false) r.server "data" [1, 2, 3] := by
  constructor
  · refine ⟨_, _, rfl, rfl, ?_⟩
    rintro ⟨doc, -, hread, -⟩
    have hname : nameOrQuery (fun _ => false) "my data" =
        .error "Parameter 'name' does not contain valid json or filename (no spaces)" := by decide
    simp [mongoGridfsReadStream, withFile, hname] at hread
  · refine ⟨_, _, rfl, rfl, ?_⟩
    rintro ⟨doc, -, hread, -⟩
    have hold : (some (.ok ([], ⟨0, 0, 1, 0, some "data", none, none⟩)) : TransferResult) =
        some (.ok ([1, 2, 3], doc)) := Eq.trans rfl hread
    simp at hold

end Mongolite
