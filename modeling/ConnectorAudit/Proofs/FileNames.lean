import ConnectorAudit.Folder
import ConnectorAudit.Proofs.FirstMentions
import ConnectorAudit.Run

/-!
# The names of files

The files that a run writes are named after a base that can be any text.  Whatever it
is, their names are plain ones: made of a few characters that mean nothing in a path,
and never one of the two names that lead elsewhere.  So each is one part of a path, and
leads from the folder for the results to a file in it.

* `FileName.safeChars_eq_self`, `FileName.allowed_of_mem_safeChars`: what is left as it is, and what
  is left at all;
* `Format.fileName_inj`, `Format.plain_fileName`: the names of the formats;
* `Folder.locate_join`: where a plain name leads;
* `noted_emit_prefix`: which files are written, whatever the storage does;
* `emit_of_accepts`: what is written where nothing fails;
* `names_files`: all of it.
-/

namespace ConnectorAudit

/-! ## safe names -/

namespace FileName

/-- A letter or a digit of ASCII, an underscore, a dot or a hyphen. -/
def Allowed (c : Char) : Prop :=
  'A' ≤ c ∧ c ≤ 'Z' ∨ 'a' ≤ c ∧ c ≤ 'z' ∨ '0' ≤ c ∧ c ≤ '9' ∨ c = '_' ∨ c = '.' ∨ c = '-'

/-- A name that is one part of a path, and leads from a folder to something in it. -/
structure Plain (name : String) : Prop where
  allowed : ∀ c ∈ name.toList, Allowed c
  ne_empty : name ≠ ""
  ne_dot : name ≠ "."
  ne_dots : name ≠ ".."

/-- What is safe is what a name may hold. -/
theorem isSafe_iff {c : Char} : isSafe c = true ↔ Allowed c := by
  delta isSafe Allowed Char.isAlphanum Char.isAlpha Char.isUpper Char.isLower Char.isDigit
  simp only [Char.le_def, Bool.or_eq_true, Bool.and_eq_true, decide_eq_true_eq, beq_iff_eq,
    ge_iff_le]
  grind

/-- A name that holds nothing else is left as it is. -/
theorem safeChars_eq_self {cs : List Char} (h : ∀ c ∈ cs, Allowed c) (inRun : Bool) :
    safeChars inRun cs = cs := by
  induction cs generalizing inRun with
  | nil => rfl
  | cons c cs ih =>
    obtain ⟨hc, hcs⟩ := List.forall_mem_cons.1 h
    rw [safeChars, if_pos (isSafe_iff.2 hc), ih hcs]

/-- A name that is made safe holds nothing but what it may. -/
theorem allowed_of_mem_safeChars {cs : List Char} {inRun : Bool} :
    ∀ c ∈ safeChars inRun cs, Allowed c := by
  induction cs generalizing inRun with
  | nil => exact fun c hc => by cases hc
  | cons c cs ih =>
    rw [safeChars]
    split
    · next hc => exact List.forall_mem_cons.2 ⟨isSafe_iff.1 hc, ih⟩
    · split
      · exact ih
      · have hunderscore : Allowed '_' := isSafe_iff.1 rfl
        exact List.forall_mem_cons.2 ⟨hunderscore, ih⟩

theorem toList_safe (base extension : String) :
    (safe base extension).toList = safeChars false base.toList ++ extension.toList := by
  rw [safe, String.toList_append, String.toList_ofList]

theorem toList_safe_empty (base : String) :
    (safe base "").toList = safeChars false base.toList := by
  rw [toList_safe, String.toList_empty, List.append_nil]

theorem safe_eq_self {s : String} (h : ∀ c ∈ s.toList, Allowed c) : safe s "" = s := by
  rw [← String.toList_inj, toList_safe_empty, safeChars_eq_self h]

/-- Making a name safe twice does nothing more. -/
theorem safe_safe (s : String) : safe (safe s "") "" = safe s "" := by
  refine safe_eq_self ?_
  rw [toList_safe_empty]
  exact allowed_of_mem_safeChars

end FileName

namespace Format

/-- The name of a file is a safe base with the extension of its format. -/
theorem toList_fileName (f : Format) (base : String) :
    ∃ cs, (∀ c ∈ cs, FileName.Allowed c) ∧
      (f.fileName base).toList = cs ++ f.extension.toList :=
  ⟨_, FileName.allowed_of_mem_safeChars, FileName.toList_safe _ _⟩

/-- Files of different formats have different names. -/
theorem fileName_inj {f g : Format} {base : String} (h : f.fileName base = g.fileName base) :
    f = g := by
  obtain ⟨cs, -, hf⟩ := f.toList_fileName base
  obtain ⟨ds, -, hg⟩ := g.toList_fileName base
  rw [h, hg] at hf
  -- The names differ near their ends, at the latest where `.json` has its dot.
  have hends := congrArg List.reverse hf
  cases f <;> cases g <;> first | rfl | simp [extension] at hends

/-- The name of a file is plain. -/
theorem plain_fileName (f : Format) (base : String) : FileName.Plain (f.fileName base) := by
  obtain ⟨cs, hcs, hname⟩ := f.toList_fileName base
  have hextension : f.extension.toList.all FileName.isSafe = true ∧
      3 ≤ f.extension.toList.length := by
    cases f <;> decide
  have hlength : ∀ name : String, f.fileName base = name → 3 ≤ name.toList.length := by
    rintro name rfl
    rw [hname, List.length_append]
    omega
  refine ⟨fun c hc => ?_, fun h => ?_, fun h => ?_, fun h => ?_⟩
  · rw [hname, List.mem_append] at hc
    exact hc.elim (hcs c) fun hc => FileName.isSafe_iff.1 (List.all_eq_true.1 hextension.1 c hc)
  · exact absurd (hlength _ h) (by decide)
  · exact absurd (hlength _ h) (by decide)
  · exact absurd (hlength _ h) (by decide)

end Format

/-! ## where a plain name leads -/

namespace Path

/-- A name without a slash is one part. -/
theorem parts_of_not_mem {name : String} (h : '/' ∉ name.toList) : parts name = [name] := by
  simp [parts, List.splitOn_eq_singleton h]

/-- A slash sets two paths apart. -/
theorem parts_append_slash (folder name : String) :
    parts (folder ++ "/" ++ name) = parts folder ++ parts name := by
  have hchars : (folder ++ "/" ++ name).toList = folder.toList ++ '/' :: name.toList := by simp
  simp only [parts, hchars, List.splitOn_append_cons_self, List.map_append]

/-- One more part, which takes the place of the empty one that a path ends in if it is empty
or its last character is a slash. -/
theorem parts_join {name : String} (h : '/' ∉ name.toList) (folder : String) :
    parts (join folder name) = parts folder ++ [name] ∨
      ∃ front, parts folder = front ++ [""] ∧ parts (join folder name) = front ++ [name] := by
  unfold join
  split
  · next hend =>
    refine .inr ?_
    rw [Bool.or_eq_true, String.isEmpty_iff, decide_eq_true_eq] at hend
    rcases hend with rfl | hslash
    · exact ⟨[], rfl, by rw [String.empty_append, parts_of_not_mem h, List.nil_append]⟩
    · obtain ⟨cs, hcs⟩ := List.getLast?_eq_some_iff.1 hslash
      obtain rfl : folder = String.ofList cs ++ "/" := by
        rw [← String.toList_inj, hcs]
        simp
      refine ⟨parts (String.ofList cs), ?_, ?_⟩
      · have hempty := parts_append_slash (String.ofList cs) ""
        rwa [String.append_empty] at hempty
      · rw [parts_append_slash, parts_of_not_mem h]
  · exact .inl (by rw [parts_append_slash, parts_of_not_mem h])

end Path

namespace Folder

variable {f : Folder} {place q : List String}

/-- A path is walked part by part. -/
theorem walk_append (f : Folder) (place xs ys : List String) :
    f.walk place (xs ++ ys) = f.walk place xs >>= (f.walk · ys) := by
  induction xs generalizing place with
  | nil => rfl
  | cons part xs ih =>
    rw [List.cons_append, walk, walk]
    split
    · rfl
    · rfl
    · split
      · rfl
      · exact ih _

/-- A walk that leads somewhere leads there by way of its first parts. -/
theorem walk_append_eq_ok {xs ys : List String} (h : f.walk place (xs ++ ys) = .ok q) :
    ∃ mid, f.walk place xs = .ok mid ∧ f.walk mid ys = .ok q := by
  rw [walk_append] at h
  cases hxs : f.walk place xs with
  | error e =>
    rw [hxs] at h
    cases h
  | ok mid =>
    rw [hxs] at h
    exact ⟨mid, rfl, h⟩

/-- A single part leads from a folder to what it names. -/
theorem walk_singleton_eq_ok {part : String} (h : f.walk place [part] = .ok q) :
    f.find? place = some .folder ∧ q = enter place part := by
  rw [walk] at h
  split at h
  · cases h
  · cases h
  · next hfind =>
    split at h
    · cases h
    · exact ⟨hfind, (Except.ok.inj h).symm⟩

/-- An empty part leads nowhere else. -/
theorem walk_empty_part (h : f.find? place = some .folder) : f.walk place [""] = .ok place := by
  rw [walk, h]
  rfl

/-- A plain name is not one of the parts that lead nowhere or back. -/
theorem enter_of_plain {name : String} (h : FileName.Plain name) (place : List String) :
    enter place name = place ++ [name] := by
  simp [enter, Path.isIdle, h.ne_empty, h.ne_dot, h.ne_dots]

/-- What is located is where the walk from the top leads. -/
theorem locate_eq_ok {path : String} (h : f.locate path = .ok q) :
    f.walk [] (Path.parts path) = .ok q := by
  unfold locate usableParts at h
  split at h
  · cases h
  · split at h
    · cases h
    · split at h
      · cases h
      · exact h

/-- A plain name leads to a place in the folder that the path in front of it leads to. -/
theorem locate_join {dir name : String} (hname : FileName.Plain name)
    (h : f.locate (Path.join dir name) = .ok q) :
    ∃ place, f.walk [] (Path.parts dir) = .ok place ∧ q = place ++ [name] := by
  have hslash : '/' ∉ name.toList := fun hmem =>
    absurd (FileName.isSafe_iff.2 (hname.allowed _ hmem)) (by decide)
  have hwalk := locate_eq_ok h
  rcases Path.parts_join hslash dir with hparts | ⟨front, hdir, hparts⟩
  · rw [hparts] at hwalk
    obtain ⟨place, hplace, hlast⟩ := walk_append_eq_ok hwalk
    exact ⟨place, hplace, (walk_singleton_eq_ok hlast).2.trans (enter_of_plain hname place)⟩
  · rw [hparts] at hwalk
    obtain ⟨place, hplace, hlast⟩ := walk_append_eq_ok hwalk
    obtain ⟨hfolder, rfl⟩ := walk_singleton_eq_ok hlast
    refine ⟨place, ?_, enter_of_plain hname place⟩
    rw [hdir, walk_append, hplace]
    exact walk_empty_part hfolder

/-- A file that is written under a plain name is put into the folder, and nothing else is. -/
theorem write_join {dir name : String} {content : ByteArray} {g : Folder}
    (hname : FileName.Plain name) (h : f.write (Path.join dir name) content = .ok g) :
    ∃ place, f.walk [] (Path.parts dir) = .ok place ∧
      g = f.put (place ++ [name]) (.file content) := by
  unfold write at h
  cases hlocate : f.locate (Path.join dir name) with
  | error e =>
    rw [hlocate] at h
    cases h
  | ok q =>
    rw [hlocate] at h
    obtain ⟨place, hplace, rfl⟩ := locate_join hname hlocate
    refine ⟨place, hplace, ?_⟩
    simp only [bind, Except.bind] at h
    split at h
    · cases h
    · exact (Except.ok.inj h).symm

end Folder

/-! ## what is written -/

section Noting

variable {σ α β : Type}

/-- The storage, with the paths and texts noted that are to be written. -/
def Storage.noting (storage : Storage (StateM σ)) :
    Storage (StateM (σ × List (String × String))) where
  read path := fun t => ((storage.read path t.1).1, (storage.read path t.1).2, t.2)
  isFolder path := fun t => ((storage.isFolder path t.1).1, (storage.isFolder path t.1).2, t.2)
  makeOne path := fun t => ((storage.makeOne path t.1).1, (storage.makeOne path t.1).2, t.2)
  write path text := fun t =>
    ((storage.write path text t.1).1, (storage.write path text t.1).2, t.2 ++ [(path, text)])

theorem bind_apply {τ : Type} (action : StateM τ α) (next : α → StateM τ β) (t : τ) :
    (action >>= next) t = next (action t).1 (action t).2 :=
  rfl

/-- The action does the same with notes as without, and notes nothing. -/
def Lifts (action : StateM σ α) (noting : StateM (σ × List (String × String)) α) : Prop :=
  ∀ s noted, noting (s, noted) = ((action s).1, (action s).2, noted)

theorem lifts_pure (a : α) :
    Lifts (pure a : StateM σ α) (pure a : StateM (σ × List (String × String)) α) :=
  fun _ _ => rfl

/-- Actions that note nothing do so one behind the other. -/
theorem Lifts.bind {action : StateM σ α} {noting : StateM (σ × List (String × String)) α}
    {next : α → StateM σ β} {next' : α → StateM (σ × List (String × String)) β}
    (h : Lifts action noting) (hnext : ∀ a, Lifts (next a) (next' a)) :
    Lifts (action >>= next) (noting >>= next') := by
  intro s noted
  rw [bind_apply, bind_apply, h, hnext]

namespace Storage

variable (storage : Storage (StateM σ))

/-- Making one folder notes nothing. -/
theorem lifts_ensureOne (path : String) :
    Lifts (storage.ensureOne path) (storage.noting.ensureOne path) := by
  refine Lifts.bind (fun _ _ => rfl) fun result => ?_
  rcases result with cause | _
  · cases cause with
    | taken => exact Lifts.bind (fun _ _ => rfl) fun _ => lifts_pure _
    | _ => exact lifts_pure _
  · exact lifts_pure _

/-- Making the first folders notes nothing. -/
theorem lifts_ensureFirst (folders : List String) :
    Lifts (storage.ensureFirst folders) (storage.noting.ensureFirst folders) := by
  induction folders with
  | nil => exact lifts_pure _
  | cons path folders ih =>
    refine (storage.lifts_ensureOne path).bind fun result => ?_
    rcases result with cause | _
    · cases cause with
      | absent =>
        refine ih.bind fun result => ?_
        rcases result with cause | _
        · exact lifts_pure _
        · exact storage.lifts_ensureOne path
      | _ => exact lifts_pure _
    · exact lifts_pure _

/-- Making a folder with those above it notes nothing. -/
theorem lifts_makeFolder (path : String) :
    Lifts (storage.makeFolder path) (storage.noting.makeFolder path) := by
  unfold makeFolder
  split
  · exact lifts_pure _
  · exact storage.lifts_ensureFirst _

/-- Reading a source notes nothing. -/
theorem lifts_loadSource (path : Option String) :
    Lifts (loadSource storage path) (loadSource storage.noting path) := by
  cases path with
  | none => exact lifts_pure _
  | some path =>
    refine Lifts.bind (fun _ _ => rfl) fun content => ?_
    cases content with
    | none => exact lifts_pure _
    | some content =>
      simp only
      split <;> exact lifts_pure _

/-- The files are written without failure, one after the other. -/
def Accepts : List (String × String) → σ → Prop
  | [], _ => True
  | file :: files, s =>
    (storage.write file.1 file.2 s).1 = .ok () ∧ Accepts files (storage.write file.1 file.2 s).2

/-- The storage behind writing files one after the other. -/
def writeAll (files : List (String × String)) (s : σ) : σ :=
  files.foldl (fun s file => (storage.write file.1 file.2 s).2) s

end Storage

/-- The formats that are not done, each once. -/
def Format.fresh (done formats : List Format) : List Format :=
  (formats.filter fun f => !done.contains f).eraseDups

/-- At first every format is fresh, once. -/
theorem Format.fresh_nil (formats : List Format) : fresh [] formats = formats.eraseDups := by
  have hall : (formats.filter fun f => !([] : List Format).contains f) = formats :=
    List.filter_eq_self.2 fun _ _ => rfl
  rw [fresh, hall]

/-- A format that was done is not fresh. -/
theorem Format.fresh_cons_of_mem {done : List Format} {f : Format} (h : f ∈ done)
    (formats : List Format) : fresh done (f :: formats) = fresh done formats := by
  rw [fresh, List.filter_cons_of_neg (by simpa using h), fresh]

/-- A format that was not done is fresh, and done behind that. -/
theorem Format.fresh_cons_of_not_mem {done : List Format} {f : Format} (h : f ∉ done)
    (formats : List Format) :
    fresh done (f :: formats) = f :: fresh (done ++ [f]) formats := by
  have hfilter : (formats.filter fun g => (!g == f) && !done.contains g) =
      formats.filter fun g => !(done ++ [f]).contains g := by
    refine List.filter_congr fun g _ => ?_
    rw [Bool.eq_iff_iff]
    simp [and_comm]
  rw [fresh, List.filter_cons_of_pos (by simpa using h), List.eraseDups_cons, List.filter_filter,
    hfilter, fresh]

/-- The path and the text of the file that a format is written to. -/
def Audit.file (a : Audit) (outdir : String) (o : OutputOptions) (f : Format) : String × String :=
  (Path.join outdir (f.fileName o.base), a.render o f)

/-- The files of an audit, one for each format asked for. -/
def Audit.files (a : Audit) (outdir : String) (o : OutputOptions) : List (String × String) :=
  o.formats.eraseDups.map (a.file outdir o)

section Emit

variable {storage : Storage (StateM σ)} {a : Audit} {outdir : String} {o : OutputOptions}
  {done formats : List Format} {f : Format} {written : List String} {s : σ}
  {noted : List (String × String)}

/-- A format that was done is passed over. -/
theorem emitFormats_cons_of_mem (hf : f ∈ done) :
    emitFormats storage.noting a outdir o done written (f :: formats) =
      emitFormats storage.noting a outdir o done written formats := by
  rw [emitFormats, if_pos (List.contains_iff_mem.2 hf)]

/-- A file that cannot be written ends the run, and is the last that is noted. -/
theorem emitFormats_cons_error (hf : f ∉ done) {cause : StorageError}
    (h : (storage.write (a.file outdir o f).1 (a.file outdir o f).2 s).1 = .error cause) :
    emitFormats storage.noting a outdir o done written (f :: formats) (s, noted) =
      (.error (.file outdir (a.file outdir o f).1 cause),
        (storage.write (a.file outdir o f).1 (a.file outdir o f).2 s).2,
        noted ++ [a.file outdir o f]) := by
  rw [emitFormats, if_neg (mt List.contains_iff_mem.1 hf)]
  simp only [Audit.file] at h ⊢
  simp only [bind_apply, Storage.noting, h]
  rfl

/-- A file that is written is noted, and the run goes on. -/
theorem emitFormats_cons_ok (hf : f ∉ done)
    (h : (storage.write (a.file outdir o f).1 (a.file outdir o f).2 s).1 = .ok ()) :
    emitFormats storage.noting a outdir o done written (f :: formats) (s, noted) =
      emitFormats storage.noting a outdir o (done ++ [f]) (written ++ [(a.file outdir o f).1])
        formats ((storage.write (a.file outdir o f).1 (a.file outdir o f).2 s).2,
          noted ++ [a.file outdir o f]) := by
  rw [emitFormats, if_neg (mt List.contains_iff_mem.1 hf)]
  simp only [Audit.file] at h ⊢
  simp only [bind_apply, Storage.noting, h]

/-- Whatever the storage does, the files of the formats are written in order and no other. -/
theorem exists_noted_emitFormats :
    ∃ files, (emitFormats storage.noting a outdir o done written formats (s, noted)).2.2 =
        noted ++ files ∧
      files <+: (Format.fresh done formats).map (a.file outdir o) := by
  induction formats generalizing done written s noted with
  | nil => exact ⟨[], (List.append_nil noted).symm, List.nil_prefix⟩
  | cons f formats ih =>
    by_cases hf : f ∈ done
    · rw [emitFormats_cons_of_mem hf, Format.fresh_cons_of_mem hf]
      exact ih
    · rw [Format.fresh_cons_of_not_mem hf, List.map_cons]
      cases hwrite : (storage.write (a.file outdir o f).1 (a.file outdir o f).2 s).1 with
      | error cause =>
        rw [emitFormats_cons_error hf hwrite]
        exact ⟨[_], rfl, List.cons_prefix_cons.2 ⟨rfl, List.nil_prefix⟩⟩
      | ok _ =>
        obtain ⟨files, hfiles, hfront⟩ := ih
        rw [emitFormats_cons_ok hf hwrite, hfiles, List.append_assoc]
        exact ⟨_, rfl, List.cons_prefix_cons.2 ⟨rfl, hfront⟩⟩

/-- Where each file is written without failure, all of them are. -/
theorem emitFormats_of_accepts
    (h : storage.Accepts ((Format.fresh done formats).map (a.file outdir o)) s) :
    let files := (Format.fresh done formats).map (a.file outdir o)
    emitFormats storage.noting a outdir o done written formats (s, noted) =
      (.ok (written ++ files.map Prod.fst), storage.writeAll files s, noted ++ files) := by
  induction formats generalizing done written s noted with
  | nil =>
    change (Except.ok written, s, noted) = (Except.ok (written ++ []), s, noted ++ [])
    rw [List.append_nil, List.append_nil]
  | cons f formats ih =>
    by_cases hf : f ∈ done
    · rw [Format.fresh_cons_of_mem hf] at h ⊢
      rw [emitFormats_cons_of_mem hf]
      exact ih h
    · rw [Format.fresh_cons_of_not_mem hf, List.map_cons] at h ⊢
      obtain ⟨hwrite, hrest⟩ := h
      rw [emitFormats_cons_ok hf hwrite, ih hrest]
      simp [Storage.writeAll]

/-- Whatever happens, the files that are noted are the first ones of those that are due. -/
theorem noted_emit_prefix :
    (emit storage.noting a outdir o (s, [])).2.2 <+: a.files outdir o := by
  simp only [emit, bind_apply, storage.lifts_makeFolder outdir s []]
  cases hmade : (storage.makeFolder outdir s).1 with
  | error cause => exact List.nil_prefix
  | ok _ =>
    obtain ⟨files, hfiles, hfront⟩ := exists_noted_emitFormats
    simp only
    rw [hfiles, List.nil_append]
    rwa [Format.fresh_nil] at hfront

/-- If storage accepts them all, the files that are due are written and noted, in their order. -/
theorem emit_of_accepts (hfolder : (storage.makeFolder outdir s).1 = .ok ())
    (haccepts : storage.Accepts (a.files outdir o) (storage.makeFolder outdir s).2) :
    emit storage.noting a outdir o (s, []) =
      (.ok ((a.files outdir o).map Prod.fst),
        storage.writeAll (a.files outdir o) (storage.makeFolder outdir s).2, a.files outdir o) := by
  rw [Audit.files, ← Format.fresh_nil] at haccepts
  simp only [emit, bind_apply, storage.lifts_makeFolder outdir s [], hfolder]
  rw [emitFormats_of_accepts haccepts, Format.fresh_nil, Audit.files]
  rfl

/-- A run ends as the writing of the audit does, once its source is read. -/
theorem run_eq_emit {t : σ} {args : Arguments} {source : SourceFile}
    (h : loadSource storage args.path s = (.ok source, t)) :
    run storage.noting args (s, noted) =
      emit storage.noting (Audit.ofSource source.text (args.settings source)) args.outdir
        args.output (t, noted) := by
  simp only [run, bind_apply, storage.lifts_loadSource args.path s noted, h]

end Emit

end Noting

/-! ## the files of a run -/

/-- **Names of files.** In each format asked for an audit is written once, to a file under a name of
its own that is plain whatever the base is: where the folder can be made and each of these files can
be written, all of them are, in order, and their paths are returned.  No other path is ever written
to, and each file is put into the folder for the results.  A run that gets there ends the same.  A
text that is safe stays as it is, and any other is safe once it is made so. -/
theorem names_files {σ : Type} (storage : Storage (StateM σ)) (s : σ) (a : Audit)
    (outdir : String) (o : OutputOptions) (hfolder : (storage.makeFolder outdir s).1 = .ok ())
    (haccepts : storage.Accepts (a.files outdir o) (storage.makeFolder outdir s).2) :
    let ended := emit storage.noting a outdir o (s, [])
    let formats := o.formats.eraseDups
    let names := formats.map fun f => FileName.safe (o.base ++ f.stem) f.extension
    let files := formats.map fun f =>
      (Path.join outdir (FileName.safe (o.base ++ f.stem) f.extension), a.render o f)
    FirstValues id o.formats formats ∧
      ended.1 = .ok (names.map (Path.join outdir)) ∧ ended.2.2 = files ∧
      ended.2.1 = storage.writeAll files (storage.makeFolder outdir s).2 ∧
      (∀ (τ : Type) (storage : Storage (StateM τ)) (t : τ),
        (emit storage.noting a outdir o (t, [])).2.2 <+: files) ∧
      (∀ (t : σ) (args : Arguments) (source : SourceFile),
        loadSource storage args.path t = (.ok source, s) →
        args.outdir = outdir → args.output = o →
        Audit.ofSource source.text (args.settings source) = a →
        run storage.noting args (t, []) = ended) ∧
      names.Nodup ∧ (∀ name ∈ names, FileName.Plain name) ∧
      (∀ f g : Folder, ∀ name ∈ names, ∀ content,
        f.write (Path.join outdir name) content = .ok g →
        ∃ place, f.walk [] (Path.parts outdir) = .ok place ∧
          g = f.put (place ++ [name]) (.file content)) ∧
      (∀ s, FileName.safe (FileName.safe s "") "" = FileName.safe s "") ∧
      ∀ s, (∀ c ∈ s.toList, FileName.Allowed c) → FileName.safe s "" = s := by
  intro ended formats names files
  have hended : ended = _ := emit_of_accepts hfolder haccepts
  have hplain : ∀ name ∈ names, FileName.Plain name := by
    intro name hname
    obtain ⟨f, -, rfl⟩ := List.mem_map.1 hname
    exact f.plain_fileName o.base
  refine ⟨?_, ?_, ?_, ?_, fun _ _ _ => noted_emit_prefix, ?_, ?_, hplain, ?_, FileName.safe_safe,
    fun s => FileName.safe_eq_self⟩
  · simpa using firstValues_eraseDups id o.formats
  · rw [hended, Audit.files, List.map_map, List.map_map]
    rfl
  · rw [hended]
    rfl
  · rw [hended]
    rfl
  · rintro t args source hload rfl rfl rfl
    exact run_eq_emit hload
  · exact List.Pairwise.map _ (fun _ _ hne h => hne (Format.fileName_inj h)) (nodup_eraseDups _)
  · intro f g name hname content h
    exact Folder.write_join (hplain name hname) h

/-- Two formats, one of them twice, for files named after an address. -/
def repeatedFormats : OutputOptions :=
  { formats := [.ndjson, .dot, .ndjson], base := "example.com/a b" }

/-- The files are made in a folder that is empty before. -/
theorem names_files_repeatedFormats :
    let a := Audit.assemble default [] {} .empty false {}
    let ended := emit Folder.storage.noting a "new/out" repeatedFormats ({}, [])
    ended.1 = .ok ["new/out/example.com_a_b.events.ndjson", "new/out/example.com_a_b.graph.dot"] ∧
      ended.2.1.read "new/out/example.com_a_b.graph.dot" =
        some (a.graph.dot "Connector").toUTF8 := by
  intro a ended
  have hok : ∀ result : Except StorageError Unit, result.isOk = true → result = .ok () := by
    intro result h
    cases result with
    | error _ => cases h
    | ok _ => rfl
  have hfolder : (Folder.storage.makeFolder "new/out" {}).1 = .ok () := hok _ (by decide +kernel)
  have haccepts : Folder.storage.Accepts (a.files "new/out" repeatedFormats)
      (Folder.storage.makeFolder "new/out" {}).2 :=
    ⟨hok _ (by decide +kernel), hok _ (by decide +kernel), trivial⟩
  obtain ⟨-, hpaths, -, hstate, -⟩ :=
    names_files Folder.storage {} a "new/out" repeatedFormats hfolder haccepts
  refine ⟨hpaths.trans (congrArg Except.ok (by decide +kernel)), ?_⟩
  rw [hstate]
  decide +kernel

end ConnectorAudit
