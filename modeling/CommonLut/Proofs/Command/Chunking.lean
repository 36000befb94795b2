import CommonLut.Proofs.Command.Reading
import CommonLut.Proofs.Document.Evaluation
import CommonLut.Proofs.Document.Nesting

/-!
# Chunks of accepted command lines

Values are evaluated in chunks of whole pixels, so a chunk is a multiple of the stride. The values
have to divide into pixels before they are evaluated, but that says nothing about the stride when
there are no values: the chunks of pixels with `2 ^ 52` channels are longer than any buffer, and
the program, whose arithmetic is checked for overflow, aborts. With smaller strides it evaluates the
values as the list does.

Main definitions: `Command.evaluated?`, `Command.Accepts`, `Command.AcceptsLine`.
Main statements: `Command.exists_task_of_parse`, `Command.evaluated?_eq`,
`Command.exitCode_run_iff`, `Command.AcceptsLine.exitCode_iff`, `Command.chunks_of_accepted`.
-/

namespace CommonLut

namespace Command

/-! ## §1 Sizes in a command line -/

/-- A piece that decides about a command line never decides that it asks for work. -/
theorem Piece.decision?_ne_run {limit : Option Nat} {before : List Piece} (piece : Piece)
    (invocation : Invocation) : piece.decision? limit before ≠ some (.run invocation) := by
  unfold decision?
  grind

theorem firstDecision?_ne_run {limit : Option Nat} {before : List Piece} (pieces : List Piece)
    (invocation : Invocation) : firstDecision? limit before pieces ≠ some (.run invocation) := by
  induction pieces generalizing before with
  | nil => nofun
  | cons piece pieces ih =>
    unfold firstDecision?
    split
    · next request hrequest =>
      rintro ⟨rfl⟩
      exact piece.decision?_ne_run invocation hrequest
    · exact ih

theorem exists_task_of_parseCommand {before : List Piece} {name : CommandName}
    {arguments : List String} {invocation : Invocation}
    (h : parseCommand before name arguments = .run invocation) :
    ∃ pieces, name.task? pieces = some invocation.task := by
  unfold parseCommand at h
  dsimp only at h
  split at h
  · next request hrequest =>
    subst h
    exact absurd hrequest (firstDecision?_ne_run _ invocation)
  · split at h
    · cases h
    · next task htask =>
      cases h
      exact ⟨_, htask⟩

/-- What a command line asks for is the task of a command, with the pieces after its name. -/
theorem exists_task_of_parseFrom {read : List Piece} {fuel : Nat} {arguments : List String}
    {invocation : Invocation} (h : parseFrom read fuel arguments = .run invocation) :
    ∃ (name : CommandName) (pieces : List Piece), name.task? pieces = some invocation.task := by
  induction fuel generalizing read arguments with
  | zero => cases h
  | succ fuel ih =>
    cases arguments with
    | nil => cases h
    | cons argument rest =>
      unfold parseFrom at h
      split at h
      -- A positional argument asks for help or is the name of a command.
      · split at h
        · unfold parseHelp at h
          grind
        · split at h
          · exact ⟨_, exists_task_of_parseCommand h⟩
          · cases h
      -- After an option the name is still to come.
      · dsimp only at h
        split at h
        · next request hrequest =>
          subst h
          exact absurd hrequest (firstDecision?_ne_run _ invocation)
        · exact ih h

theorem exists_task_of_parse {arguments : List String} {invocation : Invocation}
    (h : parse arguments = .run invocation) :
    ∃ (name : CommandName) (pieces : List Piece), name.task? pieces = some invocation.task :=
  exists_task_of_parseFrom h

/-- The stride of a command line is a size of sixty-four bits. -/
theorem stride_lt_of_parse {arguments : List String} {invocation : Invocation} {a : ApplyOptions}
    (h : parse arguments = .run invocation) (htask : invocation.task = .apply a) :
    a.stride < Text.sizeBound := by
  obtain ⟨name, pieces, hpieces⟩ := exists_task_of_parse h
  rw [htask] at hpieces
  unfold CommandName.task? at hpieces
  split at hpieces
  · cases hpieces
  · cases hpieces
  · dsimp only at hpieces
    split at hpieces
    · cases hpieces
    · cases hpieces
      dsimp only
      -- A stride is read within the bound, and the default is within it.
      cases hsize : (valueOf pieces .stride).bind Text.size? with
      | none => decide
      | some n =>
        obtain ⟨text, -, hn⟩ := Option.bind_eq_some_iff.mp hsize
        exact SampleEncoding.natural?_lt hn
  · cases hpieces
  · cases hpieces

/-! ## §2 Chunks -/

/-- A chunk is as long as a number of pixels, which is not zero if a pixel has a channel. -/
theorem chunkLength?_spec {stride length : Nat} (h : chunkLength? stride = some length) :
    length < Text.sizeBound ∧ stride ∣ length ∧ (0 < stride → 0 < length) := by
  obtain ⟨rfl, hlength⟩ := Option.guard_eq_some_iff.mp h
  refine ⟨of_decide_eq_true hlength, Nat.dvd_mul_right stride pixelsPerChunk, fun hstride => ?_⟩
  exact Nat.mul_pos hstride (by decide)

/-- `evaluate?` with checks: the length of a chunk has to fit and not to be zero, and no chunk may
make the list stop. -/
def evaluated? (l : ProcessList) (stride : Nat) (values : List Float32) : Option (List Float32) :=
  if stride = 0 then l.process? 0 values
  else do
    let length ← Checked.size? (stride * pixelsPerChunk)
    let parts ← (← Checked.chunks? length values).mapM (l.process? stride)
    return parts.flatten

/-- Where the list never stops, nothing but the length of the chunks does. -/
theorem evaluated?_eq {l : ProcessList} (hl : ∀ n : Node, n.Within l.nodes → n.Sound) (stride : Nat)
    (values : List Float32) : evaluated? l stride values = evaluate? l stride values := by
  unfold evaluated? evaluate?
  split
  · exact ProcessList.process?_eq hl 0 values
  · next hstride =>
    have hsize : Checked.size? (stride * pixelsPerChunk) = chunkLength? stride := by
      simp [Checked.size?, chunkLength?, Option.guard]
    rw [hsize]
    -- Both stop where a chunk has no length, and neither stops anywhere else.
    cases hlength : chunkLength? stride with
    | none => rfl
    | some length =>
      have hpos : length ≠ 0 :=
        Nat.ne_of_gt ((chunkLength?_spec hlength).2.2 (Nat.pos_of_ne_zero hstride))
      have hparts : (chunks length values).mapM (l.process? stride) =
          some ((chunks length values).map (l.process stride)) :=
        mapM_of_pure fun part _ => ProcessList.process?_eq hl stride part
      have hchunks : Checked.chunks? length values = some (chunks length values) := if_neg hpos
      simp only [Option.bind_eq_bind, Option.bind_some, hchunks, hparts, Option.map_some,
        List.flatMap_def]
      rfl

/-! ## §3 Accepted command lines -/

/-- What is to be evaluated is accepted: the list and the values are read, and the values divide
into pixels. -/
structure Accepts (store : Store) (options : ReadOptions) (a : ApplyOptions) (l : ProcessList)
    (values : List Float32) : Prop where
  list : loadList store options a.list = .ok l
  source : ∃ text, sourceText store a = .ok text ∧ readValues text = .ok values
  pixels : a.stride = 0 ∨ a.stride ∣ values.length

/-- A command line asks for an evaluation that is accepted. -/
def AcceptsLine (store : Store) (arguments : List String) (a : ApplyOptions) (l : ProcessList)
    (values : List Float32) : Prop :=
  ∃ invocation, parse arguments = .run invocation ∧ invocation.task = .apply a ∧
    Accepts store (readOptions invocation.strict) a l values

section

variable {store : Store} {options : ReadOptions} {a : ApplyOptions} {l : ProcessList}
  {values : List Float32}

/-- A list that was loaded never stops if it fits into memory. -/
theorem Accepts.sound (h : Accepts store options a l values) (hfits : l.FitsMemory) :
    ∀ n : Node, n.Within l.nodes → n.Sound := by
  obtain ⟨_, _, -, hread⟩ := ProcessList.readIn_of_load (mapError_eq_ok.mp h.list)
  exact ProcessList.sound_of_readIn hread hfits

/-- A pixel has no more channels than there are values, unless there are none. -/
theorem Accepts.stride_le (h : Accepts store options a l values) :
    values = [] ∨ a.stride ≤ values.length := by
  rcases h.pixels with hzero | hdivides
  · exact .inr (hzero ▸ Nat.zero_le _)
  · rcases List.eq_nil_or_concat values with rfl | ⟨_, _, rfl⟩
    · exact .inl rfl
    · exact .inr (Nat.le_of_dvd (by simp) hdivides)

/-- What fails with a report does not abort. -/
theorem mapError_failure_ne_abort {α : Type} (x : Except Failure α) :
    x.mapError Stop.failure ≠ .error .abort := by
  cases x <;> nofun

/-- Evaluation aborts just if it is accepted and its chunks are too long. -/
theorem applyText_eq_abort_iff : applyText store options a = .error .abort ↔
    ∃ l values, Accepts store options a l values ∧ 2 ^ 52 ≤ a.stride := by
  constructor
  · intro h
    -- Every step before the evaluation fails with a report.
    obtain h | ⟨l, hlist, h⟩ := bind_eq_error.mp h
    · exact absurd h (mapError_failure_ne_abort _)
    obtain h | ⟨text, hsource, h⟩ := bind_eq_error.mp h
    · exact absurd h (mapError_failure_ne_abort _)
    obtain h | ⟨values, hread, h⟩ := bind_eq_error.mp h
    · exact absurd h (mapError_failure_ne_abort _)
    by_cases hmod : 0 < a.stride ∧ values.length % a.stride ≠ 0
    · rw [if_pos hmod] at h
      cases h
    rw [if_neg hmod, evaluate?_eq_ite] at h
    have haccepted : Accepts store options a l values :=
      { list := mapError_eq_ok.mp hlist
        source := ⟨text, mapError_eq_ok.mp hsource, mapError_eq_ok.mp hread⟩
        pixels := by
          rcases Nat.eq_zero_or_pos a.stride with hzero | hpos
          · exact .inl hzero
          · exact .inr (Nat.dvd_of_mod_eq_zero (not_not.mp fun h' => hmod ⟨hpos, h'⟩)) }
    refine ⟨l, values, haccepted, Nat.not_lt.mp fun hstride => ?_⟩
    rw [if_pos hstride] at h
    cases h
  · rintro ⟨l, values, ⟨hlist, ⟨text, hsource, hread⟩, hpixels⟩, hstride⟩
    rw [applyText_eq_ite hlist hsource hread hpixels, if_neg (Nat.not_lt.mpr hstride)]

/-! ## §4 Exit codes -/

theorem Stop.exitCode_outcome_iff {stop : Stop} {output : String} :
    (stop.outcome output store).exitCode = abortCode ↔ stop = .abort := by
  cases stop with
  | failure f => exact iff_of_false (by decide : (1 : UInt32) ≠ abortCode) nofun
  | abort => exact iff_of_true rfl rfl

/-- Describing lists never aborts, however many of them are described before one fails. -/
theorem exitCode_runInfo_ne {expand spaced : Bool} {printed : String} (paths : List String) :
    (runInfo store options expand spaced printed paths).exitCode ≠ abortCode := by
  induction paths generalizing printed with
  | nil => exact (by decide : (0 : UInt32) ≠ abortCode)
  | cons path rest ih =>
    unfold runInfo
    split
    · exact fun h => nomatch Stop.exitCode_outcome_iff.mp h
    · exact ih

theorem exitCode_runConvert_ne (c : ConvertOptions) :
    (runConvert store options c).exitCode ≠ abortCode := by
  unfold runConvert
  split
  · exact (by decide : (0 : UInt32) ≠ abortCode)
  · exact fun h => nomatch Stop.exitCode_outcome_iff.mp h

/-- A result that cannot be written is a failure with a report. -/
theorem exitCode_runApply_iff : (runApply store options a).exitCode = abortCode ↔
    ∃ l values, Accepts store options a l values ∧ 2 ^ 52 ≤ a.stride := by
  rw [← applyText_eq_abort_iff]
  have hwritten : (0 : UInt32) ≠ abortCode := by decide
  unfold runApply
  cases happly : applyText store options a with
  | error stop => exact Stop.exitCode_outcome_iff.trans (by simp)
  | ok text =>
    refine iff_of_false ?_ nofun
    cases a.output with
    | none => exact hwritten
    | some path =>
      dsimp only
      split
      · exact hwritten
      · exact fun h => nomatch Stop.exitCode_outcome_iff.mp h

end

/-- Of all command lines only those for evaluation abort. -/
theorem exitCode_run_iff {store : Store} {arguments : List String} :
    (run store arguments).exitCode = abortCode ↔
      ∃ a l values, AcceptsLine store arguments a l values ∧ 2 ^ 52 ≤ a.stride := by
  have hline : (∃ a l values, AcceptsLine store arguments a l values ∧ 2 ^ 52 ≤ a.stride) ↔
      ∃ invocation, parse arguments = .run invocation ∧ ∃ a, invocation.task = .apply a ∧
        ∃ l values, Accepts store (readOptions invocation.strict) a l values ∧
          2 ^ 52 ≤ a.stride := by
    unfold AcceptsLine
    grind
  rw [hline]
  unfold run
  -- Every command but evaluation ends with a code of its own.
  cases parse arguments with
  | help | version => exact iff_of_false (by decide : (0 : UInt32) ≠ abortCode) (by simp)
  | misuse => exact iff_of_false (by decide : misuseCode ≠ abortCode) (by simp)
  | run invocation =>
    simp only [Request.run.injEq, exists_eq_left']
    cases invocation.task with
    | info inputs => exact iff_of_false (exitCode_runInfo_ne inputs) (by simp)
    | convert c => exact iff_of_false (exitCode_runConvert_ne c) (by simp)
    | apply a =>
      simp only [Task.apply.injEq, exists_eq_left']
      exact exitCode_runApply_iff

/-- A command line is accepted in one way only, so its stride decides whether the program aborts. -/
theorem AcceptsLine.exitCode_iff {store : Store} {arguments : List String} {a : ApplyOptions}
    {l : ProcessList} {values : List Float32} (h : AcceptsLine store arguments a l values) :
    (run store arguments).exitCode = abortCode ↔ 2 ^ 52 ≤ a.stride := by
  rw [exitCode_run_iff]
  constructor
  · rintro ⟨a', l', values', ⟨invocation', hparse', htask', -⟩, hlarge⟩
    obtain ⟨invocation, hparse, htask, -⟩ := h
    cases hparse.symm.trans hparse'
    cases htask.symm.trans htask'
    exact hlarge
  · exact fun hlarge => ⟨a, l, values, h, hlarge⟩

/-! ## §5 Strides without values -/

/-- A size is not taken for an option. -/
theorem looksPositional_decimal (n : Nat) : looksPositional (Text.decimal n) := by
  have hdash : ∀ d : Fin 10, d.val.digitChar ≠ '-' := by decide
  unfold looksPositional Text.decimal
  rw [String.toList_ofList]
  split
  · next c rest hdigits =>
    have hfirst : '-' ∈ Nat.toDigits 10 n := by simp [hdigits]
    obtain ⟨d, hd, hchar⟩ := Text.exists_digitChar_of_mem_toDigits (by decide) hfirst
    exact absurd hchar.symm (hdash ⟨d, hd⟩)
  · rfl

/-- The arguments that ask for a stride and give no values. -/
def emptyArguments (path : String) (stride : Nat) : List String :=
  ["apply", path, "-V", "", "-s", Text.decimal stride]

/-- Every stride of sixty-four bits can be asked for. -/
theorem parse_emptyArguments {path : String} (hpath : looksPositional path) (hne : path ≠ "")
    {stride : Nat} (hstride : stride < Text.sizeBound) :
    parse (emptyArguments path stride) =
      .run { task := .apply { list := path, values := some "", stride } } := by
  -- The arguments after the name of the command, one piece after the other.
  have hlist : ∀ rest, nextPieces applyForms path rest = ([.positional path], rest) := by
    intro rest
    unfold nextPieces
    unfold looksPositional at hpath
    grind
  have hvalues : ∀ rest,
      nextPieces applyForms "-V" ("" :: rest) = ([.option .values (some "")], rest) :=
    fun _ => rfl
  have hsize : nextPieces applyForms "-s" [Text.decimal stride] =
      ([.option .stride (some (Text.decimal stride))], []) := by
    have hvalued : valued .stride none [Text.decimal stride] =
        (.option .stride (some (Text.decimal stride)), []) :=
      if_pos (looksPositional_decimal stride)
    exact congrArg (fun p : Piece × List String => ([p.1], p.2)) hvalued
  have hsplit : splitArguments applyForms 5 [path, "-V", "", "-s", Text.decimal stride] =
      [.positional path, .option .values (some ""),
        .option .stride (some (Text.decimal stride))] := by
    simp [splitArguments, hlist, hvalues, hsize]
  have hread := Text.size?_decimal hstride
  have hdecision : firstDecision? (some 1) [] [.positional path, .option .values (some ""),
      .option .stride (some (Text.decimal stride))] = none := by
    simp [firstDecision?, Piece.decision?, isWellFormed, pathOptions, sizeOptions, positionals,
      countOf, hne, hread]
  have hcommand : parse (emptyArguments path stride) =
      parseCommand [] .apply [path, "-V", "", "-s", Text.decimal stride] := rfl
  rw [hcommand, parseCommand]
  simp only [CommandName.forms, CommandName.positionalLimit, List.length_cons, List.length_nil,
    hsplit, hdecision]
  simp [CommandName.task?, positionals, valueOf, countOf, hread]

section

variable {store : Store} {path : String} {l : ProcessList} {stride : Nat}

/-- No values divide into pixels of any length. -/
theorem acceptsLine_emptyArguments (hpath : looksPositional path) (hne : path ≠ "")
    (hload : loadList store {} path = .ok l) (hstride : stride < Text.sizeBound) :
    AcceptsLine store (emptyArguments path stride) { list := path, values := some "", stride }
      l [] :=
  ⟨_, parse_emptyArguments hpath hne hstride, rfl,
    { list := hload, source := ⟨"", rfl, rfl⟩, pixels := .inr (Nat.dvd_zero stride) }⟩

/-- Without values the program aborts at every stride whose chunks are too long. -/
theorem exitCode_emptyArguments_iff (hpath : looksPositional path) (hne : path ≠ "")
    (hload : loadList store {} path = .ok l) (hstride : stride < Text.sizeBound) :
    (run store (emptyArguments path stride)).exitCode = abortCode ↔ 2 ^ 52 ≤ stride :=
  (acceptsLine_emptyArguments hpath hne hload hstride).exitCode_iff

end

/-! ## §6 Accepted command lines evaluated -/

/-- The chunks of an accepted command line are not empty and hold whole pixels, and chunk by chunk
the list makes of the values what it makes of them at once, with nothing that stops if the list fits
into memory. The length of a chunk fits just if the stride is below `2 ^ 52`: that the values divide
into pixels bounds the stride by their number, and not at all if there are none. The program aborts
at the other strides, and on no command line that is not accepted. -/
theorem chunks_of_accepted (store : Store) (arguments : List String) :
    (∀ {a l values}, AcceptsLine store arguments a l values →
      a.stride < Text.sizeBound ∧
      (∀ length, chunkLength? a.stride = some length →
        length < Text.sizeBound ∧ a.stride ∣ length ∧ (0 < a.stride → 0 < length)) ∧
      (chunkLength? a.stride = none ↔ 2 ^ 52 ≤ a.stride) ∧
      evaluate? l a.stride values =
        (if a.stride < 2 ^ 52 then some (l.process a.stride values) else none) ∧
      (l.FitsMemory → evaluated? l a.stride values = evaluate? l a.stride values) ∧
      (values = [] ∨ a.stride ≤ values.length) ∧
      ((run store arguments).exitCode = abortCode ↔ 2 ^ 52 ≤ a.stride)) ∧
    ((run store arguments).exitCode = abortCode →
      ∃ a l values, AcceptsLine store arguments a l values) := by
  constructor
  · rintro a l values h
    obtain ⟨invocation, hparse, htask, haccepted⟩ := id h
    refine ⟨stride_lt_of_parse hparse htask, fun length => chunkLength?_spec, ?_,
      evaluate?_eq_ite l a.stride values,
      fun hfits => evaluated?_eq (haccepted.sound hfits) a.stride values, haccepted.stride_le,
      h.exitCode_iff⟩
    rw [chunkLength?_eq_ite]
    simp
  · intro habort
    obtain ⟨a, l, values, h, -⟩ := exitCode_run_iff.mp habort
    exact ⟨a, l, values, h⟩

/-- The file in the store is read as its list. -/
theorem loadList_tenBitFile :
    loadList (ProcessList.besideFile ProcessList.tenBitFile) {} "target.clf" =
      .ok ProcessList.tenBitList := by
  apply mapError_eq_ok.mpr
  have hbytes : (ProcessList.besideFile ProcessList.tenBitFile).read ["target.clf"] =
      .ok ProcessList.tenBitFile.toBytes := rfl
  rw [ProcessList.load_eq_readBytes rfl hbytes]
  exact ProcessList.readBytes_eq_ok.mpr
    ⟨_, ProcessList.rootElement_toBytes ProcessList.writable_tenBitFile, rfl⟩

/-- One pixel is a chunk that is not full. -/
theorem chunks_of_accepted_pixel :
    let store := ProcessList.besideFile ProcessList.tenBitFile
    let arguments := ["apply", "target.clf", "-V", "0 1 NaN"]
    let values : List Float32 := [0.0, 1.0, Float32.ofBits 0x7fc00000]
    AcceptsLine store arguments { list := "target.clf", values := some "0 1 NaN" }
        ProcessList.tenBitList values ∧
      ProcessList.tenBitList.FitsMemory ∧
      evaluated? ProcessList.tenBitList 3 values =
        some (ProcessList.tenBitList.process 3 values) ∧
      (run store arguments).exitCode ≠ abortCode := by
  intro store arguments values
  have haccepted : AcceptsLine store arguments { list := "target.clf", values := some "0 1 NaN" }
      ProcessList.tenBitList values := by
    have hparse : parse arguments =
        .run { task := .apply { list := "target.clf", values := some "0 1 NaN" } } := by
      decide +kernel
    have hread : readValues "0 1 NaN" = .ok values := by decide +kernel
    exact ⟨_, hparse, rfl,
      { list := loadList_tenBitFile, source := ⟨_, rfl, hread⟩, pixels := .inr ⟨1, rfl⟩ }⟩
  have hfits : ProcessList.tenBitList.FitsMemory := by
    refine Node.forall_within_cons.mpr ⟨⟨fun c op hnode => ?_, Node.forall_within_nil⟩,
      Node.forall_within_nil⟩
    cases hnode
    exact ⟨nofun, nofun⟩
  obtain ⟨hchunks, -⟩ := chunks_of_accepted store arguments
  obtain ⟨-, -, -, hevaluate, hchecked, -, hexit⟩ := hchunks haccepted
  have hsmall : ¬ 2 ^ 52 ≤ 3 := by decide
  exact ⟨haccepted, hfits, (hchecked hfits).trans hevaluate, fun h => hsmall (hexit.mp h)⟩

/-- With no values every stride is let through, and `2 ^ 52` is one whose chunks are too long. -/
theorem exists_accepted_abort :
    let store := ProcessList.besideFile ProcessList.tenBitFile
    let arguments := ["apply", "target.clf", "-V", "", "-s", "4503599627370496"]
    AcceptsLine store arguments { list := "target.clf", values := some "", stride := 2 ^ 52 }
        ProcessList.tenBitList [] ∧
      evaluate? ProcessList.tenBitList (2 ^ 52) [] = none ∧
      ProcessList.tenBitList.process (2 ^ 52) [] = [] ∧
      (run store arguments).exitCode = abortCode := by
  intro store arguments
  have harguments : arguments = emptyArguments "target.clf" (2 ^ 52) := by decide +kernel
  have hpath : looksPositional "target.clf" := by decide
  have hne : "target.clf" ≠ "" := by decide
  have hstride : 2 ^ 52 < Text.sizeBound := by decide
  rw [harguments]
  refine ⟨acceptsLine_emptyArguments hpath hne loadList_tenBitFile hstride, ?_, ?_, ?_⟩
  · rw [evaluate?_eq_ite, if_neg (Nat.lt_irrefl _)]
  · exact List.length_eq_zero_iff.mp (ProcessList.length_process _ _ _)
  · exact (exitCode_emptyArguments_iff hpath hne loadList_tenBitFile hstride).mpr (Nat.le_refl _)

end Command

end CommonLut
