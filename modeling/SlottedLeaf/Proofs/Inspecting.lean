import SlottedLeaf.Command.Run
import SlottedLeaf.Proofs.Accounting
import SlottedLeaf.Proofs.Persistence

/-!
# What an inspection leaves of a directory

An inspection opens a file as a page store, and that is the only access of it that can change
anything: it makes a file where there is none, and it gives a file without pages its first one. The
first cannot happen, since an inspection looks for the file before it opens it. The second does
happen, to an empty file, and then there is no page to show.
-/

namespace SlottedLeaf

/-! ## Directories -/

namespace Directory

variable {directory : Directory} {here : List String} {path : String} {content : Bytes}

/-- The directory with this content in the file at a place, if there is one. -/
def fill (directory : Directory) (here : List String) (content : Bytes) : Directory :=
  { directory with
    files := directory.files.map fun file =>
      if place file.1 = here then (file.1, content) else file }

theorem write_eq_fill (located : directory.locate path = .ok here) (content : Bytes) :
    directory.write path content = directory.fill here content := by
  rw [write, located]
  rfl

theorem fst_filled (here : List String) (content : Bytes) (file : String × Bytes) :
    (if place file.1 = here then (file.1, content) else file).1 = file.1 := by
  split <;> rfl

theorem names_fill (here : List String) (content : Bytes) :
    (directory.fill here content).files.map Prod.fst = directory.files.map Prod.fst := by
  rw [fill, List.map_map]
  exact List.map_congr_left fun file _ => fst_filled here content file

theorem isFolder_fill (content : Bytes) (other : List String) :
    (directory.fill here content).isFolder other = directory.isFolder other := by
  simp only [isFolder, fill, List.any_map, Function.comp_def, fst_filled]

theorem content?_fill (there : (directory.content? here).isSome) (content : Bytes)
    (other : List String) :
    (directory.fill here content).content? other =
      if other = here then some content else directory.content? other := by
  simp only [content?] at there ⊢
  simp only [fill, List.find?_map, Function.comp_def, fst_filled]
  by_cases equal : other = here
  · subst equal
    rw [Option.isSome_map] at there
    obtain ⟨file, found⟩ := Option.isSome_iff_exists.mp there
    have placed := List.find?_some found
    rw [found, if_pos rfl]
    simp only [Option.map_some, decide_eq_true_eq] at placed ⊢
    rw [if_pos placed]
  · rw [if_neg equal]
    cases found : directory.files.find? fun file => decide (place file.1 = other) with
    | none => rfl
    | some file =>
      have placed := List.find?_some found
      simp only [Option.map_some, decide_eq_true_eq] at placed ⊢
      rw [if_neg (placed ▸ equal)]

theorem walk_fill (there : (directory.content? here).isSome) (content : Bytes)
    (start names : List String) :
    (directory.fill here content).walk start names = directory.walk start names := by
  have still (other : List String) : ((directory.fill here content).content? other).isSome =
      (directory.content? other).isSome := by
    rw [content?_fill there]
    split
    · rename_i equal
      rw [equal, there]
      rfl
    · rfl
  induction names generalizing start with
  | nil => rfl
  | cons name rest ih =>
    simp only [walk, still, isFolder_fill, ih]

theorem locate_fill (there : (directory.content? here).isSome) (content : Bytes) (path : String) :
    (directory.fill here content).locate path = directory.locate path := by
  simp only [locate, walk_fill there]

/-! What a path leads to outside the files of the directory is never a file. -/

theorem walkAbove_ne_file (names : List String) : walkAbove names ≠ .file content := by
  rw [walkAbove]
  split
  · simp
  · split <;> simp

theorem walk_ne_file (start names : List String) :
    directory.walk start names ≠ .error (.file content) := by
  induction names generalizing start with
  | nil => simp [walk]
  | cons name rest ih =>
    rw [walk]
    split
    · simp
    split
    · simp
    split
    · exact ih start
    split
    · split
      · simp [walkAbove_ne_file]
      · exact ih start.dropLast
    split
    · simp
    · exact ih (start ++ [name])

theorem entryFromRoot_ne_file (names : List String) : entryFromRoot names ≠ .file content := by
  rw [entryFromRoot]
  split
  · rename_i here _
    have bare : root.content? here = none := rfl
    rw [entryAt, bare]
    dsimp only
    split <;> simp
  · rename_i entry walked
    intro equal
    exact walk_ne_file _ _ (equal ▸ walked)

theorem locate_ne_file (path : String) : directory.locate path ≠ .error (.file content) := by
  rw [locate]
  split
  · simp
  split
  · simp
  split
  · simp [entryFromRoot_ne_file]
  · exact walk_ne_file _ _

theorem entryAt_eq_file_iff :
    directory.entryAt here = .file content ↔ directory.content? here = some content := by
  rw [entryAt]
  split
  · rename_i found
    rw [found, Entry.file.injEq, Option.some.injEq]
  · rename_i absent
    rw [absent]
    split <;> simp

/-- A path leads to a file exactly if it leads to a place in the directory that has one. -/
theorem entry_eq_file_iff : directory.entry path = .file content ↔
    ∃ here, directory.locate path = .ok here ∧ directory.content? here = some content := by
  rw [entry]
  cases located : directory.locate path with
  | ok here => simp [entryAt_eq_file_iff]
  | error entry =>
    constructor
    · intro equal
      have equal : entry = .file content := equal
      exact absurd (equal ▸ located) (locate_ne_file path)
    · rintro ⟨_, impossible, _⟩
      cases impossible

theorem entryAt_fill (there : (directory.content? here).isSome) (content : Bytes)
    (other : List String) :
    (directory.fill here content).entryAt other =
      if other = here then .file content else directory.entryAt other := by
  rw [entryAt, content?_fill there, isFolder_fill]
  by_cases equal : other = here
  · rw [if_pos equal, if_pos equal]
  · rw [if_neg equal, if_neg equal, entryAt]

/-- New content in a file shows at every path that leads there, and at no other. -/
theorem entry_fill (there : (directory.content? here).isSome) (content : Bytes) (path : String) :
    (directory.fill here content).entry path =
      if directory.locate path = .ok here then .file content else directory.entry path := by
  rw [entry, entry, locate_fill there]
  cases directory.locate path with
  | error entry => rfl
  | ok place => simp only [entryAt_fill there, Except.ok.injEq]

/-- A file that is given the content it has stays as it is, and so does all else. -/
theorem entry_fill_same (present : directory.content? here = some content) (path : String) :
    (directory.fill here content).entry path = directory.entry path := by
  rw [entry_fill (Option.isSome_of_mem present)]
  split
  · rename_i located
    exact (entry_eq_file_iff.mpr ⟨here, located, present⟩).symm
  · rfl

/-! ## Accesses -/

/-- Opens the file at a place to read and write, which makes an empty one where there is none. -/
def openAt (directory : Directory) (here : List String) : Bytes × Directory :=
  match directory.content? here with
  | some content => (content, directory)
  | none => ([], { directory with files := ("/".intercalate here, []) :: directory.files })

/-- The path `p` leads to the file of this name. -/
theorem entry_letter (content : Bytes) : entry ⟨[("p", content)], []⟩ "p" = .file content := by
  have names : names "p" = ["p"] := by
    rw [names, String.splitOn, if_neg (by decide), String.splitOnAux, if_neg (by decide +kernel),
      if_neg (by decide +kernel), String.splitOnAux, if_pos (by decide +kernel)]
    decide +kernel
  have place : place "p" = ["p"] := by
    rw [place, names]
    decide +kernel
  have above : content? ⟨[("p", content)], []⟩ [] = none := by
    simp [content?, place]
  have here : content? ⟨[("p", content)], []⟩ ["p"] = some content := by
    simp [content?, place]
  have located : locate ⟨[("p", content)], []⟩ "p" = .ok ["p"] := by
    have short : ¬ nameLimit < "p".utf8ByteSize := by decide +kernel
    rw [locate, if_neg (by decide), if_neg (by decide +kernel), if_neg (by decide +kernel), names]
    simp [walk, above, isFolder, isIdle, short]
  rw [entry, located]
  simp only [entryAt, here]

end Directory

/-- Opens the file at a place as a page store, access by access: the file is opened, and set to the
length of one page if it has none. -/
def FileStore.openAt (pageSize : Nat) (here : List String) (directory : Directory) :
    Except Fault FileStore × Directory :=
  match checkPageSize pageSize with
  | .error fault => (.error fault, directory)
  | .ok () =>
    let (content, opened) := directory.openAt here
    match ofFile pageSize (.ofBytes content) with
    | .error fault => (.error fault, opened)
    | .ok store =>
      let pages := content.length / pageSize
      (.ok store, if pages = 0 then opened.fill here (content.resize pageSize) else opened)

namespace FileStore

variable {directory : Directory} {here : List String} {content : Bytes} {pageSize : Nat}

/-- Where no file is, opening a page store makes one. -/
theorem openAt_of_absent (absent : directory.content? here = none)
    (valid : checkPageSize pageSize = .ok ()) :
    ((openAt pageSize here directory).2.files.map Prod.fst) =
      "/".intercalate here :: directory.files.map Prod.fst := by
  simp only [openAt, Directory.openAt, valid, absent, ofFile_empty valid, List.length_nil,
    Nat.zero_div, if_true, Directory.names_fill, List.map_cons]

/-- Of the files that are there, opening a page store changes an empty one only. -/
theorem openAt_of_present (present : directory.content? here = some content) :
    openAt pageSize here directory =
      (ofFile pageSize (.ofBytes content),
        if content = [] ∧ checkPageSize pageSize = .ok () then directory.fill here (.zeros pageSize)
        else directory) := by
  cases valid : checkPageSize pageSize with
  | error fault =>
    have refused : ofFile pageSize (.ofBytes content) = .error fault := by
      rw [ofFile, valid]
      rfl
    simp [openAt, valid, refused]
  | ok =>
    simp only [openAt, Directory.openAt, valid, present]
    by_cases empty : content = []
    · subst empty
      simp [ofFile_empty valid, Bytes.resize]
    · cases opens : ofFile pageSize (.ofBytes content) with
      | error fault => simp [empty]
      | ok store =>
        obtain ⟨_, whole, _, _⟩ := ofFile_ok opens
        have pages : content.length / pageSize ≠ 0 := fun none =>
          empty (List.eq_nil_of_length_eq_zero
            (Nat.eq_zero_of_dvd_of_div_eq_zero (Nat.dvd_of_mod_eq_zero whole) none))
        simp [empty, pages]

end FileStore

/-! ## Reports -/

namespace Report

variable {content : Bytes} {pageSize : Nat}

/-- An empty file has no page to show, and is one page of zeros afterwards. -/
theorem ofFile_of_empty (valid : checkPageSize pageSize = .ok ()) (page : PageId) :
    ∃ fault, ofFile pageSize page [] = (.error fault, .zeros pageSize) := by
  obtain ⟨low, _⟩ := (checkPageSize_eq_ok_iff pageSize).mp valid
  have opens := FileStore.ofFile_empty valid
  have blank : SparseFile.toBytes ⟨pageSize, []⟩ = Bytes.zeros pageSize := by
    simp [SparseFile.toBytes, SparseFile.window, Buffer.zeros, Bytes.zeros]
  cases kept : FileStore.read ⟨pageSize, ⟨pageSize, []⟩, 1, .empty⟩ page with
  | error fault =>
    refine ⟨fault, ?_⟩
    simp only [ofFile, opens, kept, blank]
    rfl
  | ok image =>
    -- A page that is read lies inside the file as it was, and here there is no room for one.
    have inside := (FileStore.toList_of_read opens kept).1
    have positive : 0 < minPageSize := by decide
    rw [List.length_nil] at inside
    omega

/-- A file with something in it, or one that cannot be opened, stays as it is. -/
theorem ofFile_of_other (page : PageId)
    (other : ¬ (content = [] ∧ checkPageSize pageSize = .ok ())) :
    ∃ result, ofFile pageSize page content = (result, content) := by
  rw [ofFile]
  split
  · exact ⟨_, rfl⟩
  · rename_i store opens
    obtain ⟨valid, whole, _, rfl⟩ := FileStore.ofFile_ok opens
    have pages : (SparseFile.ofBytes content).length / pageSize ≠ 0 := fun none =>
      other ⟨List.eq_nil_of_length_eq_zero
        (Nat.eq_zero_of_dvd_of_div_eq_zero (Nat.dvd_of_mod_eq_zero whole) none), valid⟩
    have length : (SparseFile.ofBytes content).length = content.length := rfl
    have whole : (SparseFile.ofBytes content).toBytes = content := by
      rw [SparseFile.toBytes, SparseFile.window_ofBytes]
      simp [length, Bytes.slice, Bytes.resize, Bytes.zeros]
    dsimp only
    rw [if_neg pages, whole]
    exact ⟨_, rfl⟩

end Report

/-! ## Runs -/

namespace Command

/-- The request opens an empty file as a page store of a size that pages can have. -/
structure Request.OpensEmpty (request : Request) (directory : Directory) (pageSize : Nat) :
    Prop where
  sized : ∃ config, request.loadConfig directory.entry = .ok config ∧
    request.pageSize.getD config.pageSize = pageSize
  valid : minPageSize ≤ pageSize ∧ pageSize ≤ maxPageSize
  empty : directory.entry request.file = .file []

/-- The command line asks for a page of this size of the file at `path`, which is empty. -/
def OpensEmpty (directory : Directory) (environment : String → Option String)
    (arguments : List String) (path : String) (pageSize : Nat) : Prop :=
  ∃ request, Request.ofArguments environment arguments = .ok request ∧ request.file = path ∧
    request.OpensEmpty directory pageSize

/-- The outcome, and the directory after the file that it tells of got its content. -/
def Outcome.over (outcome : Outcome) (directory : Directory) : Outcome × Directory :=
  (outcome, outcome.written.elim directory fun (path, content) => directory.write path content)

/-- What a run ends with once the page was looked at. -/
def Request.outcome (request : Request) (result : Except Fault Report)
    (written : Option (String × Bytes)) : Outcome :=
  match result with
  | .error fault => .failed fault.message written
  | .ok report => ⟨0, request.format.print report, none, written⟩

/-- Runs a request access by access: the configuration is read, the file looked for, and only a
file that is there opened as a page store. -/
def Request.runOver (request : Request) (directory : Directory) : Outcome × Directory :=
  match request.loadConfig directory.entry with
  | .error fault => (.failed fault.message none, directory)
  | .ok config =>
    match directory.entry request.file, directory.locate request.file with
    | .file _, .ok here =>
      let pageSize := request.pageSize.getD config.pageSize
      let (store, after) := FileStore.openAt pageSize here directory
      (request.outcome (store >>= fun store => store.read request.page >>=
        Report.ofImage request.page) none, after)
    | _, _ => (.failed (request.file ++ " does not exist") none, directory)

/-- Runs a command line over a directory access by access, and gives the directory afterwards. -/
def runOver (directory : Directory) (environment : String → Option String)
    (arguments : List String) : Outcome × Directory :=
  match Request.ofArguments environment arguments with
  | .error stop => (.ofStop stop, directory)
  | .ok request => request.runOver directory

namespace Request

variable {request : Request} {directory : Directory} {config : Config} {content : Bytes}
  {here : List String}

/-! A run stops at the configuration, or where there is no file, or it looks at a page. -/

theorem runs_of_fault {fault : Fault}
    (refused : request.loadConfig directory.entry = .error fault) :
    request.run directory.entry = .failed fault.message none ∧
      request.runOver directory = (.failed fault.message none, directory) := by
  rw [run, runOver, refused]
  exact ⟨rfl, rfl⟩

theorem runs_of_no_file (configured : request.loadConfig directory.entry = .ok config)
    (no_file : ∀ content, directory.entry request.file ≠ .file content) :
    request.run directory.entry = .failed (request.file ++ " does not exist") none ∧
      request.runOver directory =
        (.failed (request.file ++ " does not exist") none, directory) := by
  rw [run, runOver, configured]
  cases found : directory.entry request.file with
  | file content => exact absurd found (no_file content)
  | missing | folder | pastFile | overlong => exact ⟨rfl, rfl⟩

theorem runs_of_file {result : Except Fault Report} {after : Bytes}
    (configured : request.loadConfig directory.entry = .ok config)
    (located : directory.locate request.file = .ok here)
    (present : directory.content? here = some content)
    (reported : Report.ofFile (request.pageSize.getD config.pageSize) request.page content =
      (result, after)) :
    request.run directory.entry = request.outcome result (some (request.file, after)) ∧
      request.runOver directory = (request.outcome result none,
        if content = [] ∧ checkPageSize (request.pageSize.getD config.pageSize) = .ok () then
          directory.fill here (.zeros (request.pageSize.getD config.pageSize))
        else directory) := by
  have found := Directory.entry_eq_file_iff.mpr ⟨here, located, present⟩
  constructor
  · simp only [run, configured, found, reported]
    rfl
  · simp only [runOver, configured, found, located, FileStore.openAt_of_present present]
    rw [Report.ofFile] at reported
    split at reported
    · rename_i fault opens
      cases reported
      rw [opens]
      rfl
    · rename_i store opens
      cases reported
      rw [opens]
      rfl

theorem written_outcome (result : Except Fault Report) (written : Option (String × Bytes)) :
    (request.outcome result written).written = written := by
  cases result <;> rfl

theorem outcome_unwritten (result : Except Fault Report) (written : Option (String × Bytes)) :
    { request.outcome result written with written := none } = request.outcome result none := by
  cases result <;> rfl

end Request

/-- What runs over a directory leave of it, the one access by access and the other at once, if
`opens` says which empty files they open and with what page size. -/
structure Leaves (directory : Directory) (opens : String → Nat → Prop)
    (run told : Outcome × Directory) : Prop where
  /-- They end alike. -/
  outcome : run.1 = { told.1 with written := none }
  /-- Every path leads to the same in both. -/
  entry : ∀ path, run.2.entry path = told.2.entry path
  /-- No file comes or goes. -/
  files : run.2.files.map Prod.fst = directory.files.map Prod.fst ∧
    told.2.files.map Prod.fst = directory.files.map Prod.fst
  folders : run.2.folders = directory.folders ∧ told.2.folders = directory.folders
  /-- Nothing changes if no empty file is opened. -/
  kept : (∀ path pageSize, ¬ opens path pageSize) → run.2 = directory
  /-- An empty file that is opened gets one page of zeros, and the run fails. All else stays. -/
  extended : ∀ path pageSize, opens path pageSize → run.1.status = 1 ∧
    ∀ other, run.2.entry other =
      if directory.locate other = directory.locate path then .file (.zeros pageSize)
      else directory.entry other

namespace Leaves

variable {directory : Directory} {opens : String → Nat → Prop} {outcome : Outcome}
  {path : String} {here : List String} {content : Bytes}

theorem over_of_written (located : directory.locate path = .ok here)
    (written : outcome.written = some (path, content)) :
    outcome.over directory = (outcome, directory.fill here content) := by
  rw [Outcome.over, written]
  exact congrArg _ (Directory.write_eq_fill located content)

/-- A run that opens no file. -/
theorem of_unopened (unwritten : outcome.written = none)
    (never : ∀ path pageSize, ¬ opens path pageSize) :
    Leaves directory opens (outcome, directory) (outcome.over directory) := by
  obtain ⟨status, output, complaint, written⟩ := outcome
  subst unwritten
  exact ⟨rfl, fun _ => rfl, ⟨rfl, rfl⟩, ⟨rfl, rfl⟩, fun _ => rfl,
    fun path pageSize opened => absurd opened (never path pageSize)⟩

/-- A run that leaves the file it opens with the content it had. -/
theorem of_unchanged (located : directory.locate path = .ok here)
    (present : directory.content? here = some content)
    (written : outcome.written = some (path, content))
    (never : ∀ path pageSize, ¬ opens path pageSize) :
    Leaves directory opens ({ outcome with written := none }, directory)
      (outcome.over directory) := by
  rw [over_of_written located written]
  exact {
    outcome := rfl
    entry := fun path => (Directory.entry_fill_same present path).symm
    files := ⟨rfl, Directory.names_fill here content⟩
    folders := ⟨rfl, rfl⟩
    kept := fun _ => rfl
    extended := fun path pageSize opened => absurd opened (never path pageSize) }

/-- A run that opens an empty file and fails. -/
theorem of_extended {pageSize : Nat} (located : directory.locate path = .ok here)
    (present : directory.content? here = some [])
    (written : outcome.written = some (path, .zeros pageSize)) (failed : outcome.status = 1)
    (opened : opens path pageSize)
    (only : ∀ other size, opens other size → other = path ∧ size = pageSize) :
    Leaves directory opens
      ({ outcome with written := none }, directory.fill here (.zeros pageSize))
      (outcome.over directory) := by
  have names := directory.names_fill here (.zeros pageSize)
  rw [over_of_written located written]
  refine ⟨rfl, fun _ => rfl, ⟨names, names⟩, ⟨rfl, rfl⟩,
    fun never => absurd opened (never path pageSize), ?_⟩
  intro other size open_there
  obtain ⟨rfl, rfl⟩ := only other size open_there
  refine ⟨failed, fun other => ?_⟩
  rw [Directory.entry_fill (Option.isSome_of_mem present), located]

end Leaves

namespace Request

variable {request : Request} {directory : Directory} {config : Config}

theorem OpensEmpty.size_eq {pageSize : Nat} (opened : request.OpensEmpty directory pageSize)
    (configured : request.loadConfig directory.entry = .ok config) :
    pageSize = request.pageSize.getD config.pageSize := by
  obtain ⟨loaded, same, rfl⟩ := opened.sized
  rw [configured] at same
  cases same
  rfl

/-- A request that finds its file changes it only if it is empty. -/
theorem leaves_of_file {here : List String} {content : Bytes}
    (configured : request.loadConfig directory.entry = .ok config)
    (located : directory.locate request.file = .ok here)
    (present : directory.content? here = some content) :
    Leaves directory
      (fun path pageSize => request.file = path ∧ request.OpensEmpty directory pageSize)
      (request.runOver directory) ((request.run directory.entry).over directory) := by
  have found := Directory.entry_eq_file_iff.mpr ⟨here, located, present⟩
  by_cases empty : content = [] ∧
      checkPageSize (request.pageSize.getD config.pageSize) = .ok ()
  · obtain ⟨rfl, valid⟩ := empty
    obtain ⟨fault, reported⟩ := Report.ofFile_of_empty valid request.page
    obtain ⟨ran, ran_over⟩ := runs_of_file configured located present reported
    rw [ran, ran_over, if_pos ⟨rfl, valid⟩, ← outcome_unwritten _ (some (request.file, _))]
    refine .of_extended located present rfl rfl ⟨rfl, ⟨config, configured, rfl⟩,
      (checkPageSize_eq_ok_iff _).mp valid, found⟩ ?_
    rintro _ pageSize ⟨rfl, opened⟩
    exact ⟨rfl, opened.size_eq configured⟩
  -- The content that is written here is the one that was read.
  · obtain ⟨result, reported⟩ := Report.ofFile_of_other request.page empty
    obtain ⟨ran, ran_over⟩ := runs_of_file configured located present reported
    rw [ran, ran_over, if_neg empty, ← outcome_unwritten _ (some (request.file, content))]
    refine .of_unchanged located present (written_outcome ..) ?_
    rintro _ pageSize ⟨rfl, opened⟩
    have same := found.symm.trans opened.empty
    cases same
    refine empty ⟨rfl, ?_⟩
    rw [← opened.size_eq configured]
    exact (checkPageSize_eq_ok_iff pageSize).mpr opened.valid

/-- A request leaves all files as they are, but for an empty one that it opens. -/
theorem leaves (request : Request) (directory : Directory) :
    Leaves directory
      (fun path pageSize => request.file = path ∧ request.OpensEmpty directory pageSize)
      (request.runOver directory) ((request.run directory.entry).over directory) := by
  cases configured : request.loadConfig directory.entry with
  | error fault =>
    obtain ⟨ran, ran_over⟩ := runs_of_fault configured
    rw [ran, ran_over]
    refine .of_unopened rfl ?_
    rintro _ _ ⟨_, ⟨config, loaded, _⟩, _, _⟩
    rw [configured] at loaded
    cases loaded
  | ok config =>
    by_cases no_file : ∀ content, directory.entry request.file ≠ .file content
    · obtain ⟨ran, ran_over⟩ := runs_of_no_file configured no_file
      rw [ran, ran_over]
      refine .of_unopened rfl ?_
      rintro _ _ ⟨_, _, _, empty⟩
      exact no_file [] empty
    · push Not at no_file
      obtain ⟨content, found⟩ := no_file
      obtain ⟨here, located, present⟩ := Directory.entry_eq_file_iff.mp found
      exact leaves_of_file configured located present

end Request

/-- A run over a directory leaves all files as they are, but for an empty one that it opens. -/
theorem runs_leave (directory : Directory) (environment : String → Option String)
    (arguments : List String) :
    Leaves directory (OpensEmpty directory environment arguments)
      (runOver directory environment arguments) (runIn directory environment arguments) := by
  rw [runOver, runIn, run]
  cases asked : Request.ofArguments environment arguments with
  | error stop =>
    refine .of_unopened ?_ ?_
    · cases stop <;> rfl
    · rintro path pageSize ⟨request, asks, _⟩
      rw [asked] at asks
      cases asks
  | ok request =>
    have opens : OpensEmpty directory environment arguments = fun path pageSize =>
        request.file = path ∧ request.OpensEmpty directory pageSize := by
      funext path pageSize
      simp [OpensEmpty, asked]
    rw [opens]
    exact request.leaves directory

/-- An empty file is a page of zeros after a run that had nothing to show. -/
theorem runs_extend_empty :
    let directory : Directory := ⟨[("p", [])], []⟩
    let (outcome, after) := runIn directory (fun _ => none)
      ["inspect", "p", "--page", "1", "--page-size", "64"]
    directory.entry "p" = .file [] ∧ outcome.status = 1 ∧
      after.entry "p" = .file (.zeros 64) ∧ after.entry "p" ≠ directory.entry "p" := by
  have asked : Request.ofArguments (fun _ => none)
      ["inspect", "p", "--page", "1", "--page-size", "64"] =
        .ok ⟨none, "p", ⟨1⟩, some 64, .lines⟩ := by decide +kernel
  have found : Directory.entry ⟨[("p", [])], []⟩ "p" = .file [] := Directory.entry_letter []
  have leaves := Request.leaves ⟨none, "p", ⟨1⟩, some 64, .lines⟩ ⟨[("p", [])], []⟩
  obtain ⟨failed, extended⟩ := leaves.extended "p" 64
    ⟨rfl, ⟨.default, rfl, rfl⟩, by decide, found⟩
  have shown := (leaves.entry "p").symm.trans (extended "p")
  rw [if_pos rfl] at shown
  rw [leaves.outcome] at failed
  simp only [runIn, run, asked]
  have changed : Entry.file (.zeros 64) ≠ .file [] := by decide
  exact ⟨found, failed, shown, fun same => changed (shown.symm.trans (same.trans found))⟩

end Command

end SlottedLeaf
