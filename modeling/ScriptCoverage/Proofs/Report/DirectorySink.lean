import ScriptCoverage.Proofs.Files.FileTree
import ScriptCoverage.Proofs.Files.Path
import ScriptCoverage.Report.Sink

/-!
Runs of calls that attach artifacts to a directory, with writers that may fail at any byte. A
listed file lies below the directory and holds what the last writer gave that was called for it; a
call that fails before it opens a file changes no file. A writer that fails on a listed file finds
it emptied: the file stays listed, with the bytes that were given.
-/

namespace ScriptCoverage

open FileTree (Keeps Fills)

namespace DirectorySink

variable {name : String} {tree later : FileTree}

theorem hasDoubleDot_of_infix {text : List Char} (h : ['.', '.'] <:+: text) :
    hasDoubleDot text = true := by
  obtain ⟨front, back, rfl⟩ := h
  induction front with
  | nil => rfl
  | cons c front ih =>
      rw [List.cons_append, List.cons_append, hasDoubleDot.eq_def]
      split
      · rfl
      · rename_i heq
        rw [← (List.cons.inj heq).2]
        exact ih
      · rename_i heq
        cases heq

/-- A name that does not escape has no `..` among its pieces, since it has no two dots in a row
anywhere. -/
theorem of_escapes_eq_false (h : escapes name = false) :
    (Path.mk name).isAbsolute = false ∧ ['.', '.'] ∉ (Path.mk name).pieces := by
  rw [escapes, Bool.or_eq_false_iff] at h
  refine ⟨h.2, fun hpiece => ?_⟩
  have hdots := hasDoubleDot_of_infix (Text.infix_of_mem_splitOn hpiece)
  exact Bool.false_ne_true (h.1.symm.trans hdots)

/-- The result of an attach in a tree of files, and the files it leaves. -/
def attachIn (sink : DirectorySink) (name : String) (emission : Emission) (tree : FileTree) :
    Except SinkError DirectorySink × FileTree :=
  (sink.attach name emission : StateM FileTree (Except SinkError DirectorySink)) tree

/-- What an attach returns once its writer was called. -/
def outcome (sink : DirectorySink) (name : String) (emission : Emission) :
    Except SinkError DirectorySink :=
  match emission.failure with
  | some reason => .error (.writer reason)
  | none => .ok { sink with written := sink.written ++ [sink.root.join ⟨name⟩] }

theorem keeps_makeParent (path : Path) (tree : FileTree) :
    Keeps none tree ((makeParent path : StateM FileTree Bool) tree).2 := by
  unfold makeParent
  cases path.parent? with
  | none => exact .refl none tree
  | some parent =>
      dsimp only
      split
      · exact .refl none tree
      · exact FileTree.keeps_attempt fun _ => FileTree.keeps_of_makeDirectories?

private theorem stateBind_apply {σ α β : Type} (first : StateM σ α) (next : α → StateM σ β)
    (state : σ) : (first >>= next) state = next (first state).1 (first state).2 := rfl

theorem attachIn_eq (sink : DirectorySink) (name : String) (emission : Emission)
    (tree : FileTree) : sink.attachIn name emission tree =
      if escapes name then (.error (.escapes name), tree)
      else
        match (makeParent (sink.root.join ⟨name⟩) : StateM FileTree Bool) tree with
        | (false, grown) => (.error .files, grown)
        | (true, grown) =>
            match grown.write? (sink.root.join ⟨name⟩) emission.bytes with
            | none => (.error .files, grown)
            | some later => (sink.outcome name emission, later) := by
  unfold attachIn attach
  split
  · rfl
  · rw [stateBind_apply]
    rcases (makeParent (sink.root.join ⟨name⟩) : StateM FileTree Bool) tree with ⟨made, grown⟩
    cases made with
    | false => rfl
    | true =>
        dsimp only
        rw [Bool.not_true, if_neg Bool.false_ne_true, stateBind_apply]
        cases hwrite : grown.write? (sink.root.join ⟨name⟩) emission.bytes with
        | none =>
            rw [FileTree.write_of_none hwrite]
            rfl
        | some later =>
            rw [FileTree.write_of_some hwrite]
            unfold outcome
            cases emission.failure with
            | none => rfl
            | some reason => rfl

/-- An attach fails before it opens a file, and then leaves all files as they were; or it puts
what its writer gave into the file, whether or not the writer then failed. -/
theorem attachIn_cases (sink : DirectorySink) (name : String) (emission : Emission)
    (tree : FileTree) :
    (∃ e later, sink.attachIn name emission tree = (.error e, later) ∧
      (e = .escapes name ∨ e = .files) ∧ Keeps none tree later) ∨
    ∃ location later, sink.attachIn name emission tree = (sink.outcome name emission, later) ∧
      escapes name = false ∧
      Fills (sink.root.join ⟨name⟩) emission.bytes location tree later := by
  have keeps := keeps_makeParent (sink.root.join ⟨name⟩) tree
  rw [attachIn_eq]
  split
  · exact .inl ⟨_, tree, rfl, .inl rfl, .refl none tree⟩
  · rename_i hname
    split
    · rename_i grown hmake
      rw [hmake] at keeps
      exact .inl ⟨_, grown, rfl, .inr rfl, keeps⟩
    · rename_i grown hmake
      rw [hmake] at keeps
      split
      · exact .inl ⟨_, grown, rfl, .inr rfl, keeps⟩
      · rename_i later hwrite
        obtain ⟨location, fills⟩ := FileTree.fills_of_write? hwrite
        exact .inr ⟨location, later, rfl, Bool.not_eq_true _ ▸ hname, fills.of_keeps keeps⟩

end DirectorySink

/-- One call of a sink: a name, and what the writer does with the file it is given. -/
structure Attachment where
  name : String
  emission : Emission
  deriving DecidableEq

/-- A sink and the files between two calls, with the calls so far and what went wrong with each. -/
structure SinkRun where
  sink : DirectorySink
  tree : FileTree
  log : List (Attachment × Option SinkError)

namespace SinkRun

def start (root : Path) (tree : FileTree) : SinkRun := ⟨.new root, tree, []⟩

def path (run : SinkRun) (call : Attachment) : Path := run.sink.root.join ⟨call.name⟩

def result (run : SinkRun) (call : Attachment) : Except SinkError DirectorySink × FileTree :=
  run.sink.attachIn call.name call.emission run.tree

/-- What goes wrong with a call. -/
def error? (run : SinkRun) (call : Attachment) : Option SinkError :=
  match (run.result call).1 with
  | .ok _ => none
  | .error e => some e

/-- A call that fails leaves the sink as it is, but not always the files. -/
def attach (run : SinkRun) (call : Attachment) : SinkRun where
  sink := match (run.result call).1 with
    | .ok sink => sink
    | .error _ => run.sink
  tree := (run.result call).2
  log := run.log ++ [(call, run.error? call)]

def attachAll (run : SinkRun) (calls : List Attachment) : SinkRun := calls.foldl attach run

/-- Whether a writer failed. -/
def isBroken : Option SinkError → Bool
  | some (.writer _) => true
  | _ => false

/-- Whether a file was opened, and so emptied: the writer was called, and may have failed. -/
def isOpened (error? : Option SinkError) : Bool :=
  error?.isNone || isBroken error?

/-- Whether two paths lead to one file. -/
def isSameFile (tree : FileTree) (path other : Path) : Bool :=
  tree.locate? path = tree.locate? other

/-- Whether one of the calls so far named the file of a path and came to a result that counts. -/
def isCallOf (run : SinkRun) (counts : Option SinkError → Bool) (path : Path)
    (entry : Attachment × Option SinkError) : Bool :=
  counts entry.2 && isSameFile run.tree (run.path entry.1) path

/-- The bytes that the last of these calls gave. -/
def lastBytes? (run : SinkRun) (counts : Option SinkError → Bool) (path : Path) :
    Option (List UInt8) :=
  (run.log.filter (run.isCallOf counts path)).getLast?.map (·.1.emission.bytes)

variable {run : SinkRun} {call : Attachment} {path : Path} {location : Location}
  {counts : Option SinkError → Bool}

/-- What a call does to a run. -/
structure Step (run : SinkRun) (call : Attachment) : Prop where
  root : (run.attach call).sink.root = run.sink.root
  refused : isOpened (run.error? call) = false → Keeps none run.tree (run.attach call).tree
  opened : isOpened (run.error? call) = true → ∃ location,
    Fills (run.path call) call.emission.bytes location run.tree (run.attach call).tree
  failed : ∀ e, run.error? call = some e → (run.attach call).sink.written = run.sink.written
  stored : run.error? call = none → DirectorySink.escapes call.name = false ∧
    (run.attach call).sink.written = run.sink.written ++ [run.path call]

variable {later : FileTree}

theorem step_of_error {e : SinkError} (h : run.result call = (.error e, later))
    (refused : isOpened (some e) = false → Keeps none run.tree later)
    (opened : isOpened (some e) = true → ∃ location,
      Fills (run.path call) call.emission.bytes location run.tree later) : Step run call := by
  have herror : run.error? call = some e := by rw [error?, h]
  have hattach : run.attach call = ⟨run.sink, later, run.log ++ [(call, some e)]⟩ := by
    rw [attach, herror, h]
  constructor
  case root => rw [hattach]
  case refused => rwa [herror, hattach]
  case opened => rwa [herror, hattach]
  case failed =>
    intro _ _
    rw [hattach]
  case stored =>
    intro hstored
    rw [herror] at hstored
    cases hstored

theorem step_of_ok (hname : DirectorySink.escapes call.name = false)
    (h : run.result call =
      (.ok ⟨run.sink.root, run.sink.written ++ [run.path call]⟩, later))
    (fills : Fills (run.path call) call.emission.bytes location run.tree later) :
    Step run call := by
  have herror : run.error? call = none := by rw [error?, h]
  have hattach : run.attach call = ⟨⟨run.sink.root, run.sink.written ++ [run.path call]⟩, later,
      run.log ++ [(call, none)]⟩ := by
    rw [attach, herror, h]
  constructor
  case root => rw [hattach]
  case refused =>
    intro hclosed
    rw [herror] at hclosed
    cases hclosed
  case opened =>
    intro _
    rw [hattach]
    exact ⟨location, fills⟩
  case failed =>
    intro e hfailed
    rw [herror] at hfailed
    cases hfailed
  case stored =>
    intro _
    rw [hattach]
    exact ⟨hname, rfl⟩

theorem step (run : SinkRun) (call : Attachment) : Step run call := by
  rcases run.sink.attachIn_cases call.name call.emission run.tree with
    ⟨e, later, hresult, hrefused, keeps⟩ | ⟨location, later, hresult, hname, fills⟩
  · refine step_of_error hresult (fun _ => keeps) fun hopened => ?_
    rcases hrefused with rfl | rfl
    · cases hopened
    · cases hopened
  · unfold DirectorySink.outcome at hresult
    split at hresult
    · exact step_of_error hresult nofun fun _ => ⟨location, fills⟩
    · exact step_of_ok hname hresult fills

theorem path_attach (other : Attachment) : (run.attach call).path other = run.path other := by
  rw [path, (step run call).root, path]

/-- Whether a call puts what its writer gives into the file of a path. -/
def refills (run : SinkRun) (call : Attachment) (path : Path) : Bool :=
  isOpened (run.error? call) && isSameFile (run.attach call).tree (run.path call) path

/-- A path leads where it led before a call. -/
theorem locate?_attach (call : Attachment) (h : run.tree.locate? path = some location) :
    (run.attach call).tree.locate? path = some location := by
  cases hopened : isOpened (run.error? call) with
  | false => exact ((step run call).refused hopened).locate? h
  | true =>
      obtain ⟨_, fills⟩ := (step run call).opened hopened
      exact fills.keeps.locate? h

/-- A call changes the content of the file that it opens, and of no other. -/
theorem content?_attach {bytes : List UInt8} (h : run.tree.content? path = some bytes) :
    (run.attach call).tree.content? path =
      some (if run.refills call path then call.emission.bytes else bytes) := by
  obtain ⟨-, location, hpath, -⟩ := FileTree.content?_eq_some_iff.mp h
  have hlater := locate?_attach call hpath
  unfold refills
  cases hopened : isOpened (run.error? call) with
  | false =>
      exact ((step run call).refused hopened).content? h (hpath ▸ nofun)
  | true =>
      obtain ⟨opened, fills⟩ := (step run call).opened hopened
      rw [Bool.true_and, isSameFile, fills.located, hlater]
      split
      · rename_i hsame
        have heq : opened = location := by simpa using hsame
        exact fills.content? h (heq ▸ hpath)
      · rename_i hother
        refine fills.keeps.content? h fun heq => hother ?_
        rw [heq, hpath, decide_eq_true rfl]

/-- Every file that was opened is still found, and every listed file lies below the directory and
holds what was given by the last call that opened it. -/
structure Intact (run : SinkRun) : Prop where
  found : ∀ entry ∈ run.log, isOpened entry.2 = true →
    ∃ location, run.tree.locate? (run.path entry.1) = some location
  below : ∀ path ∈ run.sink.written, run.sink.root.LiesBelow path
  held : ∀ path ∈ run.sink.written, ∃ bytes, run.lastBytes? isOpened path = some bytes ∧
    run.tree.content? path = some bytes

theorem log_attach (run : SinkRun) (call : Attachment) :
    (run.attach call).log = run.log ++ [(call, run.error? call)] := rfl

theorem isCallOf_attach (counts : Option SinkError → Bool) :
    (run.attach call).isCallOf counts path (call, run.error? call) =
      (counts (run.error? call) && isSameFile (run.attach call).tree (run.path call) path) := by
  rw [isCallOf, path_attach]

theorem lastBytes?_attach_self
    (h : (run.attach call).isCallOf counts path (call, run.error? call) = true) :
    (run.attach call).lastBytes? counts path = some call.emission.bytes := by
  rw [lastBytes?, log_attach, List.filter_append, List.filter_cons_of_pos h, List.filter_nil,
    List.getLast?_concat, Option.map_some]

theorem Intact.lastBytes?_attach (intact : run.Intact) (call : Attachment)
    (hpath : run.tree.locate? path = some location) :
    (run.attach call).lastBytes? isOpened path =
      if run.refills call path then some call.emission.bytes
      else run.lastBytes? isOpened path := by
  rw [refills, ← isCallOf_attach]
  split
  · rename_i hcall
    exact lastBytes?_attach_self hcall
  · rename_i hcall
    -- the calls so far are of the same files as before
    have hcalls : ∀ entry ∈ run.log,
        (run.attach call).isCallOf isOpened path entry = run.isCallOf isOpened path entry := by
      intro entry hentry
      unfold isCallOf
      cases hopened : isOpened entry.2 with
      | false => rfl
      | true =>
          obtain ⟨_, hfound⟩ := intact.found entry hentry hopened
          rw [path_attach, isSameFile, isSameFile, locate?_attach call hfound, hfound,
            locate?_attach call hpath, hpath]
    rw [lastBytes?, log_attach, List.filter_append, List.filter_cons_of_neg hcall,
      List.filter_nil, List.append_nil, List.filter_congr hcalls, lastBytes?]

theorem intact_start (root : Path) (tree : FileTree) : (start root tree).Intact where
  found := by simp [start]
  below := by simp [start, DirectorySink.new]
  held := by simp [start, DirectorySink.new]

/-- A path is listed anew only by a call without an error, and is the path of this call. -/
theorem mem_written_attach (h : path ∈ (run.attach call).sink.written) :
    path ∈ run.sink.written ∨
      run.error? call = none ∧ DirectorySink.escapes call.name = false ∧ path = run.path call := by
  cases herror : run.error? call with
  | some e =>
      rw [(step run call).failed e herror] at h
      exact .inl h
  | none =>
      obtain ⟨hname, hwritten⟩ := (step run call).stored herror
      rw [hwritten] at h
      rcases List.mem_append.mp h with hold | hnew
      · exact .inl hold
      · exact .inr ⟨rfl, hname, List.mem_singleton.mp hnew⟩

theorem Intact.attach (intact : run.Intact) (call : Attachment) : (run.attach call).Intact where
  found := by
    intro entry hentry hopened
    rw [path_attach]
    rcases List.mem_append.mp hentry with hold | hnew
    · obtain ⟨location, hfound⟩ := intact.found entry hold hopened
      exact ⟨location, locate?_attach call hfound⟩
    · cases List.mem_singleton.mp hnew
      obtain ⟨location, fills⟩ := (step run call).opened hopened
      exact ⟨location, fills.located⟩
  below := by
    intro path hpath
    rw [(step run call).root]
    rcases mem_written_attach hpath with hold | ⟨herror, hname, rfl⟩
    · exact intact.below path hold
    · obtain ⟨relative, hdots⟩ := DirectorySink.of_escapes_eq_false hname
      obtain ⟨location, fills⟩ := (step run call).opened (by rw [herror]; rfl)
      exact Path.liesBelow_join relative hdots (FileTree.content?_eq_some_iff.mp fills.content).1
  held := by
    intro path hpath
    rcases mem_written_attach hpath with hold | ⟨herror, -, rfl⟩
    · obtain ⟨bytes, hlast, hcontent⟩ := intact.held path hold
      obtain ⟨-, location, hlocated, -⟩ := FileTree.content?_eq_some_iff.mp hcontent
      refine ⟨if run.refills call path then call.emission.bytes else bytes, ?_,
        content?_attach hcontent⟩
      rw [intact.lastBytes?_attach call hlocated, hlast]
      exact (apply_ite some _ _ _).symm
    · obtain ⟨location, fills⟩ := (step run call).opened (by rw [herror]; rfl)
      refine ⟨call.emission.bytes, lastBytes?_attach_self ?_, fills.content⟩
      rw [isCallOf_attach, herror, isSameFile, decide_eq_true rfl]
      rfl

theorem intact_attachAll (root : Path) (tree : FileTree) (calls : List Attachment) :
    ((start root tree).attachAll calls).Intact := by
  suffices h : ∀ run : SinkRun, run.Intact → (run.attachAll calls).Intact from
    h _ (intact_start root tree)
  induction calls with
  | nil => exact fun _ intact => intact
  | cons call calls ih => exact fun run intact => ih (run.attach call) (intact.attach call)

theorem root_attachAll (run : SinkRun) (calls : List Attachment) :
    (run.attachAll calls).sink.root = run.sink.root := by
  induction calls generalizing run with
  | nil => rfl
  | cons call calls ih => exact (ih (run.attach call)).trans (step run call).root

/-- The last call that opened a file had no error if no writer has failed on the file. -/
theorem lastBytes?_of_unbroken
    (h : ∀ entry ∈ run.log, isSameFile run.tree (run.path entry.1) path = true →
      isBroken entry.2 = false) :
    run.lastBytes? (·.isNone) path = run.lastBytes? isOpened path := by
  have hcalls : ∀ entry ∈ run.log,
      run.isCallOf (·.isNone) path entry = run.isCallOf isOpened path entry := by
    intro entry hentry
    unfold isCallOf isOpened
    cases hsame : isSameFile run.tree (run.path entry.1) path with
    | false => rw [Bool.and_false, Bool.and_false]
    | true => rw [h entry hentry hsame, Bool.or_false]
  rw [lastBytes?, List.filter_congr hcalls, lastBytes?]

/-- At every point of a run each listed file lies below the directory, and holds what was given by
the last call for it whose writer was called: by the last call without an error, if no writer has
failed on the file. A call with an error lists nothing and changes no listed file, but for the
file of a writer that fails, which is left with what the writer gave. -/
theorem listed_files_intact (root : Path) (tree : FileTree) (calls : List Attachment) :
    let run := (start root tree).attachAll calls
    (∀ path ∈ run.sink.written, root.LiesBelow path ∧
      (∃ bytes, run.lastBytes? isOpened path = some bytes ∧
        run.tree.content? path = some bytes) ∧
      ((∀ entry ∈ run.log, isSameFile run.tree (run.path entry.1) path = true →
          isBroken entry.2 = false) →
        run.tree.content? path = run.lastBytes? (·.isNone) path)) ∧
    ∀ call e, run.error? call = some e →
      (run.attach call).sink.written = run.sink.written ∧
      ∀ path ∈ run.sink.written, (run.attach call).tree.content? path =
        if isBroken (some e) && isSameFile (run.attach call).tree (run.path call) path
        then some call.emission.bytes else run.tree.content? path := by
  intro run
  have intact : run.Intact := intact_attachAll root tree calls
  have hroot : run.sink.root = root := root_attachAll (start root tree) calls
  refine ⟨fun path hpath => ⟨hroot ▸ intact.below path hpath, intact.held path hpath, ?_⟩, ?_⟩
  · intro hunbroken
    obtain ⟨bytes, hlast, hcontent⟩ := intact.held path hpath
    rw [lastBytes?_of_unbroken hunbroken, hlast, hcontent]
  · intro call e herror
    refine ⟨(step run call).failed e herror, fun path hpath => ?_⟩
    obtain ⟨bytes, -, hcontent⟩ := intact.held path hpath
    rw [content?_attach hcontent, refills, herror, hcontent]
    exact apply_ite some _ _ _

/-- The two spellings of a path share a file. A name with two dots is refused, and a writer that
fails on another file is no harm. -/
theorem listed_files_intact_twoSpellings :
    let run := (start ⟨"out"⟩ .empty).attachAll
      [⟨"a", .whole [1]⟩, ⟨"b", ⟨[2], some "boom"⟩⟩, ⟨"./a", .whole [3]⟩, ⟨"../a", .whole [4]⟩]
    let call : Attachment := ⟨"a", ⟨[5], some "boom"⟩⟩
    run.sink.written = [⟨"out/a"⟩, ⟨"out/./a"⟩] ∧
      Path.LiesBelow ⟨"out"⟩ ⟨"out/a"⟩ ∧ run.tree.content? ⟨"out/a"⟩ = some [3] ∧
      run.error? call = some (.writer "boom") ∧
      (run.attach call).tree.content? ⟨"out/./a"⟩ = some [5] := by
  intro run call
  have hlisted : run.sink.written = [⟨"out/a"⟩, ⟨"out/./a"⟩] := by decide
  have herror : run.error? call = some (.writer "boom") := by decide
  obtain ⟨hwritten, hfailed⟩ := listed_files_intact ⟨"out"⟩ .empty
    [⟨"a", .whole [1]⟩, ⟨"b", ⟨[2], some "boom"⟩⟩, ⟨"./a", .whole [3]⟩, ⟨"../a", .whole [4]⟩]
  obtain ⟨hbelow, -, hheld⟩ := hwritten ⟨"out/a"⟩ (by decide)
  obtain ⟨-, hchanged⟩ := hfailed call _ herror
  refine ⟨hlisted, hbelow, (hheld (by decide)).trans (by decide), herror, ?_⟩
  exact (hchanged ⟨"out/./a"⟩ (by decide)).trans (by decide)

/-- A writer that fails on a listed file spoils it: the file no longer holds what was given by the
last call without an error, and the call with the error has changed it. -/
theorem not_listed_files_intact_brokenWriter :
    let run := (start ⟨"out"⟩ .empty).attach ⟨"a", .whole [1]⟩
    let call : Attachment := ⟨"a", ⟨[2], some "boom"⟩⟩
    run.error? call = some (.writer "boom") ∧
      (¬ ∀ path ∈ (run.attach call).sink.written, (run.attach call).tree.content? path =
        (run.attach call).lastBytes? (·.isNone) path) ∧
      ¬ ∀ path ∈ run.sink.written,
        (run.attach call).tree.content? path = run.tree.content? path := by
  decide

end SinkRun

end ScriptCoverage
