/-
  Files that ProjFS hydrates (`get_file_data` in `src/dvdbnd/mount/projfs.rs`).

  The callback starts a command and returns `E_PENDING`.  A task reads the file, which
  it writes with `PrjWriteFileData`, and completes the command with
  `PrjCompleteCommand`.  Tasks run at the same time, and a step is a call of one of
  them.  A write that fails writes nothing.  ProjFS does not use the id of a command
  again.  A task that cannot be dispatched is dropped.

  * `Inv.step`: what holds before a step holds after it;
  * `Reach.completes`: a task can make its calls and complete its command;
  * `hydrates_files`: in every reachable state, a file has its own bytes wherever it has
    been written, and all those that a command was completed for.
-/
import Fsvfs.Dvdbnd.Projfs
import Fsvfs.Dvdbnd.SessionReads
import Fsvfs.Lib.Writes

namespace Fsvfs.Dvdbnd.Hydration

open Lib Bhd5 Projfs

def S_OK : HRESULT := 0

def E_PENDING : HRESULT := toHresult 997

/-- A command, for the file at an inode. -/
structure Command where
  commandId : Int32
  dataStreamId : GUID
  inode : UInt64
  byteOffset : UInt64
  length : UInt32
deriving DecidableEq

/-- A task: the calls that it has not made, and what it completes its command with. -/
structure Task where
  command : Command
  calls : List (List UInt8 × ℕ)
  result : HRESULT

/-- The commands that were started, the tasks that were dropped and those that run,
    the writes of each stream, and the commands that were completed. -/
structure State where
  started : List Command
  dropped : List Command
  tasks : List Task
  writes : GUID → List (List UInt8 × ℕ)
  completed : List (Command × HRESULT)

/-- A state before any command. -/
def State.init : State := ⟨[], [], [], fun _ => [], []⟩

section
variable (E : Eytzinger) (mount : DvdbndMount)

/-- `get_placeholder_info`: what is passed to `PrjWritePlaceholderInfo`. -/
def getPlaceholderInfo (filePathName : Except HRESULT Str) : Except HRESULT PrjFileBasicInfo :=
  match filePathName with
  | .error e => .error e
  | .ok path => match mount.fs.inner.lookup E path with
    | .error _ => .error ERROR_FILE_NOT_FOUND
    | .ok inode => match mount.fs.inner.entry inode with
      | .error _ | .ok ⟨_, _, .file none⟩ => .error E_FAIL
      | .ok entry => .ok (fileBasicInfo entry)

/-- The run of `read_file`. -/
def Command.run (command : Command) : Traced Event Unit :=
  mount.readFile command.inode command.byteOffset command.length

/-- What a run completes its command with; an error and a panic are `E_FAIL`. -/
def resultOf : Checked Unit → HRESULT
  | .ok () => S_OK
  | .error _ => E_FAIL

/-- The task that `call_async` dispatches. -/
def Command.task (command : Command) : Task where
  command := command
  calls := callbacks (command.run mount).events
  result := resultOf (command.run mount).result

/-- `get_file_data`. -/
def getFileData (state : State) (commandId : Int32) (filePathName : Except HRESULT Str) (dataStreamId : GUID)
    (byteOffset : UInt64) (length : UInt32) (dispatched : Bool) : HRESULT × State :=
  match filePathName with
  | .error e => (e, state)
  | .ok path => match mount.fs.inner.lookup E path with
    | .error _ => (ERROR_FILE_NOT_FOUND, state)
    | .ok inode =>
      let command : Command := ⟨commandId, dataStreamId, inode, byteOffset, length⟩
      let state := { state with started := command :: state.started }
      (E_PENDING, if dispatched then { state with tasks := command.task mount :: state.tasks }
        else { state with dropped := command :: state.dropped })

/-- A step: the callback, or a call of the task at an index. -/
inductive Action where
  | getFileData (commandId : Int32) (filePathName : Except HRESULT Str) (dataStreamId : GUID)
    (byteOffset : UInt64) (length : UInt32) (dispatched : Bool)
  | prjWriteFileData (task : ℕ) (ok : Bool)
  | prjCompleteCommand (task : ℕ)

/-- One step, if the task is there and is to make the call. -/
def step (state : State) : Action → Option State
  | .getFileData commandId filePathName dataStreamId byteOffset length dispatched =>
    some (getFileData E mount state commandId filePathName dataStreamId byteOffset length dispatched).2
  | .prjWriteFileData i ok => match state.tasks[i]? with
    | some ⟨command, call :: calls, result⟩ =>
      if ok then some { state with
        tasks := state.tasks.set i ⟨command, calls, result⟩
        writes := Function.update state.writes command.dataStreamId (call :: state.writes command.dataStreamId) }
      else some { state with tasks := state.tasks.set i ⟨command, [], E_FAIL⟩ }
    | _ => none
  | .prjCompleteCommand i => match state.tasks[i]? with
    | some ⟨command, [], result⟩ => some { state with
        tasks := state.tasks.eraseIdx i
        completed := (command, result) :: state.completed }
    | _ => none

/-- The id of a command is new. -/
def Action.Fresh (state : State) : Action → Prop
  | .getFileData commandId .. => ∀ command ∈ state.started, command.commandId ≠ commandId
  | _ => True

/-- The states that some steps lead to. -/
inductive Reach : State → Prop
  | init : Reach .init
  | step {state state' : State} {action : Action} : Reach state → action.Fresh state →
      step E mount state action = some state' → Reach state'

end

/-! ## The invariant -/

/-- A task makes calls of its run, and it succeeds if its run does and all calls are
    made. -/
structure Task.Follows (task : Task) (mount : DvdbndMount) (writes : List (List UInt8 × ℕ)) : Prop where
  calls : ∀ call ∈ task.calls, call ∈ callbacks (task.command.run mount).events
  result : task.result = S_OK → (task.command.run mount).result = .ok () ∧
    ∀ call ∈ callbacks (task.command.run mount).events, call ∈ task.calls ∨ call ∈ writes

/-- What holds in every state. -/
structure Inv (mount : DvdbndMount) (state : State) : Prop where
  ids : (state.started.map Command.commandId).Nodup
  once : state.started.Perm (state.dropped ++ (state.tasks.map Task.command ++ state.completed.map Prod.fst))
  tasks : ∀ task ∈ state.tasks, task.Follows mount (state.writes task.command.dataStreamId)
  writes : ∀ stream, ∀ call ∈ state.writes stream, ∃ command ∈ state.started,
    command.dataStreamId = stream ∧ call ∈ callbacks (command.run mount).events
  completed : ∀ e ∈ state.completed, e.2 = S_OK → (e.1.run mount).result = .ok () ∧
    ∀ call ∈ callbacks (e.1.run mount).events, call ∈ state.writes e.1.dataStreamId

section
variable {E : Eytzinger} {mount : DvdbndMount} {state state' : State}

theorem resultOf_eq_ok {result : Checked Unit} (h : resultOf result = S_OK) : result = .ok () := by
  rcases result with s | u
  · exact absurd h (show E_FAIL ≠ S_OK by decide)
  · rfl

theorem Command.follows (command : Command) (writes : List (List UInt8 × ℕ)) :
    (command.task mount).Follows mount writes where
  calls _ hcall := hcall
  result h := ⟨resultOf_eq_ok h, fun _ hcall => .inl hcall⟩

/-- More writes do no harm. -/
theorem Task.Follows.mono {task : Task} {writes writes' : List (List UInt8 × ℕ)} (h : task.Follows mount writes)
    (hsub : ∀ call ∈ writes, call ∈ writes') : task.Follows mount writes' where
  calls := h.calls
  result hok := by
    obtain ⟨hrun, hcalls⟩ := h.result hok
    exact ⟨hrun, fun call hcall => (hcalls call hcall).imp_right (hsub call)⟩

theorem inv_init : Inv mount .init where
  ids := .nil
  once := .nil
  tasks := nofun
  writes := nofun
  completed := nofun

/-- The callback starts one command at most. -/
theorem getFileData_cases (commandId : Int32) (filePathName : Except HRESULT Str) (dataStreamId : GUID)
    (byteOffset : UInt64) (length : UInt32) (dispatched : Bool) :
    (getFileData E mount state commandId filePathName dataStreamId byteOffset length dispatched).2 = state ∨
      ∃ command : Command, command.commandId = commandId ∧
        ((getFileData E mount state commandId filePathName dataStreamId byteOffset length dispatched).2 =
            { state with started := command :: state.started, tasks := command.task mount :: state.tasks } ∨
          (getFileData E mount state commandId filePathName dataStreamId byteOffset length dispatched).2 =
            { state with started := command :: state.started, dropped := command :: state.dropped }) := by
  rcases filePathName with e | path
  · exact .inl rfl
  · rw [getFileData]
    dsimp only
    rcases mount.fs.inner.lookup E path with e | inode
    · exact .inl rfl
    · refine .inr ⟨⟨commandId, dataStreamId, inode, byteOffset, length⟩, rfl, ?_⟩
      cases dispatched
      · exact .inr rfl
      · exact .inl rfl

/-- A command is started, and dispatched. -/
theorem Inv.dispatch (h : Inv mount state) {command : Command}
    (hfresh : ∀ c ∈ state.started, c.commandId ≠ command.commandId) :
    Inv mount { state with started := command :: state.started, tasks := command.task mount :: state.tasks } where
  ids := by
    rw [List.map_cons, List.nodup_cons, List.mem_map]
    exact ⟨fun ⟨c, hc, heq⟩ => hfresh c hc heq, h.ids⟩
  once := by
    rw [List.map_cons, List.cons_append]
    exact (h.once.cons command).trans List.perm_middle.symm
  tasks task htask := by
    rcases List.mem_cons.1 htask with rfl | htask
    · exact command.follows _
    · exact h.tasks task htask
  writes stream call hcall := by
    obtain ⟨c, hc, hwrites⟩ := h.writes stream call hcall
    exact ⟨c, List.mem_cons_of_mem _ hc, hwrites⟩
  completed := h.completed

/-- A command is started, and its task is dropped. -/
theorem Inv.drop (h : Inv mount state) {command : Command}
    (hfresh : ∀ c ∈ state.started, c.commandId ≠ command.commandId) :
    Inv mount { state with started := command :: state.started, dropped := command :: state.dropped } where
  ids := by
    rw [List.map_cons, List.nodup_cons, List.mem_map]
    exact ⟨fun ⟨c, hc, heq⟩ => hfresh c hc heq, h.ids⟩
  once := h.once.cons command
  tasks := h.tasks
  writes stream call hcall := by
    obtain ⟨c, hc, hwrites⟩ := h.writes stream call hcall
    exact ⟨c, List.mem_cons_of_mem _ hc, hwrites⟩
  completed := h.completed

/-- A task that makes one call less is for the same command. -/
theorem map_command_set {tasks : List Task} {i : ℕ} {task task' : Task} (hi : tasks[i]? = some task)
    (hcommand : task'.command = task.command) :
    (tasks.set i task').map Task.command = tasks.map Task.command := by
  obtain ⟨hlt, hget⟩ := List.getElem?_eq_some_iff.1 hi
  have hlt' : i < (tasks.map Task.command).length := by rwa [List.length_map]
  have hself : (tasks.map Task.command)[i] = task'.command := by
    rw [List.getElem_map, hget, hcommand]
  rw [List.map_set, ← hself, List.set_getElem_self]

/-- The command of a task was started. -/
theorem Inv.started (h : Inv mount state) {task : Task} (htask : task ∈ state.tasks) :
    task.command ∈ state.started :=
  h.once.mem_iff.2 (List.mem_append_right _ (List.mem_append_left _ (List.mem_map_of_mem htask)))

/-- A call of a task writes to its stream. -/
theorem Inv.write (h : Inv mount state) {i : ℕ} {command : Command} {call : List UInt8 × ℕ}
    {calls : List (List UInt8 × ℕ)} {result : HRESULT} (hi : state.tasks[i]? = some ⟨command, call :: calls, result⟩) :
    Inv mount { state with
      tasks := state.tasks.set i ⟨command, calls, result⟩
      writes := Function.update state.writes command.dataStreamId (call :: state.writes command.dataStreamId) } := by
  have hmem : ⟨command, call :: calls, result⟩ ∈ state.tasks := List.mem_of_getElem? hi
  have hfollows := h.tasks _ hmem
  have hsub : ∀ stream, ∀ c ∈ state.writes stream, c ∈ Function.update state.writes command.dataStreamId
      (call :: state.writes command.dataStreamId) stream := by
    intro stream c hc
    by_cases heq : stream = command.dataStreamId
    · subst heq
      rw [Function.update_self]
      exact List.mem_cons_of_mem _ hc
    · rwa [Function.update_of_ne heq]
  refine ⟨h.ids, ?_, fun task htask => ?_, fun stream c hc => ?_, fun e he hok => ?_⟩
  · have hmap : (state.tasks.set i ⟨command, calls, result⟩).map Task.command = state.tasks.map Task.command :=
      map_command_set hi rfl
    rw [hmap]
    exact h.once
  · rcases List.mem_or_eq_of_mem_set htask with htask | rfl
    · exact (h.tasks task htask).mono (hsub _)
    · refine ⟨fun c hc => hfollows.calls c (List.mem_cons_of_mem _ hc), fun hok => ?_⟩
      obtain ⟨hrun, hcalls⟩ := hfollows.result hok
      refine ⟨hrun, fun c hc => ?_⟩
      dsimp only
      rw [Function.update_self]
      rcases hcalls c hc with hc | hc
      · rcases List.mem_cons.1 hc with rfl | hc
        · exact .inr List.mem_cons_self
        · exact .inl hc
      · exact .inr (List.mem_cons_of_mem _ hc)
  · dsimp only at hc
    by_cases heq : stream = command.dataStreamId
    · subst heq
      rw [Function.update_self] at hc
      rcases List.mem_cons.1 hc with rfl | hc
      · exact ⟨command, h.started hmem, rfl, hfollows.calls c List.mem_cons_self⟩
      · exact h.writes _ c hc
    · rw [Function.update_of_ne heq] at hc
      exact h.writes stream c hc
  · obtain ⟨hrun, hcalls⟩ := h.completed e he hok
    exact ⟨hrun, fun c hc => hsub _ c (hcalls c hc)⟩

/-- A call of a task fails, and it makes no other one. -/
theorem Inv.fail (h : Inv mount state) {i : ℕ} {task : Task} (hi : state.tasks[i]? = some task) :
    Inv mount { state with tasks := state.tasks.set i ⟨task.command, [], E_FAIL⟩ } where
  ids := h.ids
  once := by
    have hmap : (state.tasks.set i ⟨task.command, [], E_FAIL⟩).map Task.command = state.tasks.map Task.command :=
      map_command_set hi rfl
    rw [hmap]
    exact h.once
  tasks task' htask := by
    rcases List.mem_or_eq_of_mem_set htask with htask | rfl
    · exact h.tasks task' htask
    · exact ⟨fun _ hc => (nomatch hc), fun hok => absurd hok (show E_FAIL ≠ S_OK by decide)⟩
  writes := h.writes
  completed := h.completed

/-- A task that has made its calls completes its command. -/
theorem Inv.complete (h : Inv mount state) {i : ℕ} {command : Command} {result : HRESULT}
    (hi : state.tasks[i]? = some ⟨command, [], result⟩) :
    Inv mount { state with
      tasks := state.tasks.eraseIdx i
      completed := (command, result) :: state.completed } := by
  obtain ⟨hlt, hget⟩ := List.getElem?_eq_some_iff.1 hi
  refine ⟨h.ids, ?_, fun task htask => h.tasks task (List.mem_of_mem_eraseIdx htask), h.writes, fun e he hok => ?_⟩
  · have hperm : (command :: (state.tasks.eraseIdx i).map Task.command).Perm (state.tasks.map Task.command) := by
      have herase := (List.getElem_cons_eraseIdx_perm hlt).map Task.command
      rwa [hget] at herase
    exact h.once.trans (List.Perm.append_left _ ((hperm.symm.append_right _).trans List.perm_middle.symm))
  · rcases List.mem_cons.1 he with rfl | he
    · obtain ⟨hrun, hcalls⟩ := (h.tasks _ (List.mem_of_getElem? hi)).result hok
      exact ⟨hrun, fun c hc => (hcalls c hc).resolve_left (List.not_mem_nil)⟩
    · exact h.completed e he hok

/-- **What holds before a step holds after it.** -/
theorem Inv.step {action : Action} (h : Inv mount state) (hfresh : action.Fresh state)
    (hstep : step E mount state action = some state') : Inv mount state' := by
  rcases action with ⟨commandId, filePathName, dataStreamId, byteOffset, length, dispatched⟩ | ⟨i, ok⟩ | i
  · rw [Hydration.step, Option.some_inj] at hstep
    rcases getFileData_cases commandId filePathName dataStreamId byteOffset length dispatched with
      heq | ⟨command, rfl, heq | heq⟩
    · rw [← hstep, heq]
      exact h
    · rw [← hstep, heq]
      exact h.dispatch hfresh
    · rw [← hstep, heq]
      exact h.drop hfresh
  · rw [Hydration.step] at hstep
    split at hstep
    next command call calls result hi =>
      split_ifs at hstep
      · cases hstep
        exact h.write hi
      · cases hstep
        exact h.fail hi
    next => cases hstep
  · rw [Hydration.step] at hstep
    split at hstep
    next command result hi =>
      cases hstep
      exact h.complete hi
    next => cases hstep

theorem Reach.inv (h : Reach E mount state) : Inv mount state := by
  induction h with
  | init => exact inv_init
  | step _ hfresh hstep ih => exact ih.step hfresh hstep

/-- **A task that runs completes its command** once its calls succeed. -/
theorem Reach.completes {task : Task} (h : Reach E mount state) (htask : task ∈ state.tasks) :
    ∃ state', Reach E mount state' ∧ state'.started = state.started ∧
      (task.command, task.result) ∈ state'.completed := by
  obtain ⟨command, calls, result⟩ := task
  induction calls generalizing state with
  | nil =>
    obtain ⟨i, hi⟩ := List.getElem?_of_mem htask
    have hfresh : (Action.prjCompleteCommand i).Fresh state := trivial
    have hstep : Hydration.step E mount state (.prjCompleteCommand i) = some { state with
        tasks := state.tasks.eraseIdx i
        completed := (command, result) :: state.completed } := by
      rw [Hydration.step, hi]
    exact ⟨_, h.step hfresh hstep, rfl, List.mem_cons_self⟩
  | cons call calls ih =>
    obtain ⟨i, hi⟩ := List.getElem?_of_mem htask
    obtain ⟨hlt, -⟩ := List.getElem?_eq_some_iff.1 hi
    have hfresh : (Action.prjWriteFileData i true).Fresh state := trivial
    have hstep : Hydration.step E mount state (.prjWriteFileData i true) = some { state with
        tasks := state.tasks.set i ⟨command, calls, result⟩
        writes := Function.update state.writes command.dataStreamId (call :: state.writes command.dataStreamId) } := by
      rw [Hydration.step, hi]
      rfl
    have hcompletes := @ih _ (h.step hfresh hstep) (List.mem_set hlt _)
    exact hcompletes

/-! ## Files -/

/-- The commands of a stream are for a file, and they begin at blocks of it. -/
def State.AtBlocks (state : State) (stream : GUID) (ino : UInt64) (file : DvdbndFile) : Prop :=
  ∀ command ∈ state.started, command.dataStreamId = stream → command.inode = ino ∧
    (BLOCK_SIZE ∣ file.readOffset command.byteOffset ∨ file.readLen command.byteOffset command.length = 0)

/-- A stream has what a file has, wherever it was written, and it was written where a
    command was completed for. -/
structure State.Hydrates (state : State) (stream : GUID) (file : DvdbndFile) (F : ℕ → UInt8) : Prop where
  written : ∀ p b, written (state.writes stream) p = some b → p < file.getUnpaddedLen.toNat ∧ b = F p
  completed : ∀ command, (command, S_OK) ∈ state.completed → command.dataStreamId = stream → ∀ p,
    file.readOffset command.byteOffset ≤ p →
      p < file.readOffset command.byteOffset + file.readLen command.byteOffset command.length →
        Lib.written (state.writes stream) p = some (F p)

/-- A request ends in its file. -/
theorem readEnd_le (file : DvdbndFile) (fileOffset : UInt64) (len : UInt32) :
    file.readOffset fileOffset + file.readLen fileOffset len ≤ file.getUnpaddedLen.toNat := by
  have ho : file.readOffset fileOffset = min fileOffset.toNat file.getUnpaddedLen.toNat := rfl
  have hl : file.readLen fileOffset len =
      min len.toNat (file.getUnpaddedLen.toNat - file.readOffset fileOffset) := rfl
  omega

variable {bhdOf : SrcId → File} {bdtOf : SrcId → ℕ → UInt8} {puts : List Put} {builder : DvdbndRofsBuilder}
  {values : List (SrcId × DvdbndRofsCached)} {file : DvdbndFile} {ino : UInt64} {stream : GUID}

theorem Inv.hydrates {F : ℕ → UInt8} (h : Inv mount state) (hreads : ReadsBlocks mount ino file F)
    (hblocks : state.AtBlocks stream ino file) : state.Hydrates stream file F := by
  have hwrites : ∀ call ∈ state.writes stream, call.1 = window F call.2 call.1.length ∧
      call.2 + call.1.length ≤ file.getUnpaddedLen.toNat := by
    intro call hcall
    obtain ⟨command, hstarted, hstream, hrun⟩ := h.writes stream call hcall
    obtain ⟨rfl, hblock⟩ := hblocks command hstarted hstream
    obtain ⟨hwindow, -, hend⟩ := hreads.calls _ _ hblock call hrun
    exact ⟨hwindow, Nat.le_trans hend (readEnd_le file _ _)⟩
  have heq := fun p => written_of_windows p fun call hcall => (hwrites call hcall).1
  refine ⟨fun p b hb => ?_, fun command hcommand hstream p hp hlt => ?_⟩
  · rw [heq p] at hb
    split_ifs at hb with hcovered
    obtain ⟨call, hcall, hcovers⟩ := hcovered
    exact ⟨Nat.lt_of_lt_of_le hcovers.2 (hwrites call hcall).2, (Option.some_inj.1 hb).symm⟩
  · obtain ⟨hrun, hcalls⟩ := h.completed _ hcommand rfl
    have hstarted : command ∈ state.started :=
      h.once.mem_iff.2 (List.mem_append_right _ (List.mem_append_right _ (List.mem_map_of_mem hcommand)))
    obtain ⟨rfl, -⟩ := hblocks command hstarted hstream
    obtain ⟨call, hcall, hcovers⟩ := hreads.covers _ _ hrun p hp hlt
    rw [heq p, if_pos ⟨call, hstream ▸ hcalls call hcall, hcovers⟩]

/-- The placeholder of a file has its size. -/
theorem exists_of_getPlaceholderInfo {path : Str} {info : PrjFileBasicInfo}
    (h : getPlaceholderInfo E mount (.ok path) = .ok info) (hdir : info.isDirectory = false) :
    ∃ ino file, mount.fs.inner.lookup E path = .ok ino ∧ mount.IsFile ino file ∧
      info.fileSize = file.getUnpaddedLen.toNat := by
  rw [getPlaceholderInfo] at h
  rcases hlookup : mount.fs.inner.lookup E path with e | ino
  · rw [hlookup] at h
    cases h
  · rw [hlookup] at h
    dsimp only at h
    rcases he : mount.fs.inner.entry ino with e | ⟨inode, name, kind⟩
    · rw [he] at h
      cases h
    · rw [he] at h
      rcases kind with _ | ⟨_ | file⟩
      · cases h
        cases hdir
      · cases h
      · cases h
        exact ⟨ino, file, rfl, ⟨_, he, rfl⟩, rfl⟩

/-- **Files are hydrated with what their archives have under their paths**, and have the
    size of their placeholders, in every state that the callbacks and their tasks can reach,
    and no command is completed twice. -/
theorem hydrates_files (hmount : Mounted bhdOf bdtOf E puts builder values mount) (hreach : Reach E mount state) :
    (state.started.map Command.commandId).Nodup ∧
      state.started.Perm (state.dropped ++ (state.tasks.map Task.command ++ state.completed.map Prod.fst)) ∧
      ∀ path info, getPlaceholderInfo E mount (.ok path) = .ok info → info.isDirectory = false →
        ∃ ino file, mount.fs.inner.lookup E path = .ok ino ∧ mount.IsFile ino file ∧
          info.fileSize = file.getUnpaddedLen.toNat ∧
          ∃ d ∈ (bhdOf file.srcId).buckets.decoded.zip (bhdOf file.srcId).encryption,
            Names bhdOf puts builder values (norm DvdbndConfig path) file.srcId d.1 ∧
            (∃ store, mount.fs.encryptionStore.get file.srcId = some store ∧ LinkedTo d.1 d.2 file store) ∧
              ∀ stream, state.AtBlocks stream ino file →
                state.Hydrates stream file (storedContents mount.aes (bdtOf file.srcId) d) := by
  have hinv := hreach.inv
  refine ⟨hinv.ids, hinv.once, fun path info hinfo hdir => ?_⟩
  obtain ⟨ino, file, hlookup, hfile, hsize⟩ := exists_of_getPlaceholderInfo hinfo hdir
  obtain ⟨d, hd, hnames, hlinked, hreads⟩ := hmount.readsBlocks hlookup hfile
  exact ⟨ino, file, hlookup, hfile, hsize, d, hd, hnames, hlinked, fun stream => hinv.hydrates hreads⟩

/-- A command for a whole file is completed. -/
theorem hydrates_encryptedMount : ∃ (values : List (SrcId × DvdbndRofsCached)) (mount : DvdbndMount) (state : State)
    (file : DvdbndFile) (command : Command),
    Reach Eytzinger.layout mount state ∧ (command, S_OK) ∈ state.completed ∧ mount.IsFile command.inode file ∧
      file.readOffset command.byteOffset = 0 ∧ command.length = 48 ∧
        ∃ d ∈ encryptedArchive.bhd.buckets.decoded.zip encryptedArchive.bhd.encryption,
          Names (fun _ => encryptedArchive.bhd) [] encryptedBuilder values
            (norm DvdbndConfig ".data0\\00\\00000007".toList) file.srcId d.1 ∧
            state.Hydrates command.dataStreamId file (storedContents mount.aes (fun _ => 0) d) := by
  obtain ⟨values, fs, ino, ⟨inode, name, kind⟩, r, file, obj, hmount, hinto, hroot, hlookup, he, hkind, hread⟩ :=
    Session.exists_encryptedMount
  subst hkind
  set mount := (Session.zerosMount fs).toDvdbndMount
  have hlookup : mount.fs.inner.lookup Eytzinger.layout ".data0\\00\\00000007".toList = .ok ino := hlookup
  have he : mount.fs.inner.entry ino = .ok ⟨inode, name, .file (some file)⟩ := he
  let command : Command := ⟨1, 2, ino, 0, 48⟩
  have hstep : step Eytzinger.layout mount .init
      (.getFileData 1 (.ok ".data0\\00\\00000007".toList) 2 0 48 true) =
        some { State.init with started := [command], tasks := [command.task mount] } := by
    rw [step, getFileData]
    dsimp only
    rw [hlookup]
    rfl
  have hfresh : (Action.getFileData 1 (.ok ".data0\\00\\00000007".toList) 2 0 48 true).Fresh .init := nofun
  have hfile : mount.IsFile ino file := ⟨_, he, rfl⟩
  have hoffset : file.readOffset 0 = 0 := Nat.zero_min _
  obtain ⟨state, hreach, hstarted, hcompleted⟩ :=
    (Reach.init.step hfresh hstep).completes List.mem_cons_self
  have hresult : (command.task mount).result = S_OK := by
    rw [Command.task, Command.run, show mount.readFile ino 0 48 = _ from rfl, hread]
    rfl
  rw [hresult] at hcompleted
  have hinfo : getPlaceholderInfo Eytzinger.layout mount (.ok ".data0\\00\\00000007".toList) =
      .ok (fileBasicInfo ⟨inode, name, .file (some file)⟩) := by
    simp only [getPlaceholderInfo, hlookup, he]
  obtain ⟨-, -, hfiles⟩ := hydrates_files hmount hreach
  obtain ⟨ino', file', hlookup', hfile', -, d, hd, hnames, -, hstreams⟩ := hfiles _ _ hinfo rfl
  obtain rfl : ino = ino' := Except.ok.inj (hlookup.symm.trans hlookup')
  obtain ⟨e', he', hkind⟩ := hfile'
  obtain rfl : _ = e' := Except.ok.inj (he.symm.trans he')
  obtain rfl : file = file' := Option.some_inj.1 (EntryKind.file.inj hkind)
  refine ⟨values, mount, state, file, command, hreach, hcompleted, hfile, hoffset, rfl, d, hd, hnames,
    hstreams 2 fun c hc _ => ?_⟩
  rw [hstarted] at hc
  obtain rfl := List.mem_singleton.1 hc
  exact ⟨rfl, .inl (by rw [show file.readOffset _ = 0 from hoffset]; exact Nat.dvd_zero _)⟩

end

end Fsvfs.Dvdbnd.Hydration
