/-
Commands that come down to running an image.  A program never looks at files, so what is done
to files before and after it does not show.
-/
import StackVm.Cli.Run
import StackVm.Proofs.Stateful

namespace StackVm.Cli

variable {α β : Type}

/-- The result with other files. -/
def withFiles (fs : FileSystem) (r : EStateM.Result Abort Console α) :
    EStateM.Result Abort Console α :=
  onState (fun c => { c with fs }) r

/-- A command that leaves files aside: it does the same whatever they are. -/
def FilesAside (command : CommandM α) : Prop :=
  ∀ (c : Console) (fs : FileSystem), command { c with fs } = withFiles fs (command c)

/-! ### Commands without files -/

theorem map_apply (f : α → β) (command : CommandM α) (c : Console) :
    (f <$> command) c = match command c with
      | .ok a c' => .ok (f a) c'
      | .error e c' => .error e c' := by
  rw [← bind_pure_comp, bind_apply]
  cases command c <;> rfl

theorem filesAside_pure (a : α) : FilesAside (pure a : CommandM α) := fun _ _ => rfl

theorem filesAside_throw (e : Abort) : FilesAside (throw e : CommandM α) := fun _ _ => rfl

theorem filesAside_print (t : Text) : FilesAside (print t) := fun _ _ => rfl

theorem filesAside_printErr (t : Text) : FilesAside (printErr t) := fun _ _ => rfl

theorem filesAside_adopt (s : Execution) : FilesAside (adopt s) := fun _ _ => rfl

theorem FilesAside.bind {command : CommandM α} {next : α → CommandM β} (h : FilesAside command)
    (hnext : ∀ a, FilesAside (next a)) : FilesAside (command >>= next) := by
  intro c fs
  rw [bind_apply, bind_apply, h c fs]
  cases command c with
  | ok a c' => exact hnext a c' fs
  | error e c' => rfl

theorem FilesAside.map (f : α → β) {command : CommandM α} (h : FilesAside command) :
    FilesAside (f <$> command) := by
  intro c fs
  rw [map_apply, map_apply, h c fs]
  cases command c <;> rfl

/-- It may be looked at everything but the files. -/
theorem filesAside_get_bind {next : Console → CommandM α}
    (hsame : ∀ c fs, next { c with fs } = next c) (hnext : ∀ c, FilesAside (next c)) :
    FilesAside ((get : CommandM Console) >>= next) := by
  intro c fs
  rw [get_bind_apply, get_bind_apply, hsame]
  exact hnext c c fs

theorem filesAside_fail (code : ExitCode) (message : Text) : FilesAside (fail code message) :=
  (filesAside_printErr _).bind fun _ => filesAside_pure code

theorem filesAside_endFaulted (f : Fault) : FilesAside (endFaulted f) := by
  unfold endFaulted
  split
  · exact (filesAside_printErr _).bind fun _ => filesAside_pure _
  · exact filesAside_throw _

theorem filesAside_execute (steps : Nat) (entry : ObjectId) (argv : List Text) (s : Execution) :
    FilesAside (execute steps entry argv s) := by
  rw [execute]
  split
  · exact (filesAside_adopt _).bind fun _ => filesAside_endFaulted _
  · exact (filesAside_adopt _).bind fun _ => filesAside_throw _
  · split
    · exact (filesAside_adopt _).bind fun _ => filesAside_pure _
    · exact (filesAside_adopt _).bind fun _ => filesAside_endFaulted _
    · exact (filesAside_adopt _).bind fun _ => filesAside_throw _

/-- A program neither reads nor writes files. -/
theorem filesAside_runImage (world : World) (settings : Manifest) (img : Image) (program : Text)
    (args : List Text) : FilesAside (runImage world settings img program args) := by
  simp only [runImage]
  split
  · exact filesAside_endFaulted _
  · exact filesAside_fail _ _
  · split
    · exact filesAside_endFaulted _
    · apply filesAside_get_bind
      · intro c fs
        rfl
      · intro c
        exact filesAside_execute _ _ _ _

/-! ### What shows -/

/-- What the world sees of a command: how it ends, what is left of the input, and the outputs. -/
def shown : EStateM.Result Abort Console α → Except Abort α × Text × Array UInt8 × Array UInt8
  | .ok a c => (.ok a, c.input, c.out, c.err)
  | .error e c => (.error e, c.input, c.out, c.err)

theorem shown_withFiles (fs : FileSystem) (r : EStateM.Result Abort Console α) :
    shown (withFiles fs r) = shown r := by
  cases r <;> rfl

/-- The console that a result leaves. -/
def final : EStateM.Result Abort Console α → Console
  | .ok _ c => c
  | .error _ c => c

theorem final_withFiles (fs : FileSystem) (r : EStateM.Result Abort Console α) :
    final (withFiles fs r) = { final r with fs } := by
  cases r <;> rfl

theorem FilesAside.final_fs {command : CommandM α} (h : FilesAside command) (c : Console) :
    (final (command c)).fs = c.fs := by
  have hsame := h c c.fs
  rw [show ({ c with fs := c.fs } : Console) = c from rfl] at hsame
  rw [hsame, final_withFiles]

/-- Two consoles have the same input and the same outputs. -/
structure SameStreams (c c' : Console) : Prop where
  input : c'.input = c.input
  out : c'.out = c.out
  err : c'.err = c.err

theorem FilesAside.shown_eq {command : CommandM α} (h : FilesAside command) {c c' : Console}
    (hsame : SameStreams c c') : shown (command c') = shown (command c) := by
  have hconsole : c' = { c with fs := c'.fs } := by
    rw [← hsame.input, ← hsame.out, ← hsame.err]
  rw [hconsole, h, shown_withFiles]

/-- A command comes down to running something: what it does besides that concerns only files. -/
def HandsOver (command : CommandM α) (c : Console) (run : CommandM α) : Prop :=
  ∃ before after, command c = withFiles after (run { c with fs := before })

theorem HandsOver.of_eq {command run : CommandM α} {c : Console} (h : FilesAside run)
    (heq : command c = run c) : HandsOver command c run := by
  refine ⟨c.fs, c.fs, ?_⟩
  rw [heq, ← h c c.fs]

theorem HandsOver.map (f : α → β) {command run : CommandM α} (h : HandsOver command c run) :
    HandsOver (f <$> command) c (f <$> run) := by
  obtain ⟨before, after, heq⟩ := h
  refine ⟨before, after, ?_⟩
  rw [map_apply, map_apply, heq]
  cases run { c with fs := before } <;> rfl

/-- Nothing else shows than what is run. -/
theorem HandsOver.shown_eq {command run : CommandM α} {c : Console} (h : HandsOver command c run)
    (hrun : FilesAside run) : shown (command c) = shown (run c) := by
  obtain ⟨before, after, heq⟩ := h
  rw [heq, shown_withFiles, hrun, shown_withFiles]

end StackVm.Cli
