import DebianPackaging.CommandLine.Program
import DebianPackaging.Proofs.Files.Commit

/-!
This module contains the files that a run of the program writes to: none if it fails or if its command only
shows something, and otherwise at most the one file that the command edits. A step that fails would leave
what the steps before it had written, so the proof goes through the steps of each command: all of them only
read but the last one that can fail, which is the write.
-/

namespace DebianPackaging

open FileTree

structure OpenDocument.IsReadFrom (tree : FileTree) (path : Text) (d : OpenDocument δ) : Prop where
  path_eq : d.path = some path
  exists_text : ∃ t, tree.readText path = .ok t

theorem OpenDocument.IsReadFrom.map {tree : FileTree} {path : Text} {d : OpenDocument δ}
    (h : d.IsReadFrom tree path) (f : δ → ε) : (d.map f).IsReadFrom tree path :=
  ⟨h.path_eq, h.exists_text⟩

theorem ControlDocument.isReadFrom_of_openFile {tree : FileTree} {path : Text}
    {d : OpenDocument ControlDocument} (h : openFile tree path = .ok d) : d.IsReadFrom tree path := by
  obtain ⟨content, hcontent, h⟩ := bind_eq_ok.mp h
  dsimp only at h
  split at h
  . next document hread =>
    cases h
    obtain ⟨t, ht, _⟩ := Option.bind_eq_some_iff.mp hread
    refine ⟨rfl, t, ?_⟩
    rw [readText_eq_ok]
    refine ⟨content, hcontent, ?_⟩
    cases hdecode : decode content with
    | error e =>
      rw [hdecode] at ht
      cases ht
    | ok t' =>
      rw [hdecode] at ht
      cases ht
      rfl
  . cases h

theorem Manifest.isReadFrom_of_openPackage {tree : FileTree} {directory : Text}
    {d : OpenDocument Manifest} (h : openPackage tree directory = .ok d)
    : d.IsReadFrom tree (PackageLayout.manifestFile directory) := by
  obtain ⟨t, ht, h⟩ := bind_eq_ok.mp h
  obtain ⟨cargo, _, h⟩ := bind_eq_ok.mp h
  obtain ⟨manifest, _, h⟩ := bind_eq_ok.mp h
  cases h
  exact ⟨rfl, t, ht⟩

theorem Makefile.isReadFrom_of_openFile {tree : FileTree} {path : Text} {d : OpenDocument Makefile}
    (h : openFile tree path = .ok d) : d.IsReadFrom tree path := by
  obtain ⟨t, ht, h⟩ := bind_eq_ok.mp h
  cases h
  exact ⟨rfl, t, ht⟩

namespace PackageMetadata

def file (tree : FileTree) (directory : Text) : Text :=
  if tree.hasPath (PackageLayout.manifestFile directory) then PackageLayout.manifestFile directory
  else PackageLayout.controlFile directory

theorem isReadFrom_of_openPackage {tree : FileTree} {directory : Text}
    {d : OpenDocument PackageMetadata} (h : openPackage tree directory = .ok d)
    : d.IsReadFrom tree (file tree directory) := by
  unfold openPackage at h
  unfold file
  split at h
  . next hmanifest =>
    obtain ⟨m, hm, h⟩ := bind_eq_ok.mp h
    cases h
    rw [if_pos hmanifest]
    exact (Manifest.isReadFrom_of_openPackage hm).map _
  . next hmanifest =>
    obtain ⟨c, hc, h⟩ := bind_eq_ok.mp h
    cases h
    rw [if_neg hmanifest]
    exact (ControlDocument.isReadFrom_of_openFile hc).map _

end PackageMetadata

/-- What an action leaves of the files: all of them as they were if it fails, and all but at most one if it
succeeds. -/
def Confined (file? : Option Text) (w : World) : EStateM.Result Failure World α → Prop
  | .ok _ w' => WritesAtMost file? w.tree w'.tree
  | .error _ w' => w'.tree = w.tree

namespace Confined

variable {file? : Option Text} {w w' : World}

theorem pure (a : α) : Confined file? w ((Pure.pure a : Action α).run w) := WritesAtMost.nothing

theorem throw (failure : Failure) : Confined file? w ((MonadExcept.throw failure : Action α).run w) := rfl

theorem lift (x : Except Error α) : Confined file? w ((Action.lift x).run w) := by
  cases x with
  | ok a => exact .pure a
  | error e => exact .throw _

theorem of_tree_eq {r : EStateM.Result Failure World α} (htree : w'.tree = w.tree)
    (h : Confined file? w' r) : Confined file? w r := by
  unfold Confined at h ⊢
  rw [htree] at h
  exact h

theorem bind {x : Action α} {f : α → Action β} (hx : Confined none w (x.run w))
    (hf : ∀ a w', x.run w = .ok a w' → w'.tree = w.tree → Confined file? w' ((f a).run w'))
    : Confined file? w ((x >>= f).run w) := by
  rw [EStateM.run_bind]
  cases hrun : x.run w with
  | ok a w' =>
    rw [hrun] at hx
    have htree : w'.tree = w.tree := hx.eq_of_none
    exact of_tree_eq htree (hf a w' hrun htree)
  | error failure w' =>
    rw [hrun] at hx
    exact hx

/-- What comes behind a write must not fail. -/
theorem bind_pure {x : Action α} (hx : Confined file? w (x.run w)) (f : α → β)
    : Confined file? w ((x >>= fun a => Pure.pure (f a)).run w) := by
  rw [EStateM.run_bind]
  cases hrun : x.run w with
  | ok a w' =>
    rw [hrun] at hx
    exact hx
  | error failure w' =>
    rw [hrun] at hx
    exact hx

end Confined

namespace Action

variable {w w' : World}

theorem run_onFiles (x : FileWork α) (w : World)
    : (onFiles x).run w
        =
      match x.run w.tree with
      | .ok a tree => .ok a { w with tree }
      | .error e tree => .error (.error e) { w with tree } := by
  unfold onFiles EStateM.run
  rfl

theorem run_ask (f : FileTree → Except Error α) (w : World)
    : (ask f).run w
        =
      match f w.tree with
      | .ok a => .ok a w
      | .error e => .error (.error e) w := by
  unfold ask
  rw [run_onFiles, FileWork.run_ask]
  cases f w.tree with
  | ok a => rfl
  | error e => rfl

theorem confined_ask (f : FileTree → Except Error α) : Confined none w ((ask f).run w) := by
  rw [run_ask]
  cases f w.tree with
  | ok a => exact .pure a
  | error e => exact .throw _

theorem confined_onLevels
    (f : Option SupportedLevels → Option SupportedLevels × Except Error α)
    : Confined none w ((onLevels f).run w) := by
  change Confined none w ((lift (f w.levels).2).run { w with levels := (f w.levels).1 })
  exact Confined.of_tree_eq rfl (.lift _)

end Action

theorem eq_ok_of_bind {x : Action α} {f : α → Action β} {w w' : World} {b : β}
    (h : (x >>= f).run w = .ok b w')
    : ∃ a w'', x.run w = .ok a w'' ∧ (f a).run w'' = .ok b w' := by
  rw [EStateM.run_bind] at h
  split at h
  . next a w'' hx => exact ⟨a, w'', hx, h⟩
  . cases h

namespace Workplace

variable {p : Workplace} {w w' : World}

theorem confined_checkPackage : Confined none w (p.checkPackage.run w) := by
  apply Confined.bind (Action.confined_ask _)
  intro exists? w' _ _
  cases exists? with
  | true => exact .pure ()
  | false => exact .throw _

section Open

variable {f : FileTree → Except Error (OpenDocument δ)} {explain : Text → Text}

theorem confined_openDocument : Confined none w ((p.openDocument f explain).run w) := by
  apply Confined.bind confined_checkPackage
  intro _ w₁ _ _
  apply Confined.bind (Action.confined_ask _)
  intro d? w₂ _ _
  split
  . exact .pure _
  . exact .throw _
  . exact .throw _

theorem eq_ok_of_openDocument {d : OpenDocument δ} (h : (p.openDocument f explain).run w = .ok d w')
    : f w.tree = .ok d := by
  obtain ⟨_, w₁, hcheck, h⟩ := eq_ok_of_bind h
  obtain ⟨d?, w₂, hask, h⟩ := eq_ok_of_bind h
  have hconfined : Confined none w (p.checkPackage.run w) := confined_checkPackage
  rw [hcheck] at hconfined
  have htree : w₁.tree = w.tree := FileTree.WritesAtMost.eq_of_none hconfined
  rw [Action.run_ask] at hask
  cases hask
  rw [← htree]
  split at h
  . next hf =>
    cases h
    exact hf
  . cases h
  . cases h

end Open

theorem confined_openMetadata : Confined none w (p.openMetadata.run w) := by
  apply Confined.bind confined_openDocument
  intro d w' _ _
  split
  . exact .pure d
  . exact .throw _

theorem confined_openRules : Confined none w (p.openRules.run w) := confined_openDocument

theorem isReadFrom_of_openMetadata {d : OpenDocument PackageMetadata}
    (h : p.openMetadata.run w = .ok d w')
    : d.IsReadFrom w.tree (PackageMetadata.file w.tree p.directory) := by
  obtain ⟨d', w₁, hopen, h⟩ := eq_ok_of_bind h
  have hread := PackageMetadata.isReadFrom_of_openPackage (eq_ok_of_openDocument hopen)
  split at h
  . cases h
    exact hread
  . cases h

theorem isReadFrom_of_openRules {d : OpenDocument Makefile} (h : p.openRules.run w = .ok d w')
    : d.IsReadFrom w.tree (PackageLayout.rulesFile p.directory) :=
  Makefile.isReadFrom_of_openFile (eq_ok_of_openDocument h)

theorem confined_commit {d : OpenDocument δ} {path : Text} (hd : d.IsReadFrom w.tree path)
    (text edit : Text) : Confined (some path) w ((commit d.path text edit).run w) := by
  apply Confined.bind_pure
  obtain ⟨t, ht⟩ := hd.exists_text
  rw [hd.path_eq, Action.run_onFiles]
  cases hrun : (FileWork.commit (some path) text).run w.tree with
  | ok written tree => exact FileTree.writesAtMost_of_commit ht hrun
  | error e tree => exact FileWork.tree_of_commit_error hrun

theorem confined_showMetadata {f : PackageMetadata → Action (List Text)}
    (hf : ∀ m w, Confined none w ((f m).run w)) : Confined none w ((p.showMetadata f).run w) := by
  apply Confined.bind confined_openMetadata
  intro d w' _ _
  exact Confined.bind_pure (hf d.document w') _

theorem confined_editMetadata (name : Text) (edit : PackageMetadata → Except Error PackageMetadata)
    : Confined (some (PackageMetadata.file w.tree p.directory)) w
        ((p.editMetadata name edit).run w) := by
  apply Confined.bind confined_openMetadata
  intro d w₁ hopen htree
  have hd := isReadFrom_of_openMetadata hopen
  cases hedit : edit d.document with
  | error e => exact .throw _
  | ok new =>
    rw [← htree] at hd ⊢
    exact confined_commit hd new.text name

theorem confined_editRules (edit : Makefile → Makefile × Text)
    : Confined (some (PackageLayout.rulesFile p.directory)) w ((p.editRules edit).run w) := by
  apply Confined.bind confined_openRules
  intro d w₁ hopen htree
  have hd := isReadFrom_of_openRules hopen
  rw [← htree] at hd
  exact confined_commit hd _ _

end Workplace

namespace Command

def editedFile? (tree : FileTree) (directory : Text) : Command → Option Text
  | compatLevel | sequences | highestCompatLevel _ | showVcs _ | addOns => none
  | ensureDebhelper _ | ensureBuildDependency _ | setVcs _ _ => some (PackageMetadata.file tree directory)
  | dropPointlessOverrides | addAddOn _ | dropAddOn _ => some (PackageLayout.rulesFile directory)

theorem confined_perform (c : Command) (p : Workplace) (w : World)
    : Confined (c.editedFile? w.tree p.directory) w ((c.perform p).run w) := by
  unfold perform editedFile?
  cases c with
  | compatLevel =>
    apply Confined.bind Workplace.confined_checkPackage
    intro _ w₁ _ _
    apply Confined.bind (Action.confined_ask _)
    intro level? w₂ _ _
    cases level? with
    | some level => exact .pure _
    | none => exact .throw _
  | ensureDebhelper version => exact Workplace.confined_editMetadata _ _
  | sequences => exact Workplace.confined_showMetadata fun m w => .lift _
  | ensureBuildDependency relation => exact Workplace.confined_editMetadata _ _
  | highestCompatLevel release => exact Confined.bind_pure (Action.confined_onLevels _) _
  | showVcs type =>
    apply Workplace.confined_showMetadata
    intro m w
    apply Confined.bind (.lift _)
    intro url? w₁ _ _
    cases url? with
    | some url => exact .pure _
    | none => exact .throw _
  | setVcs type url => exact Workplace.confined_editMetadata _ _
  | dropPointlessOverrides => exact Workplace.confined_editRules _
  | addOns => exact Confined.bind_pure Workplace.confined_openRules _
  | addAddOn name => exact Workplace.confined_editRules _
  | dropAddOn name => exact Workplace.confined_editRules _

theorem editedFile?_of_isReadOnly {c : Command} (h : c.isReadOnly = true) (tree : FileTree)
    (directory : Text) : c.editedFile? tree directory = none := by
  cases c <;> simp_all [isReadOnly, editedFile?]

def editedFileOf? (tree : FileTree) (args : List Text) : Option Text :=
  match read args with
  | .ok (options, c) => c.editedFile? tree options.directory
  | .error _ => none

end Command

namespace Surroundings

theorem exitCode_explain (s : Surroundings) (debug : Bool) (failure : Failure)
    : (s.explain debug failure).1.exitCode = 1 := by
  unfold explain
  split
  . rfl
  . split
    . rfl
    . split
      . rfl
      . rfl

/-- A run that fails writes to no file, and one that succeeds to no other file than the one that its command
edits. A command that only shows something edits none. -/
theorem run_writesAtMost (s : Surroundings) (tree : FileTree) (levels : Option SupportedLevels)
    (args : List Text)
    : ((s.run tree levels args).outcome.exitCode ≠ 0 → (s.run tree levels args).tree = tree) ∧
        ((s.run tree levels args).outcome.exitCode = 0 →
          WritesAtMost (Command.editedFileOf? tree args) tree (s.run tree levels args).tree) ∧
        ∀ options c, Command.read args = .ok (options, c) → c.isReadOnly = true →
          (s.run tree levels args).tree = tree := by
  unfold run Command.editedFileOf?
  cases hread : Command.read args with
  | error cause =>
    cases cause with
    | misused => exact ⟨fun _ => rfl, fun _ => .nothing, fun _ _ _ _ => rfl⟩
    | helpWanted => exact ⟨fun _ => rfl, fun _ => .nothing, fun _ _ _ _ => rfl⟩
    | versionWanted => exact ⟨fun _ => rfl, fun _ => .nothing, fun _ _ _ _ => rfl⟩
  | ok call =>
    obtain ⟨options, c⟩ := call
    dsimp only
    have hconfined := c.confined_perform ⟨options.directory, s.assistant⟩ ⟨tree, levels⟩
    split
    . next answer world hrun =>
      rw [hrun] at hconfined
      refine ⟨fun h => absurd rfl h, fun _ => hconfined, ?_⟩
      intro options' c' heq hreadOnly
      cases heq
      unfold Confined at hconfined
      rw [Command.editedFile?_of_isReadOnly hreadOnly] at hconfined
      exact FileTree.WritesAtMost.eq_of_none hconfined
    . next failure world hrun =>
      rw [hrun] at hconfined
      refine ⟨fun _ => hconfined, fun h => ?_, fun _ _ _ _ => hconfined⟩
      rw [exitCode_explain] at h
      cases h

end Surroundings

end DebianPackaging
