import DebianPackaging.Files.Document
import DebianPackaging.Proofs.Files.Tree

/-!
This module contains what it comes to when a document is written back to its file. A file whose text is
that of the document is left alone; another one takes the text of the document, and no other file changes.
-/

namespace DebianPackaging

open Text

namespace FileTree

structure DiffersOnlyAt (path : Text) (tree tree' : FileTree) : Prop where
  workingDirectory : tree'.workingDirectory = tree.workingDirectory
  find?_of_ne : ∀ names, tree.locate path ≠ .ok names → tree'.find? names = tree.find? names
  isFile : ∀ names, tree.locate path = .ok names →
    ∃ content content', tree.find? names = some (.file content) ∧
      tree'.find? names = some (.file content')

inductive WritesAtMost : Option Text → FileTree → FileTree → Prop where
  | nothing {file? : Option Text} {tree : FileTree} : WritesAtMost file? tree tree
  | content {path : Text} {tree tree' : FileTree} (h : DiffersOnlyAt path tree tree')
    : WritesAtMost (some path) tree tree'

theorem WritesAtMost.eq_of_none {tree tree' : FileTree} (h : WritesAtMost none tree tree')
    : tree' = tree := by
  cases h
  rfl

end FileTree

namespace FileWork

@[simp]
theorem run_ask (f : FileTree → Except Error α) (tree : FileTree)
    : (ask f).run tree
        =
      match f tree with
      | .ok a => .ok a tree
      | .error e => .error e tree := rfl

@[simp]
theorem run_writeText (path t : Text) (tree : FileTree)
    : (writeText path t).run tree
        =
      match tree.writeText path t with
      | .ok tree' => .ok () tree'
      | .error e => .error e tree := by
  unfold writeText
  rw [EStateM.run_bind, run_ask]
  cases tree.writeText path t with
  | error e => rfl
  | ok tree' => rfl

theorem run_commit {tree : FileTree} {path t : Text} (h : tree.readText path = .ok t) (text : Text)
    : (commit (some path) text).run tree
        =
      if t = text then .ok false tree
      else
        match tree.writeText path text with
        | .ok tree' => .ok true tree'
        | .error e => .error e tree := by
  unfold commit
  dsimp only
  rw [EStateM.run_bind, run_ask, FileTree.readText?_of_readText h]
  dsimp only
  by_cases heq : t = text
  . simp [heq]
  . rw [if_neg heq, if_neg (by simpa using heq), EStateM.run_bind, run_writeText]
    cases tree.writeText path text with
    | error e => rfl
    | ok tree' => rfl

/-- The write is the last step of a commit, so that one that fails has not written. -/
theorem tree_of_commit_error {path : Option Text} {text : Text} {tree tree' : FileTree} {e : Error}
    (h : (commit path text).run tree = .error e tree') : tree' = tree := by
  unfold commit at h
  cases path with
  | none =>
    cases h
    rfl
  | some path =>
    dsimp only at h
    rw [EStateM.run_bind, run_ask] at h
    cases hread : tree.readText? path with
    | error e' =>
      rw [hread] at h
      cases h
      rfl
    | ok t? =>
      rw [hread] at h
      dsimp only at h
      split at h
      . cases h
      . rw [EStateM.run_bind, run_writeText] at h
        cases hwrite : tree.writeText path text with
        | error e' =>
          rw [hwrite] at h
          cases h
          rfl
        | ok tree'' =>
          rw [hwrite] at h
          cases h

end FileWork

namespace FileTree

section Commit

variable {tree : FileTree} {path t : Text} (h : tree.readText path = .ok t)

include h

theorem differs_of_readText (text : Text) : tree.differs (some path) text = .ok (t != text) := by
  unfold differs
  dsimp only
  rw [readText?_of_readText h]
  rfl

theorem commit_of_readText : tree.commit (some path) t = .ok (tree, false) := by
  unfold commit
  rw [FileWork.run_commit h, if_pos rfl]

theorem exists_commit_of_ne {text : Text} (hne : t ≠ text)
    : ∃ tree', tree.commit (some path) text = .ok (tree', true) ∧ DiffersOnlyAt path tree tree' ∧
        tree'.readText path = .ok (unifyNewlines text) := by
  obtain ⟨content, hbytes, _⟩ := readText_eq_ok.mp h
  obtain ⟨names, hlocate, hfile⟩ := readBytes_eq_ok.mp hbytes
  have hwrite : tree.writeText path text = .ok (tree.set names (.file (encode text))) := by
    unfold writeText
    rw [hlocate]
    simp [bind, Except.bind, pure, Except.pure, hfile]
  refine ⟨tree.set names (.file (encode text)), ?_, ⟨rfl, ?_, ?_⟩, ?_⟩
  . unfold commit
    rw [FileWork.run_commit h, if_neg hne, hwrite]
  . intro other hother
    rw [find?_set_of_file hfile, if_neg]
    rintro rfl
    exact hother hlocate
  . intro other hother
    rw [hlocate] at hother
    cases hother
    exact ⟨content, encode text, hfile, by rw [find?_set_of_file hfile, if_pos rfl]⟩
  . rw [readText_eq_ok]
    exact ⟨_, readBytes_set_of_file hlocate hfile _, decode_encode text⟩

theorem exists_commit {text : Text} (htext : '\r' ∉ text)
    : ∃ tree', tree.commit (some path) text = .ok (tree', t != text) ∧ tree'.readText path = .ok text := by
  by_cases heq : t = text
  . rw [← heq, commit_of_readText h, bne_self_eq_false]
    exact ⟨tree, rfl, h⟩
  . obtain ⟨tree', hcommit, _, hread⟩ := exists_commit_of_ne h heq
    rw [unifyNewlines_of_not_mem htext] at hread
    refine ⟨tree', ?_, hread⟩
    rw [hcommit, bne_iff_ne.mpr heq]

theorem writesAtMost_of_commit {text : Text} {tree' : FileTree} {written : Bool}
    (hcommit : (FileWork.commit (some path) text).run tree = .ok written tree')
    : WritesAtMost (some path) tree tree' := by
  replace hcommit : tree.commit (some path) text = .ok (tree', written) := by
    unfold commit
    rw [hcommit]
  by_cases heq : t = text
  . rw [← heq, commit_of_readText h] at hcommit
    cases hcommit
    exact .nothing
  . obtain ⟨_, hcommit', hdiffers, _⟩ := exists_commit_of_ne h heq
    rw [hcommit'] at hcommit
    cases hcommit
    exact .content hdiffers

end Commit

end FileTree

end DebianPackaging
