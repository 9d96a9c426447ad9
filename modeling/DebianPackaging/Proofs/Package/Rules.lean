import DebianPackaging.Package.Open
import DebianPackaging.Proofs.Files.Commit
import DebianPackaging.Proofs.Makefile.EditRun

/-!
This module contains the proof that the rules of a package are only written back if edits have changed them,
and that what was written is read as the same text.
-/

namespace DebianPackaging

open Text FileTree DhCommand

namespace Makefile

theorem openFile_of_readText {tree : FileTree} {path t : Text} (h : tree.readText path = .ok t)
    : openFile tree path = .ok ⟨some path, read t⟩ := by
  unfold openFile
  rw [h]
  rfl

/-- A makefile that was read from a file is written back only if edits have changed its text. A run of edits
that report no change leaves the file alone. After any run whose edits insert no carriage return the file
has the text of the makefile once it was written back, so it is not written again. -/
theorem commit_run {tree : FileTree} {path : Text} {content : ByteArray}
    (hfile : tree.readBytes path = .ok content) (hutf8 : content.IsValidUTF8) (edits : List Edit)
    : ∃ t m, content = encode t ∧ openFile tree path = .ok ⟨some path, m⟩ ∧
        m.text = unifyNewlines t ∧
        (m.ReportNothing edits → tree.commit (some path) (m.run edits).text = .ok (tree, false)) ∧
        (m.InsertNoReturn edits →
          ∃ tree',
            tree.commit (some path) (m.run edits).text = .ok (tree', m.text != (m.run edits).text) ∧
            tree'.differs (some path) (m.run edits).text = .ok false ∧
            tree'.commit (some path) (m.run edits).text = .ok (tree', false) ∧
            ∃ m', openFile tree' path = .ok ⟨some path, m'⟩ ∧ m'.text = (m.run edits).text) := by
  obtain ⟨t, rfl⟩ := exists_encode hutf8
  have hread : tree.readText path = .ok (unifyNewlines t) :=
    readText_eq_ok.mpr ⟨_, hfile, decode_encode t⟩
  refine ⟨t, read (unifyNewlines t), rfl, openFile_of_readText hread, text_read _, ?_, ?_⟩
  . intro hnothing
    rw [run_eq_self hnothing, text_read]
    exact commit_of_readText hread
  . intro hinsert
    have hreturn : '\r' ∉ (read (unifyNewlines t)).text := by
      rw [text_read]
      exact not_mem_unifyNewlines t
    obtain ⟨tree', hcommit, hread'⟩ := exists_commit hread
      (not_mem_text_run (hasColons_read _) hinsert hreturn)
    rw [text_read]
    refine ⟨tree', hcommit, ?_, commit_of_readText hread', _, openFile_of_readText hread', text_read _⟩
    rw [differs_of_readText hread', bne_self_eq_false]

theorem commit_run_crlf
    : ∃ tree m,
        tree = ({ nodes := [(["rules"], .file (encode "%:\r\n\tdh $@\r\n"))] } : FileTree) ∧
        openFile tree "/rules" = .ok ⟨some "/rules", m⟩ ∧
        (∃ edits, edits = [.updateDhInvocations (dropWith · "quilt"), .dropPhony "clean", .discardOverrides] ∧
          tree.commit (some "/rules") (m.run edits).text = .ok (tree, false)) ∧
        ∃ edits, edits = [.updateDhInvocations (addWith · "quilt"), .addPhony "clean", .discardOverrides] ∧
          (m.run edits).text = "%:\n\tdh $@ --with=quilt\n.PHONY: clean\n" ∧
          ∃ tree', tree.commit (some "/rules") (m.run edits).text = .ok (tree', true) ∧
            tree'.commit (some "/rules") (m.run edits).text = .ok (tree', false) := by
  have hfile : ({ nodes := [(["rules"], .file (encode "%:\r\n\tdh $@\r\n"))] } : FileTree).readBytes "/rules"
      = .ok (encode "%:\r\n\tdh $@\r\n") := rfl
  have hutf8 : (encode "%:\r\n\tdh $@\r\n").IsValidUTF8 := (String.ofList _).isValidUTF8
  have hopen := openFile_of_readText (readText_eq_ok.mpr ⟨_, hfile, decode_encode _⟩)
  obtain ⟨_, m, _, hm, _, hnothing, _⟩ := commit_run hfile hutf8
    [.updateDhInvocations (dropWith · "quilt"), .dropPhony "clean", .discardOverrides]
  obtain ⟨_, m', _, hm', _, _, hinsert⟩ := commit_run hfile hutf8
    [.updateDhInvocations (addWith · "quilt"), .addPhony "clean", .discardOverrides]
  rw [hopen] at hm hm'
  cases hm
  cases hm'
  have hreport : ReportNothing (read (unifyNewlines "%:\r\n\tdh $@\r\n"))
      [.updateDhInvocations (dropWith · "quilt"), .dropPhony "clean", .discardOverrides] :=
    ⟨by decide +kernel, by decide +kernel, by decide +kernel, trivial⟩
  have hreturn : InsertNoReturn (read (unifyNewlines "%:\r\n\tdh $@\r\n"))
      [.updateDhInvocations (addWith · "quilt"), .addPhony "clean", .discardOverrides] :=
    ⟨by decide +kernel, by decide +kernel, by decide +kernel, trivial⟩
  have htext : (run (read (unifyNewlines "%:\r\n\tdh $@\r\n"))
      [.updateDhInvocations (addWith · "quilt"), .addPhony "clean", .discardOverrides]).text
        = "%:\n\tdh $@ --with=quilt\n.PHONY: clean\n" := by
    decide +kernel
  obtain ⟨tree', hcommit, _, hagain, _⟩ := hinsert hreturn
  refine ⟨_, _, rfl, hopen, ⟨_, rfl, hnothing hreport⟩, _, rfl, htext, tree', ?_, hagain⟩
  rw [hcommit, htext, text_read]
  rfl

end Makefile

end DebianPackaging
