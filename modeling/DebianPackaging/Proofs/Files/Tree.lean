import DebianPackaging.Files.Tree
import DebianPackaging.Proofs.Outcome

/-!
This module contains what a write to a file leaves of a tree of files: everything but the content of that
file, so that each path still leads to where it led, and the text that is read from the file afterwards.
-/

namespace DebianPackaging

open Text

namespace Text

theorem unifyNewlines_of_not_mem {t : Text} (h : '\r' ∉ t) : unifyNewlines t = t := by
  fun_induction unifyNewlines t with
  | case1 => rfl
  | case2 t ih => simp at h
  | case3 c t _ ih =>
    rw [List.mem_cons, not_or] at h
    rw [ih h.2, if_neg (Ne.symm h.1)]

theorem not_mem_unifyNewlines (t : Text) : '\r' ∉ unifyNewlines t := by
  fun_induction unifyNewlines t with
  | case1 => simp
  | case2 t ih => simpa using ih
  | case3 c t _ ih =>
    rw [List.mem_cons, not_or]
    refine ⟨?_, ih⟩
    split
    . decide
    . next hc => exact Ne.symm hc

end Text

namespace FileTree

theorem decode_encode (t : Text) : decode (encode t) = .ok (unifyNewlines t) := by
  have hread : String.fromUTF8? (String.ofList t).toUTF8 = some (String.ofList t) :=
    dif_pos (String.ofList t).isValidUTF8
  unfold decode encode
  rw [hread]
  simp

theorem exists_encode {content : ByteArray} (h : content.IsValidUTF8) : ∃ t, encode t = content := by
  refine ⟨(String.fromUTF8 content h).toList, ?_⟩
  unfold encode
  rw [String.ofList_toList]
  rfl

theorem readText_eq_ok {tree : FileTree} {path t : Text}
    : tree.readText path = .ok t ↔ ∃ content, tree.readBytes path = .ok content ∧ decode content = .ok t :=
  bind_eq_ok

theorem readText?_of_readText {tree : FileTree} {path t : Text} (h : tree.readText path = .ok t)
    : tree.readText? path = .ok (some t) := by
  unfold readText?
  rw [h]

theorem readBytes_eq_ok {tree : FileTree} {path : Text} {content : ByteArray}
    : tree.readBytes path = .ok content ↔
        ∃ names, tree.locate path = .ok names ∧ tree.find? names = some (.file content) := by
  unfold readBytes
  rw [bind_eq_ok]
  apply exists_congr
  intro names
  apply and_congr_right
  intro _
  split
  . next h =>
    rw [h]
    constructor
    . intro heq
      cases heq
      rfl
    . intro heq
      cases heq
      rfl
  . next h =>
    rw [h]
    simp
  . next h =>
    rw [h]
    simp

theorem lookup_map_set (nodes : List (List Text × Node)) (names names' : List Text) (node : Node)
    : (nodes.map fun entry => if entry.1 == names then (names, node) else entry).lookup names'
        =
      if names' = names then (nodes.lookup names).map (fun _ => node) else nodes.lookup names' := by
  induction nodes with
  | nil => simp
  | cons entry nodes ih =>
    obtain ⟨key, old⟩ := entry
    simp only [List.map_cons]
    by_cases hkey : key = names
    . rw [if_pos (beq_iff_eq.mpr hkey)]
      by_cases hname : names' = names
      . simp [hname, hkey]
      . have hne : (names' == names) = false := beq_eq_false_iff_ne.mpr hname
        rw [if_neg hname] at ih ⊢
        rw [List.lookup_cons, List.lookup_cons, hkey, hne, ih]
    . rw [if_neg (by simpa using hkey), List.lookup_cons, ih, List.lookup_cons, List.lookup_cons]
      by_cases hname : names' = names
      . have hne : (names == key) = false := beq_eq_false_iff_ne.mpr (Ne.symm hkey)
        rw [hname, if_pos rfl, if_pos rfl, hne]
      . rw [if_neg hname, if_neg hname]

theorem mem_keys_of_lookup {nodes : List (List Text × Node)} {names : List Text} {node : Node}
    (h : nodes.lookup names = some node) : nodes.any (·.1 == names) = true := by
  rw [List.lookup_eq_some_iff] at h
  obtain ⟨before, after, rfl, _⟩ := h
  simp

theorem find?_set_of_file {tree : FileTree} {names : List Text} {content : ByteArray}
    (h : tree.find? names = some (.file content)) (node : Node) (names' : List Text)
    : (tree.set names node).find? names' = if names' = names then some node else tree.find? names' := by
  cases names with
  | nil => cases h
  | cons name rest =>
    have hlookup : tree.nodes.lookup (name :: rest) = some (.file content) := h
    unfold set
    rw [if_pos (mem_keys_of_lookup hlookup)]
    cases names' with
    | nil => rfl
    | cons name' rest' =>
      change List.lookup (name' :: rest') _ = _
      rw [lookup_map_set, hlookup]
      rfl

theorem walk_set_of_file {tree : FileTree} {names : List Text} {content : ByteArray}
    (h : tree.find? names = some (.file content)) (new : ByteArray) (path : Text)
    (parts dir : List Text)
    : (tree.set names (.file new)).walk path dir parts = tree.walk path dir parts := by
  induction parts generalizing dir with
  | nil => rfl
  | cons part parts ih =>
    unfold walk
    rw [find?_set_of_file h]
    by_cases hdir : dir = names
    . rw [if_pos hdir, hdir, h]
    . rw [if_neg hdir]
      cases tree.find? dir with
      | none => rfl
      | some node =>
        cases node with
        | file content => rfl
        | directory => exact ih _

theorem locate_set_of_file {tree : FileTree} {names : List Text} {content : ByteArray}
    (h : tree.find? names = some (.file content)) (new : ByteArray) (path : Text)
    : (tree.set names (.file new)).locate path = tree.locate path := by
  unfold locate
  rw [walk_set_of_file h]
  rfl

theorem readBytes_set_of_file {tree : FileTree} {path : Text} {names : List Text} {content : ByteArray}
    (hlocate : tree.locate path = .ok names) (h : tree.find? names = some (.file content))
    (new : ByteArray) : (tree.set names (.file new)).readBytes path = .ok new := by
  rw [readBytes_eq_ok]
  refine ⟨names, ?_, ?_⟩
  . rw [locate_set_of_file h, hlocate]
  . rw [find?_set_of_file h, if_pos rfl]

end FileTree

end DebianPackaging
