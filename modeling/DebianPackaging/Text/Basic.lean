/-!
This module contains the text type of the library and the cutting, joining and searching that the
readers and printers of the other modules are built from.
-/

namespace DebianPackaging

abbrev Text := List Char

instance : Coe String Text := ⟨String.toList⟩

namespace Text

def ofNat (n : Nat) : Text := n.repr.toList

def ofInt : Int → Text
  | .ofNat n => ofNat n
  | .negSucc n => '-' :: ofNat (n + 1)

/-- Turn `lit ++ rest` into `rest`; a text that does not start with `lit` has none. -/
def after? : (lit t : Text) → Option Text
  | [], t => some t
  | _ :: _, [] => none
  | a :: lit, b :: t => if a = b then after? lit t else none

theorem after?_eq_some_iff {lit t rest : Text} : after? lit t = some rest ↔ t = lit ++ rest := by
  induction lit generalizing t with
  | nil => simp [after?]
  | cons a lit ih =>
    cases t with
    | nil => simp [after?]
    | cons b t =>
      by_cases h : a = b
      . simp [after?, h, ih]
      . simp [after?, h, Ne.symm h]

def startsWith (t lit : Text) : Bool := (after? lit t).isSome

def endsWith (t lit : Text) : Bool := startsWith t.reverse lit.reverse

def occursIn (sub : Text) : Text → Bool
  | [] => sub.isEmpty
  | c :: t => startsWith (c :: t) sub || occursIn sub t

/-- Cut the text at the first `c`, which belongs to neither part. -/
def cut? (c : Char) : Text → Option (Text × Text)
  | [] => none
  | d :: t => if d = c then some ([], t) else (cut? c t).map fun (a, b) => (d :: a, b)

theorem eq_append_of_cut? {c : Char} {t a b : Text} (h : cut? c t = some (a, b))
    : t = a ++ c :: b := by
  induction t generalizing a b with
  | nil => simp [cut?] at h
  | cons d t ih =>
    by_cases hd : d = c
    . simp [cut?, hd] at h
      simp [hd, ← h.1, ← h.2]
    . simp only [cut?, hd, if_false, Option.map_eq_some_iff] at h
      obtain ⟨⟨x, y⟩, hxy, heq⟩ := h
      simp at heq
      simp [← heq.1, ← heq.2, ih hxy]

def before (c : Char) (t : Text) : Text := t.takeWhile (· != c)

def le : Text → Text → Bool
  | [], _ => true
  | _ :: _, [] => false
  | a :: s, b :: t => if a = b then le s t else a.toNat < b.toNat

def join (sep : Text) (parts : List Text) : Text := sep.intercalate parts

def takeEndWhile (p : Char → Bool) (t : Text) : Text := (t.reverse.takeWhile p).reverse

def dropEndWhile (p : Char → Bool) (t : Text) : Text := (t.reverse.dropWhile p).reverse

theorem dropEndWhile_append_takeEndWhile (p : Char → Bool) (t : Text)
    : dropEndWhile p t ++ takeEndWhile p t = t := by
  rw [dropEndWhile, takeEndWhile, ← List.reverse_append, List.takeWhile_append_dropWhile,
    List.reverse_reverse]

/-- Turn the first place at which `edit` applies into what it says: its answer holds the new text of
that place and the unread rest of the line. -/
def replaceFirst (edit : Text → Option (Text × Text)) : Text → Text
  | [] =>
    match edit [] with
    | some (new, rest) => new ++ rest
    | none => []
  | c :: t =>
    match edit (c :: t) with
    | some (new, rest) => new ++ rest
    | none => c :: replaceFirst edit t

def isEnd (t : Text) : Bool := t == [] || t == ['\n']

/-- Cut the text at the last place on its first line behind which `p` has an answer. -/
def cutLast? (p : Text → Option β) : Text → Option (Text × β)
  | [] => (p []).map fun b => ([], b)
  | c :: t =>
    let later := if c = '\n' then none else (cutLast? p t).map fun (a, b) => (c :: a, b)
    later.or ((p (c :: t)).map fun b => ([], b))

/-- Cut the first line that can be cut at the last of its places behind which `p` has an answer. -/
def cutLine? (p : Text → Option β) : Text → Option (Text × β)
  | [] => cutLast? p []
  | c :: t => (cutLast? p (c :: t)).or (cutLine? p t)

end Text

end DebianPackaging
