/-!
# Measuring text in bytes

Offsets into a text are counted in bytes of its UTF-8 form, also in error messages. A list of
characters is cut at a byte offset by walking over whole characters, so no cut ever falls inside
one.
-/

namespace ClassDocs.Text

/-- The number of bytes of the UTF-8 form. -/
def bytes (cs : List Char) : Nat := cs.foldr (fun c n => c.utf8Size + n) 0

/-- The number of bytes of the UTF-8 form of a text. -/
def byteLength (s : String) : Nat := bytes s.toList

/-- The characters before byte offset `n`; a character that reaches beyond `n` is left out. -/
def takeBytes : Nat → List Char → List Char
  | _, [] => []
  | n, c :: cs => if c.utf8Size ≤ n then c :: takeBytes (n - c.utf8Size) cs else []

/-- The characters from byte offset `n` on; a character that reaches beyond `n` is kept. -/
def dropBytes : Nat → List Char → List Char
  | _, [] => []
  | n, c :: cs => if c.utf8Size ≤ n then dropBytes (n - c.utf8Size) cs else c :: cs

/-- The part of a text between the byte offsets `start` and `stop`. -/
def slice (start stop : Nat) (cs : List Char) : List Char :=
  takeBytes (stop - start) (dropBytes start cs)

theorem takeBytes_append_dropBytes (n : Nat) (cs : List Char) :
    takeBytes n cs ++ dropBytes n cs = cs := by
  induction cs generalizing n with
  | nil => rfl
  | cons c cs ih =>
    by_cases h : c.utf8Size ≤ n
    · simp [takeBytes, dropBytes, h, ih]
    · simp [takeBytes, dropBytes, h]

@[simp] theorem bytes_cons (c : Char) (cs : List Char) : bytes (c :: cs) = c.utf8Size + bytes cs :=
  rfl

@[simp] theorem bytes_append (cs ds : List Char) : bytes (cs ++ ds) = bytes cs + bytes ds := by
  induction cs with
  | nil => simp [bytes]
  | cons c cs ih => rw [List.cons_append, bytes_cons, bytes_cons, ih, Nat.add_assoc]

/-- Cutting at the end of a first part gives the second part back. -/
theorem dropBytes_append (cs ds : List Char) : dropBytes (bytes cs) (cs ++ ds) = ds := by
  induction cs with
  | nil =>
    cases ds with
    | nil => rfl
    | cons d ds =>
      have : 0 < d.utf8Size := Char.utf8Size_pos d
      simp [bytes, dropBytes]; omega
  | cons c cs ih =>
    rw [bytes_cons, List.cons_append, dropBytes, if_pos (Nat.le_add_right _ _),
      Nat.add_sub_cancel_left]
    exact ih

theorem bytes_pos {cs : List Char} (h : cs ≠ []) : 0 < bytes cs := by
  cases cs with
  | nil => exact absurd rfl h
  | cons c cs =>
    rw [bytes_cons]
    exact Nat.add_pos_left c.utf8Size_pos _

theorem takeBytes_zero (cs : List Char) : takeBytes 0 cs = [] := by
  cases cs with
  | nil => rfl
  | cons c cs =>
    have hpos := Char.utf8Size_pos c
    rw [takeBytes, if_neg (by omega)]

theorem takeBytes_bytes_add (front back : List Char) (k : Nat) :
    takeBytes (bytes front + k) (front ++ back) = front ++ takeBytes k back := by
  induction front with
  | nil => rw [List.nil_append, List.nil_append, bytes, List.foldr_nil, Nat.zero_add]
  | cons c front ih =>
    rw [List.cons_append, takeBytes, bytes_cons, if_pos (by omega), Nat.add_assoc,
      Nat.add_sub_cancel_left, ih, List.cons_append]

theorem takeBytes_bytes (front back : List Char) :
    takeBytes (bytes front) (front ++ back) = front := by
  have htake := takeBytes_bytes_add front back 0
  rwa [Nat.add_zero, takeBytes_zero, List.append_nil] at htake

/-- The offset falls between two characters, or at an end. -/
def IsCut (content : List Char) (n : Nat) : Prop := bytes (takeBytes n content) = n

theorem isCut_bytes (front back : List Char) : IsCut (front ++ back) (bytes front) := by
  rw [IsCut, takeBytes_bytes]

/-- The text up to an offset, and the one from there on. -/
theorem IsCut.exists_append {content : List Char} {n : Nat} (h : IsCut content n) :
    ∃ front back, content = front ++ back ∧ bytes front = n :=
  ⟨_, _, (takeBytes_append_dropBytes n content).symm, h⟩

/-- Behind an offset between two characters, every stretch of the text ends at such an offset. -/
theorem IsCut.add {content taken : List Char} {n : Nat} (h : IsCut content n)
    (htaken : taken <+: dropBytes n content) : IsCut content (n + bytes taken) := by
  obtain ⟨front, back, rfl, rfl⟩ := h.exists_append
  rw [dropBytes_append] at htaken
  obtain ⟨rest, rfl⟩ := htaken
  rw [← bytes_append, ← List.append_assoc]
  exact isCut_bytes (front ++ taken) rest

theorem IsCut.dropBytes_add {content taken rest : List Char} {n : Nat} (h : IsCut content n)
    (hrest : dropBytes n content = taken ++ rest) :
    dropBytes (n + bytes taken) content = rest := by
  obtain ⟨front, back, rfl, rfl⟩ := h.exists_append
  rw [dropBytes_append] at hrest
  rw [hrest, ← bytes_append, ← List.append_assoc, dropBytes_append]

end ClassDocs.Text
