import ClassDocs.Proofs.Declared

/-!
# Where the pieces of a source stand

A piece of code is the start of the text it is read from (`exists_of_pieceAt`), however many
strings with code inside them it takes in, so cutting a source into pieces never loses or repeats a
character.

Offsets are counted in bytes and fall between characters only at some of them. A slice between two
such offsets is cut in two at a third one (`slice_append`), and is the text itself where a text
stands at its own offset (`slice_placed`).
-/

namespace ClassDocs.Text

/-! ## Offsets between characters -/

theorem slice_bytes (front back : List Char) (n : Nat) :
    slice (bytes front) (bytes front + n) (front ++ back) = takeBytes n back := by
  rw [slice, dropBytes_append, Nat.add_sub_cancel_left]

/-- The text between two offsets, with what stands before and behind it. -/
theorem IsCut.exists_between {content : List Char} {a b : Nat} (ha : IsCut content a)
    (hb : IsCut content b) (hab : a ≤ b) :
    ∃ front mid back, content = front ++ (mid ++ back) ∧ bytes front = a ∧
      bytes front + bytes mid = b := by
  obtain ⟨front, rest, rfl, rfl⟩ := ha.exists_append
  obtain ⟨k, rfl⟩ := Nat.exists_eq_add_of_le hab
  -- the second offset falls between characters of what stands behind the first
  have hcut : IsCut rest k := by
    rw [IsCut, takeBytes_bytes_add, bytes_append] at hb
    exact Nat.add_left_cancel hb
  obtain ⟨mid, back, rfl, rfl⟩ := hcut.exists_append
  exact ⟨front, mid, back, rfl, rfl, rfl⟩

theorem slice_append {content : List Char} {a b c : Nat} (ha : IsCut content a)
    (hb : IsCut content b) (hab : a ≤ b) (hbc : b ≤ c) :
    slice a c content = slice a b content ++ slice b c content := by
  obtain ⟨front, mid, back, rfl, rfl, rfl⟩ := ha.exists_between hb hab
  obtain ⟨j, rfl⟩ := Nat.exists_eq_add_of_le hbc
  have hlast := slice_bytes (front ++ mid) back j
  rw [bytes_append, List.append_assoc] at hlast
  rw [hlast, slice_bytes, takeBytes_bytes, Nat.add_assoc, slice_bytes, takeBytes_bytes_add]

theorem slice_placed (front text back : List Char) :
    slice (bytes front) (bytes front + bytes text) (front ++ (text ++ back)) = text := by
  rw [slice_bytes, takeBytes_bytes]

end ClassDocs.Text

namespace ClassDocs.Source

open ClassDocs.Text

/-! ## Pieces are stretches of the input -/

theorem append_isPrefix {cs front more : List Char} (h : front <+: cs)
    (hmore : more <+: cs.drop front.length) :
    front ++ more <+: cs := by
  obtain ⟨rest, rfl⟩ := h
  rw [List.drop_left] at hmore
  exact (List.prefix_append_right_inj front).mpr hmore

theorem isPrefix_nameTail (cs : List Char) : nameTail cs <+: cs := by
  fun_induction nameTail cs with
  | case1 => exact List.prefix_rfl
  | case2 c cs _ ih => simpa using ih
  | case3 => exact List.nil_prefix
  | case4 c cs _ _ ih => simpa using ih
  | case5 => exact List.nil_prefix

theorem isPrefix_lineComment (cs : List Char) : lineComment cs <+: cs := by
  fun_induction lineComment cs with
  | case5 c cs _ _ _ ih => simpa using ih
  | _ => exact List.nil_prefix

theorem isPrefix_blockComment (cs : List Char) : blockComment cs <+: cs := by
  fun_induction blockComment cs with
  | case1 => exact List.prefix_rfl
  | case2 cs => exact ⟨cs, rfl⟩
  | case3 c cs _ ih => simpa using ih

theorem isPrefix_plainString (cs : List Char) : plainString cs <+: cs := by
  fun_induction plainString cs with
  | case1 => exact List.prefix_rfl
  | case2 c cs ih => simpa using ih
  | case3 cs => exact ⟨cs, rfl⟩
  | case4 c cs _ _ ih => simpa using ih

theorem isPrefix_of_heredocEnd? {label cs ending : List Char}
    (h : heredocEnd? label cs = some ending) :
    ending <+: cs := by
  unfold heredocEnd? at h
  dsimp only at h
  split at h
  · rename_i hlabel
    obtain rfl := Option.some.inj h
    rw [Bool.and_eq_true, List.isPrefixOf_iff_prefix] at hlabel
    exact append_isPrefix (List.takeWhile_prefix _) hlabel.1
  · cases h

theorem isPrefix_of_heredocHead? {cs head label : List Char} {live : Bool}
    (h : heredocHead? cs = some (head, label, live)) : head <+: cs := by
  unfold heredocHead? at h
  extract_lets blanks rest quote rest₂ name rest₃ closed rest₄ lineEnd at h
  have hblanks : blanks <+: cs := List.takeWhile_prefix _
  have hquote : quote <+: rest := (List.take_prefix 1 _).trans (List.takeWhile_prefix _)
  have hname : name <+: rest₂ := List.takeWhile_prefix _
  have hend : lineEnd <+: rest₄ := by
    rw [show lineEnd = if ['\r', '\n'].isPrefixOf rest₄ then ['\r', '\n'] else
      rest₄.take 1 from rfl]
    split
    · rename_i hreturn
      exact List.isPrefixOf_iff_prefix.mp hreturn
    · exact List.take_prefix 1 rest₄
  split at h
  · rename_i hparts
    rw [Bool.and_eq_true, Bool.and_eq_true] at hparts
    have hclosed : quote <+: rest₃ := List.isPrefixOf_iff_prefix.mp hparts.1.2
    obtain rfl := (Prod.mk.inj (Option.some.inj h)).1
    rw [List.append_assoc, List.append_assoc, List.append_assoc]
    exact append_isPrefix hblanks
      (append_isPrefix hquote (append_isPrefix hname (append_isPrefix hclosed hend)))
  · cases h

section Nested

variable {steps : Nat} (htemplate : ∀ quote cs, templateString steps quote cs <+: cs)
  (hline : ∀ label live cs, heredocLine steps label live cs <+: cs)
  (hrest : ∀ label live cs, heredocRest steps label live cs <+: cs)
  (hembedded : ∀ c cs, embedded steps c cs <+: cs) (hcode : ∀ cs, code steps cs <+: cs)

include htemplate hembedded in
theorem isPrefix_templateString (quote : Char) (cs : List Char) :
    templateString (steps + 1) quote cs <+: cs := by
  match cs with
  | [] => exact List.nil_prefix
  | c :: cs =>
    by_cases hescape : ∃ d ds, c = '\\' ∧ cs = d :: ds
    · obtain ⟨d, ds, rfl, rfl⟩ := hescape
      rw [templateString]
      simpa using htemplate quote ds
    · rw [templateString.eq_4 _ _ _ _ fun d ds hc hcs => hescape ⟨d, ds, hc, hcs⟩]
      split
      · exact ⟨cs, rfl⟩
      · rw [List.cons_append, List.prefix_cons_inj]
        exact append_isPrefix (hembedded c cs) (htemplate quote _)

include hrest in
theorem isPrefix_heredocLine (label : List Char) (live : Bool) (cs : List Char) :
    heredocLine (steps + 1) label live cs <+: cs := by
  rw [heredocLine]
  split
  · rename_i ending hend
    exact isPrefix_of_heredocEnd? hend
  · exact hrest label live cs

include hline hrest hembedded in
theorem isPrefix_heredocRest (label : List Char) (live : Bool) (cs : List Char) :
    heredocRest (steps + 1) label live cs <+: cs := by
  match cs with
  | [] => exact List.nil_prefix
  | c :: cs =>
    rw [heredocRest]
    split
    · simpa using hline label live cs
    split
    · rw [List.cons_append, List.prefix_cons_inj]
      refine append_isPrefix (List.take_prefix 1 cs) ((hrest label live _).trans ?_)
      cases cs with
      | nil => exact List.prefix_rfl
      | cons d ds => exact List.prefix_rfl
    · have hinner : (if live then embedded steps c cs else []) <+: cs := by
        split
        · exact hembedded c cs
        · exact List.nil_prefix
      rw [List.cons_append, List.prefix_cons_inj]
      exact append_isPrefix hinner (hrest label live _)

include hcode in
theorem isPrefix_embedded (c : Char) (cs : List Char) : embedded (steps + 1) c cs <+: cs := by
  unfold embedded
  split
  · exact List.nil_prefix
  · rename_i heq
    cases heq
    simpa using hcode _
  · rename_i heq
    cases heq
    simpa using hcode _
  · exact List.nil_prefix

include hline in
/-- A heredoc behind its first `<`. -/
theorem isPrefix_heredoc {cs head label : List Char} {live : Bool} (hopen : ['<', '<'] <+: cs)
    (h : heredocHead? (cs.drop 2) = some (head, label, live)) :
    '<' :: '<' :: head ++ heredocLine steps label live (cs.drop (2 + head.length)) <+: cs := by
  obtain ⟨rest, rfl⟩ := hopen
  have hhead : head <+: rest := isPrefix_of_heredocHead? h
  have hdrop : (['<', '<'] ++ rest).drop (2 + head.length) = rest.drop head.length := by
    rw [← List.drop_drop]
    rfl
  rw [hdrop]
  simpa using append_isPrefix hhead (hline label live _)

theorem isPrefix_starComment {cs : List Char} (h : cs.head? = some '*') :
    '*' :: blockComment (cs.drop 1) <+: cs := by
  obtain ⟨rest, rfl⟩ := List.head?_eq_some_iff.mp h
  simpa using isPrefix_blockComment rest

include htemplate hline hcode in
theorem isPrefix_code (cs : List Char) : code (steps + 1) cs <+: cs := by
  match cs with
  | [] => exact List.nil_prefix
  | c :: cs =>
    by_cases hc : c = '\x7d'
    · subst hc
      rw [code]
      exact ⟨cs, rfl⟩
    · rw [code.eq_4 _ _ _ hc, List.cons_append, List.prefix_cons_inj]
      refine append_isPrefix ?_ (hcode _)
      split
      · exact hcode cs
      split
      · exact isPrefix_plainString cs
      split
      · exact htemplate c cs
      split
      · exact isPrefix_lineComment cs
      split
      · rename_i hstar
        exact isPrefix_starComment (beq_iff_eq.mp (Bool.and_eq_true_iff.mp hstar).2)
      split
      · rename_i hopen
        split
        · rename_i head label live hhead
          exact isPrefix_heredoc hline
            (List.isPrefixOf_iff_prefix.mp (Bool.and_eq_true_iff.mp hopen).2) hhead
        · exact List.nil_prefix
      · exact List.nil_prefix

end Nested

/-- What is taken off the front at each depth of strings in code in strings. -/
structure PrefixReaders (steps : Nat) : Prop where
  template : ∀ quote cs, templateString steps quote cs <+: cs
  line : ∀ label live cs, heredocLine steps label live cs <+: cs
  rest : ∀ label live cs, heredocRest steps label live cs <+: cs
  embedded : ∀ c cs, embedded steps c cs <+: cs
  code : ∀ cs, code steps cs <+: cs

theorem prefixReaders (steps : Nat) : PrefixReaders steps := by
  induction steps with
  | zero =>
    refine ⟨fun quote cs => ?_, fun label live cs => ?_, fun label live cs => ?_,
      fun c cs => ?_, fun cs => ?_⟩
    · rw [templateString]; exact List.nil_prefix
    · rw [heredocLine]; exact List.nil_prefix
    · rw [heredocRest]; exact List.nil_prefix
    · rw [embedded]; exact List.nil_prefix
    · rw [code]; exact List.nil_prefix
  | succ steps ih =>
    exact {
      template := isPrefix_templateString ih.template ih.embedded
      line := isPrefix_heredocLine ih.rest
      rest := isPrefix_heredocRest ih.line ih.rest ih.embedded
      embedded := isPrefix_embedded ih.code
      code := isPrefix_code ih.template ih.line ih.code }

/-- A piece is the start of the code it stands in, and it is not empty. -/
theorem exists_of_pieceAt {c : Char} {cs taken : List Char} {kind : PieceKind}
    (h : pieceAt c cs = (kind, taken)) :
    ∃ rest, taken = c :: rest ∧ rest <+: cs := by
  unfold pieceAt at h
  rcases then_or_else h with ⟨-, h⟩ | ⟨-, h⟩
  · cases h
    exact ⟨[], rfl, List.nil_prefix⟩
  rcases then_or_else h with ⟨hclose, h⟩ | ⟨-, h⟩
  · cases h
    simp only [Bool.and_eq_true, beq_iff_eq] at hclose
    obtain ⟨rfl, hgt⟩ := hclose
    obtain ⟨rest, rfl⟩ := List.head?_eq_some_iff.mp hgt
    exact ⟨['>'], rfl, ⟨rest, rfl⟩⟩
  rcases then_or_else h with ⟨-, h⟩ | ⟨-, h⟩
  · cases h
    exact ⟨_, rfl, isPrefix_lineComment cs⟩
  rcases then_or_else h with ⟨hopen, h⟩ | ⟨-, h⟩
  · cases h
    simp only [Bool.and_eq_true, beq_iff_eq] at hopen
    obtain ⟨rfl, hstar⟩ := hopen
    exact ⟨_, rfl, isPrefix_starComment hstar⟩
  rcases then_or_else h with ⟨-, h⟩ | ⟨-, h⟩
  · have hname : (c :: nameTail cs) = taken := by
      rcases then_or_else h with ⟨-, h⟩ | ⟨-, h⟩
      · exact (Prod.mk.inj h).2
      · exact (Prod.mk.inj h).2
    exact ⟨_, hname.symm, isPrefix_nameTail cs⟩
  rcases then_or_else h with ⟨-, h⟩ | ⟨-, h⟩
  · cases h
    exact ⟨_, rfl, List.takeWhile_prefix _⟩
  rcases then_or_else h with ⟨-, h⟩ | ⟨-, h⟩
  · cases h
    exact ⟨_, rfl, List.takeWhile_prefix _⟩
  rcases then_or_else h with ⟨-, h⟩ | ⟨-, h⟩
  · cases h
    exact ⟨_, rfl, isPrefix_plainString cs⟩
  rcases then_or_else h with ⟨-, h⟩ | ⟨-, h⟩
  · cases h
    exact ⟨_, rfl, (prefixReaders _).template c cs⟩
  dsimp only at h
  split at h
  · rename_i head label live hheredoc
    cases h
    rcases then_or_else hheredoc with ⟨hopen, hhead⟩ | ⟨-, hnone⟩
    · simp only [Bool.and_eq_true, beq_iff_eq] at hopen
      obtain ⟨rfl, hopen⟩ := hopen
      exact ⟨_, rfl,
        isPrefix_heredoc (prefixReaders _).line (List.isPrefixOf_iff_prefix.mp hopen) hhead⟩
    · cases hnone
  · split at h
    · rename_i sign hfound
      cases h
      have hmem := List.mem_of_find?_eq_some hfound
      have hstarts := List.find?_some hfound
      have hprefix := List.isPrefixOf_iff_prefix.mp hstarts
      cases taken with
      | nil => exact absurd hmem (by decide)
      | cons d ds =>
        obtain ⟨rfl, hds⟩ := List.cons_prefix_cons.mp hprefix
        exact ⟨ds, rfl, hds⟩
    · cases h
      exact ⟨[], rfl, List.nil_prefix⟩

theorem closeTag_of_pieceAt {c : Char} {cs taken : List Char}
    (h : pieceAt c cs = (.closeTag, taken)) :
    taken = ['?', '>'] := by
  unfold pieceAt at h
  dsimp only at h
  have h := else_of_ne h nofun
  rcases then_or_else h with ⟨-, h⟩ | ⟨-, h⟩
  · exact (Prod.mk.inj h).2.symm
  -- the other pieces are comments, names and tokens
  have h := else_of_ne h nofun
  have h := else_of_ne h nofun
  rcases then_or_else h with ⟨-, h⟩ | ⟨-, h⟩
  · rcases then_or_else h with ⟨-, h⟩ | ⟨-, h⟩
    · cases h
    · cases h
  have h := else_of_ne h nofun
  have h := else_of_ne h nofun
  have h := else_of_ne h nofun
  have h := else_of_ne h nofun
  split at h
  · cases h
  · split at h
    · cases h
    · cases h

theorem isPrefix_of_openTag? {cs tag : List Char} {prints : Bool}
    (h : openTag? cs = some (tag, prints)) :
    tag ≠ [] ∧ tag <+: cs := by
  unfold openTag? at h
  rcases then_or_else h with ⟨htag, h⟩ | ⟨-, h⟩
  · cases h
    refine ⟨fun hnil => ?_, List.take_prefix 5 cs⟩
    rw [hnil] at htag
    simp at htag
  rcases then_or_else h with ⟨htag, h⟩ | ⟨-, h⟩
  · cases h
    refine ⟨fun hnil => ?_, List.take_prefix 3 cs⟩
    rw [hnil] at htag
    simp at htag
  · cases h

end ClassDocs.Source
