import ClassDocs.Proofs.TreeSpans
import ClassDocs.Source.Comment

/-!
# The doc comment of a declaration

A declaration is documented by a comment when only white space and other comments stand between the
two and no other doc comment does (`Documents`). At most one comment does that, and the walk from
the declaration back through the comments finds it (`docblockFor_eq_some_iff`): the offset it has
reached parts the comments that are still ahead from a stretch of the source without code.

What stands between is said about bytes. A byte of a character is white space just when the
character is (`isBlankByte_of_mem`), so a stretch between two offsets is white space as a text when
it is byte by byte (`all_blank_slice`). The comments of a file are in order, and no token stands
across one (`inOrder_comments`, `token_clear`). So those before a declaration are the first ones,
up to a place that a binary search finds (`InOrder.exists_partsAt`, `PartsAt.docblockFor_eq`).
-/

namespace ClassDocs.Text

/-! ## White space in bytes -/

/-- The bytes of a text. -/
def utf8 (cs : List Char) : List UInt8 := cs.flatMap String.utf8EncodeChar

/-- Space, tab, line feed, carriage return or form feed. -/
def isBlankByte (b : UInt8) : Bool := b == 32 || b == 9 || b == 10 || b == 13 || b == 12

/-- The byte at an offset is white space. -/
def BlankAt (content : List Char) (k : Nat) : Prop :=
  ∃ b, (utf8 content)[k]? = some b ∧ isBlankByte b = true

theorem utf8_append (cs ds : List Char) : utf8 (cs ++ ds) = utf8 cs ++ utf8 ds :=
  List.flatMap_append

theorem length_utf8 (cs : List Char) : (utf8 cs).length = bytes cs := by
  induction cs with
  | nil => rfl
  | cons c cs ih =>
    rw [utf8, List.flatMap_cons, List.length_append, String.length_utf8EncodeChar,
      bytes_cons, ← ih, utf8]

/-- Beyond ASCII no byte of a character is one of ASCII. -/
theorem le_toNat_of_mem {c : Char} {b : UInt8} (hc : 128 ≤ c.toNat)
    (hb : b ∈ String.utf8EncodeChar c) :
    128 ≤ b.toNat := by
  have hascii : ¬ c.val.toNat ≤ 127 := Nat.not_le.mpr hc
  simp only [String.utf8EncodeChar, hascii, if_false] at hb
  split at hb
  · simp only [List.mem_cons, List.not_mem_nil, or_false] at hb
    rcases hb with rfl | rfl <;> rw [UInt8.toNat_ofNat'] <;> omega
  split at hb
  · simp only [List.mem_cons, List.not_mem_nil, or_false] at hb
    rcases hb with rfl | rfl | rfl <;> rw [UInt8.toNat_ofNat'] <;> omega
  · simp only [List.mem_cons, List.not_mem_nil, or_false] at hb
    rcases hb with rfl | rfl | rfl | rfl <;> rw [UInt8.toNat_ofNat'] <;> omega

theorem isBlankByte_of_le {b : UInt8} (h : 128 ≤ b.toNat) : isBlankByte b = false := by
  have hne : ∀ n : Nat, n < 128 → (b == UInt8.ofNat n) = false := by
    intro n hn
    rw [beq_eq_false_iff_ne]
    rintro rfl
    rw [UInt8.toNat_ofNat'] at h
    omega
  simp only [isBlankByte, Bool.or_eq_false_iff]
  exact ⟨⟨⟨⟨hne 32 (by omega), hne 9 (by omega)⟩, hne 10 (by omega)⟩, hne 13 (by omega)⟩,
    hne 12 (by omega)⟩

theorem isAsciiBlank_of_le {c : Char} (h : 128 ≤ c.toNat) : isAsciiBlank c = false := by
  have hne : ∀ d : Char, d.toNat < 128 → (c == d) = false := by
    intro d hd
    rw [beq_eq_false_iff_ne]
    rintro rfl
    omega
  rw [isAsciiBlank, hne ' ' (by decide), hne '\t' (by decide), hne '\n' (by decide),
    hne '\r' (by decide), hne '\x0c' (by decide)]
  rfl

theorem isBlankByte_ofNat :
    ∀ n, n < 128 → isBlankByte (.ofNat n) = isAsciiBlank (.ofNat n) := by decide

/-- Each byte of a character is white space just when the character is. -/
theorem isBlankByte_of_mem {c : Char} {b : UInt8} (hb : b ∈ String.utf8EncodeChar c) :
    isBlankByte b = isAsciiBlank c := by
  by_cases hc : c.toNat < 128
  · have hascii : c.val.toNat ≤ 127 := Nat.le_of_lt_succ hc
    simp only [String.utf8EncodeChar, hascii, if_true, List.mem_singleton] at hb
    have hblank := isBlankByte_ofNat c.toNat hc
    rw [Char.ofNat_toNat] at hblank
    rw [hb]
    exact hblank
  · have hle : 128 ≤ c.toNat := Nat.not_lt.mp hc
    rw [isAsciiBlank_of_le hle]
    exact isBlankByte_of_le (le_toNat_of_mem hle hb)

theorem all_blank_iff (cs : List Char) :
    cs.all isAsciiBlank = true ↔ ∀ b ∈ utf8 cs, isBlankByte b = true := by
  rw [List.all_eq_true]
  constructor
  · intro h b hb
    obtain ⟨c, hc, hmem⟩ := List.mem_flatMap.mp hb
    rw [isBlankByte_of_mem hmem]
    exact h c hc
  · intro h c hc
    obtain ⟨b, hb⟩ : ∃ b, b ∈ String.utf8EncodeChar c := by
      have hlen : 0 < (String.utf8EncodeChar c).length := by
        rw [String.length_utf8EncodeChar]
        exact c.utf8Size_pos
      exact List.exists_mem_of_length_pos hlen
    rw [← isBlankByte_of_mem hb]
    exact h b (List.mem_flatMap.mpr ⟨c, hc, hb⟩)

/-- What stands between two offsets is white space when each byte between them is. -/
theorem all_blank_slice {content : List Char} {a b : Nat} (ha : IsCut content a)
    (hb : IsCut content b) (hab : a ≤ b) :
    (slice a b content).all isAsciiBlank = true ↔ ∀ k, a ≤ k → k < b → BlankAt content k := by
  obtain ⟨front, mid, back, rfl, rfl, rfl⟩ := ha.exists_between hb hab
  -- the bytes between the offsets are those of the text between them
  have hget : ∀ j, j < bytes mid →
      (utf8 (front ++ (mid ++ back)))[bytes front + j]? = (utf8 mid)[j]? := by
    intro j hj
    rw [utf8_append, ← length_utf8 front, List.getElem?_append_right (Nat.le_add_right _ _),
      Nat.add_sub_cancel_left, utf8_append, List.getElem?_append_left (by rwa [length_utf8])]
  rw [slice_placed, all_blank_iff]
  constructor
  · intro h k hk hlt
    obtain ⟨j, rfl⟩ := Nat.exists_eq_add_of_le hk
    have hj : j < bytes mid := by omega
    have hlen : j < (utf8 mid).length := by rwa [length_utf8]
    exact ⟨(utf8 mid)[j],
      by rw [hget j hj, List.getElem?_eq_getElem hlen], h _ (List.getElem_mem hlen)⟩
  · intro h b hmem
    obtain ⟨j, hj⟩ := List.mem_iff_getElem?.mp hmem
    have hlen : j < bytes mid := by
      rw [← length_utf8]
      exact (List.getElem?_eq_some_iff.mp hj).1
    obtain ⟨b', hb', hblank⟩ := h (bytes front + j) (Nat.le_add_right _ _) (by omega)
    rw [hget j hlen, hj] at hb'
    cases hb'
    exact hblank

end ClassDocs.Text

namespace ClassDocs.Source

open ClassDocs.Text

/-! ## Comments in order -/

/-- Comments stand in the source one behind the other. -/
structure InOrder (content : List Char) (comments : List Comment) : Prop where
  isCut_start : ∀ c ∈ comments, IsCut content c.start
  isCut_stop : ∀ c ∈ comments, IsCut content c.stop
  start_lt_stop : ∀ c ∈ comments, c.start < c.stop
  apart : comments.Pairwise fun c d => c.stop ≤ d.start

theorem InOrder.sublist {content : List Char} {cs ds : List Comment} (h : InOrder content ds)
    (hsub : cs.Sublist ds) :
    InOrder content cs where
  isCut_start c hc := h.isCut_start c (hsub.subset hc)
  isCut_stop c hc := h.isCut_stop c (hsub.subset hc)
  start_lt_stop c hc := h.start_lt_stop c (hsub.subset hc)
  apart := h.apart.sublist hsub

namespace Laid

variable {content : List Char} {pos : Nat} {ps : List Piece}

theorem placed (h : Laid content pos ps) :
    ∀ p ∈ ps, pos ≤ p.start ∧ p.start < p.stop ∧ p.Placed content := by
  induction h with
  | nil _ => simp
  | cons hpos hlt hplaced _ ih =>
    intro q hq
    rcases List.mem_cons.mp hq with rfl | hq
    · exact ⟨hpos, hlt, hplaced⟩
    · obtain ⟨hle, hrest⟩ := ih q hq
      exact ⟨by omega, hrest⟩

/-- Two pieces do not overlap. -/
theorem clear (h : Laid content pos ps) {p q : Piece} (hp : p ∈ ps) (hq : q ∈ ps) :
    p = q ∨ p.stop ≤ q.start ∨ q.stop ≤ p.start := by
  induction h with
  | nil _ => cases hp
  | cons _ _ _ hrest ih =>
    rcases List.mem_cons.mp hp with rfl | hp'
    · rcases List.mem_cons.mp hq with rfl | hq'
      · exact .inl rfl
      · exact .inr (.inl (hrest.placed q hq').1)
    · rcases List.mem_cons.mp hq with rfl | hq'
      · exact .inr (.inr (hrest.placed p hp').1)
      · exact ih hp' hq'

end Laid

theorem mem_commentsOf {ps : List Piece} {c : Comment} : c ∈ commentsOf ps ↔ .comment c ∈ ps := by
  induction ps with
  | nil => simp [commentsOf]
  | cons p ps ih =>
    cases p with
    | token t => simpa [commentsOf] using ih
    | comment d => simpa [commentsOf] using or_congr_right ih

theorem mem_tokensOf {ps : List Piece} {t : Token} : t ∈ tokensOf ps ↔ .token t ∈ ps := by
  induction ps with
  | nil => simp [tokensOf]
  | cons p ps ih =>
    cases p with
    | token u => simpa [tokensOf] using or_congr_right ih
    | comment d => simpa [tokensOf] using ih

theorem Laid.inOrder {content : List Char} {pos : Nat} {ps : List Piece}
    (h : Laid content pos ps) :
    InOrder content (commentsOf ps) := by
  have hplaced := fun c hc => h.placed (.comment c) (mem_commentsOf.mp hc)
  refine ⟨fun c hc => (hplaced c hc).2.2.isCut_start, fun c hc => (hplaced c hc).2.2.isCut_stop,
    fun c hc => (hplaced c hc).2.1, ?_⟩
  clear hplaced
  induction h with
  | nil _ => exact .nil
  | @cons pos p ps _ _ _ hrest ih =>
    cases p with
    | token t => exact ih
    | comment c => exact .cons (fun d hd => (hrest.placed _ (mem_commentsOf.mp hd)).1) ih

/-- **The comments of a file stand in it one behind the other.** -/
theorem inOrder_comments (content : List Char) : InOrder content (commentsOf (pieces content)) :=
  (pieces_laid content).inOrder

/-- No comment of a file stands across the start of a token. -/
theorem token_clear {content : List Char} {t : Token} (ht : t ∈ tokensOf (pieces content)) :
    IsCut content t.start ∧ ∀ c ∈ commentsOf (pieces content), c.stop ≤ t.start ∨
      t.start ≤ c.start := by
  have hlaid := pieces_laid content
  have htoken := mem_tokensOf.mp ht
  obtain ⟨-, hlt, hplaced⟩ := hlaid.placed _ htoken
  refine ⟨hplaced.isCut_start, fun c hc => ?_⟩
  rcases hlaid.clear htoken (mem_commentsOf.mp hc) with heq | hbefore | hbehind
  · cases heq
  · exact .inr (Nat.le_trans (Nat.le_of_lt hlt) hbefore)
  · exact .inl hbehind

/-! ## The nearest doc comment -/

/-- From one offset to another there is only white space and comments. -/
def Bare (content : List Char) (comments : List Comment) (a b : Nat) : Prop :=
  ∀ k, a ≤ k → k < b → BlankAt content k ∨ ∃ c ∈ comments, c.start ≤ k ∧ k < c.stop

/-- A comment documents what starts at an offset: it is a doc comment that ends there or before,
only white space and comments stand between, and no other doc comment does. -/
structure Documents (content : List Char) (comments : List Comment) (start : Nat) (c : Comment) :
    Prop where
  isDoc : c.isDoc = true
  stop_le : c.stop ≤ start
  bare : Bare content comments c.stop start
  nearest : ∀ d ∈ comments, d.isDoc = true → ¬(c.stop ≤ d.start ∧ d.stop ≤ start)

section Walk

variable {content : List Char} {reached : Nat} {c d : Comment} {cs : List Comment}

/-- What the walk back has in front of it: the comments, last first, all of them before the offset
reached. -/
structure Ahead (content : List Char) (reached : Nat) (cs : List Comment) : Prop where
  isCut : IsCut content reached
  inOrder : InOrder content cs.reverse
  stop_le : ∀ c ∈ cs, c.stop ≤ reached

namespace Ahead

theorem mem (h : Ahead content reached cs) (hc : c ∈ cs) :
    IsCut content c.start ∧ IsCut content c.stop ∧ c.start < c.stop ∧ c.stop ≤ reached := by
  have hmem := List.mem_reverse.mpr hc
  exact ⟨h.inOrder.isCut_start c hmem, h.inOrder.isCut_stop c hmem, h.inOrder.start_lt_stop c hmem,
    h.stop_le c hc⟩

theorem before_head (h : Ahead content reached (c :: cs)) (hd : d ∈ cs) : d.stop ≤ c.start := by
  have hapart := h.inOrder.apart
  rw [List.pairwise_reverse] at hapart
  exact (List.pairwise_cons.mp hapart).1 d hd

/-- Past its last comment, the walk is at the start of it. -/
theorem tail (h : Ahead content reached (c :: cs)) : Ahead content c.start cs := by
  refine ⟨(h.mem List.mem_cons_self).1, h.inOrder.sublist ?_, fun d hd => h.before_head hd⟩
  rw [List.reverse_cons]
  exact List.sublist_append_left _ _

/-- Behind the last comment no comment helps: what is bare there is white space. -/
theorem blank_iff_bare (h : Ahead content reached (c :: cs)) :
    (slice c.stop reached content).all isAsciiBlank = true ↔
      Bare content (c :: cs) c.stop reached := by
  obtain ⟨-, hcut, hlt, hle⟩ := h.mem List.mem_cons_self
  rw [all_blank_slice hcut h.isCut hle]
  refine forall_congr' fun k => imp_congr_right fun hk => imp_congr_right fun _ => ?_
  constructor
  · exact fun hblank => .inl hblank
  · intro hbare
    rcases hbare with hblank | ⟨d, hd, -, hstop⟩
    · exact hblank
    · rcases List.mem_cons.mp hd with rfl | hd
      · omega
      · have hbefore := h.before_head hd
        omega

end Ahead

theorem Bare.mono {a a' b : Nat} (h : Bare content cs a b) (hle : a ≤ a') : Bare content cs a' b :=
  fun k hk hlt => h k (Nat.le_trans hle hk) hlt

/-- What documents the offset reached has only bare stretches behind it, that behind the last
comment among them. -/
theorem Documents.bare_head (h : Ahead content reached (c :: cs)) (hd : d ∈ c :: cs)
    (hdoc : Documents content (c :: cs) reached d) : Bare content (c :: cs) c.stop reached := by
  obtain ⟨-, -, hlt, -⟩ := h.mem List.mem_cons_self
  refine hdoc.bare.mono ?_
  rcases List.mem_cons.mp hd with rfl | hd
  · exact Nat.le_refl _
  · exact Nat.le_trans (h.before_head hd) (Nat.le_of_lt hlt)

/-- A doc comment that ends the list documents what follows it, and no other one does. -/
theorem documents_doc (h : Ahead content reached (c :: cs))
    (hbare : Bare content (c :: cs) c.stop reached) (hc : c.isDoc = true) (hd : d ∈ c :: cs) :
    Documents content (c :: cs) reached d ↔ d = c := by
  obtain ⟨-, -, hlt, hle⟩ := h.mem List.mem_cons_self
  constructor
  · intro hdoc
    rcases List.mem_cons.mp hd with rfl | hd
    · rfl
    · exact absurd ⟨h.before_head hd, hle⟩ (hdoc.nearest c List.mem_cons_self hc)
  · rintro rfl
    refine ⟨hc, hle, hbare, fun e he _ hbetween => ?_⟩
    rcases List.mem_cons.mp he with rfl | he
    · omega
    · have hbefore := h.before_head he
      have hself := (h.mem (List.mem_cons_of_mem _ he)).2.2.1
      omega

/-- Another comment is passed over: what documents its start documents what follows it. -/
theorem documents_plain (h : Ahead content reached (c :: cs))
    (hbare : Bare content (c :: cs) c.stop reached) (hc : c.isDoc = false) (hd : d ∈ cs) :
    Documents content (c :: cs) reached d ↔ Documents content cs c.start d := by
  obtain ⟨-, -, hlt, hle⟩ := h.mem List.mem_cons_self
  constructor
  · intro hdoc
    refine ⟨hdoc.isDoc, h.before_head hd, fun k hk hlt' => ?_, fun e he hedoc hbetween => ?_⟩
    · rcases hdoc.bare k hk (by omega) with hblank | ⟨e, he, hestart, hestop⟩
      · exact .inl hblank
      · rcases List.mem_cons.mp he with rfl | he
        · omega
        · exact .inr ⟨e, he, hestart, hestop⟩
    · exact hdoc.nearest e (List.mem_cons_of_mem _ he) hedoc ⟨hbetween.1, by omega⟩
  · intro hdoc
    have hbefore := h.before_head hd
    refine ⟨hdoc.isDoc, by omega, fun k hk hlt' => ?_, fun e he hedoc hbetween => ?_⟩
    · -- before the comment, inside it and behind it
      by_cases hstart : k < c.start
      · rcases hdoc.bare k hk hstart with hblank | ⟨e, he, hcover⟩
        · exact .inl hblank
        · exact .inr ⟨e, List.mem_cons_of_mem _ he, hcover⟩
      by_cases hstop : k < c.stop
      · exact .inr ⟨c, List.mem_cons_self, Nat.not_lt.mp hstart, hstop⟩
      · exact hbare k (Nat.not_lt.mp hstop) hlt'
    · rcases List.mem_cons.mp he with rfl | he
      · rw [hc] at hedoc
        cases hedoc
      · exact hdoc.nearest e he hedoc ⟨hbetween.1, h.before_head he⟩

/-- **The walk back finds the comment that documents the offset it starts from.** -/
theorem nearestDoc_eq_some_iff {text : String} (h : Ahead content reached cs) :
    nearestDoc content reached cs = some text ↔ ∃ c ∈ cs, Documents content cs reached c ∧
      c.text = text := by
  -- the invariant: all that was passed over is bare, so only the comments ahead matter
  induction cs generalizing reached with
  | nil => simp [nearestDoc]
  | cons c cs ih =>
    rw [nearestDoc]
    by_cases hblank : (slice c.stop reached content).all isAsciiBlank = true
    · have hbare := h.blank_iff_bare.mp hblank
      rw [if_pos hblank]
      by_cases hc : c.isDoc = true
      · rw [if_pos hc, Option.some.injEq]
        constructor
        · exact fun htext =>
            ⟨c, List.mem_cons_self, (documents_doc h hbare hc List.mem_cons_self).mpr rfl, htext⟩
        · rintro ⟨d, hd, hdoc, htext⟩
          rwa [(documents_doc h hbare hc hd).mp hdoc] at htext
      · have hplain : c.isDoc = false := Bool.eq_false_iff.mpr hc
        rw [if_neg hc, ih h.tail]
        constructor
        · rintro ⟨d, hd, hdoc, htext⟩
          exact ⟨d, List.mem_cons_of_mem _ hd, (documents_plain h hbare hplain hd).mpr hdoc, htext⟩
        · rintro ⟨d, hd, hdoc, htext⟩
          rcases List.mem_cons.mp hd with rfl | hd
          · exact absurd hdoc.isDoc hc
          · exact ⟨d, hd, (documents_plain h hbare hplain hd).mp hdoc, htext⟩
    · rw [if_neg hblank]
      constructor
      · exact fun hnone => by cases hnone
      · rintro ⟨d, hd, hdoc, -⟩
        exact absurd (h.blank_iff_bare.mpr (hdoc.bare_head h hd)) hblank

end Walk

section Docblock

variable {content : List Char} {comments : List Comment} {start : Nat}

/-- The place that parts the comments which start before an offset from the others. -/
structure PartsAt (comments : List Comment) (start n : Nat) : Prop where
  before : ∀ c ∈ comments.take n, c.start < start
  behind : ∀ c ∈ comments.drop n, start ≤ c.start

/-- **The comments that are searched are the first ones**, up to the place where all comments are
parted. -/
theorem PartsAt.docblockFor_eq {n : Nat} (h : PartsAt comments start n) :
    docblockFor content comments start = nearestDoc content start (comments.take n).reverse := by
  have htake : (comments.take n).filter (·.start < start) = comments.take n :=
    List.filter_eq_self.mpr fun c hc => decide_eq_true (h.before c hc)
  have hdrop : (comments.drop n).filter (·.start < start) = [] :=
    List.filter_eq_nil_iff.mpr fun c hc => by simpa using h.behind c hc
  rw [docblockFor, ← List.take_append_drop n comments, List.filter_append, htake, hdrop,
    List.append_nil, List.take_append_drop]

/-- Comments in order are parted at every offset. -/
theorem InOrder.exists_partsAt (h : InOrder content comments) (start : Nat) :
    ∃ n, PartsAt comments start n := by
  induction comments with
  | nil => exact ⟨0, by simp, by simp⟩
  | cons c cs ih =>
    by_cases hc : c.start < start
    · obtain ⟨n, hn⟩ := ih (h.sublist (List.sublist_cons_self c cs))
      exact ⟨n + 1, List.forall_mem_cons.mpr ⟨hc, hn.before⟩, hn.behind⟩
    · -- all comments from here on start behind the offset
      refine ⟨0, by simp, List.forall_mem_cons.mpr ⟨Nat.not_lt.mp hc, fun d hd => ?_⟩⟩
      have hlt := h.start_lt_stop c List.mem_cons_self
      have hapart := (List.pairwise_cons.mp h.apart).1 d hd
      omega

/-- The comments before an offset that none of them stands across. -/
theorem InOrder.ahead (h : InOrder content comments) (hcut : IsCut content start)
    (hclear : ∀ c ∈ comments, c.stop ≤ start ∨ start ≤ c.start) :
    Ahead content start (comments.filter (·.start < start)).reverse := by
  refine ⟨hcut, ?_, fun c hc => ?_⟩
  · rw [List.reverse_reverse]
    exact h.sublist List.filter_sublist
  · rw [List.mem_reverse, List.mem_filter, decide_eq_true_eq] at hc
    rcases hclear c hc.1 with hle | hle
    · exact hle
    · omega

/-- A comment that starts at an offset or behind it plays no part in what documents the offset. -/
theorem documents_filter (h : InOrder content comments) {c : Comment} :
    Documents content (comments.filter (·.start < start)).reverse start c ↔
      Documents content comments start c := by
  have hmem : ∀ d, d ∈ (comments.filter (·.start < start)).reverse ↔ d ∈ comments ∧
      d.start < start := by
    intro d
    rw [List.mem_reverse, List.mem_filter, decide_eq_true_eq]
  constructor
  · intro hdoc
    refine ⟨hdoc.isDoc, hdoc.stop_le, fun k hk hlt => ?_, fun d hd hddoc hbetween => ?_⟩
    · rcases hdoc.bare k hk hlt with hblank | ⟨d, hd, hcover⟩
      · exact .inl hblank
      · exact .inr ⟨d, ((hmem d).mp hd).1, hcover⟩
    · have hlt := h.start_lt_stop d hd
      exact hdoc.nearest d ((hmem d).mpr ⟨hd, by omega⟩) hddoc hbetween
  · intro hdoc
    refine ⟨hdoc.isDoc, hdoc.stop_le, fun k hk hlt => ?_, fun d hd hddoc hbetween => ?_⟩
    · rcases hdoc.bare k hk hlt with hblank | ⟨d, hd, hcover⟩
      · exact .inl hblank
      · exact .inr ⟨d, (hmem d).mpr ⟨hd, by omega⟩, hcover⟩
    · exact hdoc.nearest d ((hmem d).mp hd).1 hddoc hbetween

/--
**The doc comment of a declaration is the nearest one before it.**

It is found just when a doc comment ends at the start of the declaration or before, every byte
between the two is white space or part of a comment, and no other doc comment stands between. Where
no comment is of that kind there is none.
-/
theorem docblockFor_eq_some_iff (h : InOrder content comments) (hcut : IsCut content start)
    (hclear : ∀ c ∈ comments, c.stop ≤ start ∨ start ≤ c.start) :
    (∀ text, docblockFor content comments start = some text ↔
      ∃ c ∈ comments, Documents content comments start c ∧ c.text = text) ∧
    (docblockFor content comments start = none ↔ ∀ c ∈ comments,
      ¬Documents content comments start c) := by
  have hfound : ∀ text, docblockFor content comments start = some text ↔
      ∃ c ∈ comments, Documents content comments start c ∧ c.text = text := by
    intro text
    rw [docblockFor, nearestDoc_eq_some_iff (h.ahead hcut hclear)]
    constructor
    · rintro ⟨c, hc, hdoc, htext⟩
      rw [List.mem_reverse, List.mem_filter] at hc
      exact ⟨c, hc.1, (documents_filter h).mp hdoc, htext⟩
    · rintro ⟨c, hc, hdoc, htext⟩
      have hbefore : c.start < start := Nat.lt_of_lt_of_le (h.start_lt_stop c hc) hdoc.stop_le
      refine ⟨c, ?_, (documents_filter h).mpr hdoc, htext⟩
      rw [List.mem_reverse, List.mem_filter]
      exact ⟨hc, decide_eq_true hbefore⟩
  refine ⟨hfound, fun hnone c hc hdoc => ?_, fun hnone => ?_⟩
  · have hsome := (hfound c.text).mpr ⟨c, hc, hdoc, rfl⟩
    rw [hnone] at hsome
    cases hsome
  · cases hres : docblockFor content comments start with
    | none => rfl
    | some text =>
      obtain ⟨c, hc, hdoc, -⟩ := (hfound text).mp hres
      exact absurd hdoc (hnone c hc)

/-- Of two doc comments the one behind counts, whatever other comments follow it. -/
theorem docblockFor_eq_some_iff_nearer :
    let content := "<?php\n/** old */ /** naïve */ // ünd\n\t# so\nfinal class C {}".toList
    let comments := commentsOf (pieces content)
    docblockFor content comments 45 = some "/** naïve */" ∧
      ∃ c ∈ comments, Documents content comments 45 c ∧ c.text = "/** naïve */" := by
  intro content comments
  obtain ⟨t, ht, hstart⟩ : ∃ t ∈ tokensOf (pieces content), t.start = 45 := by decide +kernel
  have hfound : docblockFor content comments 45 = some "/** naïve */" := by decide +kernel
  obtain ⟨hcut, hclear⟩ := token_clear ht
  rw [hstart] at hcut hclear
  exact ⟨hfound, ((docblockFor_eq_some_iff (inOrder_comments content) hcut hclear).1 _).mp hfound⟩

end Docblock

end ClassDocs.Source
