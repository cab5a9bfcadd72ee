import ClassDocs.Proofs.TokenSpans

/-!
# Where the trees of a source stand

The tokens and comments of a file stand in it one behind the other (`pieces_laid`), and so do the
trees made of the tokens, each pair of brackets around what it holds (`trees_tidy`). The offsets
are kept by a range, so that what is cut out of a list of trees, taken out of its brackets or
joined to one tree again stands in order too. Statements, class bodies and single declarations are
all cut out that way, so the text between the offsets of a declaration is the text of its trees
with what stands between them.
-/

namespace ClassDocs.Source

open ClassDocs.Text

namespace Piece

/-- The characters of a piece. -/
def text : Piece → List Char
  | .token t => t.text.toList
  | .comment c => c.text.toList

/-- The offset a piece starts at. -/
def start : Piece → Nat
  | .token t => t.start
  | .comment c => c.start

/-- The offset a piece ends at. -/
def stop : Piece → Nat
  | .token t => t.stop
  | .comment c => c.stop

/-- A piece stands in the source where its offsets say. -/
def Placed (content : List Char) (p : Piece) : Prop :=
  ∃ front back, content = front ++ (p.text ++ back) ∧ p.start = bytes front ∧
    p.stop = p.start + bytes p.text

namespace Placed

variable {content : List Char} {p : Piece}

theorem isCut_start (h : p.Placed content) : IsCut content p.start := by
  obtain ⟨front, back, rfl, hstart, -⟩ := h
  rw [hstart]
  exact isCut_bytes front _

theorem isCut_stop (h : p.Placed content) : IsCut content p.stop := by
  obtain ⟨front, back, rfl, hstart, hstop⟩ := h
  rw [hstop, hstart, ← bytes_append, ← List.append_assoc]
  exact isCut_bytes (front ++ p.text) back

end Placed

end Piece

/-- A token stands in the source where its offsets say. -/
def Token.Placed (content : List Char) (t : Token) : Prop :=
  ∃ front back, content = front ++ (t.text.toList ++ back) ∧ t.start = bytes front ∧
    t.stop = t.start + bytes t.text.toList

namespace Token.Placed

variable {content : List Char} {t : Token}

theorem piece (h : t.Placed content) : (Piece.token t).Placed content := h

theorem le (h : t.Placed content) : t.start ≤ t.stop := by
  obtain ⟨front, back, -, -, hstop⟩ := h
  omega

theorem isCut_start (h : t.Placed content) : IsCut content t.start := h.piece.isCut_start

theorem isCut_stop (h : t.Placed content) : IsCut content t.stop := h.piece.isCut_stop

theorem slice_eq (h : t.Placed content) : slice t.start t.stop content = t.text.toList := by
  obtain ⟨front, back, rfl, hstart, hstop⟩ := h
  rw [hstop, hstart]
  exact slice_placed front _ back

end Token.Placed

/-- Trees that stand in the source one behind the other between two offsets, each pair of brackets
with what it holds between its own. -/
inductive Tidy (content : List Char) : Nat → Nat → List Tree → Prop where
  | nil {a b : Nat} : a ≤ b → Tidy content a b []
  | leaf {a b : Nat} {t : Token} {ts : List Tree} :
      a ≤ t.start → t.Placed content → Tidy content t.stop b ts → Tidy content a b (.leaf t :: ts)
  | group {a b start stop : Nat} {opener : String} {inner ts : List Tree} :
      a ≤ start → IsCut content start → IsCut content stop → Tidy content start stop inner →
      Tidy content stop b ts → Tidy content a b (.group opener start stop inner :: ts)

namespace Tidy

variable {content : List Char} {a b c : Nat} {t : Tree} {ts us : List Tree}

theorem le (h : Tidy content a b ts) : a ≤ b := by
  induction h with
  | nil hle => exact hle
  | leaf hle hplaced _ ih => exact Nat.le_trans hle (Nat.le_trans hplaced.le ih)
  | group hle _ _ _ _ ihin ih => exact Nat.le_trans hle (Nat.le_trans ihin ih)

theorem mono (h : Tidy content a b ts) {a' b' : Nat} (ha : a' ≤ a) (hb : b ≤ b') :
    Tidy content a' b' ts := by
  induction h generalizing a' b' with
  | nil hle => exact .nil (by omega)
  | leaf hle hplaced _ ih => exact .leaf (by omega) hplaced (ih (Nat.le_refl _) hb)
  | group hle hstart hstop hin _ _ ih =>
    exact .group (by omega) hstart hstop hin (ih (Nat.le_refl _) hb)

/-- The first tree stands between its own offsets and the others behind it. -/
theorem uncons (h : Tidy content a b (t :: ts)) :
    a ≤ t.start ∧ Tidy content t.start t.stop [t] ∧ Tidy content t.stop b ts := by
  cases h with
  | leaf hle hplaced htail =>
    exact ⟨hle, .leaf (Nat.le_refl _) hplaced (.nil (Nat.le_refl _)), htail⟩
  | group hle hstart hstop hin htail =>
    exact ⟨hle, .group (Nat.le_refl _) hstart hstop hin (.nil (Nat.le_refl _)), htail⟩

theorem append (h : Tidy content a b ts) (h' : Tidy content b c us) :
    Tidy content a c (ts ++ us) := by
  induction h with
  | nil hle => exact h'.mono hle (Nat.le_refl _)
  | leaf hle hplaced _ ih => exact .leaf hle hplaced (ih h')
  | group hle hstart hstop hin _ _ ih => exact .group hle hstart hstop hin (ih h')

theorem cons (h : Tidy content a b [t]) (h' : Tidy content b c ts) : Tidy content a c (t :: ts) :=
  h.append h'

theorem split (h : Tidy content a b (ts ++ us)) :
    ∃ m, Tidy content a m ts ∧ Tidy content m b us := by
  induction ts generalizing a with
  | nil => exact ⟨a, .nil (Nat.le_refl a), h⟩
  | cons t ts ih =>
    obtain ⟨hle, hone, htail⟩ := h.uncons
    obtain ⟨m, hts, hus⟩ := ih htail
    exact ⟨m, (hone.cons hts).mono hle (Nat.le_refl m), hus⟩

theorem split_at (h : Tidy content a b (ts ++ t :: us)) :
    Tidy content a t.stop (ts ++ [t]) ∧ Tidy content t.stop b us := by
  obtain ⟨m, hts, htail⟩ := h.split
  obtain ⟨hle, hone, hus⟩ := htail.uncons
  exact ⟨hts.append (hone.mono hle (Nat.le_refl _)), hus⟩

theorem sublist (h : Tidy content a b us) (hsub : ts.Sublist us) : Tidy content a b ts := by
  induction hsub generalizing a with
  | slnil => exact h
  | cons u _ ih =>
    obtain ⟨hle, hone, htail⟩ := h.uncons
    exact (ih htail).mono (Nat.le_trans hle hone.le) (Nat.le_refl b)
  | cons_cons u _ ih =>
    obtain ⟨hle, hone, htail⟩ := h.uncons
    exact (hone.cons (ih htail)).mono hle (Nat.le_refl b)

theorem inner (h : Tidy content a b [t]) : Tidy content a b t.inner := by
  cases h with
  | leaf hle hplaced htail => exact .nil (Nat.le_trans hle (Nat.le_trans hplaced.le htail.le))
  | group hle _ _ hin htail => exact hin.mono hle htail.le

theorem flatMap_inner (h : Tidy content a b ts) : Tidy content a b (ts.flatMap Tree.inner) := by
  induction ts generalizing a with
  | nil => exact h
  | cons t ts ih =>
    obtain ⟨hle, hone, htail⟩ := h.uncons
    rw [List.flatMap_cons]
    exact (hone.inner.append (ih htail)).mono hle (Nat.le_refl b)

theorem mem (h : Tidy content a b ts) (ht : t ∈ ts) : Tidy content a b [t] :=
  h.sublist (List.singleton_sublist.mpr ht)

theorem isCut_start (h : Tidy content a b [t]) : IsCut content t.start := by
  cases h with
  | leaf _ hplaced _ => exact hplaced.isCut_start
  | group _ hstart _ _ _ => exact hstart

theorem isCut_stop (h : Tidy content a b [t]) : IsCut content t.stop := by
  cases h with
  | leaf _ hplaced _ => exact hplaced.isCut_stop
  | group _ _ hstop _ _ => exact hstop

end Tidy

/-! ## From the text to pieces -/

/-- Pieces that stand in the source one behind the other from an offset on. -/
inductive Laid (content : List Char) : Nat → List Piece → Prop where
  | nil {pos : Nat} : pos ≤ bytes content → Laid content pos []
  | cons {pos : Nat} {p : Piece} {ps : List Piece} :
      pos ≤ p.start → p.start < p.stop → p.Placed content → Laid content p.stop ps →
        Laid content pos (p :: ps)

namespace Laid

theorem mono {content : List Char} {pos pos' : Nat} {ps : List Piece} (h : Laid content pos ps)
    (hle : pos' ≤ pos) : Laid content pos' ps := by
  cases h with
  | nil hend => exact .nil (Nat.le_trans hle hend)
  | cons hpos hlt hplaced hrest => exact .cons (Nat.le_trans hle hpos) hlt hplaced hrest

/-- A piece at the offset of its text, in front of the pieces behind that text. -/
theorem piece {front taken rest : List Char} {p : Piece} {ps : List Piece} (hne : taken ≠ [])
    (htext : p.text = taken) (hstart : p.start = bytes front)
    (hstop : p.stop = bytes front + bytes taken)
    (h : Laid (front ++ (taken ++ rest)) (bytes front + bytes taken) ps) :
    Laid (front ++ (taken ++ rest)) (bytes front) (p :: ps) := by
  have hlen : 0 < bytes taken := bytes_pos hne
  rw [← hstop] at h
  refine .cons (Nat.le_of_eq hstart.symm) (by omega) ?_ h
  exact ⟨front, rest, by rw [htext], hstart, by rw [htext, hstop, hstart]⟩

end Laid

theorem scan_laid (steps : Nat) : ∀ (inside : Bool) (front cs : List Char),
    Laid (front ++ cs) (bytes front) (scan steps inside (bytes front) cs) := by
  have hnil : ∀ front cs : List Char, Laid (front ++ cs) (bytes front) [] := by
    intro front cs
    refine .nil ?_
    rw [bytes_append]
    omega
  induction steps with
  | zero => exact fun _ front cs => hnil front cs
  | succ steps ih =>
    intro inside front cs
    -- what stands behind the first piece, at the offset of its end
    have hrest : ∀ (inside : Bool) (taken rest : List Char),
        Laid (front ++ (taken ++ rest)) (bytes front + bytes taken)
          (scan steps inside (bytes front + bytes taken) rest) := by
      intro inside taken rest
      have htail := ih inside (front ++ taken) rest
      rwa [bytes_append, List.append_assoc] at htail
    have hskip : ∀ (inside : Bool) (taken rest : List Char),
        Laid (front ++ (taken ++ rest)) (bytes front)
            (scan steps inside (bytes front + bytes taken) rest) :=
      fun inside taken rest => (hrest inside taken rest).mono (Nat.le_add_right _ _)
    cases cs with
    | nil => exact hnil front []
    | cons c cs =>
      cases inside with
      | false =>
        rw [scan]
        split
        · rename_i tag prints htag
          obtain ⟨hne, rest, hcs⟩ := isPrefix_of_openTag? htag
          rw [← hcs, List.drop_left]
          cases prints with
          | false => exact hskip true tag rest
          | true => exact (hrest true tag rest).piece hne String.toList_ofList rfl rfl
        · exact hskip false [c] cs
      | true =>
        rw [scan]
        rcases hpiece : pieceAt c cs with ⟨kind, taken⟩
        obtain ⟨tail, rfl, rest, rfl⟩ := exists_of_pieceAt hpiece
        have hne := List.cons_ne_nil c tail
        dsimp only
        rw [← List.cons_append, List.drop_left]
        cases kind with
        | blank => exact hskip true (c :: tail) rest
        | comment isDoc =>
          exact (hrest true (c :: tail) rest).piece hne String.toList_ofList rfl rfl
        | token kind => exact (hrest true (c :: tail) rest).piece hne String.toList_ofList rfl rfl
        | closeTag =>
          obtain ⟨rfl, rfl⟩ := List.cons.inj (closeTag_of_pieceAt hpiece)
          exact (hrest false ['?', '>'] rest).piece hne (by simp [Piece.text]) rfl rfl
        | halt => exact hnil front _

/-- **The pieces of a file stand in it one behind the other.** -/
theorem pieces_laid (content : List Char) : Laid content 0 (pieces content) := by
  have hshebang : shebang content <+: content := by
    unfold shebang
    split
    · exact List.takeWhile_prefix _
    · exact List.nil_prefix
  obtain ⟨rest, hcontent⟩ := hshebang
  have hscan := scan_laid content.length false (shebang content) rest
  have hdrop : (shebang content ++ rest).drop (shebang content).length = rest := List.drop_left
  rw [hcontent] at hscan hdrop
  rw [pieces, hdrop]
  exact hscan.mono (Nat.zero_le _)

/-- The tokens among the pieces are trees without brackets. -/
theorem Laid.tidy_tokens {content : List Char} {pos : Nat} {ps : List Piece}
    (h : Laid content pos ps) :
    Tidy content pos (bytes content) ((tokensOf ps).map .leaf) := by
  induction h with
  | nil hend => exact .nil hend
  | @cons pos p ps hpos hlt hplaced _ ih =>
    cases p with
    | token t => exact .leaf hpos hplaced ih
    | comment c => exact ih.mono (Nat.le_of_lt (Nat.lt_of_le_of_lt hpos hlt)) (Nat.le_refl _)

/-! ## From tokens to trees -/

/-- What is read so far stands in the source up to an offset: what is closed at the start, and what
each open pair of brackets holds behind its opening. -/
inductive Framed (content : List Char) : Nat → List Frame × List Tree → Prop where
  | done {pos : Nat} {done : List Tree} :
      Tidy content 0 pos done.reverse → Framed content pos ([], done)
  | frame {pos : Nat} {f : Frame} {fs : List Frame} {done : List Tree} :
      Framed content f.start (fs, done) → IsCut content f.start →
        Tidy content f.start pos f.held.reverse →
      Framed content pos (f :: fs, done)

theorem Framed.mono {content : List Char} {pos pos' : Nat} {state : List Frame × List Tree}
    (h : Framed content pos state) (hle : pos ≤ pos') : Framed content pos' state := by
  cases h with
  | done htidy => exact .done (htidy.mono (Nat.le_refl _) hle)
  | frame hframed hcut htidy => exact .frame hframed hcut (htidy.mono (Nat.le_refl _) hle)

theorem addTree_framed {content : List Char} {pos stop : Nat} {tree : Tree}
    {state : List Frame × List Tree} (h : Framed content pos state)
    (ht : Tidy content pos stop [tree]) : Framed content stop (addTree tree state) := by
  cases h with
  | done htidy =>
    refine .done ?_
    rw [List.reverse_cons]
    exact htidy.append ht
  | frame hframed hcut htidy =>
    refine .frame hframed hcut ?_
    rw [List.reverse_cons]
    exact htidy.append ht

theorem addToken_framed {content : List Char} {pos : Nat} {t : Token}
    {state : List Frame × List Tree} (h : Framed content pos state) (hle : pos ≤ t.start)
    (ht : t.Placed content) :
    Framed content t.stop (addToken state t) := by
  unfold addToken
  split
  · exact .frame (h.mono hle) ht.isCut_start (.nil ht.le)
  split
  · cases h with
    | done htidy => exact .done (htidy.mono (Nat.le_refl _) (Nat.le_trans hle ht.le))
    | frame hframed hcut htidy =>
      refine addTree_framed hframed
        (.group (Nat.le_refl _) hcut ht.isCut_stop ?_ (.nil (Nat.le_refl _)))
      exact htidy.mono (Nat.le_refl _) (Nat.le_trans hle ht.le)
  · exact addTree_framed h (.leaf hle ht (.nil (Nat.le_refl _)))

theorem Framed.tidy_done {content : List Char} {pos : Nat} {frames : List Frame} {done : List Tree}
    (h : Framed content pos (frames, done)) : Tidy content 0 pos done.reverse := by
  induction frames generalizing pos with
  | nil =>
    cases h with
    | done htidy => exact htidy
  | cons f fs ih =>
    cases h with
    | frame hframed _ htidy => exact (ih hframed).mono (Nat.le_refl _) htidy.le

theorem foldl_framed {content : List Char} (ts : List Token) :
    ∀ {pos : Nat} {state : List Frame × List Tree},
    Framed content pos state → Tidy content pos (bytes content) (ts.map .leaf) →
    Framed content (bytes content) (ts.foldl addToken state) := by
  induction ts with
  | nil => exact fun h htidy => h.mono htidy.le
  | cons t ts ih =>
    intro pos state h htidy
    cases htidy with
    | leaf hle hplaced htail => exact ih (addToken_framed h hle hplaced) htail

/-- **The trees of a file stand in it one behind the other.** -/
theorem trees_tidy (content : List Char) :
    Tidy content 0 (bytes content) (trees (tokensOf (pieces content))) :=
  (foldl_framed _ (.done (.nil (Nat.le_refl 0))) (pieces_laid content).tidy_tokens).tidy_done

/-! ## Cutting trees apart -/

/-- A pair of brackets around some trees, from the start of the first to the end of the last. -/
theorem Tidy.wrap {content : List Char} {a b : Nat} {ts : List Tree} {last : Tree}
    (h : Tidy content a b (ts ++ [last])) :
    Tidy content a last.stop
      [.group "" (((ts ++ [last]).head?.map Tree.start).getD last.start) last.stop
        (ts ++ [last])] := by
  obtain ⟨hall, -⟩ := h.split_at
  have hlast : Tidy content a b [last] := h.mem (by simp)
  cases hts : ts ++ [last] with
  | nil => simp at hts
  | cons t us =>
    rw [hts] at hall
    obtain ⟨hle, hone, htail⟩ := hall.uncons
    exact .group hle hone.isCut_start hlast.isCut_stop (hone.cons htail) (.nil (Nat.le_refl _))

theorem joinBlocks_tidy {content : List Char} {inValue access : Bool}
    {held ts : List Tree} {a b : Nat} (h : Tidy content a b (held.reverse ++ ts)) :
    Tidy content a b (joinBlocks inValue access held ts) := by
  fun_induction joinBlocks inValue access held ts generalizing a with
  | case1 => simpa using h
  | case2 inValue access held t ts _ ih =>
    obtain ⟨hfront, htail⟩ := h.split_at
    simpa using hfront.append (ih htail)
  | case3 inValue access t ts _ head tail _ ih =>
    obtain ⟨hfront, htail⟩ := h.split_at
    exact hfront.wrap.cons (ih htail)
  | case4 inValue access t ts _ head tail _ ih =>
    refine ih ?_
    simpa using h
  | case5 inValue access t ts _ _ ih => exact ih h
  | case6 inValue access t ts _ _ _ ih =>
    obtain ⟨hle, hone, htail⟩ := h.uncons
    exact .group hle hone.isCut_start hone.isCut_stop hone (ih htail)
  | case7 inValue access t ts _ _ _ goesOn =>
    rename_i ih
    obtain ⟨hle, hone, htail⟩ := h.uncons
    exact (hone.cons (ih htail)).mono hle (Nat.le_refl b)

/-! ## Offsets of a list of trees -/

theorem exists_startOf {ts : List Tree} (h : ts ≠ []) : ∃ t ∈ ts, t.start = startOf ts := by
  obtain ⟨t, us, rfl⟩ := List.exists_cons_of_ne_nil h
  exact ⟨t, List.mem_cons_self, rfl⟩

theorem exists_stopOf {ts : List Tree} (h : ts ≠ []) : ∃ t ∈ ts, t.stop = stopOf ts := by
  refine ⟨ts.getLast h, List.getLast_mem h, ?_⟩
  rw [stopOf, List.getLast?_eq_some_getLast h]
  rfl

namespace Tidy

variable {content : List Char} {a b : Nat} {t : Tree} {ts : List Tree}

theorem startOf_le (h : Tidy content a b ts) (ht : t ∈ ts) : startOf ts ≤ t.start := by
  cases ts with
  | nil => cases ht
  | cons u us =>
    obtain ⟨-, hone, htail⟩ := h.uncons
    rcases List.mem_cons.mp ht with rfl | ht
    · exact Nat.le_refl _
    · exact Nat.le_trans hone.le (htail.mem ht).uncons.1

theorem le_stopOf (h : Tidy content a b ts) (ht : t ∈ ts) : t.stop ≤ stopOf ts := by
  obtain ⟨front, last, rfl⟩ : ∃ front last, ts = front ++ [last] :=
    ⟨_, _, (List.dropLast_concat_getLast (List.ne_nil_of_mem ht)).symm⟩
  obtain ⟨hall, -⟩ := h.split_at
  rw [stopOf, List.getLast?_concat]
  exact (hall.mem ht).uncons.2.2.le

theorem isCut_startOf (h : Tidy content a b ts) (hne : ts ≠ []) : IsCut content (startOf ts) := by
  obtain ⟨t, ht, hstart⟩ := exists_startOf hne
  rw [← hstart]
  exact (h.mem ht).isCut_start

theorem isCut_stopOf (h : Tidy content a b ts) (hne : ts ≠ []) : IsCut content (stopOf ts) := by
  obtain ⟨t, ht, hstop⟩ := exists_stopOf hne
  rw [← hstop]
  exact (h.mem ht).isCut_stop

/-- The text of a sign is its stretch. -/
theorem slice_sign (h : Tidy content a b [t]) {sign : String} (hsign : t.isSign sign = true) :
    slice t.start t.stop content = sign.toList := by
  cases h with
  | leaf _ hplaced _ =>
    simp only [Tree.isSign, Bool.and_eq_true, beq_iff_eq] at hsign
    rw [← hsign.2]
    exact hplaced.slice_eq
  | group _ _ _ _ _ => cases hsign

theorem stop_sign (h : Tidy content a b [t]) {sign : String} (hsign : t.isSign sign = true) :
    t.stop = t.start + bytes sign.toList := by
  cases h with
  | leaf _ hplaced _ =>
    simp only [Tree.isSign, Bool.and_eq_true, beq_iff_eq] at hsign
    obtain ⟨-, -, -, -, hstop⟩ := hplaced
    rw [← hsign.2]
    exact hstop
  | group _ _ _ _ _ => cases hsign

end Tidy

end ClassDocs.Source
