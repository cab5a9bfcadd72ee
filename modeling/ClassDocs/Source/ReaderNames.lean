import ClassDocs.Source.Parser
import ClassDocs.Source.Reader

/-!
# The names that the reader finds

A name token starts with a letter, or with one backslash and a letter (`pieceAt_name`), and every
name in a class header, a namespace statement or an import is the text of such a token
(`readFile_sound`). So the reader is a parser.
-/

namespace ClassDocs.Source

/-! ## Tokens and trees -/

/-- A name token has the text of a name, and a variable is a dollar sign and a name. -/
structure Token.Sound (t : Token) : Prop where
  name : t.kind = .name → NameText t.text
  dollar : t.kind = .variable → ∃ cs, t.text.toList = '$' :: cs ∧ ∀ c ∈ cs, isNameChar c = true

theorem Token.sound_of_sign {t : Token} (h : t.kind = .sign) : t.Sound :=
  ⟨fun hname => by simp [h] at hname, fun hvar => by simp [h] at hvar⟩

/-- The branch of a choice that a result can only come from. -/
theorem else_of_ne {α : Type} {p : Prop} [Decidable p] {x y z : α} (h : (if p then x else y) = z)
    (hx : x ≠ z) :
    y = z := by
  split at h
  · exact absurd h hx
  · exact h

/-- The branch of a choice that a result comes from. -/
theorem then_or_else {α : Type} {p : Prop} [Decidable p] {x y z : α}
    (h : (if p then x else y) = z) :
    (p ∧ x = z) ∨ (¬ p ∧ y = z) := by
  split at h
  · exact .inl ⟨by assumption, h⟩
  · exact .inr ⟨by assumption, h⟩

/-- A name that starts with a letter, or with a backslash before one, has the text of a name. -/
theorem nameText_of_start {c : Char} {cs : List Char}
    (h : (isNameStart c || (c == '\\' && cs.head?.any isNameStart)) = true) :
    NameText (.ofList (c :: nameTail cs)) := by
  rw [Bool.or_eq_true, Bool.and_eq_true] at h
  rcases h with hc | ⟨hc, hcs⟩
  · exact ⟨c, cs, hc, Or.inl (by simp)⟩
  · rw [beq_iff_eq] at hc
    subst hc
    cases cs with
    | nil => simp at hcs
    | cons d ds =>
      have hd : isNameStart d = true := by simpa using hcs
      have htail : nameTail (d :: ds) = d :: nameTail ds := by
        rw [nameTail]
        · simp [isNameChar, hd]
        · intro c' cs' hd'
          exact absurd hd' (not_nameStart_backslash hd)
      exact ⟨d, ds, hd, Or.inr (by simp [htail])⟩

theorem pieceAt_name {c : Char} {cs taken : List Char} (h : pieceAt c cs = (.token .name, taken)) :
    NameText (.ofList taken) := by
  unfold pieceAt at h
  dsimp only at h
  -- four kinds of pieces come before names, and six kinds of tokens after them
  have h := else_of_ne h nofun
  have h := else_of_ne h nofun
  have h := else_of_ne h nofun
  have h := else_of_ne h nofun
  by_cases hstart : (isNameStart c || (c == '\\' && cs.head?.any isNameStart)) = true
  · rw [if_pos hstart] at h
    have h := else_of_ne h nofun
    obtain rfl := (Prod.mk.inj h).2
    exact nameText_of_start hstart
  · rw [if_neg hstart] at h
    have h := else_of_ne h nofun
    have h := else_of_ne h nofun
    have h := else_of_ne h nofun
    have h := else_of_ne h nofun
    split at h
    · cases h
    · split at h <;> cases h

theorem pieceAt_variable {c : Char} {cs taken : List Char}
    (h : pieceAt c cs = (.token .variable, taken)) :
    ∃ rest, taken = '$' :: rest ∧ ∀ d ∈ rest, isNameChar d = true := by
  unfold pieceAt at h
  dsimp only at h
  have h := else_of_ne h nofun
  have h := else_of_ne h nofun
  have h := else_of_ne h nofun
  have h := else_of_ne h nofun
  by_cases hstart : (isNameStart c || (c == '\\' && cs.head?.any isNameStart)) = true
  · rw [if_pos hstart] at h
    split at h <;> cases h
  · rw [if_neg hstart] at h
    rcases then_or_else h with ⟨hdollar, h⟩ | ⟨-, h⟩
    · obtain rfl := (Prod.mk.inj h).2
      obtain rfl : c = '$' := beq_iff_eq.mp (Bool.and_eq_true_iff.mp hdollar).1
      exact ⟨_, rfl, fun d hd => List.all_eq_true.mp List.all_takeWhile d hd⟩
    · have h := else_of_ne h nofun
      have h := else_of_ne h nofun
      have h := else_of_ne h nofun
      split at h
      · cases h
      · split at h <;> cases h

theorem scan_sound (steps : Nat) : ∀ (inside : Bool) (pos : Nat) (cs : List Char) (t : Token),
    Piece.token t ∈ scan steps inside pos cs → t.Sound := by
  induction steps with
  | zero => intro inside pos cs t h; simp [scan] at h
  | succ steps ih =>
    intro inside pos cs t h
    cases cs with
    | nil => simp [scan] at h
    | cons c cs =>
      cases inside with
      | false =>
        simp only [scan] at h
        split at h
        · rename_i tag prints _
          cases prints with
          | false => exact ih _ _ _ _ (by simpa using h)
          | true =>
            rw [if_pos rfl] at h
            rcases List.mem_cons.mp h with h | h
            · obtain rfl := Piece.token.inj h
              exact Token.sound_of_sign rfl
            · exact ih _ _ _ _ h
        · exact ih _ _ _ _ h
      | true =>
        simp only [scan] at h
        rcases hp : pieceAt c cs with ⟨kind, taken⟩
        rw [hp] at h
        cases kind with
        | blank => exact ih _ _ _ _ h
        | comment isDoc =>
          rcases List.mem_cons.mp h with h | h
          · simp at h
          · exact ih _ _ _ _ h
        | token kind =>
          rcases List.mem_cons.mp h with h | h
          · obtain rfl := Piece.token.inj h
            refine ⟨fun hkind => ?_, fun hkind => ?_⟩
            · obtain rfl : kind = .name := hkind
              exact pieceAt_name hp
            · obtain rfl : kind = .variable := hkind
              obtain ⟨rest, rfl, hrest⟩ := pieceAt_variable hp
              exact ⟨rest, String.toList_ofList, hrest⟩
          · exact ih _ _ _ _ h
        | closeTag =>
          rcases List.mem_cons.mp h with h | h
          · obtain rfl := Piece.token.inj h
            exact Token.sound_of_sign rfl
          · exact ih _ _ _ _ h
        | halt => simp at h

theorem tokensOf_sound {content : List Char} {t : Token} (h : t ∈ tokensOf (pieces content)) :
    t.Sound := by
  obtain ⟨piece, hmem, hp⟩ := List.mem_filterMap.mp h
  cases piece with
  | token t' =>
    obtain rfl : t' = t := by simpa using hp
    exact scan_sound _ _ _ _ _ hmem
  | comment c => simp at hp

/-- All tokens of a tree are sound. -/
inductive Tree.Sound : Tree → Prop where
  | leaf {t : Token} : t.Sound → Tree.Sound (.leaf t)
  | group {opener : String} {start stop : Nat} {inner : List Tree} :
      (∀ t ∈ inner, Tree.Sound t) → Tree.Sound (.group opener start stop inner)

/-- All tokens of some trees are sound. -/
def AllSound (ts : List Tree) : Prop := ∀ t ∈ ts, t.Sound

theorem Tree.Sound.inner {t : Tree} (h : t.Sound) : AllSound t.inner := by
  cases h with
  | leaf _ => intro t ht; simp [Tree.inner] at ht
  | group h => exact h

theorem Tree.Sound.name {t : Tree} (h : t.Sound) {s : String} (hs : t.name? = some s) :
    NameText s := by
  cases h with
  | leaf h =>
    rename_i t
    simp only [Tree.name?] at hs
    split at hs
    · rename_i hkind
      obtain rfl := Option.some.inj hs
      exact h.name (by simpa using hkind)
    · simp at hs
  | group _ => simp [Tree.name?] at hs

theorem Tree.Sound.plainName {t : Tree} (h : t.Sound) {s : String} (hs : t.plainName? = some s) :
    PlainName s := by
  obtain ⟨hname, hplain⟩ := Option.filter_eq_some_iff.mp hs
  exact ⟨h.name hname, by simpa using hplain⟩

theorem addTree_sound {tree : Tree} (ht : tree.Sound) {state : List Frame × List Tree}
    (hs : (∀ f ∈ state.1, AllSound f.held) ∧ AllSound state.2) :
    (∀ f ∈ (addTree tree state).1, AllSound f.held) ∧ AllSound (addTree tree state).2 := by
  obtain ⟨frames, done⟩ := state
  obtain ⟨hframes, hdone⟩ := hs
  cases frames with
  | nil =>
    refine ⟨by simp [addTree], ?_⟩
    exact List.forall_mem_cons.mpr ⟨ht, hdone⟩
  | cons f fs =>
    obtain ⟨hf, hfs⟩ := List.forall_mem_cons.mp hframes
    exact ⟨List.forall_mem_cons.mpr ⟨List.forall_mem_cons.mpr ⟨ht, hf⟩, hfs⟩, hdone⟩

theorem addToken_sound {t : Token} (ht : t.Sound) {state : List Frame × List Tree}
    (hs : (∀ f ∈ state.1, AllSound f.held) ∧ AllSound state.2) :
    (∀ f ∈ (addToken state t).1, AllSound f.held) ∧ AllSound (addToken state t).2 := by
  unfold addToken
  split
  · refine ⟨List.forall_mem_cons.mpr ⟨?_, hs.1⟩, hs.2⟩
    intro t ht; simp at ht
  · split
    · split
      · rename_i f fs done
        obtain ⟨hf, hfs⟩ := List.forall_mem_cons.mp hs.1
        have hgroup : AllSound f.held.reverse := fun t ht => hf t (List.mem_reverse.mp ht)
        exact addTree_sound (.group hgroup) ⟨hfs, hs.2⟩
      · exact hs
    · exact addTree_sound (.leaf ht) hs

/-- **The trees of a file hold name tokens only of names.** -/
theorem trees_sound (ts : List Token) (h : ∀ t ∈ ts, t.Sound) : AllSound (trees ts) := by
  have hfold : ∀ (ts : List Token) (state : List Frame × List Tree), (∀ t ∈ ts, t.Sound) →
      ((∀ f ∈ state.1, AllSound f.held) ∧ AllSound state.2) →
      AllSound (ts.foldl addToken state).2 := by
    intro ts
    induction ts with
    | nil => intro state _ hs; exact hs.2
    | cons t ts ih =>
      intro state ht hs
      obtain ⟨ht, hts⟩ := List.forall_mem_cons.mp ht
      exact ih _ hts (addToken_sound ht hs)
  intro t ht
  exact hfold ts ([], []) h ⟨by simp, by intro t ht; simp at ht⟩ t (List.mem_reverse.mp ht)

/-! ## Cutting trees apart -/

/-- Some trees are part of others, so they are sound if those are. -/
theorem AllSound.of_subset {ts us : List Tree} (h : AllSound us) (hsub : ts ⊆ us) : AllSound ts :=
  fun t ht => h t (hsub ht)

theorem sublist_of_mem_statements {ts : List Tree} : ∀ s ∈ statements ts, s.Sublist ts := by
  induction ts with
  | nil => simp [statements]
  | cons t ts ih =>
    intro s hs
    rw [statements] at hs
    split at hs
    · rcases List.mem_cons.mp hs with rfl | hs
      · simp
      · exact (ih s hs).cons t
    · split at hs
      · obtain rfl : s = [t] := by simpa using hs
        simp
      · rename_i s' rest heq
        rw [heq] at ih
        rcases List.mem_cons.mp hs with rfl | hs
        · exact (ih s' (by simp)).cons_cons t
        · exact (ih s (List.mem_cons_of_mem _ hs)).cons t

theorem sublist_of_mem_splitCommas {ts : List Tree} :
    ∀ part ∈ splitCommas ts, part.Sublist ts := by
  induction ts with
  | nil => simp [splitCommas]
  | cons t ts ih =>
    intro s hs
    rw [splitCommas] at hs
    split at hs
    · obtain rfl : s = [t] := by simpa using hs
      simp
    · rename_i part parts heq
      rw [heq] at ih
      split at hs
      · rcases List.mem_cons.mp hs with rfl | hs
        · simp
        · exact (ih s hs).cons t
      · rcases List.mem_cons.mp hs with rfl | hs
        · exact (ih part (by simp)).cons_cons t
        · exact (ih s (List.mem_cons_of_mem _ hs)).cons t

theorem isSuffix_takeModifiers (ts : List Tree) : (takeModifiers ts).2 <:+ ts := by
  fun_induction takeModifiers ts with
  | case1 => exact List.suffix_rfl
  | case2 t ts h => exact List.suffix_rfl
  | case3 t m h => exact List.nil_suffix
  | case4 t m h mark rest hmark ms left heq ih =>
    rw [heq] at ih
    exact (ih.trans (List.suffix_cons mark rest)).trans (List.suffix_cons t _)
  | case5 t m h mark rest hmark ms left heq ih =>
    rw [heq] at ih
    exact ih.trans (List.suffix_cons t _)

theorem isSuffix_dropLabels (ts : List Tree) : dropLabels ts <:+ ts := by
  fun_induction dropLabels ts with
  | case1 t u rest h ih => exact (ih.trans (List.suffix_cons u rest)).trans (List.suffix_cons t _)
  | case2 t u rest h => exact List.suffix_rfl
  | case3 ts h => exact List.suffix_rfl

/-- A statement outside all control structures is the end of one of the statements. -/
theorem mem_outermost {ss : List (List Tree)} : ∀ (depth : Nat), ∀ s ∈ outermost depth ss,
    ∃ s' ∈ ss, s <:+ s' := by
  induction ss with
  | nil => simp [outermost]
  | cons s₀ ss ih =>
    intro depth s hs
    simp only [outermost] at hs
    split at hs
    · rcases List.mem_cons.mp hs with rfl | hs
      · exact ⟨s₀, by simp, isSuffix_dropLabels s₀⟩
      · obtain ⟨s', hs', hsuf⟩ := ih _ s hs
        exact ⟨s', List.mem_cons_of_mem _ hs', hsuf⟩
    · obtain ⟨s', hs', hsuf⟩ := ih _ s hs
      exact ⟨s', List.mem_cons_of_mem _ hs', hsuf⟩

theorem sublist_of_mem_outermost {ts s : List Tree} (h : s ∈ outermost 0 (statements ts)) :
    s.Sublist ts := by
  obtain ⟨s', hs', hsuf⟩ := mem_outermost 0 s h
  exact hsuf.sublist.trans (sublist_of_mem_statements s' hs')

theorem outermost_sound {ts : List Tree} (h : AllSound ts) :
    ∀ s ∈ outermost 0 (statements ts), AllSound s := by
  intro s hs
  exact h.of_subset (sublist_of_mem_outermost hs).subset

/-! ## Names in headers and imports -/

theorem nameList_text {ts : List Tree} (h : AllSound ts) : ∀ s ∈ nameList ts, NameText s := by
  intro s hs
  obtain ⟨part, hpart, hname⟩ := List.mem_filterMap.mp hs
  obtain ⟨t, ht, hname⟩ := Option.bind_eq_some_iff.mp hname
  exact (h t ((sublist_of_mem_splitCommas part hpart).subset (List.mem_of_head? ht))).name hname

theorem namesAfter_text {word : String} {header : List Tree} (h : AllSound header) :
    ∀ s ∈ namesAfter word header, NameText s := by
  unfold namesAfter
  split
  · rename_i t rest heq
    apply nameList_text
    have hsub : t :: rest ⊆ header := heq ▸ List.dropWhile_subset _
    exact h.of_subset
      (List.Subset.trans (List.takeWhile_subset _)
        (List.Subset.trans (List.subset_cons_self t rest) hsub))
  · simp

theorem readClass_sound {statement : List Tree} (h : AllSound statement) {node : ClassNode}
    (hnode : readClass? statement = some node) : node.Sound := by
  unfold readClass? takeTrees at hnode
  dsimp only at hnode
  split at hnode
  · rename_i t u rest heq
    split at hnode
    · rename_i word name _ hname
      obtain rfl := Option.some.inj hnode
      have hmods := (isSuffix_takeModifiers (statement.dropWhile (·.isGroup "#["))).subset
      rw [heq] at hmods
      have hsub : u :: rest ⊆ statement :=
        fun x hx => List.dropWhile_subset _ (hmods (List.mem_cons_of_mem _ hx))
      obtain ⟨hu, hrest⟩ := List.forall_mem_cons.mp (h.of_subset hsub)
      exact ⟨hu.plainName hname,
        namesAfter_text (AllSound.of_subset hrest (List.takeWhile_subset _))⟩
    · simp at hnode
  · simp at hnode

theorem takeImportKind_subset (ts : List Tree) : (takeImportKind ts).2 ⊆ ts := by
  unfold takeImportKind
  split
  · split
    · simp
    · split <;> simp
  · simp

theorem readUseItem_text {ts : List Tree} (h : AllSound ts) {item : UseItem}
    (hitem : readUseItem? ts = some item) :
    NameText item.name := by
  unfold readUseItem? at hitem
  dsimp only at hitem
  split at hitem
  · rename_i t rest heq
    obtain ⟨name, hname, rfl⟩ := Option.map_eq_some_iff.mp hitem
    exact (h t (takeImportKind_subset ts (heq ▸ List.mem_cons_self))).name hname
  · simp at hitem

theorem readUseItems_text {ts : List Tree} (h : AllSound ts) :
    ∀ item ∈ (splitCommas ts).filterMap readUseItem?, NameText item.name := by
  intro item hitem
  obtain ⟨part, hpart, hread⟩ := List.mem_filterMap.mp hitem
  exact readUseItem_text (h.of_subset (sublist_of_mem_splitCommas part hpart).subset) hread

theorem readUse_sound {ts : List Tree} (h : AllSound ts) : (readUse ts).Sound := by
  unfold readUse
  dsimp only
  have hrest : AllSound ((takeImportKind ts).2.filter fun t => !(t.isSign ";" || t.isSign "?>")) :=
    h.of_subset (List.Subset.trans List.filter_sublist.subset (takeImportKind_subset ts))
  split
  · rename_i base sep group heq
    rw [heq] at hrest
    split
    · refine ⟨fun s hs => (hrest base (by simp)).name hs, ?_⟩
      exact readUseItems_text (hrest group (by simp)).inner
    · exact ⟨by simp, by rw [heq]; exact readUseItems_text hrest⟩
  · exact ⟨by simp, readUseItems_text hrest⟩

theorem readTop_sound {statement : List Tree} (h : AllSound statement) {node : TopNode}
    (hnode : readTop? statement = some node) : node.Sound := by
  unfold readTop? at hnode
  split at hnode
  · rename_i t rest
    split at hnode
    · obtain rfl := Option.some.inj hnode
      exact .use (readUse_sound (h.of_subset (List.subset_cons_self t rest)))
    · obtain ⟨node, hread, rfl⟩ := Option.map_eq_some_iff.mp hnode
      exact .decl (readClass_sound h hread)
  · simp at hnode

theorem readTops_sound {ts : List Tree} (h : AllSound ts) : ∀ node ∈ readTops ts, node.Sound := by
  intro node hnode
  obtain ⟨s, hs, hread⟩ := List.mem_filterMap.mp hnode
  exact readTop_sound (outermost_sound h s hs) hread

theorem namespace_name {statement : List Tree} (h : AllSound statement) {name : Option String}
    {body : Option (List Tree)} (hs : namespace? statement = some (name, body)) :
    ∀ s, name = some s → NameText s := by
  unfold namespace? at hs
  split at hs
  · split at hs
    · obtain rfl := (Prod.mk.inj (Option.some.inj hs)).1
      simp
    · simp at hs
  · rename_i t n u
    split at hs
    · obtain rfl := (Prod.mk.inj (Option.some.inj hs)).1
      exact fun s hs => (h n (by simp)).name hs
    · simp at hs
  · simp at hs

theorem exists_of_namespace? {s inner : List Tree} {name : Option String}
    (h : namespace? s = some (name, some inner)) :
    ∃ u ∈ s, u.inner = inner := by
  unfold namespace? at h
  split at h
  · rename_i t u
    rcases then_or_else h with ⟨-, h⟩ | ⟨-, h⟩
    · cases h
      exact ⟨u, by simp, rfl⟩
    · cases h
  · rename_i t n u
    rcases then_or_else h with ⟨-, h⟩ | ⟨-, h⟩
    · rcases then_or_else (Prod.mk.inj (Option.some.inj h)).2 with ⟨-, h⟩ | ⟨-, h⟩
      · cases h
        exact ⟨u, by simp, rfl⟩
      · cases h
    · cases h
  · cases h

theorem namespace_sound {statement : List Tree} (h : AllSound statement) {name : Option String}
    {inner : List Tree} (hs : namespace? statement = some (name, some inner)) :
    AllSound inner := by
  obtain ⟨u, hu, rfl⟩ := exists_of_namespace? hs
  exact (h u hu).inner

theorem addStatement_sound {statement : List Tree} (h : AllSound statement)
    {after : List TopNode × List FileNode}
    (ha : (∀ n ∈ after.1, n.Sound) ∧ ∀ n ∈ after.2, n.Sound) :
    (∀ n ∈ (addStatement statement after).1, n.Sound) ∧
      ∀ n ∈ (addStatement statement after).2, n.Sound := by
  unfold addStatement
  split
  · rename_i name heq
    exact ⟨by simp, List.forall_mem_cons.mpr ⟨.space (namespace_name h heq) ha.1, ha.2⟩⟩
  · rename_i name inner heq
    have hbody := readTops_sound (namespace_sound h heq)
    refine ⟨by simp, List.forall_mem_cons.mpr ⟨.space (namespace_name h heq) hbody, ?_⟩⟩
    intro n hn
    rcases List.mem_append.mp hn with hn | hn
    · obtain ⟨top, htop, rfl⟩ := List.mem_map.mp hn
      exact .top (ha.1 top htop)
    · exact ha.2 n hn
  · refine ⟨?_, ha.2⟩
    intro n hn
    rcases List.mem_append.mp hn with hn | hn
    · exact readTop_sound h (Option.mem_toList.mp hn)
    · exact ha.1 n hn

/-- **The names in the declarations of a file are name tokens.** -/
theorem readFile_sound {ts : List Tree} (h : AllSound ts) : ∀ node ∈ readFile ts, node.Sound := by
  have hfold : ∀ ss : List (List Tree), (∀ s ∈ ss, AllSound s) →
      (∀ n ∈ (ss.foldr addStatement ([], [])).1, n.Sound) ∧
        ∀ n ∈ (ss.foldr addStatement ([], [])).2, n.Sound := by
    intro ss
    induction ss with
    | nil => intro _; exact ⟨by simp, by simp⟩
    | cons s ss ih =>
      intro hss
      obtain ⟨hs, hss⟩ := List.forall_mem_cons.mp hss
      exact addStatement_sound hs (ih hss)
  obtain ⟨htops, hnodes⟩ := hfold _ (outermost_sound h)
  intro node hnode
  rcases List.mem_append.mp hnode with hnode | hnode
  · obtain ⟨top, htop, rfl⟩ := List.mem_map.mp hnode
    exact .top (htops top htop)
  · exact hnodes node hnode

/-- The parser that cuts a source into tokens, gathers them by their brackets and looks at the
start of each statement. -/
def reader : Parser where
  parse content := ⟨commentsOf (pieces content), readFile (trees (tokensOf (pieces content)))⟩
  sound _ := readFile_sound (trees_sound _ fun _ ht => tokensOf_sound ht)

end ClassDocs.Source
