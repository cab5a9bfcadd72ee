import ClassDocs.Proofs.TypeRoundTrip
import ClassDocs.Source.Hint

/-!
# Native types are read as they are written

A native type comes from the code as a tree of binary nodes, in whatever way these nest, and is
printed and read again as a type expression, where a union or an intersection is one flat list.
`Writes` says which native types there are and which type expression each of them writes, one rule
for each form: a name, a name behind `?`, an intersection of names, and a union of names and of
intersections in parentheses.

An intersection or a union of names has the text of the flat type, so that it is read back like any
printed type. A union with intersections in it has not, since the printer puts no parentheses
around them. There the reader is followed through the parentheses (`readsMember_parenthesized`),
and the rest is the argument for printed unions.
-/

namespace ClassDocs

namespace TypeExpr

theorem joinTexts_append (sep : String) {texts more : List String} (hne : texts ≠ [])
    (hmore : more ≠ []) :
    joinTexts sep (texts ++ more) = joinTexts sep texts ++ sep ++ joinTexts sep more := by
  induction texts with
  | nil => exact absurd rfl hne
  | cons t texts ih =>
    cases texts with
    | nil =>
      obtain ⟨u, us, rfl⟩ := List.exists_cons_of_ne_nil hmore
      rfl
    | cons u texts =>
      have hrest := ih (List.cons_ne_nil u texts)
      rw [List.cons_append] at hrest
      rw [List.cons_append, List.cons_append, joinTexts, joinTexts, hrest]
      simp only [String.append_assoc]

/-! ## Unions with parentheses in them -/

/-- A text is read as a type if the reader of unions takes all its tokens. -/
theorem parse_of_reads {text : String} {toks : List Token} {t : TypeExpr}
    (htext : Spells text.toList toks)
    (h : ∀ depth, 8 * toks.length ≤ depth → Reads (readUnion depth) toks t []) :
    parse text = .ok t := by
  have hfront : (lexemes text.toList).map Lexeme.token = toks ++ [] := by
    rw [List.append_nil]
    exact htext.tokensOf_eq
  have hdepth : 8 * toks.length ≤ readingDepth (lexemes text.toList) := by
    have hlength := congrArg List.length hfront
    rw [List.length_map, List.append_nil] at hlength
    rw [readingDepth, hlength]
    omega
  obtain ⟨left, hread, hleft⟩ := h _ hdepth hfront
  obtain rfl : left = [] := List.map_eq_nil_iff.mp hleft
  rw [parse_eq_read]
  exact read_of_readUnion hread

/-- The text of a member of a union, in parentheses if it is put together itself. -/
def memberText (t : TypeExpr) : String := if t.isCompound then "(" ++ t.render ++ ")" else t.render

/-- The tokens of the text of a member. -/
def memberTokens (t : TypeExpr) : List Token :=
  if t.isCompound then .punct '(' :: (t.tokens ++ [.punct ')']) else t.tokens

theorem spells_memberText {t : TypeExpr} (h : Canonical t) :
    Spells t.memberText.toList t.memberTokens := by
  unfold memberText memberTokens
  split
  · rw [String.toList_append, String.toList_append, List.append_assoc]
    have hclose : Spells [')'] [.punct ')'] := spells_nil.punct (by decide)
    exact ((printed h).append hclose fun rest _ => stops_cons (by decide) _).punct (by decide)
  · exact printed h

/-- The reader of intersections takes a type in parentheses for the one member of an
intersection. -/
theorem readsMember_parenthesized {t : TypeExpr} (h : Readable t) :
    ReadsMember (.punct '(' :: (t.tokens ++ [.punct ')'])) t := by
  intro depth rest hdepth hrest ls hls
  have hpos := length_pos_of_leads h.lead
  rw [List.length_cons, List.length_append] at hdepth
  obtain ⟨depth, rfl⟩ : ∃ d, depth = d + 2 := ⟨depth - 2, by omega⟩
  obtain ⟨left, hread, hleft⟩ := reads_parenthesized h.union h.lead depth (by omega) hls
  -- neither brackets nor an `&` follow the parentheses
  have hbrackets : readBrackets t left = (t, left) :=
    readBrackets_of_follows hrest hleft (by decide)
  have hconjuncts : readConjuncts (depth + 1) left = .ok ([], left) := by
    have hat : atIntersection left = false := by
      rw [atIntersection, hrest.at?_eq_false hleft (by decide)]
      rfl
    rw [readConjuncts, hat]
    rfl
  have hpostfix : readPostfix (depth + 1) ls = .ok (t, left) := by
    rw [readPostfix, hread]
    show Except.ok (readBrackets t left) = _
    rw [hbrackets]
  refine ⟨left, ?_, hleft⟩
  rw [readIntersection, hpostfix]
  show (readConjuncts (depth + 1) left >>= fun r =>
    Except.ok (if r.1.isEmpty then t else TypeExpr.inter (t :: r.1), r.2)) = _
  rw [hconjuncts]
  rfl

theorem readsMember_memberTokens {t : TypeExpr} (h : Readable t) :
    ReadsMember t.memberTokens t := by
  unfold memberTokens
  split
  · exact readsMember_parenthesized h
  · rename_i hcompound
    refine h.intersection ?_
    cases t with
    | union members => exact absurd rfl hcompound
    | _ => rfl

/-- **A union is read from the texts of its members**, those that are put together being in
parentheses. -/
theorem parse_members {members : List TypeExpr} (hlen : 2 ≤ members.length)
    (h : ∀ m ∈ members, Canonical m) :
    parse (joinTexts "|" (members.map memberText)) = .ok (.union members) := by
  refine parse_of_reads (separator_bar.spells_join fun m hm => spells_memberText (h m hm))
    fun depth hdepth => ?_
  obtain ⟨first, second, more, rfl⟩ := exists_cons_of_two_le hlen
  have hmembers : ∀ m ∈ first :: second :: more, ReadsMember m.memberTokens (id m) :=
    fun m hm => readsMember_memberTokens (readable (h m hm))
  have hpos : 0 < first.memberTokens.length := by
    have hlead := length_pos_of_leads (readable (h first (by simp))).lead
    unfold memberTokens
    split
    · exact Nat.succ_pos _
    · exact hlead
  have hread := reads_union hmembers hpos depth hdepth (follows_nil _)
  rwa [List.map_id] at hread

end TypeExpr

namespace Source.Hint

open TypeExpr

/-- The names that an intersection of names joins, in order. -/
inductive Conjuncts : Hint → List String → Prop where
  | named {text : String} : Whole (.ident text) → Conjuncts (.named text) [text]
  | inter {left right : Hint} {names names' : List String} :
      Conjuncts left names → Conjuncts right names' →
      Conjuncts (.inter left right) (names ++ names')

/-- The types that a union of names and of intersections in parentheses joins, in order. -/
inductive Alternatives : Hint → List TypeExpr → Prop where
  | named {text : String} : Whole (.ident text) → Alternatives (.named text) [.name text]
  | parens {left right : Hint} {names names' : List String} :
      Conjuncts left names → Conjuncts right names' →
      Alternatives (.parens (.inter left right)) [.inter ((names ++ names').map .name)]
  | union {left right : Hint} {types types' : List TypeExpr} :
      Alternatives left types → Alternatives right types' →
      Alternatives (.union left right) (types ++ types')

/-- The native types whose names are names in a type expression too, each with the type that it
writes. -/
inductive Writes : Hint → TypeExpr → Prop where
  | named {text : String} : Whole (.ident text) → Writes (.named text) (.name text)
  | nullable {text : String} :
      Whole (.ident text) → Writes (.nullable (.named text)) (.nullable (.name text))
  | inter {left right : Hint} {names names' : List String} :
      Conjuncts left names → Conjuncts right names' →
      Writes (.inter left right) (.inter ((names ++ names').map .name))
  | union {left right : Hint} {types types' : List TypeExpr} :
      Alternatives left types → Alternatives right types' →
      Writes (.union left right) (.union (types ++ types'))

variable {hint left right : Hint}

/-! ## Intersections -/

theorem Conjuncts.whole {names : List String} (h : Conjuncts hint names) :
    ∀ name ∈ names, Whole (.ident name) := by
  induction h with
  | named htext => simpa using htext
  | inter _ _ ihleft ihright => exact List.forall_mem_append.mpr ⟨ihleft, ihright⟩

theorem Conjuncts.ne_nil {names : List String} (h : Conjuncts hint names) : names ≠ [] := by
  induction h with
  | named => simp
  | inter _ _ ihleft _ => simp [ihleft]

theorem Conjuncts.render_eq {names : List String} (h : Conjuncts hint names) :
    hint.render = joinTexts "&" names := by
  induction h with
  | named => rfl
  | inter hleft hright ihleft ihright =>
    rw [render, ihleft, ihright, joinTexts_append _ hleft.ne_nil hright.ne_nil]

/-- An intersection of names is a type that its text determines. -/
theorem canonical_inter {names names' : List String} (h : Conjuncts left names)
    (h' : Conjuncts right names') :
    Canonical (.inter ((names ++ names').map .name)) := by
  have hlen : 2 ≤ ((names ++ names').map TypeExpr.name).length := by
    have hpos := List.length_pos_iff.mpr h.ne_nil
    have hpos' := List.length_pos_iff.mpr h'.ne_nil
    rw [List.length_map, List.length_append]
    omega
  have hwhole : ∀ name ∈ names ++ names', Whole (.ident name) := (h.inter h').whole
  refine .inter hlen (fun m hm => ?_) (fun m hm => ?_) fun m hm => ?_
  · obtain ⟨name, hname, rfl⟩ := List.mem_map.mp hm
    exact .name (Or.inl (hwhole name hname))
  · obtain ⟨name, -, rfl⟩ := List.mem_map.mp hm
    rfl
  · obtain ⟨name, hname, rfl⟩ := List.mem_map.mp (List.mem_of_mem_tail hm)
    have htokens : (TypeExpr.name name).tokens = [.ident name] :=
      tokens_of_spells (spells_name (hwhole name hname))
    rw [htokens]
    simp

theorem render_inter {names names' : List String} (h : Conjuncts left names)
    (h' : Conjuncts right names') :
    (Hint.inter left right).render = (TypeExpr.inter ((names ++ names').map .name)).render := by
  have hnames : ((names ++ names').map TypeExpr.name).map TypeExpr.render = names ++ names' := by
    rw [List.map_map]
    exact List.map_id _
  rw [(h.inter h').render_eq, TypeExpr.render, renderAll_eq_map, hnames]

/-! ## Unions -/

theorem Alternatives.canonical {types : List TypeExpr} (h : Alternatives hint types) :
    ∀ t ∈ types, Canonical t := by
  induction h with
  | named htext =>
    rw [List.forall_mem_singleton]
    exact .name (Or.inl htext)
  | parens hleft hright =>
    rw [List.forall_mem_singleton]
    exact canonical_inter hleft hright
  | union _ _ ihleft ihright => exact List.forall_mem_append.mpr ⟨ihleft, ihright⟩

theorem Alternatives.ne_nil {types : List TypeExpr} (h : Alternatives hint types) :
    types ≠ [] := by
  induction h with
  | named => simp
  | parens => simp
  | union _ _ ihleft _ => simp [ihleft]

theorem Alternatives.render_eq {types : List TypeExpr} (h : Alternatives hint types) :
    hint.render = joinTexts "|" (types.map memberText) := by
  induction h with
  | named => rfl
  | parens hleft hright =>
    rw [render, render_inter hleft hright]
    rfl
  | union hleft hright ihleft ihright =>
    rw [render, ihleft, ihright, List.map_append,
      joinTexts_append _ (by simpa using hleft.ne_nil) (by simpa using hright.ne_nil)]

/-! ## Every native type -/

/-- A native type with the text of a canonical type is read as that type. -/
theorem parse_of_render_eq {t : TypeExpr} (h : Canonical t) (htext : hint.render = t.render) :
    parse hint.render = .ok t := by
  rw [htext]
  exact parse_of_reads (printed h) fun depth hdepth =>
    (readable h).union depth hdepth (follows_nil _)

/--
**A native type is read as the type it writes**: a name, a nullable name, the intersection of the
names in order, or the union of the alternatives in order, however its nodes are nested.
-/
theorem type?_of_writes {t : TypeExpr} (h : Writes hint t) : hint.type? = some t := by
  have hparse : parse hint.render = .ok t := by
    cases h with
    | named htext => exact parse_of_render_eq (.name (Or.inl htext)) rfl
    | nullable htext => exact parse_of_render_eq (.nullable (.name (Or.inl htext)) rfl) rfl
    | inter hleft hright =>
      exact parse_of_render_eq (canonical_inter hleft hright) (render_inter hleft hright)
    | @union left right types types' hleft hright =>
      have hall := hleft.union hright
      have hlen : 2 ≤ (types ++ types').length := by
        have hpos := List.length_pos_iff.mpr hleft.ne_nil
        have hpos' := List.length_pos_iff.mpr hright.ne_nil
        rw [List.length_append]
        omega
      rw [hall.render_eq]
      exact parse_members hlen hall.canonical
  rw [type?, hparse]
  rfl

/-- `(A&\B\C&is)|null|(callable&D)`, nested to both sides, is the union of three alternatives. -/
theorem type?_of_writes_nested :
    let first : Hint := .parens (.inter (.inter (.named "A") (.named "\\B\\C")) (.named "is"))
    let last : Hint := .parens (.inter (.named "callable") (.named "D"))
    let hint : Hint := .union first (.union (.named "null") last)
    hint.render = "(A&\\B\\C&is)|null|(callable&D)" ∧
      hint.type? = some (.union [.inter [.name "A", .name "\\B\\C", .name "is"], .name "null",
        .inter [.name "callable", .name "D"]]) := by
  intro first last hint
  have hwhole : ∀ text ∈ ["A", "\\B\\C", "is", "null", "callable", "D"],
      Whole (.ident text) := by decide
  have hname : ∀ text ∈ ["A", "\\B\\C", "is", "null", "callable", "D"],
      Conjuncts (.named text) [text] :=
    fun text htext => .named (hwhole text htext)
  have hfirst : Alternatives first [.inter [.name "A", .name "\\B\\C", .name "is"]] :=
    .parens (.inter (hname "A" (by decide)) (hname "\\B\\C" (by decide))) (hname "is" (by decide))
  have hlast : Alternatives last [.inter [.name "callable", .name "D"]] :=
    .parens (hname "callable" (by decide)) (hname "D" (by decide))
  refine ⟨by decide,
    type?_of_writes (.union hfirst (.union (.named (hwhole "null" (by decide))) hlast))⟩

end Source.Hint

end ClassDocs
