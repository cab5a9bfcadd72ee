import ClassDocs.Proofs.TypeTokens

/-!
# Types whose text is read back

The text of a type does not tell every two types apart: a union inside a union is written like one
long union, the type of a nullable array like that of an array of nullables, and a conditional type
as a union. A type is `Canonical` if nothing of the kind occurs in it. The text of a canonical type
then consists of the texts of its parts, and no token runs from one part into the next: `tokens` of
a type are given here in terms of those of its parts, one equation for each form a type can have.
-/

namespace ClassDocs.TypeExpr

open ClassDocs.Text

/-- The tokens of the text of a type. -/
def tokens (t : TypeExpr) : List Token := tokensOf t.render.toList

/-- Whether the type is a union. -/
def isUnion : TypeExpr → Bool
  | .union _ => true
  | _ => false

/-- Whether a `[]` behind the type would be taken for a part of it. -/
def isOpenEnded : TypeExpr → Bool
  | .nullable _ | .callable _ _ (some _) => true
  | _ => false

/-- A field without a key is always there, and a key is one name or one number. -/
def PlainField : ShapeField → Prop
  | .mk none optional _ => optional = false
  | .mk (some key) _ _ => Whole (.ident key) ∨ Whole (.number key)

/-- The types that their texts determine. -/
inductive Canonical : TypeExpr → Prop where
  | name {text : String} : Whole (.ident text) ∨ text = "$this" → Canonical (.name text)
  | quoted {written : String} : isQuoted written = true → Canonical (.literal (.text written))
  | int {written : String} :
      Whole (.number written) → '.' ∉ written.toList → Canonical (.literal (.int written))
  | float {written : String} :
      Whole (.number written) → '.' ∈ written.toList → Canonical (.literal (.float written))
  | nullable {inner : TypeExpr} :
      Canonical inner → inner.isCompound = false → Canonical (.nullable inner)
  | union {members : List TypeExpr} : 2 ≤ members.length → (∀ m ∈ members, Canonical m) →
      (∀ m ∈ members, m.isUnion = false) → Canonical (.union members)
  | inter {members : List TypeExpr} : 2 ≤ members.length → (∀ m ∈ members, Canonical m) →
      (∀ m ∈ members, m.isCompound = false) →
      -- an `&` before a variable marks a parameter that is passed by reference
      (∀ m ∈ members.tail, m.tokens.head? ≠ some (.variable "$this")) → Canonical (.inter members)
  | array {element : TypeExpr} :
      Canonical element → element.isOpenEnded = false → Canonical (.array element)
  | generic {base : String} {params : List TypeExpr} :
      Whole (.ident base) → (∀ p ∈ params, Canonical p) →
      (∀ p ∈ params, ∀ word ∈ ["covariant", "contravariant"],
        p.tokens.head? = some (.ident word) → p = .name word) → Canonical (.generic base params)
  | shape {base : String} {fields : List ShapeField} : lower base ∈ shapeBases →
      (∀ f ∈ fields, Canonical f.value) → (∀ f ∈ fields, PlainField f) →
        Canonical (.shape base fields)
  | callable {base : String} {params : List TypeExpr} {result : Option TypeExpr} :
      lower base ∈ callableBases →
      (∀ p ∈ params, Canonical p) → (∀ r ∈ result, Canonical r) →
        (∀ r ∈ result, r.isCompound = false) →
      Canonical (.callable base params result)

/-! ## The tokens of lists -/

/-- Tokens of several parts with a punctuation mark between them. -/
def joinTokens (c : Char) : List (List Token) → List Token
  | [] => []
  | part :: parts => part ++ parts.flatMap (Token.punct c :: ·)

/-- A separator is read as the one mark `c`, and no token runs into it. -/
structure Separator (sep : String) (c : Char) : Prop where
  spells : ∀ {text : List Char} {toks : List Token}, Spells text toks →
    Spells (sep.toList ++ text) (.punct c :: toks)
  stops : ∀ rest, Stops (sep.toList ++ rest)

theorem separator_bar : Separator "|" '|' :=
  ⟨Spells.punct (by decide), stops_cons (by decide)⟩

theorem separator_ampersand : Separator "&" '&' :=
  ⟨Spells.punct (by decide), stops_cons (by decide)⟩

theorem separator_comma : Separator ", " ',' :=
  ⟨fun h => Spells.punct (by decide) h.blank, fun rest => stops_cons (by decide) (' ' :: rest)⟩

theorem Separator.spells_join {sep : String} {c : Char} (hsep : Separator sep c) {α : Type}
    {text : α → String} {toks : α → List Token} {parts : List α}
    (h : ∀ x ∈ parts, Spells (text x).toList (toks x)) :
    Spells (joinTexts sep (parts.map text)).toList (joinTokens c (parts.map toks)) := by
  match parts with
  | [] => exact spells_nil
  | [x] =>
    simp only [List.map_cons, List.map_nil, joinTexts, joinTokens, List.flatMap_nil,
      List.append_nil]
    exact h x (by simp)
  | x :: y :: parts =>
    have hx := h x (by simp)
    have hparts : ∀ z ∈ y :: parts, Spells (text z).toList (toks z) :=
      fun z hz => h z (List.mem_cons_of_mem x hz)
    have hrest := hsep.spells_join hparts
    simp only [List.map_cons, joinTexts, joinTokens, List.flatMap_cons, String.toList_append,
      List.append_assoc] at hrest ⊢
    refine hx.append (hsep.spells hrest) fun rest _ => ?_
    rw [List.append_assoc]
    exact hsep.stops _

/-! ## The tokens of each form -/

/-- The text of the type keeps its tokens, whatever it is followed by. -/
def Printed (t : TypeExpr) : Prop := Spells t.render.toList t.tokens

theorem tokens_of_spells {t : TypeExpr} {toks : List Token} (h : Spells t.render.toList toks) :
    t.tokens = toks :=
  h.tokensOf_eq

theorem printed_of_spells {t : TypeExpr} {toks : List Token} (h : Spells t.render.toList toks) :
    Printed t := by
  rw [Printed, tokens_of_spells h]
  exact h

/-- The token of a key. -/
def keyToken (key : String) : Token := if Whole (.ident key) then .ident key else .number key

/-- What stands before the type of a field. -/
def labelTokens : Option String → Bool → List Token
  | none, _ => []
  | some key, true => [keyToken key, .punct '?', .punct ':']
  | some key, false => [keyToken key, .punct ':']

def fieldTokens (f : ShapeField) : List Token := labelTokens f.key f.optional ++ f.value.tokens

def resultTokens : Option TypeExpr → List Token
  | none => []
  | some t => .punct ':' :: t.tokens

theorem spells_name {text : String} (h : Whole (.ident text)) : Spells text.toList [.ident text] :=
  h.spells nofun

theorem spells_number {text : String} (h : Whole (.number text)) :
    Spells text.toList [.number text] :=
  h.spells nofun

theorem spells_this : Spells "$this".toList [.variable "$this"] := by
  have h : Whole (.variable "$this") := by decide
  exact h.spells nofun

theorem spells_nullable {inner : TypeExpr} (h : Printed inner) :
    Spells (TypeExpr.nullable inner).render.toList (.punct '?' :: inner.tokens) := by
  rw [render, String.toList_append]
  exact h.punct (by decide)

theorem spells_union {members : List TypeExpr} (h : ∀ m ∈ members, Printed m) :
    Spells (TypeExpr.union members).render.toList (joinTokens '|' (members.map tokens)) := by
  rw [render, renderAll_eq_map]
  exact separator_bar.spells_join h

theorem spells_inter {members : List TypeExpr} (h : ∀ m ∈ members, Printed m) :
    Spells (TypeExpr.inter members).render.toList (joinTokens '&' (members.map tokens)) := by
  rw [render, renderAll_eq_map]
  exact separator_ampersand.spells_join h

theorem spells_brackets : Spells ['[', ']'] [.punct '[', .punct ']'] :=
  (spells_nil.punct (by decide)).punct (by decide)

theorem spells_array {element : TypeExpr} (h : Printed element) (hc : element.isCompound = false) :
    Spells (TypeExpr.array element).render.toList
      (element.tokens ++ [.punct '[', .punct ']']) := by
  rw [render, hc, if_neg Bool.false_ne_true, String.toList_append]
  exact h.append spells_brackets fun rest _ => stops_cons (by decide) _

theorem spells_array_compound {element : TypeExpr} (h : Printed element)
    (hc : element.isCompound = true) :
    Spells (TypeExpr.array element).render.toList
      (.punct '(' :: (element.tokens ++ [.punct ')', .punct '[', .punct ']'])) := by
  rw [render, hc, if_pos rfl, String.toList_append, String.toList_append, List.append_assoc]
  refine Spells.punct (by decide) (h.append (spells_brackets.punct (by decide)) fun rest _ => ?_)
  exact stops_cons (by decide) _

/-- A name and a list in brackets. -/
theorem spells_enclosed {base body : String} {toks : List Token} (opening closing : Char)
    (hbase : Whole (.ident base)) (hbody : Spells body.toList toks)
    (hopening : isStop opening = true) (hclosing : isStop closing = true) :
    Spells (base.toList ++ opening :: (body.toList ++ [closing]))
      (.ident base :: .punct opening :: (toks ++ [.punct closing])) := by
  have hclose : Spells [closing] [.punct closing] := spells_nil.punct (isPunct_of_isStop hclosing)
  have hinner := hbody.append hclose fun rest _ => stops_cons hclosing _
  exact (spells_name hbase).append (hinner.punct (isPunct_of_isStop hopening)) fun rest _ =>
    stops_cons hopening _

theorem spells_generic {base : String} {params : List TypeExpr} (hbase : Whole (.ident base))
    (h : ∀ p ∈ params, Printed p) :
    Spells (TypeExpr.generic base params).render.toList
      (.ident base :: .punct '<' :: (joinTokens ',' (params.map tokens) ++ [.punct '>'])) := by
  have hbody := separator_comma.spells_join h
  have henclosed := spells_enclosed '<' '>' hbase hbody (by decide) (by decide)
  rw [render, renderAll_eq_map]
  simpa using henclosed

theorem keyToken_cases {key : String} (h : Whole (.ident key) ∨ Whole (.number key)) :
    Spells key.toList [keyToken key] := by
  unfold keyToken
  split
  · rename_i hident
    exact spells_name hident
  · rename_i hident
    exact spells_number (h.resolve_left hident)

theorem spells_label {key : String} (h : Whole (.ident key) ∨ Whole (.number key))
    (optional : Bool) {text : List Char} {toks : List Token} (htext : Spells text toks) :
    Spells ((fieldLabel (some key) optional).toList ++ text)
      (labelTokens (some key) optional ++ toks) := by
  have hcolon : Spells (':' :: ' ' :: text) (.punct ':' :: toks) := htext.blank.punct (by decide)
  cases optional with
  | true =>
    have hall := (keyToken_cases h).append (hcolon.punct (c := '?') (by decide)) fun rest _ =>
      stops_cons (by decide) _
    simpa [fieldLabel, labelTokens] using hall
  | false =>
    have hall := (keyToken_cases h).append hcolon fun rest _ => stops_colon _
    simpa [fieldLabel, labelTokens] using hall

/-- The text of a field. -/
def fieldText (f : ShapeField) : String := fieldLabel f.key f.optional ++ f.value.render

theorem renderFields_eq_map (fields : List ShapeField) :
    renderFields fields = fields.map fieldText := by
  induction fields with
  | nil => rfl
  | cons f fields ih =>
    obtain ⟨key, optional, value⟩ := f
    rw [renderFields, ih]
    rfl

theorem spells_field {f : ShapeField} (hf : PlainField f) (h : Printed f.value) :
    Spells (fieldText f).toList (fieldTokens f) := by
  obtain ⟨key, optional, value⟩ := f
  cases key with
  | none =>
    unfold Printed at h
    simpa [fieldText, fieldTokens, fieldLabel, labelTokens, ShapeField.key] using h
  | some key =>
    rw [fieldText, String.toList_append]
    exact spells_label hf optional h

theorem spells_shape {base : String} {fields : List ShapeField} (hbase : lower base ∈ shapeBases)
    (hfields : ∀ f ∈ fields, PlainField f) (h : ∀ f ∈ fields, Printed f.value) :
    Spells (TypeExpr.shape base fields).render.toList
      (.ident base :: .punct '\x7b' ::
        (joinTokens ',' (fields.map fieldTokens) ++ [.punct '\x7d'])) := by
  have hbody := separator_comma.spells_join fun f hf => spells_field (hfields f hf) (h f hf)
  have hwhole := whole_of_base (List.mem_append_left _ hbase)
  have henclosed := spells_enclosed '\x7b' '\x7d' hwhole hbody (by decide) (by decide)
  rw [render, renderFields_eq_map]
  simpa using henclosed

theorem spells_callable {base : String} {params : List TypeExpr} {result : Option TypeExpr}
    (hbase : lower base ∈ callableBases) (h : ∀ p ∈ params, Printed p)
    (hresult : ∀ r ∈ result, Printed r) :
    Spells (TypeExpr.callable base params result).render.toList
      (.ident base :: .punct '(' ::
        (joinTokens ',' (params.map tokens) ++ .punct ')' :: resultTokens result)) := by
  have hbody := separator_comma.spells_join h
  have hwhole := whole_of_base (List.mem_append_right _ hbase)
  have henclosed := spells_enclosed '(' ')' hwhole hbody (by decide) (by decide)
  rw [render, renderAll_eq_map]
  cases result with
  | none => simpa [renderResult, resultTokens] using henclosed
  | some r =>
    have hr : Spells (':' :: ' ' :: r.render.toList) (.punct ':' :: r.tokens) :=
      (hresult r rfl).blank.punct (by decide)
    have hall := henclosed.append hr fun rest _ => stops_colon _
    simpa [renderResult, resultTokens] using hall

theorem printed {t : TypeExpr} (h : Canonical t) : Printed t := by
  induction h with
  | name h =>
    rcases h with h | rfl
    · exact printed_of_spells (spells_name h)
    · exact printed_of_spells spells_this
  | quoted h => exact printed_of_spells (spells_quoted h)
  | int h _ => exact printed_of_spells (spells_number h)
  | float h _ => exact printed_of_spells (spells_number h)
  | nullable _ _ ih => exact printed_of_spells (spells_nullable ih)
  | union _ _ _ ih => exact printed_of_spells (spells_union ih)
  | inter _ _ _ _ ih => exact printed_of_spells (spells_inter ih)
  | @array element _ _ ih =>
    cases hc : element.isCompound with
    | true => exact printed_of_spells (spells_array_compound ih hc)
    | false => exact printed_of_spells (spells_array ih hc)
  | generic hbase _ _ ih => exact printed_of_spells (spells_generic hbase ih)
  | shape hbase _ hfields ih => exact printed_of_spells (spells_shape hbase hfields ih)
  | callable hbase _ _ _ ih ihresult => exact printed_of_spells (spells_callable hbase ih ihresult)

/-! ## What a type starts with -/

/-- The tokens that a type may start with. -/
def opens : Token → Bool
  | .ident _ | .quoted _ | .number _ => true
  | .variable text => text == "$this"
  | .punct c => c == '?' || c == '('
  | .ellipsis | .other _ => false

/-- The next token is a punctuation mark, and none that could follow the key of a field. -/
def Marked (toks : List Token) : Prop :=
  ∀ next ∈ toks.head?, ∃ c, next = .punct c ∧ c ≠ ':' ∧ c ≠ '?'

/-- Tokens that start like a type: a word is followed by a mark. -/
def Leads : List Token → Prop
  | [] => False
  | tok :: more => opens tok = true ∧ ((∀ c, tok ≠ .punct c) → Marked more)

theorem marked_nil : Marked [] := nofun

theorem marked_cons {c : Char} (hc : c ≠ ':' ∧ c ≠ '?') (more : List Token) :
    Marked (.punct c :: more) := by
  intro next hnext
  obtain rfl : Token.punct c = next := by simpa using hnext
  exact ⟨c, rfl, hc⟩

theorem Leads.append {toks more : List Token} (h : Leads toks) (hmore : Marked more) :
    Leads (toks ++ more) := by
  cases toks with
  | nil => exact absurd h id
  | cons tok toks =>
    refine ⟨h.1, fun hword => ?_⟩
    cases toks with
    | nil => exact hmore
    | cons next toks => exact h.2 hword

theorem leads_join {c : Char} (hc : c ≠ ':' ∧ c ≠ '?') {part : List Token} (h : Leads part)
    (parts : List (List Token)) : Leads (joinTokens c (part :: parts)) := by
  refine h.append ?_
  cases parts with
  | nil => exact marked_nil
  | cons part parts => exact marked_cons hc _

theorem exists_cons_of_two_le {members : List TypeExpr} (h : 2 ≤ members.length) :
    ∃ first second more, members = first :: second :: more := by
  match members with
  | [] | [_] => simp at h
  | first :: second :: more => exact ⟨first, second, more, rfl⟩

theorem leads {t : TypeExpr} (h : Canonical t) : Leads t.tokens := by
  induction h with
  | @name text h =>
    rcases h with h | rfl
    · have htoks : (TypeExpr.name text).tokens = _ := tokens_of_spells (spells_name h)
      rw [htoks]
      exact ⟨rfl, fun _ => marked_nil⟩
    · have htoks : (TypeExpr.name "$this").tokens = _ := tokens_of_spells spells_this
      rw [htoks]
      exact ⟨by decide, fun _ => marked_nil⟩
  | @quoted written h =>
    have htoks : (TypeExpr.literal (.text written)).tokens = _ :=
      tokens_of_spells (spells_quoted h)
    rw [htoks]
    exact ⟨rfl, fun _ => marked_nil⟩
  | @int written h _ =>
    have htoks : (TypeExpr.literal (.int written)).tokens = _ := tokens_of_spells (spells_number h)
    rw [htoks]
    exact ⟨rfl, fun _ => marked_nil⟩
  | @float written h _ =>
    have htoks : (TypeExpr.literal (.float written)).tokens = _ :=
      tokens_of_spells (spells_number h)
    rw [htoks]
    exact ⟨rfl, fun _ => marked_nil⟩
  | nullable h _ _ =>
    rw [tokens_of_spells (spells_nullable (printed h))]
    exact ⟨rfl, fun hword => absurd rfl (hword '?')⟩
  | union hlen h _ ih =>
    obtain ⟨first, second, more, rfl⟩ := exists_cons_of_two_le hlen
    rw [tokens_of_spells (spells_union fun m hm => printed (h m hm))]
    exact leads_join (by decide) (ih first (by simp)) _
  | inter hlen h _ _ ih =>
    obtain ⟨first, second, more, rfl⟩ := exists_cons_of_two_le hlen
    rw [tokens_of_spells (spells_inter fun m hm => printed (h m hm))]
    exact leads_join (by decide) (ih first (by simp)) _
  | @array element h _ ih =>
    cases hc : element.isCompound with
    | true =>
      rw [tokens_of_spells (spells_array_compound (printed h) hc)]
      exact ⟨rfl, fun hword => absurd rfl (hword '(')⟩
    | false =>
      rw [tokens_of_spells (spells_array (printed h) hc)]
      exact ih.append (marked_cons (by decide) _)
  | generic hbase h _ _ =>
    rw [tokens_of_spells (spells_generic hbase fun p hp => printed (h p hp))]
    exact ⟨rfl, fun _ => marked_cons (by decide) _⟩
  | shape hbase h hfields _ =>
    rw [tokens_of_spells (spells_shape hbase hfields fun f hf => printed (h f hf))]
    exact ⟨rfl, fun _ => marked_cons (by decide) _⟩
  | callable hbase h hresult _ _ _ =>
    rw [tokens_of_spells
      (spells_callable hbase (fun p hp => printed (h p hp)) fun r hr => printed (hresult r hr))]
    exact ⟨rfl, fun _ => marked_cons (by decide) _⟩

end ClassDocs.TypeExpr
